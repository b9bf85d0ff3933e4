/-
  Mrv.Primary.Awaiting — the core in front of a full channel (`primary/src/core.rs`,
  `primary/src/synchronizer.rs`).

  `get_parents` and `missing_payload` send to the `HeaderWaiter` in the middle of a
  handler, and the core waits there while the channel is full.  The handlers of
  `Mrv.Primary.Core` are written here once more with these sends as points where they
  may stop; the rest of each is the same, and so is what they do if no send has to wait
  (`refines_handle`).  Over one input of the core at most one header is sent
  (`sends_handle`): a header that is suspended ends its processing.
-/
import Mrv.Primary.Run
import Mrv.Lib.Blocking

namespace Mrv

variable [Crypto]

namespace Core

/-- A handler that may wait at `tx_header_waiter.send`. -/
abbrev Task (α : Type) := Blocking State Fault WaiterMessage α

/-- The channel takes a command. -/
def push (s : State) (message : WaiterMessage) : State :=
  { s with txHeaderWaiter := s.txHeaderWaiter ++ [message] }

namespace Awaiting

variable (self : Core)

/-! ## §1. The handlers. -/

def getParents (header : Header) : Task (List Certificate) := do
  let s ← .lift get
  let (parents, missing) ←
    .lift (.ofExcept Fault.error (self.findParents s.store header.parents.toList))
  if missing = [] then pure parents
  else do
    .send (.syncParents missing header)
    pure []

def missingPayload (header : Header) : Task Bool :=
  if header.author = self.name then pure false
  else do
    let s ← .lift get
    if missingBatches s.store header = [] then pure false
    else do
      .send (.syncBatches (missingBatches s.store header) header)
      pure true

def voteWith (processVote : Vote → Task Unit) (header : Header) : Task Unit := do
  let fresh ← .lift (takeVote header)
  if fresh = true then do
    let vote ← .lift (self.createVote header)
    if vote.origin = self.name then .expect (processVote vote) (.expected .ownVote)
    else .lift (self.sendVote header vote)
  else pure ()

def processHeaderWith (processVote : Vote → Task Unit) (header : Header) : Task Unit := do
  .lift (markProcessing header)
  let parents ← getParents self header
  if parents = [] then pure ()
  else do
    let stake ← .lift (.ofExcept Fault.error (self.checkParents header parents 0))
    .lift (.ofExcept Fault.error
      (ensure (decide (self.committee.quorumThreshold ≤ stake)) (.headerRequiresQuorum header.id)))
    let missing ← missingPayload self header
    if missing = true then pure ()
    else do
      .lift (write header.id.toVec (.header header))
      voteWith self processVote header

def processVoteWith (processCertificate : Certificate → Task Unit) (vote : Vote) : Task Unit := do
  let assembled ← .lift (self.appendVote vote)
  match assembled with
  | none => pure ()
  | some certificate => do
      .lift (Core.send self.others (.certificate certificate))
      .expect (processCertificate certificate) (.expected .validCertificate)

def embeddedHeaderWith (processHeader : Header → Task Unit) (certificate : Certificate) :
    Task Unit := do
  let s ← .lift get
  if certificate.header.id ∈ s.inProcess certificate.header.round then pure ()
  else processHeader certificate.header

def processCertificateWith (processHeader : Header → Task Unit) (certificate : Certificate) :
    Task Unit := do
  embeddedHeaderWith processHeader certificate
  let delivered ← .lift (self.deliverCertificate certificate)
  if delivered = true then .lift (self.acceptCertificate certificate) else pure ()

def processHeader : ℕ → Header → Task Unit
  | 0, _ => .lift (throw (.panic .outOfFuel))
  | depth + 1, header =>
      processHeaderWith self
        (processVoteWith self (processCertificateWith self (processHeader depth))) header

def processCertificate (certificate : Certificate) : Task Unit :=
  processCertificateWith self (processHeader self depth) certificate

def processVote (vote : Vote) : Task Unit :=
  processVoteWith self (processCertificate self) vote

def processOwnHeader (header : Header) : Task Unit := do
  .lift (modify (fun s => { s with currentHeader := header, votesAggregator := .new }))
  .lift (Core.send self.others (.header header))
  processHeader self depth header

def handleMessage (message : PrimaryMessage) : Task Unit := do
  let s ← .lift get
  match message with
  | .header header => do
      .lift (.ofExcept Fault.error (self.sanitizeHeader s header))
      processHeader self depth header
  | .vote vote => do
      .lift (.ofExcept Fault.error (self.sanitizeVote s vote))
      processVote self vote
  | .certificate certificate => do
      .lift (.ofExcept Fault.error (self.sanitizeCertificate s certificate))
      processCertificate self certificate

def handle : Input → Task Unit
  | .message message => handleMessage self message
  | .loopbackHeader header => processHeader self depth header
  | .loopbackCertificate certificate => processCertificate self certificate
  | .ownHeader header => processOwnHeader self header

/-! ## §2. A core that is never kept waiting. -/

section

open Mrv.Blocking (Refines)

variable {self}

theorem refines_getParents (header : Header) :
    Refines push (getParents self header) (self.getParents header) := by
  refine (Refines.lift _).bind fun s => ?_
  refine (Refines.lift _).bind fun result => ?_
  obtain ⟨parents, missing⟩ := result
  refine (Refines.pure _).ite ?_
  exact (Refines.send fun _ => rfl).bind fun _ => Refines.pure _

omit [Crypto] in
theorem refines_missingPayload (header : Header) :
    Refines push (missingPayload self header) (self.missingPayload header) := by
  refine (Refines.pure _).ite ?_
  refine (Refines.lift _).bind fun s => ?_
  refine (Refines.pure _).ite ?_
  exact (Refines.send fun _ => rfl).bind fun _ => Refines.pure _

theorem refines_voteWith {processVote : Vote → Task Unit} {processVote' : Vote → Handler Unit}
    (hvote : ∀ vote, Refines push (processVote vote) (processVote' vote)) (header : Header) :
    Refines push (voteWith self processVote header) (self.voteWith processVote' header) := by
  refine (Refines.lift _).bind fun fresh => ?_
  refine Refines.ite ?_ (Refines.pure _)
  refine (Refines.lift _).bind fun vote => ?_
  exact ((hvote vote).expect _).ite (Refines.lift _)

theorem refines_processHeaderWith {processVote : Vote → Task Unit}
    {processVote' : Vote → Handler Unit}
    (hvote : ∀ vote, Refines push (processVote vote) (processVote' vote)) (header : Header) :
    Refines push (processHeaderWith self processVote header)
      (self.processHeaderWith processVote' header) := by
  refine (Refines.lift _).bind fun _ => ?_
  refine (refines_getParents header).bind fun parents => ?_
  refine (Refines.pure _).ite ?_
  refine (Refines.lift _).bind fun stake => ?_
  refine (Refines.lift _).bind fun _ => ?_
  refine (refines_missingPayload header).bind fun missing => ?_
  refine (Refines.pure _).ite ?_
  exact (Refines.lift _).bind fun _ => refines_voteWith hvote header

omit [Crypto] in
theorem refines_processVoteWith {processCertificate : Certificate → Task Unit}
    {processCertificate' : Certificate → Handler Unit}
    (hcertificate : ∀ c, Refines push (processCertificate c) (processCertificate' c))
    (vote : Vote) :
    Refines push (processVoteWith self processCertificate vote)
      (self.processVoteWith processCertificate' vote) := by
  refine (Refines.lift _).bind fun assembled => ?_
  cases assembled with
  | none => exact Refines.pure _
  | some certificate =>
      exact (Refines.lift _).bind fun _ => (hcertificate certificate).expect _

theorem refines_processCertificateWith {processHeader : Header → Task Unit}
    {processHeader' : Header → Handler Unit}
    (hheader : ∀ h, Refines push (processHeader h) (processHeader' h))
    (certificate : Certificate) :
    Refines push (processCertificateWith self processHeader certificate)
      (self.processCertificateWith processHeader' certificate) := by
  have hembedded : Refines push (embeddedHeaderWith processHeader certificate)
      (Core.embeddedHeaderWith processHeader' certificate) :=
    (Refines.lift _).bind fun s => (Refines.pure _).ite (hheader _)
  refine hembedded.bind fun _ => ?_
  refine (Refines.lift _).bind fun delivered => ?_
  exact (Refines.lift _).ite (Refines.pure _)

theorem refines_processHeader (depth : ℕ) (header : Header) :
    Refines push (processHeader self depth header) (self.processHeader depth header) := by
  induction depth generalizing header with
  | zero => exact Refines.lift _
  | succ depth ih =>
      refine refines_processHeaderWith (fun vote => ?_) header
      exact refines_processVoteWith (refines_processCertificateWith ih) vote

theorem refines_processCertificate (certificate : Certificate) :
    Refines push (processCertificate self certificate) (self.processCertificate certificate) :=
  refines_processCertificateWith (refines_processHeader depth) certificate

/-- **With room in the channel** the core does what the handlers say. -/
theorem refines_handle (input : Input) : Refines push (handle self input) (self.handle input) := by
  cases input with
  | message message =>
      refine (Refines.lift _).bind fun s => ?_
      cases message with
      | header header => exact (Refines.lift _).bind fun _ => refines_processHeader depth header
      | vote vote =>
          refine (Refines.lift _).bind fun _ => ?_
          exact refines_processVoteWith refines_processCertificate vote
      | certificate certificate =>
          exact (Refines.lift _).bind fun _ => refines_processCertificate certificate
  | loopbackHeader header => exact refines_processHeader depth header
  | loopbackCertificate certificate => exact refines_processCertificate certificate
  | ownHeader header =>
      refine (Refines.lift _).bind fun _ => ?_
      exact (Refines.lift _).bind fun _ => refines_processHeader depth header

end

/-! ## §3. At most one header is suspended. -/

section

open Mrv.Blocking (Sends)
open Mrv.Handler (Keeps Triple)

/-- The commands in the channel. -/
def size (s : State) : ℕ := s.txHeaderWaiter.length

omit [Crypto] in
theorem size_push (s : State) (message : WaiterMessage) : size (push s message) = size s + 1 := by
  unfold size push
  rw [List.length_append]
  rfl

variable {self} {k : ℕ}

omit [Crypto] in
theorem keeps_appendVote (vote : Vote) :
    Keeps (fun s => size s = k) (self.appendVote vote) :=
  Keeps.bind (Triple.modifyGet fun _ hs => hs) fun _ => Keeps.ofExcept

theorem keeps_deliverCertificate (certificate : Certificate) :
    Keeps (fun s => size s = k) (self.deliverCertificate certificate) := by
  refine Keeps.bind Keeps.get fun s => ?_
  refine Keeps.ite (Keeps.pure _) ?_
  exact Keeps.bind (Triple.modify fun _ hs => hs) fun _ => Keeps.pure _

theorem keeps_acceptCertificate (certificate : Certificate) :
    Keeps (fun s => size s = k) (self.acceptCertificate certificate) := by
  refine Keeps.bind (Triple.modify fun _ hs => hs) fun _ => ?_
  refine Keeps.bind (Triple.modifyGet fun _ hs => hs) fun quorum => ?_
  refine Keeps.bind ?_ fun _ => Triple.modify fun _ hs => hs
  cases quorum with
  | none => exact Keeps.pure _
  | some parents => exact Triple.modify fun _ hs => hs

omit [Crypto] in
theorem keeps_sendVote (header : Header) (vote : Vote) :
    Keeps (fun s => size s = k) (self.sendVote header vote) := by
  unfold Core.sendVote
  split
  · exact Triple.modify fun _ hs => hs
  · exact Keeps.throw _

/-- A command that is sent ends the processing of the header: no parents are returned. -/
theorem sends_getParents (header : Header) :
    Sends size (fun n parents => parents = [] ∨ n = 1) 1 (getParents self header) := by
  refine Sends.lift_bind (fun _ => Keeps.get) fun s => ?_
  refine Sends.lift_bind (fun _ => Keeps.ofExcept) fun result => ?_
  obtain ⟨parents, missing⟩ := result
  refine Sends.ite (fun _ => Sends.pure (Or.inr rfl)) fun _ => ?_
  refine (Sends.send (Q := fun _ _ => True) Nat.one_pos trivial).bind fun n _ _ => ?_
  exact Sends.pure (Or.inl rfl)

omit [Crypto] in
theorem sends_missingPayload (header : Header) :
    Sends size (fun n missing => missing = true ∨ n = 1) 1 (missingPayload self header) := by
  refine Sends.ite (fun _ => Sends.pure (Or.inr rfl)) fun _ => ?_
  refine Sends.lift_bind (fun _ => Keeps.get) fun s => ?_
  refine Sends.ite (fun _ => Sends.pure (Or.inr rfl)) fun _ => ?_
  refine (Sends.send (Q := fun _ _ => True) Nat.one_pos trivial).bind fun n _ _ => ?_
  exact Sends.pure (Or.inl rfl)

/-- Nothing is claimed of the result. -/
abbrev Any {α : Type} : ℕ → α → Prop := fun _ _ => True

theorem sends_voteWith {processVote : Vote → Task Unit}
    (hvote : ∀ vote, Sends size Any 1 (processVote vote)) (header : Header) :
    Sends size Any 1 (voteWith self processVote header) := by
  refine Sends.lift_bind (fun _ => Triple.modifyGet fun _ hs => hs) fun fresh => ?_
  refine Sends.ite (fun _ => ?_) fun _ => Sends.pure trivial
  refine Sends.lift_bind (fun _ => Triple.modifyGet fun _ hs => hs) fun vote => ?_
  refine Sends.ite (fun _ => (hvote vote).expect _) fun _ => ?_
  exact Sends.lift (fun _ => keeps_sendVote header vote) fun _ => trivial

theorem sends_processHeaderWith {processVote : Vote → Task Unit}
    (hvote : ∀ vote, Sends size Any 1 (processVote vote)) (header : Header) :
    Sends size Any 1 (processHeaderWith self processVote header) := by
  refine Sends.lift_bind (fun _ => Triple.modify fun _ hs => hs) fun _ => ?_
  refine (sends_getParents header).bind fun n parents hparents => ?_
  refine Sends.ite (fun _ => Sends.pure trivial) fun hne => ?_
  -- the parents are there, so `get_parents` has sent nothing
  obtain rfl := hparents.resolve_left hne
  refine Sends.lift_bind (fun _ => Keeps.ofExcept) fun stake => ?_
  refine Sends.lift_bind (fun _ => Keeps.ofExcept) fun _ => ?_
  refine (sends_missingPayload header).bind fun n missing hmissing => ?_
  refine Sends.ite (fun _ => Sends.pure trivial) fun hne => ?_
  -- nor has `missing_payload`, or the header would stop here
  obtain rfl := hmissing.resolve_left hne
  refine Sends.lift_bind (fun _ => Triple.modify fun _ hs => hs) fun _ => ?_
  exact sends_voteWith hvote header

omit [Crypto] in
theorem sends_processVoteWith {processCertificate : Certificate → Task Unit}
    (hcertificate : ∀ c, Sends size Any 1 (processCertificate c)) (vote : Vote) :
    Sends size Any 1 (processVoteWith self processCertificate vote) := by
  refine Sends.lift_bind (fun _ => keeps_appendVote vote) fun assembled => ?_
  cases assembled with
  | none => exact Sends.pure trivial
  | some certificate =>
      refine Sends.lift_bind (fun _ => Triple.modify fun _ hs => hs) fun _ => ?_
      exact (hcertificate certificate).expect _

theorem sends_processCertificateWith {processHeader : Header → Task Unit}
    (hheader : ∀ h, Sends size Any 1 (processHeader h)) (certificate : Certificate) :
    Sends size Any 1 (processCertificateWith self processHeader certificate) := by
  have hembedded : Sends size Any 1 (embeddedHeaderWith processHeader certificate) := by
    refine Sends.lift_bind (fun _ => Keeps.get) fun s => ?_
    exact Sends.ite (fun _ => Sends.pure trivial) fun _ => hheader _
  refine hembedded.bind fun n _ _ => ?_
  refine Sends.lift_bind (fun _ => keeps_deliverCertificate certificate) fun delivered => ?_
  refine Sends.ite (fun _ => ?_) fun _ => Sends.pure trivial
  exact Sends.lift (fun _ => keeps_acceptCertificate certificate) fun _ => trivial

theorem sends_processHeader (depth : ℕ) (header : Header) :
    Sends size Any 1 (processHeader self depth header) := by
  induction depth generalizing header with
  | zero => exact Sends.lift (fun _ => Keeps.throw _) fun _ => trivial
  | succ depth ih =>
      -- the vote for the header may complete a certificate, whose header is processed in turn
      refine sends_processHeaderWith (fun vote => ?_) header
      exact sends_processVoteWith (sends_processCertificateWith ih) vote

theorem sends_processCertificate (certificate : Certificate) :
    Sends size Any 1 (processCertificate self certificate) :=
  sends_processCertificateWith (sends_processHeader depth) certificate

/-- **One input suspends at most one header.** -/
theorem sends_handle (input : Input) : Sends size Any 1 (handle self input) := by
  cases input with
  | message message =>
      refine Sends.lift_bind (fun _ => Keeps.get) fun s => ?_
      cases message with
      | header header =>
          refine Sends.lift_bind (fun _ => Keeps.ofExcept) fun _ => ?_
          exact sends_processHeader depth header
      | vote vote =>
          refine Sends.lift_bind (fun _ => Keeps.ofExcept) fun _ => ?_
          exact sends_processVoteWith sends_processCertificate vote
      | certificate certificate =>
          refine Sends.lift_bind (fun _ => Keeps.ofExcept) fun _ => ?_
          exact sends_processCertificate certificate
  | loopbackHeader header => exact sends_processHeader depth header
  | loopbackCertificate certificate => exact sends_processCertificate certificate
  | ownHeader header =>
      refine Sends.lift_bind (fun _ => Triple.modify fun _ hs => hs) fun _ => ?_
      refine Sends.lift_bind (fun _ => Triple.modify fun _ hs => hs) fun _ => ?_
      exact sends_processHeader depth header

end

end Awaiting

end Core

end Mrv
