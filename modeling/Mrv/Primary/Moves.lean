/-
  Mrv.Primary.Moves — what the handlers of the core do, move by move.

  Every handler is made of a few moves: a header is marked, stored, suspended or voted
  for, a vote is counted, a certificate is suspended or accepted, a message is sent.
  `Moves` says what a property needs of each of them, and its lemmas carry the
  property through all handlers, however they are nested.

  The rule of `Primary.Handlers` looks at headers only.  This one follows the
  certificates and the votes too: `H`, `C` and `W` are the headers, certificates and
  votes that the handlers may come across, and a vote of `W` may only complete a
  certificate of `C`.

    * `Moves.handle` — a property kept by the moves is kept by every handler,
    * `Carries`      — what is on its way through the waiters stays in the sets,
    * `Extends`      — what was sent or voted for is never taken back.
-/
import Mrv.Primary.Growth
import Mrv.Primary.Run

namespace Mrv

namespace Core

variable [Crypto]

open Mrv.Handler (Triple Keeps)

/-! ## §1. The moves. -/

/-- What sending messages leaves alone. -/
structure Frame (s s' : State) : Prop where
  gcRound : s'.gcRound = s.gcRound
  lastVoted : s'.lastVoted = s.lastVoted
  currentHeader : s'.currentHeader = s.currentHeader
  votesAggregator : s'.votesAggregator = s.votesAggregator
  certificatesAggregators : s'.certificatesAggregators = s.certificatesAggregators
  store : s'.store = s.store
  txHeaderWaiter : s'.txHeaderWaiter = s.txHeaderWaiter
  txCertificateWaiter : s'.txCertificateWaiter = s.txCertificateWaiter
  txProposer : s'.txProposer = s.txProposer
  txConsensus : s'.txConsensus = s.txConsensus
  cast : s'.cast = s.cast
  processing : s'.processing = s.processing

/-- A header is marked as being processed. -/
def marked (h : Header) (s : State) : State :=
  { s with processing := s.processing.insert h.round (insert h.id (s.inProcess h.round)) }

/-- The vote of a header's slot is taken. -/
def spent (h : Header) (s : State) : State :=
  { s with lastVoted := s.lastVoted.insert h.round (insert h.author (s.voted h.round)) }

/-- A vote for a header is made. -/
def polled (core : Core) (h : Header) (s : State) : State :=
  { spent h s with cast := s.cast ++ [core.castNow h s] }

/-- A header passed the checks on its parents. -/
def Passed (core : Core) (h : Header) : Prop := ∃ store, core.Passes store h

/-- What a property needs in order to be kept by every handler that comes across
headers of `H`, certificates of `C` and votes of `W`. -/
structure Moves (core : Core) (H : Set Header) (C : Set Certificate) (W : Set Vote)
    (I : State → Prop) : Prop where
  frame : ∀ s s', Frame s s' → I s → I s'
  mark : ∀ h ∈ H, ∀ s, I s → I (marked h s)
  /-- A header is stored. -/
  header : ∀ h ∈ H, ∀ s, I s → I { s with store := s.store.insert h.id.toVec (.header h) }
  /-- A header is suspended: ours only for want of a parent. -/
  sync : ∀ m s, m.header ∈ H →
    (m.header.author = core.name → ¬ core.HasParents s.store m.header) → I s →
    I { s with txHeaderWaiter := s.txHeaderWaiter ++ [m] }
  /-- A header passed the checks: its vote is taken and, if it was there to be taken, made. -/
  vote : ∀ h ∈ H, core.Passed h → ∀ s, I s → I (spent h s) ∧
    (h.author ∉ s.voted h.round → I (core.polled h s) ∧
      (h.author = core.name → Vote.new h core.name ∈ W))
  /-- A vote is counted. -/
  tally : ∀ v ∈ W, ∀ s, I s →
    I { s with votesAggregator := (s.votesAggregator.append v core.committee s.currentHeader).2 } ∧
      ∀ c, (s.votesAggregator.append v core.committee s.currentHeader).1 = .ok (some c) → c ∈ C
  embedded : ∀ c ∈ C, c.header ∈ H
  /-- A certificate is suspended for want of a parent. -/
  suspend : ∀ c ∈ C, ∀ s, ¬ core.HasParents s.store c.header → I s →
    I { s with txCertificateWaiter := s.txCertificateWaiter ++ [c] }
  /-- A certificate is accepted. -/
  accept : ∀ c ∈ C, ∀ s, core.HasParents s.store c.header → I s →
    I ((core.acceptCertificate c).exec s).2

/-- What the core may be given, from a state with the property. -/
def Moves.Admits (core : Core) (H : Set Header) (C : Set Certificate) (W : Set Vote)
    (I : State → Prop) (s : State) : Input → Prop
  | .message (.header h) => I s ∧ (core.sanitizeHeader s h = .ok () → h ∈ H)
  | .message (.vote v) => I s ∧ (core.sanitizeVote s v = .ok () → v ∈ W)
  | .message (.certificate c) => I s ∧ (core.sanitizeCertificate s c = .ok () → c ∈ C)
  | .loopbackHeader h => I s ∧ h ∈ H
  | .loopbackCertificate c => I s ∧ c ∈ C
  | .ownHeader h => I { s with currentHeader := h, votesAggregator := .new } ∧ h ∈ H

variable {self : Core} {H : Set Header} {C : Set Certificate} {W : Set Vote} {I : State → Prop}
  {header : Header} {certificate : Certificate} {vote : Vote}

theorem Moves.Admits.mono {H' : Set Header} {C' : Set Certificate} {W' : Set Vote}
    {I' : State → Prop} {s : State} {input : Input} (h : Admits self H C W I s input)
    (hH : H ⊆ H') (hC : C ⊆ C') (hW : W ⊆ W') (hI : ∀ t, I t → I' t) :
    Admits self H' C' W' I' s input := by
  cases input with
  | message message =>
      cases message with
      | header x => exact ⟨hI _ h.1, fun hok => hH (h.2 hok)⟩
      | vote v => exact ⟨hI _ h.1, fun hok => hW (h.2 hok)⟩
      | certificate c => exact ⟨hI _ h.1, fun hok => hC (h.2 hok)⟩
  | loopbackHeader x => exact ⟨hI _ h.1, hH h.2⟩
  | loopbackCertificate c => exact ⟨hI _ h.1, hC h.2⟩
  | ownHeader x => exact ⟨hI _ h.1, hH h.2⟩

/-- Votes and headers of ours aside, another property and other votes may be meant. -/
theorem Moves.Admits.aside {V : Set Vote} {I' : State → Prop} {s : State} {input : Input}
    (h : Admits self H C W I s input) (hI : I' s) (hvote : ∀ v, input ≠ .message (.vote v))
    (hown : ∀ x, input ≠ .ownHeader x) : Admits self H C V I' s input := by
  cases input with
  | message message =>
      cases message with
      | header x => exact ⟨hI, h.2⟩
      | vote v => exact absurd rfl (hvote v)
      | certificate c => exact ⟨hI, h.2⟩
  | loopbackHeader x => exact ⟨hI, h.2⟩
  | loopbackCertificate c => exact ⟨hI, h.2⟩
  | ownHeader x => exact absurd rfl (hown x)

omit [Crypto] in
theorem frame_send (addresses : List SocketAddr) (message : PrimaryMessage) (s : State) :
    Frame s { s with network := s.network ++ [(addresses, message)] } :=
  ⟨rfl, rfl, rfl, rfl, rfl, rfl, rfl, rfl, rfl, rfl, rfl, rfl⟩

omit [Crypto] in
/-- A handler after a check on the state it starts in. -/
theorem checked_spec {s : State} {r : Except DagError Unit} {x : Handler Unit} (hI : I s)
    (hx : r = .ok () → Keeps I x) :
    Triple (fun t => t = s) (Mrv.Handler.ofExcept Fault.error r >>= fun _ => x)
      (fun _ t => I t) (fun _ t => I t) := by
  refine Triple.bind (Q := fun _ t => t = s ∧ r = .ok ())
    (Triple.ofExcept (fun _ hr t ht => ⟨ht, hr⟩) fun _ t ht => ht ▸ hI) fun _ => ?_
  refine Triple.of_forall fun t ht => ?_
  exact (hx ht.2).conseq (fun u hu => by rw [hu, ht.1]; exact hI) (fun _ _ => id) (fun _ _ => id)

namespace Moves

variable (h : Moves self H C W I)

include h

theorem markProcessing (hh : header ∈ H) : Keeps I (markProcessing header) :=
  Triple.modify fun s hs => h.mark header hh s hs

theorem send (addresses : List SocketAddr) (message : PrimaryMessage) :
    Keeps I (send addresses message) :=
  Triple.modify fun s hs => h.frame s _ (frame_send addresses message s) hs

/-- The parents of a header; with one missing, the header is suspended. -/
theorem getParents (hh : header ∈ H) :
    Triple I (self.getParents header)
      (fun parents s => I s ∧
        (parents ≠ [] → self.findParents s.store header.parents.toList = .ok (parents, [])))
      (fun _ s => I s) := by
  unfold Core.getParents
  refine Triple.bind (Triple.get (Q := fun s t => I t ∧ s = t) fun s hs => ⟨hs, rfl⟩) ?_
  intro s
  refine Triple.bind (Q := fun r t => (I t ∧ s = t) ∧
      self.findParents s.store header.parents.toList = .ok r)
    (Triple.ofExcept (fun r hr t ht => ⟨ht, hr⟩) (fun _ t ht => ht.1)) ?_
  intro r
  obtain ⟨parents, missing⟩ := r
  refine Triple.ite (fun hmissing => Triple.pure fun t ht => ?_) (fun hmissing => ?_)
  · obtain ⟨⟨hIt, rfl⟩, hfind⟩ := ht
    rw [hmissing] at hfind
    exact ⟨hIt, fun _ => hfind⟩
  · refine Triple.bind (Q := fun _ t => I t) (Triple.modify fun t ht => ?_) fun _ => ?_
    · obtain ⟨⟨hIt, rfl⟩, hfind⟩ := ht
      refine h.sync (.syncParents missing header) s hh (fun _ hall => ?_) hIt
      obtain ⟨p, hp⟩ := List.exists_mem_of_ne_nil missing hmissing
      obtain ⟨hmem, habsent⟩ := (findParents_eq_ok hfind).2 p hp
      have hpresent := hall p hmem
      rw [habsent] at hpresent
      exact Bool.false_ne_true hpresent
    · exact Triple.pure fun t ht => ⟨ht, fun hnil => absurd rfl hnil⟩

theorem missingPayload (hh : header ∈ H) : Keeps I (self.missingPayload header) := by
  unfold Core.missingPayload
  refine Triple.ite (fun _ => Triple.pure fun _ hs => hs) fun hname => ?_
  refine Keeps.bind Keeps.get fun s => Keeps.ite (Keeps.pure _) ?_
  refine Keeps.bind (Triple.modify fun t ht => ?_) fun _ => Keeps.pure _
  exact h.sync (.syncBatches (missingBatches s.store header) header) t hh
    (fun hours => absurd hours hname) ht

theorem voteWith {processVote : Vote → Handler Unit}
    (hvote : ∀ v ∈ W, Keeps I (processVote v)) (hh : header ∈ H) (hpassed : self.Passed header) :
    Keeps I (self.voteWith processVote header) := by
  unfold Core.voteWith
  refine Triple.bind (Q := fun fresh s => I s ∧ (fresh = true →
      I { s with cast := s.cast ++ [self.castNow header s] } ∧
        (header.author = self.name → Vote.new header self.name ∈ W)))
    (Triple.modifyGet fun s hs => ?_) fun fresh => ?_
  · obtain ⟨htaken, hfresh⟩ := h.vote header hh hpassed s hs
    exact ⟨htaken, fun hnew => hfresh (of_decide_eq_true hnew)⟩
  refine Triple.ite (fun hfresh => ?_) fun _ => Triple.pure fun s hs => hs.1
  refine Triple.bind (Q := fun v s => I s ∧ v = Vote.new header self.name ∧
      (header.author = self.name → v ∈ W)) (Triple.modifyGet fun s hs => ?_) fun v => ?_
  · exact ⟨(hs.2 hfresh).1, rfl, (hs.2 hfresh).2⟩
  refine Triple.of_forall fun s hs => ?_
  obtain ⟨hI, rfl, hmem⟩ := hs
  refine Triple.conseq (P := I) (Q := fun _ s => I s) (E := fun _ s => I s) ?_
    (fun t ht => ht ▸ hI) (fun _ _ => id) (fun _ _ => id)
  refine Triple.ite (fun hours => Keeps.expect (hvote _ (hmem hours))) fun _ => ?_
  unfold sendVote
  split
  · exact h.send _ _
  · exact Keeps.throw _

theorem processHeaderWith {processVote : Vote → Handler Unit}
    (hvote : ∀ v ∈ W, Keeps I (processVote v)) (hh : header ∈ H) :
    Keeps I (self.processHeaderWith processVote header) := by
  unfold Core.processHeaderWith
  refine Keeps.bind (h.markProcessing hh) fun _ => ?_
  refine Triple.bind (h.getParents hh) fun parents => ?_
  refine Triple.ite (fun _ => Triple.pure fun s hs => hs.1) fun hnil => ?_
  refine Triple.bind (Q := fun stake s => (I s ∧
      self.findParents s.store header.parents.toList = .ok (parents, [])) ∧
      self.checkParents header parents 0 = .ok stake)
    (Triple.ofExcept (fun _ hr s hs => ⟨⟨hs.1, hs.2 hnil⟩, hr⟩) fun _ s hs => hs.1) fun stake => ?_
  refine Triple.bind (Q := fun _ s => I s ∧ self.Passed header)
    (Triple.ofExcept (fun _ hr s hs => ?_) fun _ s hs => hs.1.1) fun _ => ?_
  · have hquorum := of_decide_eq_true (ensure_eq_ok.mp hr)
    exact ⟨hs.1.1, s.store, parents, stake, hs.1.2, hs.2, hquorum⟩
  refine Triple.of_forall fun s hs => ?_
  obtain ⟨hI, hpassed⟩ := hs
  refine Triple.conseq (P := I) (Q := fun _ s => I s) (E := fun _ s => I s) ?_
    (fun t ht => ht ▸ hI) (fun _ _ => id) (fun _ _ => id)
  refine Keeps.bind (h.missingPayload hh) fun missing => Keeps.ite (Keeps.pure _) ?_
  exact Keeps.bind (Triple.modify fun s hs => h.header header hh s hs) fun _ =>
    h.voteWith hvote hh hpassed

theorem processVoteWith {processCertificate : Certificate → Handler Unit}
    (hcertificate : ∀ c ∈ C, Keeps I (processCertificate c)) (hv : vote ∈ W) :
    Keeps I (self.processVoteWith processCertificate vote) := by
  unfold Core.processVoteWith appendVote
  refine Triple.bind (Q := fun assembled s => I s ∧ ∀ c, assembled = some c → c ∈ C) ?_ ?_
  · refine Triple.bind (Q := fun result s => I s ∧ ∀ c, result = .ok (some c) → c ∈ C)
      (Triple.modifyGet fun s hs => h.tally vote hv s hs) fun result => ?_
    exact Triple.ofExcept (fun r hr s hs => ⟨hs.1, fun c hc => hs.2 c (by rw [hr, hc])⟩)
      (fun _ s hs => hs.1)
  intro assembled
  cases assembled with
  | none => exact Triple.pure fun s hs => hs.1
  | some c =>
      refine Triple.of_forall fun s hs => ?_
      obtain ⟨hI, hmem⟩ := hs
      refine Triple.conseq (P := I) (Q := fun _ s => I s) (E := fun _ s => I s) ?_
        (fun t ht => ht ▸ hI) (fun _ _ => id) (fun _ _ => id)
      exact Keeps.bind (h.send _ _) fun _ => (hcertificate c (hmem c rfl)).expect

theorem deliverCertificate (hc : certificate ∈ C) :
    Triple I (self.deliverCertificate certificate)
      (fun delivered s => I s ∧ (delivered = true → self.HasParents s.store certificate.header))
      (fun _ s => I s) := by
  unfold Core.deliverCertificate
  refine Triple.bind (Triple.get (Q := fun s t => I t ∧ s = t) fun s hs => ⟨hs, rfl⟩) ?_
  intro s
  refine Triple.ite (fun hall => Triple.pure fun t ht => ⟨ht.1, fun _ => ?_⟩) (fun hnot => ?_)
  · rw [← ht.2]
    exact List.all_eq_true.mp hall
  · refine Triple.bind (Q := fun _ t => I t) (Triple.modify fun t ht => ?_) fun _ => ?_
    · refine h.suspend certificate hc t (fun hall => hnot ?_) ht.1
      rw [ht.2]
      exact List.all_eq_true.mpr hall
    · exact Triple.pure fun t ht => ⟨ht, fun hd => absurd hd Bool.false_ne_true⟩

theorem processCertificateWith {processHeader : Header → Handler Unit}
    (hheader : ∀ x ∈ H, Keeps I (processHeader x)) (hc : certificate ∈ C) :
    Keeps I (self.processCertificateWith processHeader certificate) := by
  unfold Core.processCertificateWith embeddedHeaderWith
  refine Keeps.bind (Keeps.bind Keeps.get fun s => ?_) fun _ => ?_
  · exact Keeps.ite (Keeps.pure _) (hheader _ (h.embedded certificate hc))
  refine Triple.bind (h.deliverCertificate hc) fun delivered => ?_
  refine Triple.ite (fun hd => ?_) fun _ => Triple.pure fun _ hs => hs.1
  intro s hs
  have haccept := h.accept certificate hc s (hs.2 hd) hs.1
  rw [exec_acceptCertificate] at haccept ⊢
  exact haccept

/-- A header, at any depth of nesting. -/
theorem processHeader (depth : ℕ) (hh : header ∈ H) : Keeps I (self.processHeader depth header) := by
  induction depth generalizing header with
  | zero => exact Keeps.throw _
  | succ depth ih =>
      exact h.processHeaderWith (fun v hv => h.processVoteWith
        (fun c hc => h.processCertificateWith (fun x hx => ih hx) hc) hv) hh

theorem processCertificate (hc : certificate ∈ C) : Keeps I (self.processCertificate certificate) :=
  h.processCertificateWith (fun _ hx => h.processHeader _ hx) hc

theorem processVote (hv : vote ∈ W) : Keeps I (self.processVote vote) :=
  h.processVoteWith (fun _ hc => h.processCertificate hc) hv

/-- **The rule of moves**: what the core is given, it handles keeping the property. -/
theorem handle {s : State} {input : Input} (hadmits : Admits self H C W I s input) :
    I ((self.handle input).exec s).2 := by
  have hkeeps : Triple (fun t => t = s) (self.handle input) (fun _ t => I t) (fun _ t => I t) := by
    cases input with
    | message message =>
        show Triple _ (self.handleMessage message) _ _
        unfold handleMessage
        refine Triple.bind (Triple.get (Q := fun t u => u = s ∧ t = s) fun t ht => ⟨ht, ht⟩) ?_
        intro t
        refine Triple.of_forall fun u hu => ?_
        obtain ⟨rfl, rfl⟩ := hu
        cases message with
        | header x => exact checked_spec hadmits.1 fun hok => h.processHeader depth (hadmits.2 hok)
        | vote v => exact checked_spec hadmits.1 fun hok => h.processVote (hadmits.2 hok)
        | certificate c => exact checked_spec hadmits.1 fun hok => h.processCertificate (hadmits.2 hok)
    | loopbackHeader x =>
        exact (h.processHeader depth hadmits.2).conseq (fun t ht => ht ▸ hadmits.1)
          (fun _ _ => id) (fun _ _ => id)
    | loopbackCertificate c =>
        exact (h.processCertificate hadmits.2).conseq (fun t ht => ht ▸ hadmits.1)
          (fun _ _ => id) (fun _ _ => id)
    | ownHeader x =>
        show Triple _ (self.processOwnHeader x) _ _
        unfold processOwnHeader
        refine Triple.bind (Q := fun _ t => I t) (Triple.modify fun t ht => ht ▸ hadmits.1) ?_
        exact fun _ => Keeps.bind (h.send _ _) fun _ => h.processHeader depth hadmits.2
  have hmid := hkeeps s rfl
  rcases hexec : (self.handle input).exec s with ⟨r, s'⟩
  rw [hexec] at hmid
  cases r with
  | ok a => exact hmid
  | error e => exact hmid

end Moves

end Core

/-! ## §2. On the way through the waiters. -/

namespace Primary

variable {n n' n₀ : Primary} {a : Action} {gcDepth : ℕ} {H H' : Set Header}
  {C C' : Set Certificate}

/-- The headers and certificates a core hands to the waiters. -/
structure Queues (H : Set Header) (C : Set Certificate) (s : Core.State) : Prop where
  txHeaderWaiter : ∀ m ∈ s.txHeaderWaiter, m.header ∈ H
  txCertificateWaiter : ∀ c ∈ s.txCertificateWaiter, c ∈ C

/-- The headers and certificates that are suspended or looped back. -/
structure Carries (H : Set Header) (C : Set Certificate) (n : Primary) : Prop where
  queues : Queues H C n.core
  headerWaiter : ∀ w ∈ n.headerWaiter.waiting, w.deliver ∈ H
  certificateWaiter : ∀ w ∈ n.certificateWaiter, w.2 ∈ C
  rxHeaderWaiter : ∀ h ∈ n.rxHeaderWaiter, h ∈ H
  rxCertificateWaiter : ∀ c ∈ n.rxCertificateWaiter, c ∈ C

theorem Carries.new : Carries H C Primary.new := by
  refine ⟨⟨?_, ?_⟩, ?_, ?_, ?_, ?_⟩ <;> exact fun x hx => absurd hx List.not_mem_nil

theorem Carries.mono (h : Carries H C n) (hH : H ⊆ H') (hC : C ⊆ C') : Carries H' C' n :=
  ⟨⟨fun m hm => hH (h.queues.txHeaderWaiter m hm),
      fun c hc => hC (h.queues.txCertificateWaiter c hc)⟩,
    fun w hw => hH (h.headerWaiter w hw), fun w hw => hC (h.certificateWaiter w hw),
    fun x hx => hH (h.rxHeaderWaiter x hx), fun c hc => hC (h.rxCertificateWaiter c hc)⟩

/-- What the core is given back is one of those. -/
def LoopedBack (H : Set Header) (C : Set Certificate) : Core.Input → Prop
  | .loopbackHeader header => header ∈ H
  | .loopbackCertificate certificate => certificate ∈ C
  | _ => True

theorem Carries.input {input : Core.Input} (h : Carries H C n)
    (hinput : n.input a = some (input, n₀)) : Carries H C n₀ ∧ LoopedBack H C input := by
  cases feeds_of_input hinput with
  | message message => exact ⟨h, trivial⟩
  | loopbackHeader header rest hrx =>
      have hall := h.rxHeaderWaiter
      rw [hrx, List.forall_mem_cons] at hall
      exact ⟨⟨h.queues, h.headerWaiter, h.certificateWaiter, hall.2, h.rxCertificateWaiter⟩,
        hall.1⟩
  | loopbackCertificate certificate rest hrx =>
      have hall := h.rxCertificateWaiter
      rw [hrx, List.forall_mem_cons] at hall
      exact ⟨⟨h.queues, h.headerWaiter, h.certificateWaiter, h.rxHeaderWaiter, hall.2⟩, hall.1⟩
  | ownHeader header => exact ⟨h, trivial⟩

/-- After the core has handled an input. -/
theorem Carries.turn [Crypto] {self : Core} {input : Core.Input} (h : Carries H C n)
    (hqueues : Queues H C (self.turn n input).core) : Carries H C (self.turn n input) :=
  ⟨hqueues, h.headerWaiter, h.certificateWaiter, h.rxHeaderWaiter, h.rxCertificateWaiter⟩

/-- The waiters only pass on what they were handed. -/
theorem Carries.background (h : Carries H C n) (hn : n.background gcDepth a = some n') :
    Carries H C n' := by
  obtain ⟨⟨hsync, hdeliver⟩, hheaders, hcertificates, hrxh, hrxc⟩ := h
  cases works_of_background hn with
  | syncHeader message rest htx =>
      rw [htx, List.forall_mem_cons] at hsync
      refine ⟨⟨hsync.2, hdeliver⟩, fun w hw => ?_, hcertificates, hrxh, hrxc⟩
      obtain hold | hnew := HeaderWaiter.mem_waiting_receive hw
      · exact hheaders w hold
      · rw [hnew]
        exact hsync.1
  | headerReady i w hget hstored =>
      refine ⟨⟨hsync, hdeliver⟩, fun x hx => ?_, hcertificates, fun x hx => ?_, hrxc⟩
      · rw [HeaderWaiter.waiting_cleanup] at hx
        exact hheaders x (List.mem_of_mem_eraseIdx hx)
      · obtain hold | hnew := List.mem_append.mp hx
        · exact hrxh x hold
        · rw [List.mem_singleton.mp hnew]
          exact hheaders w (List.mem_of_getElem? hget)
  | headerCanceled i w hget hcanceled =>
      refine ⟨⟨hsync, hdeliver⟩, fun x hx => ?_, hcertificates, hrxh, hrxc⟩
      rw [HeaderWaiter.waiting_cleanup] at hx
      exact hheaders x (List.mem_of_mem_eraseIdx hx)
  | headerTimer =>
      refine ⟨⟨hsync, hdeliver⟩, fun x hx => ?_, hcertificates, hrxh, hrxc⟩
      rw [HeaderWaiter.waiting_cleanup] at hx
      exact hheaders x hx
  | syncCertificate certificate rest htx =>
      rw [htx, List.forall_mem_cons] at hdeliver
      refine ⟨⟨hsync, hdeliver.2⟩, hheaders, fun w hw => ?_, hrxh, hrxc⟩
      obtain hold | hnew := List.mem_append.mp hw
      · exact hcertificates w hold
      · rw [List.mem_singleton.mp hnew]
        exact hdeliver.1
  | certificateReady i w hget hstored =>
      refine ⟨⟨hsync, hdeliver⟩, hheaders, fun x hx => ?_, hrxh, fun x hx => ?_⟩
      · exact hcertificates x (List.mem_of_mem_eraseIdx hx)
      · obtain hold | hnew := List.mem_append.mp hx
        · exact hrxc x hold
        · rw [List.mem_singleton.mp hnew]
          exact hcertificates w (List.mem_of_getElem? hget)
  | othersBatch digest workerId => exact ⟨⟨hsync, hdeliver⟩, hheaders, hcertificates, hrxh, hrxc⟩
  | committed round hlt => exact ⟨⟨hsync, hdeliver⟩, hheaders, hcertificates, hrxh, hrxc⟩

/-- What the tasks around the core leave alone: all but the queues they take from, and the
store, to which batches are added. -/
structure Aside (s s' : Core.State) : Prop where
  gcRound : s'.gcRound = s.gcRound
  lastVoted : s'.lastVoted = s.lastVoted
  processing : s'.processing = s.processing
  currentHeader : s'.currentHeader = s.currentHeader
  votesAggregator : s'.votesAggregator = s.votesAggregator
  certificatesAggregators : s'.certificatesAggregators = s.certificatesAggregators
  txProposer : s'.txProposer = s.txProposer
  txConsensus : s'.txConsensus = s.txConsensus
  cast : s'.cast = s.cast
  store : s'.store = s.store ∨
    ∃ digest workerId, s'.store = s.store.insert (batchKey digest workerId) .batch

theorem aside_of_background (h : n.background gcDepth a = some n') : Aside n.core n'.core := by
  cases works_of_background h with
  | othersBatch digest workerId =>
      exact ⟨rfl, rfl, rfl, rfl, rfl, rfl, rfl, rfl, rfl, Or.inr ⟨digest, workerId, rfl⟩⟩
  | _ => exact ⟨rfl, rfl, rfl, rfl, rfl, rfl, rfl, rfl, rfl, Or.inl rfl⟩

end Primary

/-! ## §3. What is never taken back. -/

namespace Core

variable [Crypto] {self : Core} {s s' s'' : State} {n n' : Primary} {a : Primary.Action}

/-- What was sent to consensus stays sent, and the votes made stay made, in order. -/
structure Extends (s s' : State) : Prop where
  txConsensus : s.txConsensus <+: s'.txConsensus
  cast : s.cast <+: s'.cast

omit [Crypto] in
theorem Extends.refl (s : State) : Extends s s := ⟨List.prefix_refl _, List.prefix_refl _⟩

omit [Crypto] in
theorem Extends.trans (h : Extends s s') (h' : Extends s' s'') : Extends s s'' :=
  ⟨h.txConsensus.trans h'.txConsensus, h.cast.trans h'.cast⟩

/-- Anything may be given, where nothing is asked of headers, certificates and votes. -/
theorem Moves.Admits.univ {I : State → Prop} {s : State} {input : Input} (hs : I s)
    (hown : ∀ h, I { s with currentHeader := h, votesAggregator := .new }) :
    Moves.Admits self Set.univ Set.univ Set.univ I s input := by
  cases input with
  | message message => cases message <;> exact ⟨hs, fun _ => Set.mem_univ _⟩
  | loopbackHeader _ => exact ⟨hs, Set.mem_univ _⟩
  | loopbackCertificate _ => exact ⟨hs, Set.mem_univ _⟩
  | ownHeader h => exact ⟨hown h, Set.mem_univ _⟩

/-- Every move goes on from where it starts. -/
theorem moves_extends (s : State) : Moves self Set.univ Set.univ Set.univ (Extends s) where
  frame := fun t u hframe ht => ⟨hframe.txConsensus ▸ ht.txConsensus, hframe.cast ▸ ht.cast⟩
  mark := fun _ _ _ ht => ⟨ht.txConsensus, ht.cast⟩
  header := fun _ _ _ ht => ⟨ht.txConsensus, ht.cast⟩
  sync := fun _ _ _ _ ht => ⟨ht.txConsensus, ht.cast⟩
  vote := fun _ _ _ _ ht => ⟨⟨ht.txConsensus, ht.cast⟩, fun _ =>
    ⟨⟨ht.txConsensus, ht.cast.trans (List.prefix_append _ _)⟩, fun _ => Set.mem_univ _⟩⟩
  tally := fun _ _ _ ht => ⟨⟨ht.txConsensus, ht.cast⟩, fun _ _ => Set.mem_univ _⟩
  embedded := fun _ _ => Set.mem_univ _
  suspend := fun _ _ _ _ ht => ⟨ht.txConsensus, ht.cast⟩
  accept := fun c _ t _ ht => by
    rw [exec_acceptCertificate]
    exact ⟨ht.txConsensus.trans (List.prefix_append _ _), ht.cast⟩

omit [Crypto] in
theorem extends_cleanup (round : ℕ) (s : State) : Extends s (self.cleanup round s) := by
  unfold Core.cleanup
  split
  · exact ⟨List.prefix_refl _, List.prefix_refl _⟩
  · exact Extends.refl s

/-- **No step of a primary takes anything back.** -/
theorem extends_of_next (h : self.next n a = some n') : Extends n.core n'.core := by
  obtain ⟨input, n₀, hinput, _, rfl⟩ | hbackground := next_cases h
  · have hstart : Extends n.core n.core := Extends.refl _
    have hadmits : Moves.Admits self Set.univ Set.univ Set.univ (Extends n.core) n.core input :=
      Moves.Admits.univ hstart fun _ => ⟨hstart.txConsensus, hstart.cast⟩
    have hhandled := (moves_extends n.core).handle hadmits
    show Extends n.core (self.iterate n₀.consensusRound input n₀.core).1
    rw [(Primary.of_input hinput).1]
    unfold iterate
    split
    · next heq =>
      rw [heq] at hhandled
      exact hhandled
    · next heq =>
      rw [heq] at hhandled
      exact hhandled.trans (extends_cleanup _ _)
  · have haside := Primary.aside_of_background hbackground
    exact ⟨haside.txConsensus ▸ List.prefix_refl _, haside.cast ▸ List.prefix_refl _⟩

/-- No move collects. -/
theorem moves_gcRound (gcRound : ℕ) :
    Moves self Set.univ Set.univ Set.univ (fun s => s.gcRound = gcRound) where
  frame := fun _ _ hframe hs => hframe.gcRound.trans hs
  mark := fun _ _ _ hs => hs
  header := fun _ _ _ hs => hs
  sync := fun _ _ _ _ hs => hs
  vote := fun _ _ _ _ hs => ⟨hs, fun _ => ⟨hs, fun _ => Set.mem_univ _⟩⟩
  tally := fun _ _ _ hs => ⟨hs, fun _ _ => Set.mem_univ _⟩
  embedded := fun _ _ => Set.mem_univ _
  suspend := fun _ _ _ _ hs => hs
  accept := fun c _ s _ hs => by
    rw [exec_acceptCertificate]
    exact hs

/-- **The collected round is behind the consensus round** by the depth of the collector. -/
theorem Run.gcRound_le {es : History} (hrun : self.Run es n) :
    n.core.gcRound ≤ n.consensusRound - self.gcDepth := by
  refine System.Run.invariant
    (P := fun _ n => n.core.gcRound ≤ n.consensusRound - self.gcDepth) ?_ ?_ hrun
  · exact Nat.zero_le _
  · intro es n a n' _ hle hnext
    obtain ⟨input, n₀, hinput, _, rfl⟩ | hbackground := next_cases hnext
    · have hadmits : Moves.Admits self Set.univ Set.univ Set.univ
          (fun s => s.gcRound = n.core.gcRound) n.core input := Moves.Admits.univ rfl fun _ => rfl
      have hhandled := (moves_gcRound n.core.gcRound).handle hadmits
      obtain ⟨hcore, hround⟩ := Primary.of_input hinput
      show (self.iterate n₀.consensusRound input n₀.core).1.gcRound
        ≤ n₀.consensusRound - self.gcDepth
      rw [hcore, hround]
      unfold iterate
      split
      · next heq =>
        rw [heq] at hhandled
        rw [hhandled]
        exact hle
      · next heq =>
        rw [heq] at hhandled
        have hhandled' := hhandled.le.trans hle
        unfold Core.cleanup
        split
        · exact Nat.le_refl _
        · exact hhandled'
    · have haside := Primary.aside_of_background hbackground
      have hround := Primary.consensusRound_le_of_background hbackground
      rw [haside.gcRound]
      omega

end Core

end Mrv
