/-
  Mrv.Primary.Growth — what the core does not take back while it handles an input.

  Handlers mark headers as being processed, write to the store, pass certificates on
  to the `CertificateWaiter` and to consensus, and undo none of this; `Grows` says so
  of two states.  A certificate is passed to the waiter only after its header was
  marked, and to consensus only after it was stored.  Only the cleanup between two
  inputs forgets anything.

  Each handler is `Growing`, by one lemma each that follows its text.
-/
import Mrv.Primary.Handlers

namespace Mrv

variable [Crypto]

namespace Core

open Mrv.Handler (Triple Keeps)

variable {self : Core} {s s' s'' : State} {P : State → Prop} {header : Header}
  {certificate : Certificate} {vote : Vote} {α β : Type}

/-! ## §1. Growing states. -/

/-- A header is marked as being processed. -/
def Marked (header : Header) (s : State) : Prop := header.id ∈ s.inProcess header.round

/-- Something is stored under a key. -/
def Stored (key : Key) (s : State) : Prop := (s.store.lookup key).isSome = true

/-- What is there in the first state is there in the second, and what was added to the
queues is marked or stored. -/
structure Grows (s s' : State) : Prop where
  gcRound : s'.gcRound = s.gcRound
  inProcess : ∀ round, s.inProcess round ⊆ s'.inProcess round
  store : ∀ key, Stored key s → Stored key s'
  sent : ∀ c ∈ s.txConsensus, c ∈ s'.txConsensus
  suspended : ∀ c ∈ s.txCertificateWaiter, c ∈ s'.txCertificateWaiter
  stored : ∀ c ∈ s'.txConsensus, c ∈ s.txConsensus ∨ Stored c.digest.toVec s'
  marked : ∀ c ∈ s'.txCertificateWaiter, c ∈ s.txCertificateWaiter ∨ Marked c.header s'

theorem Grows.refl (s : State) : Grows s s :=
  ⟨rfl, fun _ => Finset.Subset.refl _, fun _ => id, fun _ => id, fun _ => id,
    fun _ => Or.inl, fun _ => Or.inl⟩

theorem Grows.trans (h : Grows s s') (h' : Grows s' s'') : Grows s s'' := by
  refine ⟨h'.gcRound.trans h.gcRound, fun r => (h.inProcess r).trans (h'.inProcess r),
    fun key hs => h'.store key (h.store key hs), fun c hc => h'.sent c (h.sent c hc),
    fun c hc => h'.suspended c (h.suspended c hc), fun c hc => ?_, fun c hc => ?_⟩
  · obtain hold | hnew := h'.stored c hc
    · exact (h.stored c hold).imp_right (h'.store _)
    · exact Or.inr hnew
  · obtain hold | hnew := h'.marked c hc
    · exact (h.marked c hold).imp_right fun hmark => h'.inProcess _ hmark
    · exact Or.inr hnew

/-- An update of other fields. -/
theorem Grows.of_eq (hgc : s'.gcRound = s.gcRound) (hprocessing : s'.processing = s.processing)
    (hstore : s'.store = s.store) (hconsensus : s'.txConsensus = s.txConsensus)
    (hwaiter : s'.txCertificateWaiter = s.txCertificateWaiter) : Grows s s' := by
  refine ⟨hgc, fun r => ?_, fun key hs => ?_, fun c hc => ?_, fun c hc => ?_,
    fun c hc => Or.inl ?_, fun c hc => Or.inl ?_⟩
  · unfold State.inProcess
    rw [hprocessing]
  · unfold Stored
    rw [hstore]
    exact hs
  · rw [hconsensus]
    exact hc
  · rw [hwaiter]
    exact hc
  · rw [← hconsensus]
    exact hc
  · rw [← hwaiter]
    exact hc

/-- A property that lasts while the state grows. -/
def Lasting (P : State → Prop) : Prop := ∀ s s', Grows s s' → P s → P s'

theorem Lasting.and {Q : State → Prop} (hP : Lasting P) (hQ : Lasting Q) :
    Lasting (fun s => P s ∧ Q s) :=
  fun s s' hgrows hs => ⟨hP s s' hgrows hs.1, hQ s s' hgrows hs.2⟩

theorem lasting_marked (header : Header) : Lasting (Marked header) :=
  fun _ _ hgrows hs => hgrows.inProcess _ hs

/-- A handler that only lets the state grow. -/
def Growing (x : Handler α) : Prop := ∀ P : State → Prop, Lasting P → Keeps P x

namespace Growing

theorem bind {x : Handler α} {f : α → Handler β} (hx : Growing x) (hf : ∀ a, Growing (f a)) :
    Growing (x >>= f) :=
  fun P hP => (hx P hP).bind fun a => hf a P hP

theorem pure (a : α) : Growing (pure a : Handler α) := fun _ _ => Keeps.pure a

theorem throw (e : Fault) : Growing (throw e : Handler α) := fun _ _ => Keeps.throw e

theorem get : Growing (get : Handler State) := fun _ _ => Keeps.get

theorem ofExcept {δ : Type} {f : δ → Fault} {r : Except δ α} :
    Growing (Mrv.Handler.ofExcept f r : Handler α) :=
  fun _ _ => Keeps.ofExcept

theorem expect {x : Handler α} {f : Fault → Fault} (hx : Growing x) : Growing (x.expect f) :=
  fun P hP => (hx P hP).expect

theorem ite {c : Prop} [Decidable c] {x y : Handler α} (hx : Growing x) (hy : Growing y) :
    Growing (if c then x else y) :=
  fun P hP => (hx P hP).ite (hy P hP)

theorem modify {f : State → State} (h : ∀ s, Grows s (f s)) :
    Growing (modify f : Handler PUnit) :=
  fun _ hP => Triple.modify fun s hs => hP s _ (h s) hs

theorem modifyGet {f : State → α × State} (h : ∀ s, Grows s (f s).2) :
    Growing (modifyGet f : Handler α) :=
  fun _ hP => Triple.modifyGet fun s hs => hP s _ (h s) hs

/-- What a growing handler leaves. -/
theorem grows {x : Handler α} (hx : Growing x) (s : State) : Grows s (x.exec s).2 :=
  (hx (Grows s) fun _ _ hgrows hs => hs.trans hgrows).exec (Grows.refl s)

end Growing

/-! ## §2. Steps of the handlers. -/

omit [Crypto] in
theorem inProcess_insert (s : State) (round round' : ℕ) (ids : Finset Digest) :
    State.inProcess { s with processing := s.processing.insert round ids } round' =
      if round' = round then ids else s.inProcess round' := by
  unfold State.inProcess
  rw [AList.lookup_insert_eq_ite]
  split <;> rfl

theorem grows_markProcessing (s : State) :
    Grows s { s with
      processing := s.processing.insert header.round
        (insert header.id (s.inProcess header.round)) } := by
  refine { Grows.refl s with inProcess := fun r => ?_, stored := fun _ => Or.inl
                             marked := fun _ => Or.inl }
  rw [inProcess_insert]
  split
  · next heq =>
    rw [heq]
    exact Finset.subset_insert _ _
  · exact Finset.Subset.refl _

/-- A header is marked from its marking on. -/
theorem markProcessing_spec (hP : Lasting P) {E : Fault → State → Prop} :
    Triple P (markProcessing header) (fun _ s => P s ∧ Marked header s) E := by
  refine Triple.modify fun s hs => ⟨hP s _ (grows_markProcessing s) hs, ?_⟩
  unfold Marked
  rw [inProcess_insert, if_pos rfl]
  exact Finset.mem_insert_self _ _

omit [Crypto] in
theorem stored_insert {key key' : Key} {record : Record} (h : Stored key' s) :
    Stored key' { s with store := s.store.insert key record } :=
  AList.isSome_lookup_insert h

theorem growing_write (key : Key) (record : Record) : Growing (write key record) := by
  refine Growing.modify fun s => ?_
  exact { Grows.refl s with store := fun _ => stored_insert, stored := fun _ => Or.inl
                            marked := fun _ => Or.inl }

theorem growing_syncHeader (message : WaiterMessage) : Growing (syncHeader message) :=
  Growing.modify fun _ => .of_eq rfl rfl rfl rfl rfl

theorem growing_send (addresses : List SocketAddr) (message : PrimaryMessage) :
    Growing (send addresses message) :=
  Growing.modify fun _ => .of_eq rfl rfl rfl rfl rfl

theorem growing_getParents (header : Header) : Growing (self.getParents header) := by
  unfold getParents
  refine Growing.get.bind fun s => Growing.ofExcept.bind fun r => ?_
  exact Growing.ite (Growing.pure _) ((growing_syncHeader _).bind fun _ => Growing.pure _)

theorem growing_missingPayload (header : Header) : Growing (self.missingPayload header) := by
  unfold missingPayload
  refine Growing.ite (Growing.pure _) (Growing.get.bind fun s => ?_)
  exact Growing.ite (Growing.pure _) ((growing_syncHeader _).bind fun _ => Growing.pure _)

theorem growing_appendVote (vote : Vote) : Growing (self.appendVote vote) := by
  unfold appendVote
  exact (Growing.modifyGet fun _ => .of_eq rfl rfl rfl rfl rfl).bind fun _ => Growing.ofExcept

theorem growing_voteWith {processVote : Vote → Handler Unit} (hvote : ∀ v, Growing (processVote v))
    (header : Header) : Growing (self.voteWith processVote header) := by
  unfold voteWith takeVote createVote
  refine (Growing.modifyGet fun _ => .of_eq rfl rfl rfl rfl rfl).bind fun fresh => ?_
  refine Growing.ite ?_ (Growing.pure _)
  refine (Growing.modifyGet fun _ => .of_eq rfl rfl rfl rfl rfl).bind fun vote => ?_
  refine Growing.ite (hvote vote).expect ?_
  unfold sendVote
  split
  · exact growing_send _ _
  · exact Growing.throw _

/-- What accepting a certificate leaves: it is stored, it is counted in the aggregator of
its round, the quorum it completes, if it does, is passed on, and it is sent to consensus. -/
theorem exec_acceptCertificate (self : Core) (c : Certificate) (s : State) :
    (self.acceptCertificate c).exec s = (.ok (), { s with
      store := s.store.insert c.digest.toVec (.certificate c)
      certificatesAggregators := s.certificatesAggregators.insert c.round
        (((s.certificatesAggregators.lookup c.round).getD .new).append c self.committee).2
      txProposer := s.txProposer ++
        ((((s.certificatesAggregators.lookup c.round).getD .new).append c self.committee).1.map
          (fun parents => (parents, c.round))).toList
      txConsensus := s.txConsensus ++ [c] }) := by
  unfold acceptCertificate
  rw [Handler.exec_bind]
  show ((self.appendCertificate c >>= _).exec _) = _
  rw [Handler.exec_bind]
  unfold appendCertificate
  rw [Handler.exec_modifyGet]
  dsimp only
  cases (((s.certificatesAggregators.lookup c.round).getD .new).append c self.committee).1 with
  | none =>
      rw [Option.map_none, Option.toList_none, List.append_nil]
      rfl
  | some parents => rfl

theorem growing_acceptCertificate (c : Certificate) : Growing (self.acceptCertificate c) := by
  intro P hP s hs
  rw [exec_acceptCertificate]
  refine hP s _ ?_ hs
  refine ⟨rfl, fun _ => Finset.Subset.refl _, fun _ => stored_insert,
    fun x hx => List.mem_append_left _ hx, fun _ => id, fun x hx => ?_, fun _ => Or.inl⟩
  obtain hold | hnew := List.mem_append.mp hx
  · exact Or.inl hold
  · right
    rw [List.mem_singleton.mp hnew]
    show ((s.store.insert c.digest.toVec _).lookup c.digest.toVec).isSome = true
    rw [AList.lookup_insert]
    rfl

theorem grows_suspend (h : Marked certificate.header s) :
    Grows s { s with txCertificateWaiter := s.txCertificateWaiter ++ [certificate] } := by
  refine { Grows.refl s with suspended := fun c hc => List.mem_append_left _ hc
                             stored := fun _ => Or.inl, marked := fun c hc => ?_ }
  obtain hold | hnew := List.mem_append.mp hc
  · exact Or.inl hold
  · rw [List.mem_singleton.mp hnew]
    exact Or.inr h

/-- A certificate is suspended only if its header is marked. -/
theorem keeps_deliverCertificate (hP : Lasting P) :
    Keeps (fun s => P s ∧ Marked certificate.header s) (self.deliverCertificate certificate) := by
  unfold deliverCertificate
  refine Keeps.bind Keeps.get fun t => Keeps.ite (Keeps.pure _) (Keeps.bind ?_ fun _ => Keeps.pure _)
  exact Triple.modify fun s hs => ⟨hP s _ (grows_suspend hs.2) hs.1, hs.2⟩

/-! ## §3. The handlers. -/

/-- A handler of headers that only lets the state grow, and marks the header. -/
def Marking (processHeader : Header → Handler Unit) : Prop :=
  ∀ (header : Header) (P : State → Prop), Lasting P → Triple P (processHeader header)
    (fun _ s => P s ∧ Marked header s) (fun _ s => P s)

theorem marking_processHeaderWith {processVote : Vote → Handler Unit}
    (hvote : ∀ v, Growing (processVote v)) : Marking (self.processHeaderWith processVote) := by
  intro header P hP
  have hmarked : Lasting (fun s => P s ∧ Marked header s) := hP.and (lasting_marked header)
  unfold processHeaderWith
  refine Triple.bind (markProcessing_spec hP) fun _ => ?_
  -- what follows lets the state grow, so that the header stays marked
  refine Triple.conseq (E := fun _ s => P s ∧ Marked header s) (Q := fun _ s => P s ∧ Marked header s)
    ?_ (fun _ => id) (fun _ _ => id) (fun _ _ hs => hs.1)
  refine (growing_getParents header _ hmarked).bind fun parents => ?_
  refine Keeps.ite (Keeps.pure _) ?_
  refine Keeps.ofExcept.bind fun stake => Keeps.ofExcept.bind fun _ => ?_
  refine (growing_missingPayload header _ hmarked).bind fun missing => ?_
  refine Keeps.ite (Keeps.pure _) ?_
  refine (growing_write _ _ _ hmarked).bind fun _ => ?_
  exact growing_voteWith hvote header _ hmarked

theorem growing_processVoteWith {processCertificate : Certificate → Handler Unit}
    (hcertificate : ∀ c, Growing (processCertificate c)) (vote : Vote) :
    Growing (self.processVoteWith processCertificate vote) := by
  unfold processVoteWith
  refine (growing_appendVote vote).bind fun assembled => ?_
  cases assembled with
  | none => exact Growing.pure _
  | some c => exact (growing_send _ _).bind fun _ => (hcertificate c).expect

/-- Before a certificate is delivered its header is marked. -/
theorem embeddedHeaderWith_spec {processHeader : Header → Handler Unit}
    (hheader : Marking processHeader) (hP : Lasting P) :
    Triple P (embeddedHeaderWith processHeader certificate)
      (fun _ s => P s ∧ Marked certificate.header s) (fun _ s => P s) := by
  unfold embeddedHeaderWith
  refine Triple.bind (Triple.get (Q := fun t s => t = s ∧ P s) fun s hs => ⟨rfl, hs⟩) fun t => ?_
  refine Triple.ite (fun hmark => Triple.pure fun s hs => ⟨hs.2, ?_⟩) fun _ => ?_
  · rw [← hs.1]
    exact hmark
  · exact (hheader certificate.header P hP).conseq (fun _ hs => hs.2) (fun _ _ => id)
      (fun _ _ => id)

theorem growing_processCertificateWith {processHeader : Header → Handler Unit}
    (hheader : Marking processHeader) (c : Certificate) :
    Growing (self.processCertificateWith processHeader c) := by
  intro P hP
  unfold processCertificateWith
  refine Triple.bind (embeddedHeaderWith_spec hheader hP) fun _ => ?_
  refine Triple.conseq (E := fun _ s => P s ∧ Marked c.header s)
    (Q := fun _ s => P s ∧ Marked c.header s) ?_ (fun _ => id) (fun _ _ hs => hs.1)
    (fun _ _ hs => hs.1)
  refine Keeps.bind (keeps_deliverCertificate hP) fun delivered => Keeps.ite ?_ (Keeps.pure _)
  exact growing_acceptCertificate c _ (hP.and (lasting_marked c.header))

/-- A header, at any depth of nesting. -/
theorem marking_processHeader (depth : ℕ) : Marking (self.processHeader depth) := by
  induction depth with
  | zero => exact fun header P _ => Triple.throw fun _ hs => hs
  | succ depth ih =>
      exact marking_processHeaderWith
        (growing_processVoteWith (growing_processCertificateWith ih))

theorem Marking.growing {processHeader : Header → Handler Unit} (h : Marking processHeader)
    (header : Header) : Growing (processHeader header) :=
  fun P hP => (h header P hP).conseq (fun _ => id) (fun _ _ hs => hs.1) (fun _ _ => id)

theorem growing_processCertificate (c : Certificate) : Growing (self.processCertificate c) :=
  growing_processCertificateWith (marking_processHeader depth) c

theorem growing_handle (input : Input) : Growing (self.handle input) := by
  have hheader : ∀ header, Growing (self.processHeader depth header) :=
    (marking_processHeader depth).growing
  cases input with
  | message message =>
      show Growing (self.handleMessage message)
      unfold handleMessage
      refine Growing.get.bind fun s => ?_
      cases message with
      | header header => exact Growing.ofExcept.bind fun _ => hheader header
      | vote vote =>
          exact Growing.ofExcept.bind fun _ => growing_processVoteWith growing_processCertificate vote
      | certificate c => exact Growing.ofExcept.bind fun _ => growing_processCertificate c
  | loopbackHeader header => exact hheader header
  | loopbackCertificate c => exact growing_processCertificate c
  | ownHeader header =>
      show Growing (self.processOwnHeader header)
      unfold processOwnHeader
      refine Growing.bind (Growing.modify fun _ => ?_) fun _ => ?_
      · exact .of_eq rfl rfl rfl rfl rfl
      · exact (growing_send _ _).bind fun _ => hheader header

/-! ## §4. Certificates that come back. -/

/-- **A certificate whose header is marked and whose parents are there is accepted.** -/
theorem exec_processCertificate {c : Certificate} (hmarked : Marked c.header s)
    (hparents : self.HasParents s.store c.header) :
    (self.processCertificate c).exec s = (self.acceptCertificate c).exec s := by
  have hembedded : (embeddedHeaderWith (self.processHeader depth) c).exec s = (.ok (), s) := by
    unfold embeddedHeaderWith
    rw [Handler.exec_bind, Handler.exec_get]
    dsimp only
    unfold Marked at hmarked
    rw [if_pos hmarked, Handler.exec_pure]
  have hdelivered : (self.deliverCertificate c).exec s = (.ok true, s) := by
    unfold deliverCertificate
    rw [Handler.exec_bind, Handler.exec_get]
    dsimp only
    rw [if_pos (List.all_eq_true.mpr hparents), Handler.exec_pure]
  unfold processCertificate processCertificateWith
  rw [Handler.exec_bind, hembedded]
  dsimp only
  rw [Handler.exec_bind, hdelivered]
  rfl

end Core

end Mrv
