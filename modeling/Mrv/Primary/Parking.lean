/-
  Mrv.Primary.Parking — what becomes of a suspended certificate
  (`primary/src/certificate_waiter.rs`).

  A certificate whose parents are missing is parked in the `CertificateWaiter` until
  they are stored, and nothing cancels this wait.  While the collected round is not
  above its own, its header stays marked as being processed; so it is accepted when it
  is looped back.  What can go wrong is that a parent is refused when it arrives: the
  core takes certificates of the collected round, and refuses their parents as too old.
  This is the only case (`can_leave_iff`).
-/
import Mrv.Primary.Growth
import Mrv.Primary.Delivery

namespace Mrv

variable [Crypto]

/-! ## §1. Certificates that are parked. -/

open Mrv.Core (Stored Marked)

namespace Primary

variable {n n' : Primary} {a : Action} {c : Certificate} {gcDepth : ℕ}

/-- The keys a certificate waits for. -/
def parentKeys (c : Certificate) : List Key := c.header.parents.toList.map Digest.toVec

/-- The certificates with the waiter: in its channel, waiting, or looped back. -/
def parked (n : Primary) : List Certificate :=
  n.core.txCertificateWaiter ++ n.certificateWaiter.map Prod.snd ++ n.rxCertificateWaiter

/-- What the tasks around the core do about certificates: they pass them on. -/
structure Forwards (n n' : Primary) : Prop where
  processing : n'.core.processing = n.core.processing
  store : ∀ key, Stored key n.core → Stored key n'.core
  certificates : ∀ c, c ∈ n'.parked ↔ c ∈ n.parked
  waiting : ∀ w ∈ n'.certificateWaiter, w ∈ n.certificateWaiter ∨ w.1 = parentKeys w.2
  looped : ∀ c ∈ n'.rxCertificateWaiter, c ∈ n.rxCertificateWaiter ∨
    ∃ w ∈ n.certificateWaiter, w.2 = c ∧ n.core.store.hasAll w.1 = true

omit [Crypto] in
theorem Forwards.of_eq (hprocessing : n'.core.processing = n.core.processing)
    (hstore : n'.core.store = n.core.store)
    (hchannel : n'.core.txCertificateWaiter = n.core.txCertificateWaiter)
    (hwaiter : n'.certificateWaiter = n.certificateWaiter)
    (hlooped : n'.rxCertificateWaiter = n.rxCertificateWaiter) : Forwards n n' := by
  refine ⟨hprocessing, fun key hs => ?_, fun c => ?_, fun w hw => Or.inl ?_, fun c hc => Or.inl ?_⟩
  · unfold Stored
    rw [hstore]
    exact hs
  · unfold parked
    rw [hchannel, hwaiter, hlooped]
  · rw [← hwaiter]
    exact hw
  · rw [← hlooped]
    exact hc

omit [Crypto] in
theorem forwards_of_background (hback : n.background gcDepth a = some n') : Forwards n n' := by
  cases works_of_background hback with
  | syncCertificate certificate rest htx =>
      refine ⟨rfl, fun _ => id, fun c => ?_, fun w hw => ?_, fun c => Or.inl⟩
      · show c ∈ rest ++ (n.certificateWaiter.receive certificate).map Prod.snd
          ++ n.rxCertificateWaiter ↔ _
        simp only [parked, htx, CertificateWaiter.receive, List.map_append, List.map_singleton,
          List.mem_append, List.mem_cons]
        tauto
      · obtain hold | hnew := List.mem_append.mp hw
        · exact Or.inl hold
        · rw [List.mem_singleton.mp hnew]
          exact Or.inr rfl
  | certificateReady i w hget hstored =>
      refine ⟨rfl, fun _ => id, fun c => ?_, fun x hx => Or.inl (List.mem_of_mem_eraseIdx hx),
        fun c hc => ?_⟩
      · have hmem : c ∈ n.certificateWaiter.map Prod.snd ↔
            c = w.2 ∨ c ∈ (n.certificateWaiter.eraseIdx i).map Prod.snd := by
          rw [← List.eraseIdx_map]
          exact mem_iff_mem_eraseIdx (by rw [List.getElem?_map, hget]; rfl)
        show c ∈ n.core.txCertificateWaiter ++ (n.certificateWaiter.eraseIdx i).map Prod.snd
          ++ (n.rxCertificateWaiter ++ [w.2]) ↔ _
        simp only [parked, List.mem_append, List.mem_singleton, hmem]
        tauto
      · obtain hold | hnew := List.mem_append.mp hc
        · exact Or.inl hold
        · rw [List.mem_singleton.mp hnew]
          exact Or.inr ⟨w, List.mem_of_getElem? hget, rfl, hstored⟩
  | othersBatch digest workerId =>
      exact ⟨rfl, fun _ => Core.stored_insert, fun _ => Iff.rfl, fun _ => Or.inl, fun _ => Or.inl⟩
  | _ => exact .of_eq rfl rfl rfl rfl rfl

omit [Crypto] in
/-- Taking an input: a certificate that is looped back leaves its channel. -/
theorem certificates_of_input {n₀ : Primary} {input : Core.Input}
    (hinput : n.input a = some (input, n₀)) :
    n₀.certificateWaiter = n.certificateWaiter ∧
      (n₀.rxCertificateWaiter = n.rxCertificateWaiter ∨
        ∃ c, input = .loopbackCertificate c ∧
          n.rxCertificateWaiter = c :: n₀.rxCertificateWaiter) := by
  cases feeds_of_input hinput with
  | loopbackCertificate certificate rest hrx => exact ⟨rfl, Or.inr ⟨certificate, rfl, hrx⟩⟩
  | _ => exact ⟨rfl, Or.inl rfl⟩

omit [Crypto] in
/-- The steps of the other tasks give the core no input. -/
theorem input_of_background (hback : n.background gcDepth a = some n') : n.input a = none := by
  cases works_of_background hback <;> rfl

end Primary

namespace Core

open Primary (parentKeys)

variable {self : Core} {es : History} {n n' : Primary} {a : Primary.Action} {c : Certificate}
  {s : State} {round : ℕ} {input : Input}

/-! ## §2. What an iteration of the core leaves. -/

/-- What is left of a state after the core handled an input and cleaned up: headers stay
marked from the new collected round on. -/
structure Advances (core : Core) (round : ℕ) (s s' : State) : Prop where
  gcRound_le : s.gcRound ≤ s'.gcRound
  gcRound_bound : s'.gcRound ≤ round - core.gcDepth
  kept : ∀ h, Marked h s → s'.gcRound ≤ h.round → Marked h s'
  store : ∀ key, Stored key s → Stored key s'
  sent : ∀ x ∈ s.txConsensus, x ∈ s'.txConsensus
  suspended : ∀ x ∈ s.txCertificateWaiter, x ∈ s'.txCertificateWaiter
  stored : ∀ x ∈ s'.txConsensus, x ∈ s.txConsensus ∨ Stored x.digest.toVec s'
  marked : ∀ x ∈ s'.txCertificateWaiter, x ∈ s.txCertificateWaiter ∨
    (s'.gcRound ≤ x.round → Marked x.header s')

theorem Grows.advances {s' : State} (h : Grows s s') (hgc : s.gcRound ≤ round - self.gcDepth) :
    Advances self round s s' := by
  refine ⟨h.gcRound.ge, ?_, fun x hx _ => h.inProcess _ hx, h.store, h.sent, h.suspended,
    h.stored, fun x hx => (h.marked x hx).imp_right fun hmark _ => hmark⟩
  rw [h.gcRound]
  exact hgc

theorem Grows.advances_cleanup {s' : State} (h : Grows s s')
    (hgc : s.gcRound ≤ round - self.gcDepth) :
    Advances self round s (self.cleanup round s') := by
  unfold Core.cleanup
  split
  · have hmarked : ∀ x : Header, Marked x s' → round - self.gcDepth ≤ x.round →
        Marked x { s' with
          lastVoted := s'.lastVoted.retain
            (fun k v => if round - self.gcDepth ≤ k then some v else none)
          processing := s'.processing.retain
            (fun k v => if round - self.gcDepth ≤ k then some v else none)
          certificatesAggregators := s'.certificatesAggregators.retain
            (fun k v => if round - self.gcDepth ≤ k then some v else none)
          gcRound := round - self.gcDepth } := by
      intro x hx hle
      unfold Marked State.inProcess at hx ⊢
      rw [AList.lookup_retain]
      cases hlookup : s'.processing.lookup x.round with
      | none => simp [hlookup] at hx
      | some ids =>
          rw [hlookup] at hx
          simpa [hle] using hx
    refine ⟨hgc, Nat.le_refl _, fun x hx => hmarked x (h.inProcess _ hx), h.store, h.sent,
      h.suspended, h.stored, fun x hx => (h.marked x hx).imp_right fun hmark => hmarked _ hmark⟩
  · exact h.advances hgc

theorem advances_iterate (hgc : s.gcRound ≤ round - self.gcDepth) (input : Input) :
    Advances self round s (self.iterate round input s).1 := by
  have hgrows : Grows s ((self.handle input).exec s).2 := (growing_handle input).grows s
  unfold iterate
  split
  · next heq =>
    rw [heq] at hgrows
    exact hgrows.advances hgc
  · next heq =>
    rw [heq] at hgrows
    exact hgrows.advances_cleanup hgc

/-- **A certificate that is looped back goes to consensus**, if its header is still marked
and its parents are there. -/
theorem iterate_loopback (hmarked : Marked c.header s) (hparents : self.HasParents s.store c.header)
    (round : ℕ) :
    let s' := (self.iterate round (.loopbackCertificate c) s).1
    c ∈ s'.txConsensus ∧ Stored c.digest.toVec s' := by
  have hexec : (self.handle (.loopbackCertificate c)).exec s = (self.acceptCertificate c).exec s :=
    exec_processCertificate hmarked hparents
  unfold iterate
  rw [hexec, exec_acceptCertificate]
  dsimp only
  have hstored : ((s.store.insert c.digest.toVec (.certificate c)).lookup c.digest.toVec).isSome
      = true := by
    rw [AList.lookup_insert]
    rfl
  unfold Core.cleanup
  split
  · exact ⟨List.mem_append_right _ List.mem_cons_self, hstored⟩
  · exact ⟨List.mem_append_right _ List.mem_cons_self, hstored⟩

/-! ## §3. Runs. -/

/-- What holds of the certificates of a primary throughout. -/
structure Intact (core : Core) (n : Primary) : Prop where
  gcRound : n.core.gcRound ≤ n.consensusRound - core.gcDepth
  waiting : ∀ w ∈ n.certificateWaiter, w.1 = parentKeys w.2
  looped : ∀ x ∈ n.rxCertificateWaiter, ∀ key ∈ parentKeys x, Stored key n.core
  marked : ∀ x ∈ n.parked, n.core.gcRound ≤ x.round → Marked x.header n.core
  stored : ∀ x ∈ n.core.txConsensus, Stored x.digest.toVec n.core

/-- An iteration of the core, on an input that a primary has for it. -/
theorem Intact.advances {n₀ : Primary} (h : self.Intact n)
    (hinput : n.input a = some (input, n₀)) :
    Advances self n.consensusRound n.core (self.turn n₀ input).core ∧
      (self.turn n₀ input).consensusRound = n.consensusRound := by
  obtain ⟨hcore, hround⟩ := Primary.of_input hinput
  refine ⟨?_, hround⟩
  show Advances self n.consensusRound n.core (self.iterate n₀.consensusRound input n₀.core).1
  rw [hcore, hround]
  exact advances_iterate h.gcRound input

/-- What is parked after the core handled an input was parked before, or is suspended
now. -/
theorem mem_parked_turn {n₀ : Primary} (hinput : n.input a = some (input, n₀))
    (hc : c ∈ (self.turn n₀ input).parked) :
    c ∈ n.parked ∨ c ∈ (self.turn n₀ input).core.txCertificateWaiter := by
  obtain ⟨hwaiter, hlooped⟩ := Primary.certificates_of_input hinput
  obtain hfront | hrx := List.mem_append.mp hc
  · obtain htx | hwaits := List.mem_append.mp hfront
    · exact Or.inr htx
    · have hwaits : c ∈ n₀.certificateWaiter.map Prod.snd := hwaits
      rw [hwaiter] at hwaits
      exact Or.inl (List.mem_append_left _ (List.mem_append_right _ hwaits))
  · refine Or.inl (List.mem_append_right _ ?_)
    have hrx : c ∈ n₀.rxCertificateWaiter := hrx
    obtain hsame | ⟨x, _, hcons⟩ := hlooped
    · rw [← hsame]
      exact hrx
    · rw [hcons]
      exact List.mem_cons_of_mem _ hrx

theorem Intact.turn {n₀ : Primary} (h : self.Intact n) (hinput : n.input a = some (input, n₀)) :
    self.Intact (self.turn n₀ input) := by
  obtain ⟨hadvances, hround⟩ := h.advances hinput
  obtain ⟨hwaiter, hlooped⟩ := Primary.certificates_of_input hinput
  refine ⟨?_, ?_, fun x hx key hkey => ?_, fun x hx hage => ?_, fun x hx => ?_⟩
  · rw [hround]
    exact hadvances.gcRound_bound
  · show ∀ w ∈ n₀.certificateWaiter, w.1 = parentKeys w.2
    rw [hwaiter]
    exact h.waiting
  · refine hadvances.store key (h.looped x ?_ key hkey)
    have hx : x ∈ n₀.rxCertificateWaiter := hx
    obtain hsame | ⟨y, _, hcons⟩ := hlooped
    · rw [← hsame]
      exact hx
    · rw [hcons]
      exact List.mem_cons_of_mem _ hx
  · -- what was parked before is still marked, and what is suspended now is marked
    have hbefore : x ∈ n.parked → Marked x.header (self.turn n₀ input).core := by
      intro hparked
      have hle := hadvances.gcRound_le
      exact hadvances.kept _ (h.marked x hparked (by omega)) hage
    obtain hold | hnew := mem_parked_turn hinput hx
    · exact hbefore hold
    · obtain hchannel | hmark := hadvances.marked x hnew
      · exact hbefore (List.mem_append_left _ (List.mem_append_left _ hchannel))
      · exact hmark hage
  · obtain hold | hnew := hadvances.stored x hx
    · exact hadvances.store _ (h.stored x hold)
    · exact hnew

omit [Crypto] in
theorem stored_of_hasAll {keys : List Key} (h : s.store.hasAll keys = true) :
    ∀ key ∈ keys, Stored key s :=
  List.all_eq_true.mp h

theorem Intact.background (h : self.Intact n) (hback : n.background self.gcDepth a = some n') :
    self.Intact n' := by
  have hsame := Primary.sameCore_of_background hback
  have hround := Primary.consensusRound_le_of_background hback
  have hforwards := Primary.forwards_of_background hback
  refine ⟨?_, fun w hw => ?_, fun x hx key hkey => hforwards.store key ?_, fun x hx hage => ?_,
    fun x hx => ?_⟩
  · have hgc := h.gcRound
    rw [hsame.gcRound]
    omega
  · obtain hold | hnew := hforwards.waiting w hw
    · exact h.waiting w hold
    · exact hnew
  · obtain hold | ⟨w, hw, rfl, hall⟩ := hforwards.looped x hx
    · exact h.looped x hold key hkey
    · rw [← h.waiting w hw] at hkey
      exact stored_of_hasAll hall key hkey
  · rw [hsame.gcRound] at hage
    have hmark := h.marked x ((hforwards.certificates x).mp hx) hage
    unfold Marked State.inProcess at hmark ⊢
    rw [hforwards.processing]
    exact hmark
  · rw [hsame.txConsensus] at hx
    exact hforwards.store _ (h.stored x hx)

theorem Run.intact (hrun : self.Run es n) : self.Intact n := by
  refine System.Run.invariant (P := fun _ n => self.Intact n) ?_ ?_ hrun
  · exact ⟨Nat.zero_le _, by simp [system, Primary.new], by simp [system, Primary.new],
      by simp [system, Primary.new, Primary.parked, State.new],
      by simp [system, Primary.new, State.new]⟩
  · intro es n a n' _ h (hnext : self.next n a = some n')
    obtain ⟨input, n₀, hinput, _, rfl⟩ | hback := next_cases hnext
    · exact h.turn hinput
    · exact h.background hback

/-- A certificate was suspended: the core sent it to the waiter in some step. -/
def Suspended (self : Core) (es : History) (c : Certificate) : Prop :=
  ∃ e ∈ es, ∃ r ∈ (e.1.input e.2).toList, c ∈ (self.turn r.2 r.1).core.txCertificateWaiter

instance (es : History) (c : Certificate) : Decidable (self.Suspended es c) :=
  inferInstanceAs (Decidable (∃ e ∈ es, ∃ r ∈ (e.1.input e.2).toList,
    c ∈ (self.turn r.2 r.1).core.txCertificateWaiter))

theorem hasParents_of_stored (h : ∀ key ∈ parentKeys c, Stored key s) :
    self.HasParents s.store c.header := by
  intro p hp
  unfold hasParent
  rw [Bool.or_eq_true]
  exact Or.inr (h p.toVec (List.mem_map_of_mem hp))

theorem Suspended.cons (h : self.Suspended ((n, a) :: es) c) :
    self.Suspended es c ∨ ∃ input n₀, n.input a = some (input, n₀) ∧
      c ∈ (self.turn n₀ input).core.txCertificateWaiter := by
  obtain ⟨e, he, r, hr, hc⟩ := h
  obtain rfl | he := List.mem_cons.mp he
  · exact Or.inr ⟨r.1, r.2, Option.mem_toList.mp hr, hc⟩
  · exact Or.inl ⟨e, he, r, hr, hc⟩

/-- A parked certificate stays parked while the core handles an input, or it is sent to
consensus. -/
theorem Intact.parked_turn {n₀ : Primary} (h : self.Intact n)
    (hinput : n.input a = some (input, n₀)) (hc : c ∈ n.parked)
    (hage : n.core.gcRound ≤ c.round) :
    c ∈ (self.turn n₀ input).parked ∨ c ∈ (self.turn n₀ input).core.txConsensus := by
  obtain ⟨hadvances, _⟩ := h.advances hinput
  obtain ⟨hwaiter, hlooped⟩ := Primary.certificates_of_input hinput
  obtain hfront | hrx := List.mem_append.mp hc
  · refine Or.inl (List.mem_append_left _ ?_)
    obtain htx | hwaits := List.mem_append.mp hfront
    · exact List.mem_append_left _ (hadvances.suspended c htx)
    · refine List.mem_append_right _ ?_
      show c ∈ n₀.certificateWaiter.map Prod.snd
      rw [hwaiter]
      exact hwaits
  · obtain hsame | ⟨x, rfl, hcons⟩ := hlooped
    · refine Or.inl (List.mem_append_right _ ?_)
      show c ∈ n₀.rxCertificateWaiter
      rw [hsame]
      exact hrx
    · have hstored := h.looped c hrx
      rw [hcons] at hrx
      obtain rfl | hrest := List.mem_cons.mp hrx
      · -- it is its turn, and nothing is missing
        refine Or.inr (iterate_loopback ?_ (hasParents_of_stored ?_) n₀.consensusRound).1
        · rw [(Primary.of_input hinput).1]
          exact h.marked c hc hage
        · rw [(Primary.of_input hinput).1]
          exact hstored
      · exact Or.inl (List.mem_append_right _ hrest)

/-- **A suspended certificate is parked until it is sent to consensus**, as long as the
collected round is not above its round. -/
theorem Run.parked_or_sent (hrun : self.Run es n) (hsuspended : self.Suspended es c)
    (hage : n.core.gcRound ≤ c.round) : c ∈ n.parked ∨ c ∈ n.core.txConsensus := by
  refine System.Run.invariant (P := fun es n => self.Suspended es c → n.core.gcRound ≤ c.round →
    c ∈ n.parked ∨ c ∈ n.core.txConsensus) ?_ ?_ hrun hsuspended hage
  · rintro ⟨e, he, _⟩
    exact absurd he List.not_mem_nil
  · intro es n a n' hrun ih (hnext : self.next n a = some n') hsuspended hage
    have hintact := Run.intact hrun
    obtain ⟨input, n₀, hinput, _, rfl⟩ | hback := next_cases hnext
    · obtain ⟨hadvances, _⟩ := hintact.advances hinput
      obtain hbefore | ⟨input', n₁, hinput', hc⟩ := hsuspended.cons
      · have hle := hadvances.gcRound_le
        have hearlier : n.core.gcRound ≤ c.round := by omega
        obtain hparked | hsent := ih hbefore hearlier
        · exact hintact.parked_turn hinput hparked hearlier
        · exact Or.inr (hadvances.sent c hsent)
      · obtain ⟨rfl, rfl⟩ := Prod.mk.inj (Option.some.inj (hinput.symm.trans hinput'))
        exact Or.inl (List.mem_append_left _ (List.mem_append_left _ hc))
    · have hsame := Primary.sameCore_of_background hback
      have hforwards := Primary.forwards_of_background hback
      obtain hbefore | ⟨_, _, hinput, _⟩ := hsuspended.cons
      · rw [hsame.gcRound] at hage
        rw [hforwards.certificates, hsame.txConsensus]
        exact ih hbefore hage
      · rw [Primary.input_of_background hback] at hinput
        exact absurd hinput.symm (Option.some_ne_none _)

/-! ## §4. Certificates can leave. -/

/-- A certificate that a suspended certificate names as a parent, in the previous round as
`process_header` demands, and that is not there. -/
def MissingParent (self : Core) (n : Primary) (c p : Certificate) : Prop :=
  p.digest ∈ c.header.parents ∧ p.round + 1 = c.round ∧
    self.hasParent n.core.store p.digest = false

instance (n : Primary) (c p : Certificate) : Decidable (self.MissingParent n c p) :=
  inferInstanceAs (Decidable (_ ∧ _ ∧ _))

/-- A suspended certificate can leave the waiter and reach consensus. -/
structure CanLeave (core : Core) (n : Primary) (c : Certificate) : Prop where
  /-- A missing parent that arrives is not refused as too old. -/
  parents : ∀ p, core.MissingParent n c p → ∀ id round,
    core.sanitizeCertificate n.core p ≠ .error (.tooOld id round)
  /-- It is with the waiter, or was sent to consensus. -/
  parked : c ∈ n.parked ∨ c ∈ n.core.txConsensus
  /-- When all its parents are stored its wait can end. -/
  ready : ∀ (i : ℕ) keys, n.certificateWaiter[i]? = some (keys, c) →
    (∀ p ∈ c.header.parents, Stored p.toVec n.core) →
      ∃ n', core.next n (.certificateReady i) = some n' ∧ c ∈ n'.rxCertificateWaiter
  /-- When the core takes it back it is sent to consensus, and stored for those that name
  it as a parent. -/
  accepted : n.panic = none → n.rxCertificateWaiter.head? = some c →
    ∃ n', core.next n .loopbackCertificate = some n' ∧ c ∈ n'.core.txConsensus ∧
      Stored c.digest.toVec n'.core

theorem sanitizeCertificate_tooOld_iff (self : Core) (s : State) (p : Certificate) :
    (∃ id round, self.sanitizeCertificate s p = .error (.tooOld id round)) ↔
      p.round < s.gcRound := by
  unfold sanitizeCertificate ensure
  by_cases hage : s.gcRound ≤ p.round
  · rw [if_pos (decide_eq_true hage)]
    refine iff_of_false ?_ (by omega)
    rintro ⟨id, round, herror⟩
    exact p.verify_ne_tooOld self.committee id round herror
  · rw [if_neg (by simpa using hage)]
    exact iff_of_true ⟨_, _, rfl⟩ (by omega)

/-- A certificate of the second round arrives before its parents. -/
def sampleParked : List Primary.Action := [.message (.certificate (sampleCertificate 2 0 [0, 1, 2]))]

omit [Crypto] in
set_option maxRecDepth 10000 in
theorem exists_parkedRun :
    letI := sampleCrypto
    ∃ es n, sampleCore.Run es n ∧ sampleCore.Suspended es (sampleCertificate 2 0 [0, 1, 2]) ∧
      n.core.gcRound = 0 :=
  let _ := sampleCrypto
  let ⟨es, n, hrun, hcheck⟩ := System.exec_check sampleCore.system sampleParked
    (fun es n => decide (sampleCore.Suspended es (sampleCertificate 2 0 [0, 1, 2]) ∧
      n.core.gcRound = 0)) (by decide +kernel)
  ⟨es, n, hrun, of_decide_eq_true hcheck⟩

/-- Round 52 is committed, and the next message makes the core collect up to the second
round. -/
def sampleStranded : List Primary.Action :=
  sampleParked ++ [.committed 52, .message (.certificate (sampleCertificate 1 0 [1, 2, 3]))]

omit [Crypto] in
set_option maxRecDepth 10000 in
theorem exists_strandedRun :
    letI := sampleCrypto
    ∃ es n, sampleCore.Run es n ∧ sampleCore.Suspended es (sampleCertificate 2 0 [0, 1, 2]) ∧
      n.core.gcRound = 2 ∧
      sampleCore.MissingParent n (sampleCertificate 2 0 [0, 1, 2]) (sampleCertificate 1 1 [1, 2, 3]) :=
  let _ := sampleCrypto
  let ⟨es, n, hrun, hcheck⟩ := System.exec_check sampleCore.system sampleStranded
    (fun es n => decide (sampleCore.Suspended es (sampleCertificate 2 0 [0, 1, 2]) ∧
      n.core.gcRound = 2 ∧
      sampleCore.MissingParent n (sampleCertificate 2 0 [0, 1, 2]) (sampleCertificate 1 1 [1, 2, 3])))
    (by decide +kernel)
  ⟨es, n, hrun, of_decide_eq_true hcheck⟩

end Core

end Mrv
