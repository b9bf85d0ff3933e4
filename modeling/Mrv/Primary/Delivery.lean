/-
  Mrv.Primary.Delivery — consensus is fed in causal order.

  `Keyed` says what may stand under which key of the store: a header under its
  id, a certificate under its digest and only if it was sent to consensus, a
  batch under a longer key.  A certificate is accepted when each of its parents is
  genesis or a key of the store; so each of them was sent before, unless the key
  is the id of a header that was let in.
-/
import Mrv.Primary.Run

namespace Mrv

variable [Crypto]

namespace Core

open Mrv.Handler (Triple Keeps)
open Primary (Holds InFlight SameCore headers)

variable {self : Core} {H : Set Header} {s s' : State} {es : History} {n : Primary}

/-! ## §1. The keys of the store. -/

/-- What a value of the store is doing under its key. -/
def Filed (H : Set Header) (accepted : List Certificate) (key : Key) : Record → Prop
  | .header h => h ∈ H ∧ key = h.id.toVec
  | .certificate c => c ∈ accepted ∧ key = c.digest.toVec
  | .batch => ∃ digest workerId, key = batchKey digest workerId

/-- Every value of a store is under its key. -/
def Keyed (H : Set Header) (accepted : List Certificate) (store : Store) : Prop :=
  ∀ key record, store.lookup key = some record → Filed H accepted key record

theorem Filed.mono {accepted accepted' : List Certificate} {key : Key} {record : Record}
    (h : Filed H accepted key record) (hsub : ∀ c ∈ accepted, c ∈ accepted') :
    Filed H accepted' key record := by
  cases record with
  | header _ => exact h
  | certificate c => exact ⟨hsub c h.1, h.2⟩
  | batch => exact h

theorem Keyed.insert {accepted : List Certificate} {store : Store} {key : Key} {record : Record}
    (h : Keyed H accepted store) (hnew : Filed H accepted key record) :
    Keyed H accepted (store.insert key record) := by
  intro key' record' hlookup
  rw [AList.lookup_insert_eq_ite] at hlookup
  by_cases hkey : key' = key
  · rw [if_pos hkey, Option.some.injEq] at hlookup
    rw [hkey, ← hlookup]
    exact hnew
  · rw [if_neg hkey] at hlookup
    exact h key' record' hlookup

theorem Keyed.mono {accepted accepted' : List Certificate} {store : Store}
    (h : Keyed H accepted store) (hsub : ∀ c ∈ accepted, c ∈ accepted') :
    Keyed H accepted' store :=
  fun key record hlookup => (h key record hlookup).mono hsub

/-- A digest that is genesis, the id of a header under which something is stored, or the
digest of a certificate of a list. -/
def Accounted (self : Core) (H : Set Header) (store : Store) (sent : List Certificate)
    (p : Digest) : Prop :=
  (∃ g ∈ Certificate.genesis self.committee, g.digest = p) ∨
    (∃ x ∈ H, x.id = p ∧ (store.lookup p.toVec).isSome) ∨ ∃ c ∈ sent, c.digest = p

/-- A parent that is there is accounted for. -/
theorem Keyed.of_hasParent {accepted : List Certificate} {store : Store} {p : Digest}
    (h : Keyed H accepted store) (hp : self.hasParent store p = true) :
    self.Accounted H store accepted p := by
  unfold hasParent at hp
  obtain hgenesis | hstore := (Bool.or_eq_true _ _).mp hp
  · obtain ⟨e, he, heq⟩ := List.any_eq_true.mp hgenesis
    obtain ⟨g, hg, rfl⟩ := List.mem_map.mp he
    exact Or.inl ⟨g, hg, of_decide_eq_true heq⟩
  · obtain ⟨record, hrecord⟩ := Option.isSome_iff_exists.mp hstore
    have hfiled := h _ _ hrecord
    cases record with
    | header x =>
        exact Or.inr (Or.inl ⟨x, hfiled.1, (Digest.toVec_injective hfiled.2).symm, hstore⟩)
    | certificate c => exact Or.inr (Or.inr ⟨c, hfiled.1, (Digest.toVec_injective hfiled.2).symm⟩)
    | batch =>
        obtain ⟨digest, workerId, hkey⟩ := hfiled
        exact absurd hkey (toVec_ne_batchKey p digest workerId)

/-- What holds of the core throughout: the headers it passes on are in `H` and its
store is filed. -/
structure Tidy (H : Set Header) (s : State) : Prop where
  holds : Holds H s
  keyed : Keyed H s.txConsensus s.store

theorem Tidy.new (hdefault : Header.default ∈ H) : Tidy H State.new := by
  refine ⟨⟨hdefault, fun m hm => absurd hm List.not_mem_nil,
    fun c hc => absurd hc List.not_mem_nil⟩, ?_⟩
  intro key record hlookup
  have hnone : (∅ : Store).lookup key = none := AList.lookup_empty key
  rw [show State.new.store = ∅ from rfl, hnone] at hlookup
  exact absurd hlookup.symm (Option.some_ne_none record)

omit [Crypto] in
theorem Holds.quiet (h : Holds H s) (hquiet : Quiet H s s') : Holds H s' := by
  refine ⟨?_, fun m hm => ?_, fun c hc => ?_⟩
  · rw [hquiet.currentHeader]
    exact h.currentHeader
  · obtain hold | hnew := hquiet.txHeaderWaiter m hm
    · exact h.txHeaderWaiter m hold
    · exact hnew
  · obtain hold | hnew := hquiet.txCertificateWaiter c hc
    · exact h.txCertificateWaiter c hold
    · exact hnew

theorem stable_tidy : Stable H (Tidy H) := by
  intro s s' hquiet h
  refine ⟨Holds.quiet h.holds hquiet, ?_⟩
  rw [hquiet.store, hquiet.txConsensus]
  exact h.keyed

/-- Storing a header of `H`. -/
theorem Tidy.write {h : Header} (hs : Tidy H s) (hh : h ∈ H) :
    Tidy H { s with store := s.store.insert h.id.toVec (.header h) } :=
  ⟨⟨hs.holds.currentHeader, hs.holds.txHeaderWaiter, hs.holds.txCertificateWaiter⟩,
    hs.keyed.insert ⟨hh, rfl⟩⟩

/-- Taking votes and making them. -/
theorem Tidy.voting (hs : Tidy H s) (lastVoted : HashMap ℕ (Finset PublicKey))
    (cast : List Cast) : Tidy H { s with lastVoted, cast } :=
  ⟨⟨hs.holds.currentHeader, hs.holds.txHeaderWaiter, hs.holds.txCertificateWaiter⟩, hs.keyed⟩

/-- Storing a certificate and sending it. -/
theorem Tidy.accept (hs : Tidy H s) (certificate : Certificate) :
    Tidy H { s with
      store := s.store.insert certificate.digest.toVec (.certificate certificate)
      txConsensus := s.txConsensus ++ [certificate] } := by
  refine ⟨⟨hs.holds.currentHeader, hs.holds.txHeaderWaiter, hs.holds.txCertificateWaiter⟩, ?_⟩
  have hmore : Keyed H (s.txConsensus ++ [certificate]) s.store :=
    hs.keyed.mono fun c hc => List.mem_append_left _ hc
  exact hmore.insert ⟨List.mem_append_right _ List.mem_cons_self, rfl⟩

/-- The state in which a certificate was stored but not yet passed on. -/
def Storing (certificate : Certificate) (P : State → Prop) (s : State) : Prop :=
  P { s with txConsensus := s.txConsensus ++ [certificate] }

/-- **Accepting a certificate** is storing it and sending it to consensus, as far as a
property can tell that bookkeeping does not touch. -/
theorem acceptCertificate_spec {P Q : State → Prop} {certificate : Certificate}
    (hQ : Stable H Q)
    (h : ∀ s, P s → Q { s with
      store := s.store.insert certificate.digest.toVec (.certificate certificate)
      txConsensus := s.txConsensus ++ [certificate] }) :
    Triple P (self.acceptCertificate certificate) (fun _ s => Q s) (fun _ s => Q s) := by
  have hstoring : Stable H (Storing certificate Q) := by
    intro s s' hquiet hs
    refine hQ _ _ ?_ hs
    refine ⟨hquiet.cast, hquiet.lastVoted, hquiet.gcRound, hquiet.currentHeader, hquiet.store,
      ?_, hquiet.used, hquiet.txHeaderWaiter, hquiet.txCertificateWaiter⟩
    rw [hquiet.txConsensus]
  -- bookkeeping in between does not fail, so that nothing is stored without being sent
  unfold acceptCertificate
  refine Triple.bind (Q := fun _ s => Storing certificate Q s) (Triple.modify h) fun _ => ?_
  refine Triple.bind (appendCertificate_spec hstoring) fun quorum => ?_
  exact Triple.bind (sendProposer_spec hstoring _ _) fun _ => Triple.modify fun _ hs => hs

/-! ## §2. Runs. -/

/-- What the core is left with after an input: what the handler left, cleaned up unless it
panicked. -/
theorem iterate_keeps {K : State → Prop} (hcleanup : ∀ round s, K s → K (self.cleanup round s))
    {input : Input} (h : K ((self.handle input).exec s).2) (round : ℕ) :
    K (self.iterate round input s).1 := by
  unfold iterate
  split
  · next heq =>
    rw [heq] at h
    exact h
  · next heq =>
    rw [heq] at h
    exact hcleanup _ _ h

/-- **The invariant rule for runs of a primary**: a property that all handlers keep,
that survives cleaning up and that the other tasks do not touch holds throughout, if at
each step the core is given what the rule for its handlers admits. -/
theorem Run.keeps {Good : Header → Prop} {Ready : Header → State → Prop} {I K : State → Prop}
    (h : Invariant self H Good Ready I K) (hholds : ∀ s, K s → Holds H s)
    (hcleanup : ∀ round s, K s → K (self.cleanup round s))
    (hsame : ∀ s s', SameCore s s' → Holds H s' → K s → K s') (hinit : K State.new)
    (hadmits : ∀ m a input m₀, (m, a) ∈ es → m.input a = some (input, m₀) → InFlight H m →
      K m.core → Invariant.Admits self H Good I m.core input)
    (hrun : self.Run es n) : InFlight H n ∧ K n.core := by
  refine System.Run.invariant (P := fun es n => (∀ m a input m₀, (m, a) ∈ es →
      m.input a = some (input, m₀) → InFlight H m → K m.core →
      Invariant.Admits self H Good I m.core input) → InFlight H n ∧ K n.core)
    ?_ ?_ hrun hadmits
  · intro _
    refine ⟨⟨hholds _ hinit, ?_, ?_, ?_, ?_⟩, hinit⟩ <;>
      exact fun x hx => absurd hx List.not_mem_nil
  · intro es n a n' _ ih hnext hadmits
    obtain ⟨hflight, hK⟩ := ih fun m b input m₀ hmem => hadmits m b input m₀
      (List.mem_cons_of_mem _ hmem)
    obtain ⟨input, n₀, hinput, _, rfl⟩ | hbackground := next_cases hnext
    · have hadm := hadmits n a input n₀ List.mem_cons_self hinput hflight hK
      have hK' : K (self.turn n₀ input).core := by
        show K (self.iterate n₀.consensusRound input n₀.core).1
        rw [(Primary.of_input hinput).1]
        exact iterate_keeps hcleanup (h.handle hadm) _
      have hflight₀ := (hflight.input hinput).1
      exact ⟨⟨hholds _ hK', hflight₀.headerWaiter, hflight₀.certificateWaiter,
        hflight₀.rxHeaderWaiter, hflight₀.rxCertificateWaiter⟩, hK'⟩
    · have hflight' := hflight.background hbackground
      exact ⟨hflight', hsame _ _ (Primary.sameCore_of_background hbackground) hflight'.core hK⟩

omit [Crypto] in
theorem Holds.cleanup (h : Holds H s) (round : ℕ) : Holds H (self.cleanup round s) := by
  unfold Core.cleanup
  split
  · exact ⟨h.currentHeader, h.txHeaderWaiter, h.txCertificateWaiter⟩
  · exact h

theorem Tidy.cleanup (h : Tidy H s) (round : ℕ) : Tidy H (self.cleanup round s) := by
  refine ⟨Holds.cleanup h.holds round, ?_⟩
  unfold Core.cleanup
  split <;> exact h.keyed

theorem Tidy.sameCore (h : Tidy H s) (hsame : SameCore s s') (hholds : Holds H s') :
    Tidy H s' := by
  refine ⟨hholds, fun key record hlookup => ?_⟩
  rw [hsame.txConsensus]
  obtain hold | hnew := hsame.store key record hlookup
  · exact h.keyed key record hold
  · rw [hnew.1]
    exact hnew.2

/-! ## §3. What is let in. -/

/-- The headers that are let in during a run: the one the core starts with, those of the
proposer, and of the others those that are not stopped at the door. -/
def letIn (core : Core) (es : History) : Set Header :=
  {h | h ∈ headers es ∧ (h = Header.default ∨ .ownHeader h ∈ es.map Prod.snd ∨
    h.Admitted core.committee)}

instance : DecidablePred (· ∈ self.letIn es) := fun h =>
  inferInstanceAs (Decidable (h ∈ headers es ∧ (h = Header.default ∨
    .ownHeader h ∈ es.map Prod.snd ∨ h.Admitted self.committee)))

theorem default_mem_letIn : Header.default ∈ self.letIn es :=
  ⟨List.mem_cons_self, Or.inl rfl⟩

theorem letIn_mono {later earlier : History} (hh : h ∈ self.letIn earlier) :
    h ∈ self.letIn (later ++ earlier) := by
  obtain ⟨hcame, hroute⟩ := hh
  refine ⟨?_, hroute.imp_right (Or.imp_left fun hown => ?_)⟩
  · unfold headers at hcame ⊢
    rw [List.flatMap_append]
    exact (List.mem_cons.mp hcame).elim (fun heq => List.mem_cons.mpr (Or.inl heq))
      (fun hcame => List.mem_cons_of_mem _ (List.mem_append_right _ hcame))
  · rw [List.map_append]
    exact List.mem_append_right _ hown

section

variable {m m₀ : Primary} {a : Primary.Action} {input : Input} (hmem : (m, a) ∈ es)
  (hinput : m.input a = some (input, m₀))

include hmem hinput

theorem letIn_of_header (heq : input = .message (.header h))
    (hok : self.sanitizeHeader s h = .ok ()) : h ∈ self.letIn es := by
  refine ⟨Primary.mem_headers_of_input hmem hinput h (Or.inl heq), Or.inr (Or.inr (Or.inl ?_))⟩
  unfold sanitizeHeader at hok
  exact (ensure_bind_eq_ok.mp hok).2

theorem letIn_of_certificate {c : Certificate} (heq : input = .message (.certificate c))
    (hok : self.sanitizeCertificate s c = .ok ()) : c.header ∈ self.letIn es := by
  refine ⟨Primary.mem_headers_of_input hmem hinput _ (Or.inr (Or.inl ⟨c, heq, rfl⟩)),
    Or.inr (Or.inr ?_)⟩
  unfold sanitizeCertificate at hok
  exact Certificate.admitted_of_verify (ensure_bind_eq_ok.mp hok).2

theorem letIn_of_own (heq : input = .ownHeader h) : h ∈ self.letIn es := by
  refine ⟨Primary.mem_headers_of_input hmem hinput h (Or.inr (Or.inr heq)), Or.inr (Or.inl ?_)⟩
  obtain rfl := heq
  obtain ⟨⟩ := Primary.feeds_of_input hinput
  exact List.mem_map_of_mem hmem

end

/-! ## §4. Causal order. -/

/-- Every certificate of a list comes after its parents. -/
def Causal (self : Core) (H : Set Header) (store : Store) (sent : List Certificate) : Prop :=
  ∀ l₁ c l₂, sent = l₁ ++ c :: l₂ → ∀ p ∈ c.header.parents, self.Accounted H store l₁ p

theorem Accounted.mono {store store' : Store} {sent : List Certificate} {p : Digest}
    (hkeys : ∀ key, (store.lookup key).isSome → (store'.lookup key).isSome)
    (hp : self.Accounted H store sent p) : self.Accounted H store' sent p :=
  hp.imp_right (Or.imp_left fun ⟨x, hx, hid, hstored⟩ => ⟨x, hx, hid, hkeys _ hstored⟩)

theorem Causal.mono {store store' : Store} {sent : List Certificate}
    (hkeys : ∀ key, (store.lookup key).isSome → (store'.lookup key).isSome)
    (h : self.Causal H store sent) : self.Causal H store' sent :=
  fun l₁ c l₂ heq p hp => (h l₁ c l₂ heq p hp).mono hkeys

theorem Causal.append {store : Store} {sent : List Certificate} {c : Certificate}
    (h : self.Causal H store sent)
    (hc : ∀ p ∈ c.header.parents, self.Accounted H store sent p) :
    self.Causal H store (sent ++ [c]) := by
  intro l₁ x l₂ heq
  obtain hnil | ⟨l₃, y, hlast⟩ := List.eq_nil_or_concat' l₂
  · rw [hnil] at heq
    obtain ⟨hl, hx⟩ := List.append_inj' heq rfl
    obtain rfl := (List.cons.inj hx).1
    rw [← hl]
    exact hc
  · have hsplit : sent ++ [c] = (l₁ ++ x :: l₃) ++ [y] := by rw [heq, hlast]; simp
    exact h l₁ x l₃ (List.append_inj' hsplit rfl).1

/-- The invariant of the core: tidy, and what it sent is in causal order. -/
def Delivers (self : Core) (H : Set Header) (s : State) : Prop :=
  Tidy H s ∧ self.Causal H s.store s.txConsensus

theorem stable_delivers : Stable H (self.Delivers H) := by
  intro s s' hquiet hs
  refine ⟨stable_tidy s s' hquiet hs.1, ?_⟩
  rw [hquiet.txConsensus, hquiet.store]
  exact hs.2

theorem invariant_delivers :
    Invariant self H (fun _ => True) (fun _ _ => True) (self.Delivers H) (self.Delivers H) where
  stable := stable_delivers
  stable_after := stable_delivers
  stable_ready := fun _ _ _ _ _ => trivial
  after := fun _ => id
  current := fun s hs => ⟨hs.1.holds.currentHeader, fun _ => trivial⟩
  orphan := fun _ _ => trivial
  passed := fun _ _ _ _ _ => ⟨trivial, fun _ => trivial⟩
  header := fun h hh => Triple.modify fun s hs =>
    ⟨⟨hs.1.1.write hh, hs.1.2.mono fun _ => AList.isSome_lookup_insert⟩, trivial⟩
  vote := fun h hh => Triple.modifyGet fun s hs =>
    ⟨⟨hs.1.1.voting _ s.cast, hs.1.2⟩, fun _ => ⟨hs.1.1.voting _ _, hs.1.2⟩⟩
  accept := fun c hc _ => by
    refine acceptCertificate_spec stable_delivers fun s hs => ⟨hs.1.1.accept c, ?_⟩
    exact (hs.1.2.append fun p hp => hs.1.1.keyed.of_hasParent (hs.2 p hp)).mono
      fun _ => AList.isSome_lookup_insert

/-- In every run the headers on their way were let in, and the core sends certificates to
consensus in causal order, the ids of these headers left aside. -/
theorem Run.delivers (hrun : self.Run es n) (hsub : ∀ h ∈ self.letIn es, h ∈ H) :
    InFlight H n ∧ self.Delivers H n.core := by
  refine Run.keeps invariant_delivers (fun s hs => hs.1.holds) ?_ ?_ ?_ ?_ hrun
  · intro round s hs
    refine ⟨hs.1.cleanup round, ?_⟩
    unfold Core.cleanup
    split <;> exact hs.2
  · intro s s' hsame hholds hs
    refine ⟨hs.1.sameCore hsame hholds, ?_⟩
    rw [hsame.txConsensus]
    exact hs.2.mono hsame.keys
  · refine ⟨Tidy.new (hsub _ default_mem_letIn), ?_⟩
    intro l₁ c l₂ heq
    have hlength := congrArg List.length heq
    simp [State.new] at hlength
  · intro m a input m₀ hmem hinput hflight hs
    refine Invariant.Admits.of (fun _ => hs) (hflight.input hinput).2
      (fun x hx hok => hsub x (letIn_of_header hmem hinput hx hok))
      (fun c hc hok => hsub c.header (letIn_of_certificate hmem hinput hc hok))
      (fun _ _ _ _ => trivial) (fun x hx => ?_)
    have hx := hsub x (letIn_of_own hmem hinput hx)
    exact ⟨⟨⟨⟨hx, hs.1.holds.txHeaderWaiter, hs.1.holds.txCertificateWaiter⟩,
      hs.1.keyed⟩, hs.2⟩, hx⟩

/-- **Consensus is fed in causal order**: if no certificate names as a parent the id of a
header that was let in and under which something is stored, then every parent of a
certificate sent to consensus is genesis or was sent before it. -/
theorem consensus_fed_causally (hrun : self.Run es n)
    (hids : ∀ h ∈ self.letIn es, (n.core.store.lookup h.id.toVec).isSome →
      ∀ c ∈ n.core.txConsensus, h.id ∉ c.header.parents)
    (l₁ : List Certificate) (c : Certificate) (l₂ : List Certificate)
    (hsent : n.core.txConsensus = l₁ ++ c :: l₂) :
    ∀ p ∈ c.header.parents, (∃ g ∈ Certificate.genesis self.committee, g.digest = p) ∨
      ∃ c' ∈ l₁, c'.digest = p := by
  intro p hp
  have hc : c ∈ n.core.txConsensus := by
    rw [hsent]
    exact List.mem_append_right _ List.mem_cons_self
  obtain hgenesis | ⟨h, hh, rfl, hstored⟩ | hearlier :=
    (Run.delivers hrun fun _ => id).2.2 l₁ c l₂ hsent p hp
  · exact Or.inl hgenesis
  · exact absurd hp (hids h hh hstored c hc)
  · exact Or.inr hearlier

/-- A header that is stopped at the door, with the digest of a certificate for its id; three
certificates of the first round, that one among them, and one of the second. -/
def sampleDelivery : List Primary.Action :=
  .message (.header { sampleHeader 1 1 101 [1, 2, 3] with id := sampleDigest 1 0 }) ::
    [sampleCertificate 1 0 [1, 2, 3], sampleCertificate 1 1 [1, 2, 3],
      sampleCertificate 1 2 [1, 2, 3], sampleCertificate 2 0 [0, 1, 2]].map
        (fun c => .message (.certificate c))

omit [Crypto] in
set_option maxRecDepth 10000 in
theorem exists_deliveryRun :
    letI := sampleCrypto
    ∃ es n, sampleCore.Run es n ∧
      (∀ h ∈ headers es, h ∈ sampleCore.letIn es → (n.core.store.lookup h.id.toVec).isSome →
        ∀ c ∈ n.core.txConsensus, h.id ∉ c.header.parents) ∧
      n.core.txConsensus.length = 4 :=
  let _ := sampleCrypto
  let ⟨es, n, hrun, hcheck⟩ := System.exec_check sampleCore.system sampleDelivery
    (fun es n => decide ((∀ h ∈ headers es, h ∈ sampleCore.letIn es →
        (n.core.store.lookup h.id.toVec).isSome →
          ∀ c ∈ n.core.txConsensus, h.id ∉ c.header.parents) ∧
      n.core.txConsensus.length = 4)) (by decide +kernel)
  ⟨es, n, hrun, of_decide_eq_true hcheck⟩

omit [Crypto] in
/-- All four are sent, each after its parents. -/
theorem consensus_fed_causally_sample :
    letI := sampleCrypto
    ∃ es n, sampleCore.Run es n ∧ n.core.txConsensus.length = 4 ∧
      ∀ l₁ c l₂, n.core.txConsensus = l₁ ++ c :: l₂ → ∀ p ∈ c.header.parents,
        (∃ g ∈ Certificate.genesis sampleCore.committee, g.digest = p) ∨
          ∃ c' ∈ l₁, c'.digest = p := by
  let _ := sampleCrypto
  obtain ⟨es, n, hrun, hids, hlength⟩ := exists_deliveryRun
  exact ⟨es, n, hrun, hlength, consensus_fed_causally hrun fun h hh => hids h hh.1 hh⟩

end Core

end Mrv
