/-
  Mrv.Executor.Window — what horizons and frozen verdicts depend on.

  A state gets its horizon from the certificate that completes a quorum of authors in a
  round, or from `apply_window_cap`, which runs after a whole batch.  So a horizon is
  within the window exactly if no certificate completes a quorum outside it
  (`window_capped_iff`).

  A horizon never changes, but the counts up to it do: an author whose certificate of an
  old round is committed late is counted late.  A verdict changes exactly when such an
  author tips it (`verdict_frozen_iff`).
-/
import Mrv.Executor.Evidence

namespace Mrv

/-! ## §1. The window of a state. -/

namespace AufState

/-- The horizon is within the window. -/
def Windowed (windowCap : ℕ) (st : AufState) : Prop :=
  ∀ h, st.horizon = some h → st.round ≤ h ∧ h ≤ saturatingAdd st.round windowCap

variable {st : AufState} {windowCap : ℕ}

/-- Completing a quorum within the window keeps the horizon within it. -/
theorem windowed_see_iff (h : Windowed windowCap st) (reachThreshold round : ℕ)
    (author : PublicKey) :
    Windowed windowCap (st.see reachThreshold round author) ↔
      (st.Hits reachThreshold round author →
        st.round ≤ round ∧ round ≤ saturatingAdd st.round windowCap) := by
  rw [see_eq]
  unfold Windowed at h ⊢
  dsimp only
  split
  · next hhits => simp [hhits]
  · next hmisses => simpa [hmisses] using h

theorem Windowed.cap {core : MrvExecutor} (h : Windowed core.windowCap st)
    (hround : st.round < 2 ^ 64) (frontierRound : ℕ) :
    Windowed core.windowCap (core.capState frontierRound st) := by
  unfold MrvExecutor.capState
  dsimp only
  split
  · exact h
  · split
    · intro k hk
      obtain rfl := Option.some.inj hk
      refine ⟨?_, le_refl _⟩
      show st.round ≤ min (st.round + core.windowCap) (2 ^ 64 - 1)
      omega
    · exact h

end AufState

variable [Crypto]

namespace MrvExecutor

variable {core : MrvExecutor} {s s' : State} {c : Certificate} {a b d : Digest}

/-! ## §2. Recording a certificate. -/

/-- The traversal for a certificate that is recorded next gets to a digest. -/
def State.SeenBy (s : State) (c : Certificate) (d : Digest) : Prop :=
  Sees (s.store.insert c.digest c)
    ((s.activate c.digest c.round).activeFloorRound.getD c.round) c.digest d

/-- The states after a certificate was recorded. -/
theorem Registers.lookup_eq_some_iff (h : Registers core s c s') {st' : AufState} :
    s'.aufStates.lookup d = some st' ↔
      ∃ st, (s.activate c.digest c.round).aufStates.lookup d = some st ∧
        (s.SeenBy c d ∧ st' = st.see core.reachThreshold c.round c.origin ∨
          ¬ s.SeenBy c d ∧ st' = st) := by
  have hsees : Sees s'.store (s'.activeFloorRound.getD c.round) c.digest d ↔ s.SeenBy c d := by
    rw [h.store, h.floor]
    rfl
  by_cases hseen : s.SeenBy c d
  · rw [h.seen d (hsees.mpr hseen), Option.map_eq_some_iff]
    simp [hseen, eq_comm]
  · rw [h.unseen d (fun hs => hseen (hsees.mp hs))]
    simp [hseen]

/-! ## §3. Horizons within the window. -/

/-- All horizons are within the window. -/
def Windowed (core : MrvExecutor) (s : State) : Prop :=
  ∀ d st, s.aufStates.lookup d = some st → st.Windowed core.windowCap

/-- The certificate, recorded next, completes no quorum outside the window. -/
def Punctual (core : MrvExecutor) (s : State) (c : Certificate) : Prop :=
  ∀ d st, (s.activate c.digest c.round).aufStates.lookup d = some st → s.SeenBy c d →
    st.Hits core.reachThreshold c.round c.origin →
      st.round ≤ c.round ∧ c.round ≤ saturatingAdd st.round core.windowCap

omit [Crypto] in
theorem windowed_activate (hs : Windowed core s) (digest : Digest) (round : ℕ) {st : AufState}
    (hst : (s.activate digest round).aufStates.lookup d = some st) :
    st.Windowed core.windowCap := by
  rw [lookup_activate] at hst
  split at hst
  · rw [← Option.some.inj hst]
    exact fun h hh => absurd hh (Option.some_ne_none h).symm
  · exact hs d st hst

theorem windowed_register_iff (hs : Windowed core s) (h : Registers core s c s') :
    Windowed core s' ↔ Punctual core s c := by
  constructor
  · intro hs' d st hst hseen
    have hlookup := h.lookup_eq_some_iff.mpr ⟨st, hst, Or.inl ⟨hseen, rfl⟩⟩
    exact (AufState.windowed_see_iff (windowed_activate hs _ _ hst) _ _ _).mp (hs' d _ hlookup)
  · intro hpunctual d st' hst'
    obtain ⟨st, hst, ⟨hseen, rfl⟩ | ⟨_, rfl⟩⟩ := h.lookup_eq_some_iff.mp hst'
    · exact (AufState.windowed_see_iff (windowed_activate hs _ _ hst) _ _ _).mpr
        (hpunctual d st hst hseen)
    · exact windowed_activate hs _ _ hst

/-- The round of a state is that of a certificate that was recorded. -/
theorem Passes.round_eq {ops : Operations} {g : Stage} (h : core.Passes ops g) {st : AufState}
    (hst : g.state.aufStates.lookup d = some st) :
    ∃ t c, (t, Operation.register c) ∈ ops ∧ st.round = c.round := by
  refine System.Run.invariant (P := fun ops (g : Stage) => ∀ d st,
    g.state.aufStates.lookup d = some st →
      ∃ t c, (t, Operation.register c) ∈ ops ∧ st.round = c.round) ?_ ?_ h d st hst
  · exact fun d st hst => absurd hst (by simp [stages, State.new])
  · intro ops t op t' _ ih (hnext : core.operate t op = some t') d st hst
    -- a state keeps the round it was made with
    have hkept : ∀ d st, t.state.aufStates.lookup d = some st →
        ∃ u c, (u, Operation.register c) ∈ (t, op) :: ops ∧ st.round = c.round := by
      intro d st hst
      obtain ⟨u, c, hmem, hround⟩ := ih d st hst
      exact ⟨u, c, List.mem_cons_of_mem _ hmem, hround⟩
    cases op with
    | register c =>
        obtain ⟨s', hs', rfl⟩ := operate_register hnext
        refine hs'.forall_states (Q := fun _ st => ∃ u c', (u, Operation.register c') ∈
          (t, Operation.register c) :: ops ∧ st.round = c'.round) ?_ ?_ hkept d st hst
        · exact ⟨t, c, List.mem_cons_self, rfl⟩
        · intro d st h
          rw [AufState.round_see]
          exact h
    | record b σ =>
        obtain ⟨_, rfl⟩ := operate_record hnext
        rw [recorded_lookup] at hst
        obtain ⟨st₀, hst₀, rfl⟩ := Option.map_eq_some_iff.mp hst
        rw [round_capState]
        exact hkept d st₀ hst₀
    | drop =>
        obtain ⟨_, k, es, _, rfl⟩ := operate_drop hnext
        exact hkept d st hst
    | final σ =>
        obtain ⟨_, k, ms, sorted, s', hfinal, rfl⟩ := operate_final hnext
        exact hkept d st (hfinal.lookup_of_some hst)

/-- Only recording a certificate can set a horizon outside the window. -/
theorem windowed_operate_iff {g g' : Stage} {op : Operation} (h : core.operate g op = some g')
    (hrounds : ∀ d st, g.state.aufStates.lookup d = some st → st.round < 2 ^ 64)
    (hs : Windowed core g.state) :
    Windowed core g'.state ↔ ∀ c, op = .register c → Punctual core g.state c := by
  cases op with
  | register c =>
      obtain ⟨s', hs', rfl⟩ := operate_register h
      rw [windowed_register_iff hs hs']
      exact ⟨fun hc c' heq => Operation.register.inj heq ▸ hc, fun hc => hc c rfl⟩
  | record b σ =>
      obtain ⟨_, rfl⟩ := operate_record h
      refine iff_of_true (fun d st hst => ?_) (fun c heq => Operation.noConfusion heq)
      rw [recorded_lookup] at hst
      obtain ⟨st₀, hst₀, rfl⟩ := Option.map_eq_some_iff.mp hst
      exact (hs d st₀ hst₀).cap (hrounds d st₀ hst₀) _
  | drop =>
      obtain ⟨_, k, es, _, rfl⟩ := operate_drop h
      exact iff_of_true hs fun c heq => Operation.noConfusion heq
  | final σ =>
      obtain ⟨_, k, ms, sorted, s', hfinal, rfl⟩ := operate_final h
      exact iff_of_true (fun d st hst => hs d st (hfinal.lookup_of_some hst))
        fun c heq => Operation.noConfusion heq

/-- **The observation window is capped** throughout exactly if no certificate that is
recorded completes a quorum of a state outside its window. -/
theorem window_capped_iff {ops : Operations} {g : Stage} (h : core.Passes ops g)
    (hrounds : ∀ c ∈ g.certificates, c.round < 2 ^ 64) :
    (Windowed core g.state ∧ ∀ t op, (t, op) ∈ ops → Windowed core t.state) ↔
      ∀ t c, (t, Operation.register c) ∈ ops → Punctual core t.state c := by
  have hinit : Windowed core core.stages.init.state := by
    intro d st hst
    exact absurd hst (by simp [stages, State.new])
  have hiff := System.Run.forall_iff (I := fun g : Stage => Windowed core g.state)
    (C := fun t op => ∀ c, op = .register c → Punctual core t.state c)
    (D := fun g : Stage => ∀ c ∈ g.certificates, c.round < 2 ^ 64) hinit ?_ ?_ h hrounds
  · rw [hiff]
    exact ⟨fun hall t c hmem => hall t _ hmem c rfl, fun hall t op hmem c hop => by
      rw [hop] at hmem
      exact hall t c hmem⟩
  · intro t op g hnext hD c hc
    exact hD c ((operate_extends hnext).2.subset hc)
  · intro ops t op g hops hnext hD ht
    refine windowed_operate_iff hnext (fun d st hst => ?_) ht
    obtain ⟨u, c, hmem, hround⟩ := Passes.round_eq hops hst
    rw [hround]
    exact hD c ((operate_extends hnext).2.subset (Passes.mem_certificates hops hmem))

omit [Crypto] in
/-- Both certificates of the contest become mature within the window. -/
theorem window_capped_iff_sample :
    letI := sampleCrypto
    ∃ ops g, (spawn 4 2 none).Passes ops g ∧ g.certificates = sampleContest ∧
      ((Windowed (spawn 4 2 none) g.state ∧
          ∀ t op, (t, op) ∈ ops → Windowed (spawn 4 2 none) t.state) ↔
        ∀ t c, (t, Operation.register c) ∈ ops → Punctual (spawn 4 2 none) t.state c) := by
  let _ := sampleCrypto
  obtain ⟨ops, g, _, _, _, hops, hcs, _⟩ := exists_contestStage
  refine ⟨ops, g, hops, hcs, window_capped_iff hops ?_⟩
  rw [hcs]
  decide

/-- A deep batch: author 3's certificate of round 1 is seen by one author in round 2 and by
three in round 3. -/
def sampleDeep : List Certificate :=
  [Certificate.sample 1 0 [], Certificate.sample 1 1 [], Certificate.sample 1 2 [],
    Certificate.sample 1 3 [], Certificate.sample 2 0 [0, 1, 2], Certificate.sample 2 1 [0, 1, 2],
    Certificate.sample 2 2 [0, 1, 2], Certificate.sample 2 3 [0, 1, 3],
    Certificate.sample 3 0 [0, 1, 3], Certificate.sample 3 1 [0, 1, 3],
    Certificate.sample 3 2 [0, 1, 3]]

/-- Rounds do not decrease within a batch. -/
def Ascending (bs : List CommittedSubDag) : Prop :=
  ∀ b ∈ bs, b.certificates.Pairwise (fun x y => x.round ≤ y.round)

instance (bs : List CommittedSubDag) : Decidable (Ascending bs) :=
  inferInstanceAs (Decidable (∀ b ∈ bs, b.certificates.Pairwise (fun x y => x.round ≤ y.round)))

omit [Crypto] in
set_option maxRecDepth 10000 in
theorem exists_deepRun :
    letI := sampleCrypto
    ∃ es s st, (spawn 4 1 none).Run es s ∧ Fresh (certificates (received es)) ∧
      Ascending (received es) ∧ s.aufStates.lookup (sampleDigest 1 3) = some st ∧
      st.horizon = some 3 ∧ st.round = 1 :=
  let _ := sampleCrypto
  let ⟨es, s, hrun, hcheck⟩ := System.exec_check (spawn 4 1 none).system
    [sampleDelivery 0 sampleDeep]
    (fun es s => decide (Fresh (certificates (received es)) ∧ Ascending (received es) ∧
      (s.aufStates.lookup (sampleDigest 1 3)).any (fun st =>
        decide (st.horizon = some 3 ∧ st.round = 1)) = true)) (by decide +kernel)
  let ⟨hfresh, hascending, hany⟩ := of_decide_eq_true hcheck
  let ⟨st, hst, h⟩ := (Option.any_eq_true _ _).mp hany
  ⟨es, s, st, hrun, hfresh, hascending, hst, of_decide_eq_true h⟩

omit [Crypto] in
/-- In a deep batch a quorum is completed after the window; capping comes too late. -/
theorem window_exceeded :
    letI := sampleCrypto
    ¬ ∀ windowCap es s, 1 ≤ windowCap → (spawn 4 windowCap none).Run es s →
      Fresh (certificates (received es)) → Ascending (received es) →
      ∀ d st h, s.aufStates.lookup d = some st → st.horizon = some h →
        st.round ≤ h ∧ h ≤ saturatingAdd st.round windowCap := by
  let _ := sampleCrypto
  intro hclaim
  obtain ⟨es, s, st, hrun, hfresh, hascending, hst, hhorizon, hround⟩ := exists_deepRun
  obtain ⟨_, hle⟩ := hclaim 1 es s (le_refl 1) hrun hfresh hascending _ st 3 hst hhorizon
  rw [hround] at hle
  exact absurd hle (by decide)

/-! ## §4. Leads. -/

/-- The first digest leads by the threshold in one of the rounds. -/
def Leads (core : MrvExecutor) (s : State) (rounds : List ℕ) (a b : Digest) : Prop :=
  ∃ r ∈ rounds, core.deltaThreshold ≤ lead s a b r

/-- One more author that sees the first digest in a round tips the verdict: the first lead by
the threshold is gained, or the last one of the second digest is lost. -/
def Tips (core : MrvExecutor) (s : State) (rounds : List ℕ) (round : ℕ) (a b : Digest) : Prop :=
  round ∈ rounds ∧
    (lead s a b round + 1 = core.deltaThreshold ∧ ¬ Leads core s rounds a b ∨
      lead s b a round = core.deltaThreshold ∧
        ∀ r ∈ rounds, r ≠ round → ¬ core.deltaThreshold ≤ lead s b a r)

variable {rounds : List ℕ} {round : ℕ}

omit [Crypto] in
theorem verdict_eq_aBetter (hdelta : 0 < core.deltaThreshold) :
    core.verdict s a b rounds = .aBetter ↔ Leads core s rounds a b ∧ ¬ Leads core s rounds b a := by
  rw [verdict_eq_aBetter_iff hdelta]
  unfold Leads
  push Not
  rfl

omit [Crypto] in
/-- A verdict is known from who leads. -/
theorem verdict_eq_iff (hdelta : 0 < core.deltaThreshold) :
    core.verdict s' a b rounds = core.verdict s a b rounds ↔
      (Leads core s' rounds a b ∧ ¬ Leads core s' rounds b a ↔
        Leads core s rounds a b ∧ ¬ Leads core s rounds b a) ∧
      (Leads core s' rounds b a ∧ ¬ Leads core s' rounds a b ↔
        Leads core s rounds b a ∧ ¬ Leads core s rounds a b) := by
  have hthree : ∀ o o' : OrderingRelation, o = o' ↔
      (o = .aBetter ↔ o' = .aBetter) ∧ (o = .bBetter ↔ o' = .bBetter) := by
    intro o o'
    cases o <;> cases o' <;> simp
  rw [hthree, verdict_eq_bBetter_iff hdelta, verdict_eq_bBetter_iff hdelta,
    verdict_eq_aBetter hdelta, verdict_eq_aBetter hdelta, verdict_eq_aBetter hdelta,
    verdict_eq_aBetter hdelta]

omit [Crypto] in
theorem verdict_eq_comm (hdelta : 0 < core.deltaThreshold) :
    core.verdict s' a b rounds = core.verdict s a b rounds ↔
      core.verdict s' b a rounds = core.verdict s b a rounds := by
  rw [verdict_eq_iff hdelta, verdict_eq_iff hdelta]
  exact and_comm

omit [Crypto] in
theorem verdict_congr (hdelta : 0 < core.deltaThreshold)
    (hlead : ∀ r, lead s' a b r = lead s a b r) :
    core.verdict s' a b rounds = core.verdict s a b rounds := by
  have hlead' : ∀ r, lead s' b a r = lead s b a r := by
    intro r
    rw [lead_flip s' a b, lead_flip s a b, hlead r]
  rw [verdict_eq_iff hdelta]
  unfold Leads
  simp only [hlead, hlead', and_self]

omit [Crypto] in
/-- A lead that grows by one in a round: the threshold is reached there, or nothing changes. -/
theorem leads_succ_iff (hround : lead s' a b round = lead s a b round + 1)
    (hother : ∀ r, r ≠ round → lead s' a b r = lead s a b r) :
    Leads core s' rounds a b ↔ Leads core s rounds a b ∨
      round ∈ rounds ∧ lead s' a b round = core.deltaThreshold := by
  constructor
  · rintro ⟨r, hr, hlead⟩
    by_cases heq : r = round
    · subst heq
      by_cases hbefore : core.deltaThreshold ≤ lead s a b r
      · exact Or.inl ⟨r, hr, hbefore⟩
      · exact Or.inr ⟨hr, by omega⟩
    · exact Or.inl ⟨r, hr, by rwa [hother r heq] at hlead⟩
  · rintro (⟨r, hr, hlead⟩ | ⟨hr, hlead⟩)
    · refine ⟨r, hr, ?_⟩
      by_cases heq : r = round
      · rw [heq] at hlead ⊢
        omega
      · rwa [hother r heq]
    · exact ⟨round, hr, by omega⟩

omit [Crypto] in
/-- Below the threshold in a round, only the other rounds count. -/
theorem not_leads_iff (hbelow : lead s' b a round < core.deltaThreshold)
    (hother : ∀ r, r ≠ round → lead s' b a r = lead s b a r) :
    (∀ r ∈ rounds, r ≠ round → ¬ core.deltaThreshold ≤ lead s b a r) ↔
      ¬ Leads core s' rounds b a := by
  constructor
  · rintro hnone ⟨r, hr, hlead⟩
    by_cases heq : r = round
    · rw [heq] at hlead
      omega
    · rw [hother r heq] at hlead
      exact hnone r hr heq hlead
  · intro hnone r hr hne hlead
    exact hnone ⟨r, hr, by rwa [hother r hne]⟩

omit [Crypto] in
/-- **One more author changes the verdict exactly when it tips it.** -/
theorem verdict_tips_iff (hdelta : 0 < core.deltaThreshold)
    (hround : lead s' a b round = lead s a b round + 1)
    (hother : ∀ r, r ≠ round → lead s' a b r = lead s a b r) :
    core.verdict s' a b rounds = core.verdict s a b rounds ↔
      ¬ Tips core s rounds round a b := by
  have hround' : lead s b a round = lead s' b a round + 1 := by
    rw [lead_flip s' a b, lead_flip s a b]
    omega
  have hother' : ∀ r, r ≠ round → lead s' b a r = lead s b a r := by
    intro r hr
    rw [lead_flip s' a b, lead_flip s a b, hother r hr]
  -- a lead of the first is gained in the round, or none
  have hgained : Leads core s' rounds a b ↔ Leads core s rounds a b ∨
      round ∈ rounds ∧ lead s a b round + 1 = core.deltaThreshold := by
    rw [← hround]
    exact leads_succ_iff hround hother
  -- a lead of the second is lost in the round, or none
  have hlost : Leads core s rounds b a ↔ Leads core s' rounds b a ∨
      round ∈ rounds ∧ lead s b a round = core.deltaThreshold :=
    leads_succ_iff hround' fun r hr => (hother' r hr).symm
  have hrest : lead s b a round = core.deltaThreshold →
      ((∀ r ∈ rounds, r ≠ round → ¬ core.deltaThreshold ≤ lead s b a r) ↔
        ¬ Leads core s' rounds b a) := fun hlead => not_leads_iff (by omega) hother'
  have hnotboth : lead s a b round + 1 = core.deltaThreshold →
      lead s b a round ≠ core.deltaThreshold := by
    rw [lead_flip s a b]
    omega
  rw [verdict_eq_iff hdelta, hgained, hlost]
  unfold Tips
  by_cases hmem : round ∈ rounds
  · by_cases hgain : lead s a b round + 1 = core.deltaThreshold
    · have hkept := hnotboth hgain
      by_cases hU : Leads core s rounds a b
      · simp [hmem, hgain, hkept, hU]
      · by_cases hD : Leads core s' rounds b a
        · simp [hmem, hgain, hkept, hU, hD]
        · simp [hmem, hgain, hkept, hU, hD]
    · by_cases hloss : lead s b a round = core.deltaThreshold
      · rw [hrest hloss]
        by_cases hD : Leads core s' rounds b a
        · simp [hmem, hgain, hloss, hD]
        · by_cases hU : Leads core s rounds a b
          · simp [hmem, hgain, hloss, hD, hU]
          · simp [hmem, hgain, hloss, hD, hU]
      · simp [hgain, hloss]
  · simp [hmem]

/-! ## §5. Verdicts after the horizons. -/

variable {stA stB : AufState} {horizonA horizonB : ℕ}

omit [Crypto] in
/-- `compare_pair` on mature states. -/
theorem comparePair_eq (ha : s.aufStates.lookup a = some stA) (hb : s.aufStates.lookup b = some stB)
    (hmA : stA.mature = true) (hmB : stB.mature = true) (hA : stA.horizon = some horizonA)
    (hB : stB.horizon = some horizonB) :
    core.comparePair s a b = some (core.verdict s a b (pairRounds stA stB horizonA horizonB)) := by
  simp only [comparePair, ha, hb, hmA, hmB, hA, hB]
  simp only [Bool.true_eq_false, or_self, if_false]
  split
  · next hle =>
    have hnil : pairRounds stA stB horizonA horizonB = [] := by
      unfold pairRounds
      rw [Nat.sub_eq_zero_of_le hle]
      rfl
    rw [hnil]
    rfl
  · rfl

omit [Crypto] in
theorem comparePair_immature (ha : s.aufStates.lookup a = some stA)
    (hb : s.aufStates.lookup b = some stB) (himmature : ¬ (stA.mature = true ∧ stB.mature = true)) :
    core.comparePair s a b = some .tie := by
  simp only [not_and_or, Bool.not_eq_true] at himmature
  simp only [comparePair, ha, hb, himmature]
  rfl

/-- The certificate, recorded next, adds an author to those counted for a digest. -/
def State.Gains (s : State) (c : Certificate) (d : Digest) : Prop :=
  s.SeenBy c d ∧ ∀ st, s.aufStates.lookup d = some st →
    c.origin ∉ (st.seenByRound.get c.round).getD ∅

open Classical in
/-- A state with a horizon only gets its count raised. -/
theorem Registers.lookup_of_horizon (h : Registers core s c s') {st : AufState} {k : ℕ}
    (hst : s.aufStates.lookup d = some st) (hk : st.horizon = some k) :
    ∃ st', s'.aufStates.lookup d = some st' ∧ st'.round = st.round ∧ st'.mature = st.mature ∧
      st'.horizon = some k ∧
      ∀ r, s'.seenCountAt d r =
        s.seenCountAt d r + if s.Gains c d ∧ r = c.round then 1 else 0 := by
  have hbefore : (s.activate c.digest c.round).aufStates.lookup d = some st := by
    rw [lookup_activate, if_neg, hst]
    rintro ⟨rfl, hnone⟩
    exact Option.some_ne_none st (hst.symm.trans hnone)
  by_cases hseen : s.SeenBy c d
  · have hsee := h.lookup_eq_some_iff.mpr ⟨st, hbefore, Or.inl ⟨hseen, rfl⟩⟩
    -- with a horizon the threshold is not looked at again
    have hmisses : ¬ st.Hits core.reachThreshold c.round c.origin := by
      intro hhits
      exact Option.some_ne_none k (hk.symm.trans hhits.2.1)
    refine ⟨_, hsee, AufState.round_see _ _ _ _, ?_, ?_, fun r => ?_⟩
    · rw [AufState.see_eq]
      simp [hmisses]
    · rw [AufState.see_eq]
      simpa [hmisses] using hk
    · rw [seenCountAt_eq hsee, seenCountAt_eq hst, AufState.get_see]
      have hgains : s.Gains c d ↔ c.origin ∉ (st.seenByRound.get c.round).getD ∅ := by
        unfold State.Gains
        rw [hst]
        simp [hseen]
      rw [hgains]
      by_cases hr : r = c.round
      · subst hr
        by_cases hmem : c.origin ∈ (st.seenByRound.get c.round).getD ∅
        · simp [hmem]
        · simp [hmem]
      · simp [hr]
  · have hkeep := h.lookup_eq_some_iff.mpr ⟨st, hbefore, Or.inr ⟨hseen, rfl⟩⟩
    refine ⟨st, hkeep, rfl, rfl, hk, fun r => ?_⟩
    rw [seenCountAt_eq hkeep, seenCountAt_eq hst]
    simp [State.Gains, hseen]

/-- The certificate, recorded next, tips the verdict on two mature states: in one of their
rounds it adds an author to one of them and not to the other, and the threshold is reached
for the first or given up for the last time. -/
def Disturbs (core : MrvExecutor) (s : State) (c : Certificate) (a b : Digest) : Prop :=
  ∃ stA stB horizonA horizonB,
    s.aufStates.lookup a = some stA ∧ s.aufStates.lookup b = some stB ∧
    stA.mature = true ∧ stB.mature = true ∧
    stA.horizon = some horizonA ∧ stB.horizon = some horizonB ∧
    (s.Gains c a ∧ ¬ s.Gains c b ∧
        Tips core s (pairRounds stA stB horizonA horizonB) c.round a b ∨
      s.Gains c b ∧ ¬ s.Gains c a ∧
        Tips core s (pairRounds stA stB horizonA horizonB) c.round b a)

open Classical in
omit [Crypto] in
/-- An author is added to the count of the first digest only. -/
theorem verdict_gain_iff [Crypto] (hdelta : 0 < core.deltaThreshold) (hgA : s.Gains c a)
    (hgB : ¬ s.Gains c b)
    (hcountA : ∀ r, s'.seenCountAt a r =
      s.seenCountAt a r + if s.Gains c a ∧ r = c.round then 1 else 0)
    (hcountB : ∀ r, s'.seenCountAt b r =
      s.seenCountAt b r + if s.Gains c b ∧ r = c.round then 1 else 0) :
    core.verdict s' a b rounds = core.verdict s a b rounds ↔
      ¬ Tips core s rounds c.round a b := by
  apply verdict_tips_iff hdelta
  · unfold lead
    rw [hcountA, hcountB]
    simp [hgA, hgB]
    omega
  · intro r hr
    unfold lead
    rw [hcountA, hcountB]
    simp [hr]

theorem comparePair_register_iff (hdelta : 0 < core.deltaThreshold) (h : Registers core s c s')
    (ha : s.aufStates.lookup a = some stA) (hb : s.aufStates.lookup b = some stB)
    (hA : stA.horizon = some horizonA) (hB : stB.horizon = some horizonB) :
    core.comparePair s' a b = core.comparePair s a b ↔ ¬ Disturbs core s c a b := by
  obtain ⟨stA', ha', hrA, hmA, hA', hcountA⟩ := h.lookup_of_horizon ha hA
  obtain ⟨stB', hb', hrB, hmB, hB', hcountB⟩ := h.lookup_of_horizon hb hB
  by_cases hmature : stA.mature = true ∧ stB.mature = true
  · have hrounds : pairRounds stA' stB' horizonA horizonB =
        pairRounds stA stB horizonA horizonB := by
      unfold pairRounds
      rw [hrA, hrB]
    have hdisturbs : Disturbs core s c a b ↔
        (s.Gains c a ∧ ¬ s.Gains c b ∧
            Tips core s (pairRounds stA stB horizonA horizonB) c.round a b ∨
          s.Gains c b ∧ ¬ s.Gains c a ∧
            Tips core s (pairRounds stA stB horizonA horizonB) c.round b a) := by
      constructor
      · rintro ⟨_, _, _, _, ha₁, hb₁, _, _, hA₁, hB₁, htips⟩
        obtain rfl := Option.some.inj (ha.symm.trans ha₁)
        obtain rfl := Option.some.inj (hb.symm.trans hb₁)
        obtain rfl := Option.some.inj (hA.symm.trans hA₁)
        obtain rfl := Option.some.inj (hB.symm.trans hB₁)
        exact htips
      · exact fun htips => ⟨stA, stB, horizonA, horizonB, ha, hb, hmature.1, hmature.2, hA, hB, htips⟩
    rw [hdisturbs, comparePair_eq ha hb hmature.1 hmature.2 hA hB,
      comparePair_eq ha' hb' (hmA.trans hmature.1) (hmB.trans hmature.2) hA' hB', hrounds,
      Option.some.injEq]
    -- an author that is new for both, or for none, shifts no lead
    by_cases hgA : s.Gains c a
    · by_cases hgB : s.Gains c b
      · refine iff_of_true (verdict_congr hdelta fun r => ?_) (by simp [hgA, hgB])
        unfold lead
        rw [hcountA, hcountB]
        simp [hgA, hgB]
      · rw [verdict_gain_iff hdelta hgA hgB hcountA hcountB]
        simp [hgA, hgB]
    · by_cases hgB : s.Gains c b
      · rw [verdict_eq_comm hdelta, verdict_gain_iff hdelta hgB hgA hcountB hcountA]
        simp [hgA, hgB]
      · refine iff_of_true (verdict_congr hdelta fun r => ?_) (by simp [hgA, hgB])
        unfold lead
        rw [hcountA, hcountB]
        simp [hgA, hgB]
  · have htie' : ¬ (stA'.mature = true ∧ stB'.mature = true) := by
      rw [hmA, hmB]
      exact hmature
    -- with an immature state the verdict is a tie before and after
    rw [comparePair_immature ha hb hmature, comparePair_immature ha' hb' htie']
    refine iff_of_true rfl ?_
    rintro ⟨_, _, _, _, ha₁, hb₁, hm₁, hm₂, _⟩
    obtain rfl := Option.some.inj (ha.symm.trans ha₁)
    obtain rfl := Option.some.inj (hb.symm.trans hb₁)
    exact hmature ⟨hm₁, hm₂⟩

/-- The digest has a state with a horizon. -/
def HasHorizon (s : State) (d : Digest) : Prop :=
  (s.aufStates.lookup d).bind AufState.horizon ≠ none

instance (s : State) (d : Digest) : Decidable (HasHorizon s d) :=
  inferInstanceAs (Decidable ((s.aufStates.lookup d).bind AufState.horizon ≠ none))

omit [Crypto] in
theorem hasHorizon_iff : HasHorizon s d ↔
    ∃ st k, s.aufStates.lookup d = some st ∧ st.horizon = some k := by
  unfold HasHorizon
  rw [Option.ne_none_iff_exists']
  simp only [Option.bind_eq_some_iff]
  exact ⟨fun ⟨k, st, hst, hk⟩ => ⟨st, k, hst, hk⟩, fun ⟨st, k, hst, hk⟩ => ⟨k, st, hst, hk⟩⟩

/-- Capping does not change a state with a horizon. -/
theorem recorded_of_horizon (core : MrvExecutor) (σ : HashOrder) (b : CommittedSubDag)
    {st : AufState} {k : ℕ} (hst : s.aufStates.lookup d = some st) (hk : st.horizon = some k) :
    (core.applyWindowCap σ (s.enqueue b)).aufStates.lookup d = some st := by
  rw [recorded_lookup, hst, Option.map_some]
  unfold capState
  rw [if_pos (by rw [hk]; exact Option.some_ne_none k)]

variable {t g u u' : Stage} {op : Operation}

/-- A state with a horizon keeps it while it is active. -/
theorem hasHorizon_operate (h : core.operate u op = some u') (hd : HasHorizon u.state d)
    (hactive : u'.state.aufStates.lookup d ≠ none) : HasHorizon u'.state d := by
  obtain ⟨st, k, hst, hk⟩ := hasHorizon_iff.mp hd
  rw [hasHorizon_iff]
  cases op with
  | register c =>
      obtain ⟨s', hs', rfl⟩ := operate_register h
      obtain ⟨st', hst', _, _, hk', _⟩ := hs'.lookup_of_horizon hst hk
      exact ⟨st', k, hst', hk'⟩
  | record b σ =>
      obtain ⟨_, rfl⟩ := operate_record h
      exact ⟨st, k, recorded_of_horizon core σ b hst hk, hk⟩
  | drop =>
      obtain ⟨_, _, _, _, rfl⟩ := operate_drop h
      exact ⟨st, k, hst, hk⟩
  | final σ =>
      obtain ⟨_, _, _, _, s', hfinal, rfl⟩ := operate_final h
      obtain ⟨st', hst'⟩ := Option.ne_none_iff_exists'.mp hactive
      obtain rfl := Option.some.inj (hst.symm.trans (hfinal.lookup_of_some hst'))
      exact ⟨st, k, hst', hk⟩

omit [Crypto] in
/-- `compare_pair` reads nothing but the two states. -/
theorem comparePair_congr (ha : s'.aufStates.lookup a = s.aufStates.lookup a)
    (hb : s'.aufStates.lookup b = s.aufStates.lookup b) :
    core.comparePair s' a b = core.comparePair s a b := by
  have hcount : ∀ d, s'.aufStates.lookup d = s.aufStates.lookup d →
      ∀ r, s'.seenCountAt d r = s.seenCountAt d r := by
    intro d hd r
    unfold State.seenCountAt
    rw [hd]
  unfold comparePair verdict
  rw [ha, hb]
  simp only [hcount a ha, hcount b hb]

/-- Only recording a certificate can change a verdict between two horizons. -/
theorem comparePair_operate_iff (hdelta : 0 < core.deltaThreshold)
    (h : core.operate u op = some u') (ha : HasHorizon u.state a) (hb : HasHorizon u.state b)
    (hactiveA : u'.state.aufStates.lookup a ≠ none)
    (hactiveB : u'.state.aufStates.lookup b ≠ none) :
    core.comparePair u'.state a b = core.comparePair u.state a b ↔
      ∀ c, op = .register c → ¬ Disturbs core u.state c a b := by
  obtain ⟨stA, horizonA, hstA, hA⟩ := hasHorizon_iff.mp ha
  obtain ⟨stB, horizonB, hstB, hB⟩ := hasHorizon_iff.mp hb
  cases op with
  | register c =>
      obtain ⟨s', hs', rfl⟩ := operate_register h
      rw [comparePair_register_iff hdelta hs' hstA hstB hA hB]
      exact ⟨fun hc c' heq => Operation.register.inj heq ▸ hc, fun hc => hc c rfl⟩
  | record batch σ =>
      obtain ⟨_, rfl⟩ := operate_record h
      refine iff_of_true (comparePair_congr ?_ ?_) (fun c heq => Operation.noConfusion heq)
      · rw [recorded_of_horizon core σ batch hstA hA, hstA]
      · rw [recorded_of_horizon core σ batch hstB hB, hstB]
  | drop =>
      obtain ⟨_, _, _, _, rfl⟩ := operate_drop h
      exact iff_of_true rfl fun c heq => Operation.noConfusion heq
  | final σ =>
      obtain ⟨_, _, _, _, s', hfinal, rfl⟩ := operate_final h
      have hkept : ∀ d, s'.aufStates.lookup d ≠ none →
          s'.aufStates.lookup d = u.state.aufStates.lookup d := by
        intro d hd
        obtain ⟨st, hst⟩ := Option.ne_none_iff_exists'.mp hd
        rw [hst, hfinal.lookup_of_some hst]
      exact iff_of_true (comparePair_congr (hkept a hactiveA) (hkept b hactiveB))
        fun c heq => Operation.noConfusion heq

/-- **When verdicts are frozen**: once two digests have horizons, `compare_pair` returns the
same verdict as long as both are active exactly if no certificate recorded meanwhile tips
the verdict. -/
theorem verdict_frozen_iff (committeeSize windowCap : ℕ) (capacity : Option ℕ)
    {earlier later : Operations}
    (ht : (spawn committeeSize windowCap capacity).Passes earlier t)
    (hg : (spawn committeeSize windowCap capacity).Passes (later ++ earlier) g)
    (ha : HasHorizon t.state a) (hb : HasHorizon t.state b)
    (hactive : ∀ u ∈ g :: later.map Prod.fst,
      u.state.aufStates.lookup a ≠ none ∧ u.state.aufStates.lookup b ≠ none) :
    let core := spawn committeeSize windowCap capacity
    (∀ u ∈ g :: later.map Prod.fst,
        core.comparePair u.state a b = core.comparePair t.state a b) ↔
      ∀ u c, (u, Operation.register c) ∈ later → ¬ Disturbs core u.state c a b := by
  intro core
  have hdelta := deltaThreshold_spawn committeeSize windowCap capacity
  -- the induction also carries that both keep their horizons
  have hloop : (HasHorizon g.state a ∧ HasHorizon g.state b) ∧
      ((∀ u ∈ g :: later.map Prod.fst,
          core.comparePair u.state a b = core.comparePair t.state a b) ↔
        ∀ u c, (u, Operation.register c) ∈ later → ¬ Disturbs core u.state c a b) := by
    induction later generalizing g with
    | nil =>
        obtain rfl := System.Run.unique ht hg
        exact ⟨⟨ha, hb⟩, by simp⟩
    | cons e later ih =>
        obtain ⟨u, op⟩ := e
        cases hg with
        | step hu hnext =>
            rw [List.map_cons, List.forall_mem_cons] at hactive
            obtain ⟨⟨hua, hub⟩, hiff⟩ := ih hu hactive.2
            refine ⟨⟨hasHorizon_operate hnext hua hactive.1.1,
              hasHorizon_operate hnext hub hactive.1.2⟩, ?_⟩
            have hstep := comparePair_operate_iff hdelta hnext hua hub hactive.1.1 hactive.1.2
            rw [List.map_cons, List.forall_mem_cons]
            constructor
            · rintro ⟨hg, hall⟩ v c hmem
              have hu' := hall u List.mem_cons_self
              obtain heq | hmem := List.mem_cons.mp hmem
              · obtain ⟨rfl, hop⟩ := Prod.mk.inj heq
                exact hstep.mp (hg.trans hu'.symm) c hop.symm
              · exact hiff.mp hall v c hmem
            · intro hall
              have hearlier := hiff.mpr fun v c hmem => hall v c (List.mem_cons_of_mem _ hmem)
              refine ⟨(hstep.mpr fun c hop => ?_).trans (hearlier u List.mem_cons_self), hearlier⟩
              exact hall u c (by rw [← hop]; exact List.mem_cons_self)
  exact hloop.2

omit [Crypto] in
theorem HasHorizon.active (h : HasHorizon s d) : s.aufStates.lookup d ≠ none := by
  obtain ⟨st, k, hst, _⟩ := hasHorizon_iff.mp h
  rw [hst]
  exact Option.some_ne_none st

omit [Crypto] in
set_option maxRecDepth 10000 in
/-- The contest, and one operation more. -/
theorem exists_contestStages :
    letI := sampleCrypto
    ∃ earlier t g, (spawn 4 2 none).Passes earlier t ∧ t.certificates = sampleContest ∧
      (spawn 4 2 none).operate t (.register (Certificate.sample 4 0 [0, 1, 2])) = some g ∧
      HasHorizon t.state (sampleDigest 1 0) ∧ HasHorizon t.state (sampleDigest 1 1) ∧
      HasHorizon g.state (sampleDigest 1 0) ∧ HasHorizon g.state (sampleDigest 1 1) :=
  let _ := sampleCrypto
  let ⟨earlier, t, ht, hcheck⟩ := System.exec_check (spawn 4 2 none).stages
    (sampleContest.map .register)
    (fun _ t => decide (t.certificates = sampleContest ∧
      HasHorizon t.state (sampleDigest 1 0) ∧ HasHorizon t.state (sampleDigest 1 1) ∧
      ((spawn 4 2 none).operate t (.register (Certificate.sample 4 0 [0, 1, 2]))).any (fun g =>
        decide (HasHorizon g.state (sampleDigest 1 0) ∧
          HasHorizon g.state (sampleDigest 1 1))) = true)) (by decide +kernel)
  let ⟨hcs, ha, hb, hany⟩ := of_decide_eq_true hcheck
  let ⟨g, hg, h⟩ := (Option.any_eq_true _ _).mp hany
  let ⟨hga, hgb⟩ := of_decide_eq_true h
  ⟨earlier, t, g, ht, hcs, hg, ha, hb, hga, hgb⟩

omit [Crypto] in
/-- A certificate after both horizons is recorded. -/
theorem verdict_frozen_iff_sample :
    letI := sampleCrypto
    ∃ t g, t.certificates = sampleContest ∧
      (spawn 4 2 none).operate t (.register (Certificate.sample 4 0 [0, 1, 2])) = some g ∧
      let later := [(t, Operation.register (Certificate.sample 4 0 [0, 1, 2]))]
      (∀ u ∈ g :: later.map Prod.fst,
          (spawn 4 2 none).comparePair u.state (sampleDigest 1 0) (sampleDigest 1 1) =
            (spawn 4 2 none).comparePair t.state (sampleDigest 1 0) (sampleDigest 1 1)) ↔
        ∀ u c, (u, Operation.register c) ∈ later →
          ¬ Disturbs (spawn 4 2 none) u.state c (sampleDigest 1 0) (sampleDigest 1 1) := by
  let _ := sampleCrypto
  obtain ⟨earlier, t, g, ht, hcs, hg, ha, hb, hga, hgb⟩ := exists_contestStages
  refine ⟨t, g, hcs, hg, ?_⟩
  exact verdict_frozen_iff 4 2 none ht (.step ht hg) ha hb
    (by simpa using ⟨⟨hga.active, hgb.active⟩, ha.active, hb.active⟩)

/-- A batch in which the first and the last certificate of round 1 have horizons 2 and 3,
and those of round 3 have none. -/
def sampleWaiting : List Certificate :=
  [Certificate.sample 1 0 [], Certificate.sample 1 1 [], Certificate.sample 1 2 [],
    Certificate.sample 1 3 [], Certificate.sample 2 0 [0, 1, 2], Certificate.sample 2 1 [0, 1, 3],
    Certificate.sample 2 3 [0, 2, 3], Certificate.sample 3 0 [0, 1, 3],
    Certificate.sample 3 1 [0, 1, 3], Certificate.sample 3 3 [0, 1, 3]]

/-- A batch with a certificate of round 2 that sees the first and not the last. -/
def sampleThaw : List Certificate :=
  [Certificate.sample 2 2 [0, 1, 2], Certificate.sample 3 2 [0, 1, 2],
    Certificate.sample 4 0 [0, 1, 2]]

omit [Crypto] in
set_option maxRecDepth 10000 in
theorem exists_thawRun :
    letI := sampleCrypto
    ∃ es s s' batch, (spawn 4 5 none).Run es s ∧
      (spawn 4 5 none).next s (sampleDelivery 1 sampleThaw) = some s' ∧
      Fresh (certificates (received es ++ [(sampleDelivery 1 sampleThaw).batch])) ∧
      Ascending (received es ++ [(sampleDelivery 1 sampleThaw).batch]) ∧
      ParentsFirst (certificates (received es ++ [(sampleDelivery 1 sampleThaw).batch])) ∧
      s.batches.get 0 = some batch ∧ s'.batches.get 0 = some batch ∧
      sampleDigest 1 0 ∈ batch.members ∧ sampleDigest 1 3 ∈ batch.members ∧
      HasHorizon s (sampleDigest 1 0) ∧ HasHorizon s (sampleDigest 1 3) ∧
      (spawn 4 5 none).comparePair s (sampleDigest 1 0) (sampleDigest 1 3) = some .tie ∧
      (spawn 4 5 none).comparePair s' (sampleDigest 1 0) (sampleDigest 1 3) = some .aBetter :=
  let _ := sampleCrypto
  let ⟨es, s, hrun, hcheck⟩ := System.exec_check (spawn 4 5 none).system
    [sampleDelivery 0 sampleWaiting]
    (fun es s => decide (
      Fresh (certificates (received es ++ [(sampleDelivery 1 sampleThaw).batch])) ∧
      Ascending (received es ++ [(sampleDelivery 1 sampleThaw).batch]) ∧
      ParentsFirst (certificates (received es ++ [(sampleDelivery 1 sampleThaw).batch])) ∧
      (s.batches.get 0).map BatchState.members = some (sampleWaiting.map Certificate.digest) ∧
      HasHorizon s (sampleDigest 1 0) ∧ HasHorizon s (sampleDigest 1 3) ∧
      (spawn 4 5 none).comparePair s (sampleDigest 1 0) (sampleDigest 1 3) = some .tie ∧
      ((spawn 4 5 none).next s (sampleDelivery 1 sampleThaw)).any (fun s' => decide (
        (s'.batches.get 0).map BatchState.members = some (sampleWaiting.map Certificate.digest) ∧
        (spawn 4 5 none).comparePair s' (sampleDigest 1 0) (sampleDigest 1 3) =
          some .aBetter)) = true ∧
      sampleDigest 1 0 ∈ sampleWaiting.map Certificate.digest ∧
      sampleDigest 1 3 ∈ sampleWaiting.map Certificate.digest)) (by decide +kernel)
  let ⟨hfresh, hascending, hfirst, hget, ha, hb, htie, hany, hmemA, hmemB⟩ :=
    of_decide_eq_true hcheck
  let ⟨s', hs', h⟩ := (Option.any_eq_true _ _).mp hany
  let ⟨hget', hbetter⟩ := of_decide_eq_true h
  let ⟨⟨ms⟩, hms, hmembers⟩ := Option.map_eq_some_iff.mp hget
  let ⟨⟨ms'⟩, hms', hmembers'⟩ := Option.map_eq_some_iff.mp hget'
  have hms : s.batches.get 0 = some ⟨sampleWaiting.map Certificate.digest⟩ := by
    rw [hms, ← hmembers]
  have hms' : s'.batches.get 0 = some ⟨sampleWaiting.map Certificate.digest⟩ := by
    rw [hms', ← hmembers']
  ⟨es, s, s', _, hrun, hs', hfresh, hascending, hfirst, hms, hms', hmemA, hmemB, ha, hb, htie,
    hbetter⟩

omit [Crypto] in
/-- While a batch waits, a certificate of an old round that is committed later changes a
verdict between two of its members that have horizons. -/
theorem verdict_thaws :
    letI := sampleCrypto
    ¬ ∀ committeeSize windowCap es s d s',
      (spawn committeeSize windowCap none).Run es s →
      (spawn committeeSize windowCap none).next s d = some s' →
      Fresh (certificates (received es ++ [d.batch])) → Ascending (received es ++ [d.batch]) →
      ParentsFirst (certificates (received es ++ [d.batch])) →
      ∀ k batch, s.batches.get k = some batch → s'.batches.get k = some batch →
        ∀ a ∈ batch.members, ∀ b ∈ batch.members, HasHorizon s a → HasHorizon s b →
          (spawn committeeSize windowCap none).comparePair s' a b =
            (spawn committeeSize windowCap none).comparePair s a b := by
  let _ := sampleCrypto
  intro hclaim
  obtain ⟨es, s, s', batch, hrun, hnext, hfresh, hascending, hfirst, hget, hget', hmemA, hmemB,
    ha, hb, htie, hbetter⟩ := exists_thawRun
  have heq := hclaim 4 5 es s _ s' hrun hnext hfresh hascending hfirst 0 batch hget hget' _ hmemA
    _ hmemB ha hb
  rw [htie, hbetter] at heq
  exact absurd heq (by decide)

end MrvExecutor

end Mrv
