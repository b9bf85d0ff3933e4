/-
  Mrv.Executor.Strict — verdicts in a DAG of quorums.

  When every certificate has parents by n - f authors, a certificate that f + 1 authors of
  a round see is seen by everything later: the counters saturate at the delta threshold
  (`saturates_seenCountAt`).  So `Better` is a strict order (`Better.trans`), the components
  that `sort_batch` condenses are single digests, and its output is one greedy list
  (`Linearises.greedy_flatten`).
-/
import Mrv.Executor.Evidence
import Mrv.Executor.Linear
import Mrv.Lib.Saturation

namespace Mrv

open Relation (ReflTransGen)

variable [Crypto]

namespace MrvExecutor

/-! ## §1. Saturation. -/

/-- At least n - f of the authorities. -/
def AllButFaulty (authorities S : Finset PublicKey) : Prop :=
  S ⊆ authorities ∧ authorities.card - (authorities.card - 1) / 3 ≤ S.card

instance (authorities S : Finset PublicKey) : Decidable (AllButFaulty authorities S) :=
  inferInstanceAs (Decidable (_ ∧ _))

variable {core : MrvExecutor} {s : State} {cs : List Certificate} {a b c : Digest}
  {authorities : Finset PublicKey}

/-- **The counters saturate**: what f + 1 authors of a round see is seen by everybody of a
later round. -/
theorem saturates_seenCountAt (hdag : CommittedDag authorities (AllButFaulty authorities) cs)
    (h : Tracks cs s) :
    Saturation.Saturates s.seenCountAt ((authorities.card - 1) / 3 + 1) := by
  intro t u r r' hreached hlt
  cases ht : s.aufStates.lookup t with
  | none =>
      have hzero : s.seenCountAt t r = 0 := by
        unfold State.seenCountAt
        rw [ht]
        rfl
      omega
  | some st =>
      cases hu : s.aufStates.lookup u with
      | none =>
          have hzero : s.seenCountAt u r' = 0 := by
            unfold State.seenCountAt
            rw [hu]
            rfl
          omega
      | some stU =>
          rw [seenCountAt_eq ht] at hreached
          have hseers := fun author => (h.counted t st ht r author).mp
          have hmembers : (st.seenByRound.get r).getD ∅ ⊆ authorities := by
            intro author hauthor
            obtain ⟨y, hy, _, rfl, _⟩ := hseers author hauthor
            exact hdag.member y hy
          have hpos : 0 < r := by
            obtain ⟨author, hauthor⟩ := Finset.card_pos.mp (lt_of_lt_of_le (Nat.succ_pos _) hreached)
            obtain ⟨y, hy, rfl, _⟩ := hseers author hauthor
            exact hdag.round_pos y hy
          have hmeets : ∀ T, AllButFaulty authorities T →
              ∃ author, author ∈ (st.seenByRound.get r).getD ∅ ∧ author ∈ T := by
            intro T hT
            have hcard := Finset.card_le_card hT.1
            refine Quorum.card_inter hmembers hT.1 ?_
            have hquorum := hT.2
            omega
          -- everything of the later round sees `t`
          rw [seenCountAt_eq hu, seenCountAt_eq ht]
          apply Finset.card_le_card
          intro author hauthor
          obtain ⟨x, hx, hround, rfl, _⟩ := (h.counted u stU hu r' author).mp hauthor
          rw [h.counted t st ht]
          refine ⟨x, hx, hround, rfl, ?_⟩
          exact hdag.reaches h.stored hpos hseers hmeets (r' - (r + 1)) x hx (by omega)

/-! ## §2. Better is a strict order. -/

/-- What is needed of a state: the counters saturate, and mature states are backed by more
authors than the threshold. -/
structure Saturated (core : MrvExecutor) (s : State) : Prop where
  pos : 0 < core.deltaThreshold
  le : core.deltaThreshold ≤ core.reachThreshold
  saturates : Saturation.Saturates s.seenCountAt core.deltaThreshold.toNat
  backed : ∀ d st, s.aufStates.lookup d = some st → st.Backed core.reachThreshold

omit [Crypto] in
theorem leads_iff (hpos : 0 < core.deltaThreshold) (r : ℕ) :
    core.deltaThreshold ≤ lead s a b r ↔
      Saturation.Leads s.seenCountAt core.deltaThreshold.toNat a b r := by
  unfold lead Saturation.Leads
  omega

omit [Crypto] in
/-- **Better in a saturated state**: one lead in a round after both decides. -/
theorem Saturated.better_iff (h : Saturated core s) :
    core.Better s a b ↔ ∃ stA stB, s.aufStates.lookup a = some stA ∧
      s.aufStates.lookup b = some stB ∧ stA.mature = true ∧ stB.mature = true ∧
      ∃ r, stA.round < r ∧ stB.round < r ∧
        Saturation.Leads s.seenCountAt core.deltaThreshold.toNat a b r := by
  have hthreshold : 0 < core.deltaThreshold.toNat := by
    have hpos := h.pos
    omega
  rw [MrvExecutor.better_iff h.pos]
  constructor
  · rintro ⟨stA, stB, hA, hB, ha, hb, hmA, hmB, _, _, ⟨r, hr, hlead⟩, _⟩
    unfold pairRounds at hr
    rw [List.mem_range'_1] at hr
    exact ⟨stA, stB, ha, hb, hmA, hmB, r, by omega, by omega, (leads_iff h.pos r).mp hlead⟩
  · rintro ⟨stA, stB, ha, hb, hmA, hmB, r, hrA, hrB, hleads⟩
    obtain ⟨hA, hhA, _⟩ := h.backed a stA ha hmA
    obtain ⟨hB, hhB, hcardB⟩ := h.backed b stB hb hmB
    rw [← seenCountAt_eq hb] at hcardB
    -- after the horizon of `b` nobody leads it
    have hle : r ≤ hB := by
      by_contra hlt
      have hreached : core.deltaThreshold.toNat ≤ s.seenCountAt b hB := by
        have hdelta := h.le
        omega
      exact h.saturates.not_leads hthreshold hreached (not_le.mp hlt) hleads
    refine ⟨stA, stB, hA, hB, ha, hb, hmA, hmB, hhA, hhB, ⟨r, ?_, (leads_iff h.pos r).mpr hleads⟩,
      fun r' _ hflip => ?_⟩
    · unfold pairRounds
      rw [List.mem_range'_1]
      omega
    · exact h.saturates.not_flip hthreshold hleads ((leads_iff h.pos r').mp hflip)

omit [Crypto] in
theorem Better.trans (h : Saturated core s) (hab : core.Better s a b) (hbc : core.Better s b c) :
    core.Better s a c := by
  have hthreshold : 0 < core.deltaThreshold.toNat := by
    have hpos := h.pos
    omega
  rw [h.better_iff] at hab hbc ⊢
  obtain ⟨stA, stB, ha, hb, hmA, _, r, hrA, _, hleads⟩ := hab
  obtain ⟨stB', stC, _, hc, _, hmC, r', _, hrC, hleads'⟩ := hbc
  obtain ⟨hle, hboth⟩ := h.saturates.trans hthreshold hleads hleads'
  exact ⟨stA, stC, ha, hc, hmA, hmC, r', by omega, hrC, hboth⟩

/-! ## §3. One greedy list. -/

omit [Crypto] in
theorem strong_eq {l : List Digest} (h : Saturated core s) (hstrong : core.Strong s l a b) :
    a = b := by
  have hpath : ∀ x y, ReflTransGen (core.Verdict s l) x y → x = y ∨ core.Better s x y := by
    intro x y hxy
    induction hxy with
    | refl => exact Or.inl rfl
    | tail _ hstep ih =>
        obtain rfl | hbetter := ih
        · exact Or.inr hstep.2.2
        · exact Or.inr (hbetter.trans h hstep.2.2)
  obtain heq | hab := hpath a b hstrong.1
  · exact heq
  · obtain heq | hba := hpath b a hstrong.2
    · exact heq.symm
    · exact absurd hba (hab.asymm h.pos)

omit [Crypto] in
/-- **The output of `sort_batch` is one greedy list**: every digest after those better than
it, and each time the least one that can be taken. -/
theorem Linearises.greedy_flatten {l : List Digest} {blocks : List (List Digest)}
    (h : Saturated core s) (hlin : core.Linearises s l blocks) :
    Kahn.Greedy l.toFinset (core.Verdict s l) (fun a b => s.tieKey a ≤ s.tieKey b) ∅
      blocks.flatten := by
  -- every component is a single digest
  have hsingle : ∀ B ∈ blocks, B = [B.headD Digest.default] := by
    intro B hB
    have hnd := (List.nodup_flatten.mp hlin.scc.nodup).1 B hB
    cases B with
    | nil => exact absurd rfl (hlin.scc.ne_nil [] hB)
    | cons x B =>
        cases B with
        | nil => rfl
        | cons y B =>
            have hstrong := ((hlin.scc.mem_iff _ hB x List.mem_cons_self y).mp
              (List.mem_cons_of_mem _ List.mem_cons_self)).2
            obtain rfl := strong_eq h hstrong
            exact absurd List.mem_cons_self (List.nodup_cons.mp hnd).1
  have hmem : ∀ B ∈ blocks, ∀ d, d ∈ B ↔ d = B.headD Digest.default := by
    intro B hB d
    conv_lhs => rw [hsingle B hB]
    exact List.mem_singleton
  have hflatten : blocks.flatten = blocks.map (fun B => B.headD Digest.default) := by
    have hmap : blocks = (blocks.map (fun B => B.headD Digest.default)).map (fun d => [d]) := by
      rw [List.map_map]
      conv_lhs => rw [← List.map_id blocks]
      exact List.map_congr_left hsingle
    conv_lhs => rw [hmap]
    rw [← List.flatMap_def]
    simp
  have himage : l.toFinset = blocks.toFinset.image (fun B => B.headD Digest.default) := by
    ext d
    rw [List.mem_toFinset, Finset.mem_image, ← hlin.scc.mem_flatten, hflatten, List.mem_map]
    simp only [List.mem_toFinset]
  rw [hflatten, himage, ← Finset.image_empty (fun B : List Digest => B.headD Digest.default)]
  refine hlin.greedy.map ?_ (Finset.empty_subset _) ?_ ?_
  · intro B hB B' hB' heq
    rw [Finset.mem_coe, List.mem_toFinset] at hB hB'
    rw [hsingle B hB, hsingle B' hB']
    exact congrArg (fun d => [d]) heq
  · intro B hB B' hB'
    rw [List.mem_toFinset] at hB hB'
    constructor
    · intro hverdict
      refine ⟨fun heq => ?_, _, (hmem B hB _).mpr rfl, _, (hmem B' hB' _).mpr rfl, hverdict⟩
      rw [heq] at hverdict
      exact Better.irrefl h.pos hverdict.2.2
    · rintro ⟨_, x, hx, y, hy, hverdict⟩
      rw [← (hmem B hB x).mp hx, ← (hmem B' hB' y).mp hy]
      exact hverdict
  · rintro B hB B' hB' ⟨x, hx, hle⟩
    rw [List.mem_toFinset] at hB hB'
    rw [← (hmem B hB x).mp hx]
    exact hle _ ((hmem B' hB' _).mpr rfl)

end MrvExecutor

end Mrv
