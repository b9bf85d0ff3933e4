/-
  Mrv.Consensus.Leaders — which leaders a certificate makes the task commit.

  The leader of a round is an authority fixed by the committee; `leader` looks
  its certificate up.  `order_leaders` goes down the even rounds above the last
  committed one and collects leaders on the way, so its list goes down strictly
  and stays above the last committed round (`orderLeaders_rounds`).  The list is
  committed in reverse (`leadersToCommit_eq_ok`).
-/
import Mrv.Consensus.Flatten

namespace Mrv

variable [Crypto]

namespace Consensus

variable {self : Consensus} {s : State} {known : Certificate → Prop}

/-! ## §1. The leader of a round. -/

/-- The authority elected for a round. -/
def leaderName (self : Consensus) (round : ℕ) : Option PublicKey :=
  (self.committee.authorities.keys.insertionSort (· ≤ ·))[round % self.committee.size]?

omit [Crypto] in
theorem leader_eq_ok {r : ℕ} {dag : Dag} {o : Option (Digest × Certificate)}
    (h : self.leader r dag = .ok o) : ∃ a, self.leaderName r = some a ∧ dag.find r a = o := by
  unfold leader at h
  simp only [] at h
  split at h
  · cases h
  · next a ha => exact ⟨a, ha, Except.ok.inj h⟩

/-- A leader that is found is in its slot. -/
theorem leader_eq_some (hs : s.Sound known) {r : ℕ} {d : Digest} {x : Certificate}
    (h : self.leader r s.dag = .ok (some (d, x))) :
    d = x.digest ∧ x.round = r ∧ self.leaderName r = some x.origin ∧ s.Has x := by
  obtain ⟨a, ha, hfind⟩ := leader_eq_ok h
  obtain ⟨hr, ho, hd, _⟩ := hs _ _ _ _ hfind
  exact ⟨hd, hr, ho ▸ ha, hs.has hfind⟩

/-! ## §2. The loop over past leaders. -/

/-- The list it returns goes down along the rounds it is given, through leaders in
memory. -/
theorem orderLeadersLoop_rounds (hs : s.Sound known) {rs : List ℕ} {x : Certificate}
    {ls : List Certificate} (h : self.orderLeadersLoop s.dag rs x = .ok ls) :
    (ls.map Certificate.round).Sublist rs ∧ ∀ y ∈ ls, s.Has y := by
  induction rs generalizing x ls with
  | nil =>
      obtain rfl := Except.ok.inj h
      exact ⟨List.Sublist.refl _, by simp⟩
  | cons r rs ih =>
      obtain ⟨o, hl, h⟩ := bind_eq_ok.mp h
      cases o with
      | none =>
          obtain ⟨hsub, hhas⟩ := ih h
          exact ⟨hsub.cons r, hhas⟩
      | some e =>
          obtain ⟨_, hr, _, hy⟩ := leader_eq_some hs hl
          obtain ⟨b, _, h⟩ := bind_eq_ok.mp h
          cases b with
          | false =>
              obtain ⟨hsub, hhas⟩ := ih h
              exact ⟨hsub.cons r, hhas⟩
          | true =>
              obtain ⟨rest, hrest, rfl⟩ := map_eq_ok.mp h
              obtain ⟨hsub, hhas⟩ := ih hrest
              refine ⟨?_, List.forall_mem_cons.mpr ⟨hy, hhas⟩⟩
              rw [List.map_cons, hr]
              exact hsub.cons_cons r

/-! ## §3. The commit test. -/

/-- A certificate of round `r` makes the task commit leader `x` and, before it, the
past leaders `rest` (latest first). -/
structure Elects (task : Consensus) (s : State) (r : ℕ) (x : Certificate)
    (rest : List Certificate) : Prop where
  round : x.round + 3 = r
  even : x.round % 2 = 0
  two_le : 2 ≤ x.round
  lastCommitted_lt : s.lastCommittedRound < x.round
  name : task.leaderName x.round = some x.origin
  has : s.Has x
  support : ∃ stake, task.support s.dag (x.round + 1) x.digest = .ok stake ∧
    task.committee.validityThreshold ≤ stake
  past : task.orderLeadersLoop s.dag
    (Walk.downBy2 (s.lastCommittedRound + 2) (x.round - 2)) x = .ok rest

/-- **The two outcomes of the commit test.** -/
theorem leadersToCommit_eq_ok (hs : s.Sound known) {r : ℕ} {ls : List Certificate}
    (h : self.leadersToCommit s r = .ok ls) :
    ls = [] ∨ ∃ x rest, self.Elects s r x rest ∧ ls = (x :: rest).reverse := by
  unfold leadersToCommit at h
  by_cases h0 : r = 0
  · rw [if_pos h0] at h
    cases h
  rw [if_neg h0] at h
  by_cases hparity : (r - 1) % 2 ≠ 0 ∨ r - 1 < 4
  · rw [if_pos hparity] at h
    exact Or.inl (Except.ok.inj h).symm
  rw [if_neg hparity] at h
  by_cases hold : r - 1 - 2 ≤ s.lastCommittedRound
  · rw [if_pos hold] at h
    exact Or.inl (Except.ok.inj h).symm
  rw [if_neg hold] at h
  obtain ⟨o, hleader, h⟩ := bind_eq_ok.mp h
  cases o with
  | none => exact Or.inl (Except.ok.inj h).symm
  | some e =>
      obtain ⟨d, x⟩ := e
      obtain ⟨rfl, hround, hname, hhas⟩ := leader_eq_some hs hleader
      obtain ⟨stake, hstake, h⟩ := bind_eq_ok.mp h
      by_cases hlow : stake < self.committee.validityThreshold
      · rw [if_pos hlow] at h
        exact Or.inl (Except.ok.inj h).symm
      · rw [if_neg hlow] at h
        obtain ⟨ls', horder, rfl⟩ := map_eq_ok.mp h
        unfold orderLeaders at horder
        by_cases h2 : x.round < 2
        · omega
        rw [if_neg h2] at horder
        obtain ⟨rest, hrest, rfl⟩ := map_eq_ok.mp horder
        refine Or.inr ⟨x, rest, ?_, rfl⟩
        have hsupport : r - 1 - 1 = x.round + 1 := by omega
        exact {
          round := by omega
          even := by omega
          two_le := by omega
          lastCommitted_lt := by omega
          name := by rw [hround]; exact hname
          has := hhas
          support := ⟨stake, by rw [← hsupport]; exact hstake, UInt32.not_lt.mp hlow⟩
          past := hrest }

/-- **Shape of the pending leaders**: strictly upward in rounds, all even, above the
last committed round and in memory. -/
theorem leadersToCommit_rounds (hs : s.Sound known) {r : ℕ} {ls : List Certificate}
    (h : self.leadersToCommit s r = .ok ls) :
    ls.Pairwise (fun x y => x.round < y.round) ∧
      ∀ x ∈ ls, s.lastCommittedRound < x.round ∧ x.round % 2 = 0 ∧ s.Has x := by
  obtain rfl | ⟨x, rest, helects, rfl⟩ := leadersToCommit_eq_ok hs h
  · exact ⟨List.Pairwise.nil, by simp⟩
  obtain ⟨hsub, hhas⟩ := orderLeadersLoop_rounds hs helects.past
  have hrung : ∀ y ∈ rest, y.round < x.round ∧ s.lastCommittedRound < y.round ∧
      y.round % 2 = 0 := by
    intro y hy
    have hmem := hsub.subset (List.mem_map_of_mem hy)
    have hbounds := (Walk.mem_downBy2 (by omega)).mp hmem
    have heven := helects.even
    have htwo := helects.two_le
    omega
  constructor
  · rw [List.pairwise_reverse, List.pairwise_cons]
    refine ⟨fun y hy => (hrung y hy).1, ?_⟩
    exact List.pairwise_map.mp ((Walk.downBy2_sorted _ _).sublist hsub)
  · intro y hy
    obtain rfl | hy := List.mem_cons.mp (List.mem_reverse.mp hy)
    · exact ⟨helects.lastCommitted_lt, helects.even, helects.has⟩
    · exact ⟨(hrung y hy).2.1, (hrung y hy).2.2, hhas y hy⟩

end Consensus

end Mrv
