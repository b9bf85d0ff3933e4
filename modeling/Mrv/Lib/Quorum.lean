/-
  Mrv.Lib.Quorum — weighted quorums.

  Members carry weights; two sets of members whose weights together exceed the
  total weight share a member of positive weight.  Members outside the universe
  are allowed in the sets as long as they weigh nothing.  `card_inter` is the
  instance where everybody weighs one.

  `Counted` is a running count that is set back to zero when it reaches a quorum.
  If a quorum is more than half of the total, the count reaches it once, exactly
  when the total seen so far does (`Counted.reached_iff`).
-/
import Mathlib.Algebra.BigOperators.Group.Finset.Basic
import Mathlib.Algebra.Order.BigOperators.Group.Finset
import Mathlib.Tactic

namespace Mrv.Quorum

variable {α : Type*} [DecidableEq α]

/-- Weight outside the universe is zero, so no set outweighs the universe. -/
theorem sum_le_total {w : α → ℕ} {U S : Finset α} (hout : ∀ a, a ∉ U → w a = 0) :
    ∑ a ∈ S, w a ≤ ∑ a ∈ U, w a := by
  calc ∑ a ∈ S, w a = ∑ a ∈ S ∩ U, w a := by
        rw [← Finset.filter_mem_eq_inter, Finset.sum_filter_of_ne]
        intro a _ hne
        by_contra hU
        exact hne (hout a hU)
    _ ≤ ∑ a ∈ U, w a := Finset.sum_le_sum_of_subset Finset.inter_subset_right

/-- **Intersection**: sets that together outweigh the universe share weight. -/
theorem exists_mem_inter {w : α → ℕ} {U S T : Finset α} (hout : ∀ a, a ∉ U → w a = 0)
    (hlt : ∑ a ∈ U, w a < ∑ a ∈ S, w a + ∑ a ∈ T, w a) :
    ∃ a, a ∈ S ∧ a ∈ T ∧ 0 < w a := by
  have hunion : ∑ a ∈ S ∪ T, w a ≤ ∑ a ∈ U, w a := sum_le_total hout
  have hsplit : ∑ a ∈ S ∪ T, w a + ∑ a ∈ S ∩ T, w a = ∑ a ∈ S, w a + ∑ a ∈ T, w a :=
    Finset.sum_union_inter
  have hpos : 0 < ∑ a ∈ S ∩ T, w a := by omega
  obtain ⟨a, ha, hwa⟩ := Finset.exists_ne_zero_of_sum_ne_zero hpos.ne'
  exact ⟨a, (Finset.mem_inter.mp ha).1, (Finset.mem_inter.mp ha).2, Nat.pos_of_ne_zero hwa⟩

/-- Unit weights: subsets of `U` that together have more elements than `U` meet. -/
theorem card_inter {U S T : Finset α} (hS : S ⊆ U) (hT : T ⊆ U)
    (hlt : U.card < S.card + T.card) : ∃ a, a ∈ S ∧ a ∈ T := by
  have hunion : (S ∪ T).card ≤ U.card := Finset.card_le_card (Finset.union_subset hS hT)
  have hsplit := Finset.card_union_add_card_inter S T
  have hpos : 0 < (S ∩ T).card := by omega
  obtain ⟨a, ha⟩ := Finset.card_pos.mp hpos
  exact ⟨a, (Finset.mem_inter.mp ha).1, (Finset.mem_inter.mp ha).2⟩

/-- Two sets share what they weigh together beyond the universe. -/
theorem sum_add_sum_le {w : α → ℕ} {U S T : Finset α} (hS : S ⊆ U) (hT : T ⊆ U) :
    ∑ a ∈ S, w a + ∑ a ∈ T, w a ≤ ∑ a ∈ U, w a + ∑ a ∈ S ∩ T, w a := by
  have hsplit : ∑ a ∈ S ∪ T, w a + ∑ a ∈ S ∩ T, w a = ∑ a ∈ S, w a + ∑ a ∈ T, w a :=
    Finset.sum_union_inter
  have hunion : ∑ a ∈ S ∪ T, w a ≤ ∑ a ∈ U, w a :=
    Finset.sum_le_sum_of_subset (Finset.union_subset hS hT)
  omega

/-- **A dominant member**: if of each set and its complement one weighs less than `q`, and
three such sets do not make up the universe, then all but one together weigh less than `q`. -/
theorem exists_dominant {w : α → ℕ} {U : Finset α} {q : ℕ} (hthird : 3 * q ≤ ∑ a ∈ U, w a)
    (hq : 0 < q) (hgap : ∀ S ⊆ U, ∑ a ∈ S, w a < q ∨ ∑ a ∈ U \ S, w a < q) :
    ∃ a ∈ U, ∑ b ∈ U \ {a}, w b < q := by
  by_contra hnone
  push Not at hnone
  -- every set is light, since a light set and one member leave more than a light set
  have hlight : ∑ a ∈ U, w a < q := by
    refine Finset.induction_on' (motive := fun S => ∑ a ∈ S, w a < q) U (by simpa using hq) ?_
    intro a S ha hS hnot hlight
    have hone : w a < q := by
      have hsingle := (hgap {a} (Finset.singleton_subset_iff.mpr ha)).resolve_right
        (not_lt.mpr (hnone a ha))
      rwa [Finset.sum_singleton] at hsingle
    have hsub : insert a S ⊆ U := Finset.insert_subset ha hS
    refine (hgap _ hsub).resolve_right fun hrest => ?_
    have hsplit : ∑ b ∈ U \ insert a S, w b + ∑ b ∈ insert a S, w b = ∑ b ∈ U, w b :=
      Finset.sum_sdiff hsub
    rw [Finset.sum_insert hnot] at hsplit
    omega
  omega

/-- A count of what was seen, `W`, that is set back to zero when it reaches `q`. -/
def Counted (q W weight : ℕ) : Prop := (W < q ∧ weight = W) ∨ (q ≤ W ∧ weight + q ≤ W)

namespace Counted

variable {q W weight x T : ℕ}

theorem zero (hq : 0 < q) : Counted q 0 0 := Or.inl ⟨hq, rfl⟩

/-- **The count reaches the quorum when the total does**, and never again. -/
theorem reached_iff (h : Counted q W weight) (hT : T < 2 * q) (hle : W + x ≤ T) :
    q ≤ weight + x ↔ W < q ∧ q ≤ W + x := by
  obtain ⟨hlt, heq⟩ | ⟨hge, hspent⟩ := h
  · omega
  · omega

theorem reset (h : Counted q W weight) (hT : T < 2 * q) (hle : W + x ≤ T)
    (hreached : q ≤ weight + x) : Counted q (W + x) 0 := by
  have hcross := (h.reached_iff hT hle).mp hreached
  right
  omega

theorem add (h : Counted q W weight) (hnot : ¬ q ≤ weight + x) :
    Counted q (W + x) (weight + x) := by
  obtain ⟨hlt, heq⟩ | ⟨hge, hspent⟩ := h
  · left
    omega
  · right
    omega

theorem le (h : Counted q W weight) : weight ≤ W := by
  obtain ⟨hlt, heq⟩ | ⟨hge, hspent⟩ := h
  · omega
  · omega

end Counted

end Mrv.Quorum
