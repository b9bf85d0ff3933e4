/-
  Mrv.Thresholds — when the two thresholds make quorums intersect.

  The thresholds are computed in `u32`.  As long as twice the total stake fits they are
  2f + 1 and f + 1, and two quorums share f + 1.  Beyond that the quorum threshold wraps to
  less than a third of the total.  Then quorums are disjoint, unless nobody can form one
  without the same authority (`thresholds_intersect_iff`).
-/
import Mrv.Config

namespace Mrv

namespace Committee

variable {c : Committee}

/-! ## §1. Intersection. -/

/-- Quorums share the validity threshold and meet all sets that reach it; all authorities
together reach both thresholds. -/
structure Intersecting (c : Committee) : Prop where
  quorums : ∀ S ⊆ c.members, ∀ T ⊆ c.members,
    c.quorumThreshold.toNat ≤ ∑ a ∈ S, c.weight a → c.quorumThreshold.toNat ≤ ∑ a ∈ T, c.weight a →
      c.validityThreshold.toNat ≤ ∑ a ∈ S ∩ T, c.weight a
  validity : ∀ S ⊆ c.members, ∀ T ⊆ c.members,
    c.quorumThreshold.toNat ≤ ∑ a ∈ S, c.weight a →
      c.validityThreshold.toNat ≤ ∑ a ∈ T, c.weight a → ∃ a, a ∈ S ∧ a ∈ T
  all : 1 ≤ c.totalStake → c.quorumThreshold.toNat ≤ ∑ a ∈ c.members, c.weight a ∧
    c.validityThreshold.toNat ≤ ∑ a ∈ c.members, c.weight a

/-- One authority has at least a third of the total and 2^32 together. -/
def Dominated (c : Committee) : Prop := ∃ a ∈ c.members, c.totalStake + 2 ^ 32 ≤ 3 * c.weight a

theorem sum_sdiff_singleton {a : PublicKey} (ha : a ∈ c.members) :
    ∑ b ∈ c.members \ {a}, c.weight b + c.weight a = c.totalStake := by
  have hsplit : ∑ b ∈ c.members \ {a}, c.weight b + ∑ b ∈ {a}, c.weight b =
      ∑ b ∈ c.members, c.weight b := Finset.sum_sdiff (Finset.singleton_subset_iff.mpr ha)
  rw [Finset.sum_singleton] at hsplit
  exact hsplit

/-- The thresholds are reached, wrapped or not. -/
theorem thresholds_le (hsum : c.totalStake < 2 ^ 32) (hpos : 1 ≤ c.totalStake) :
    c.quorumThreshold.toNat ≤ c.totalStake ∧ c.validityThreshold.toNat ≤ c.totalStake := by
  rw [quorumThreshold_eq hsum, validityThreshold_eq hsum]
  omega

/-! ## §2. Totals that fit. -/

/-- **2f + 1 and f + 1**, for each residue of the total modulo three. -/
theorem intersecting_of_fit (hfit : 2 * c.totalStake < 2 ^ 32) : c.Intersecting where
  quorums := by
    intro S hS T hT hquorumS hquorumT
    have hshare := Quorum.sum_add_sum_le (w := c.weight) hS hT
    rw [quorumThreshold_toNat hfit] at hquorumS hquorumT
    rw [validityThreshold_toNat hfit]
    change _ ≤ c.totalStake + _ at hshare
    omega
  validity := by
    intro S _ T _ hquorum hvalidity
    obtain ⟨a, ha, ha'⟩ := exists_common_of_thresholds hfit hvalidity hquorum
    exact ⟨a, ha', ha⟩
  all := thresholds_le (by omega)

/-! ## §3. Totals that wrap. -/

section

variable (hsum : c.totalStake < 2 ^ 32) (hwrap : 2 ^ 32 ≤ 2 * c.totalStake)

include hsum hwrap

theorem quorumThreshold_wrapped :
    c.quorumThreshold.toNat = (2 * c.totalStake - 2 ^ 32) / 3 + 1 := by
  rw [quorumThreshold_eq hsum]
  omega

/-- The dominant authority is in every set that reaches a threshold. -/
theorem mem_of_reaches (hvalid : c.totalStake + 2 < 2 ^ 32) {a : PublicKey} (ha : a ∈ c.members)
    (hdominant : c.totalStake + 2 ^ 32 ≤ 3 * c.weight a) {S : Finset PublicKey}
    (hS : S ⊆ c.members)
    (hreach : c.quorumThreshold.toNat ≤ ∑ b ∈ S, c.weight b ∨
      c.validityThreshold.toNat ≤ ∑ b ∈ S, c.weight b) : a ∈ S := by
  by_contra hnot
  have hsub : S ⊆ c.members \ {a} := by
    intro b hb
    rw [Finset.mem_sdiff, Finset.mem_singleton]
    exact ⟨hS hb, fun heq => hnot (heq ▸ hb)⟩
  have hle : ∑ b ∈ S, c.weight b ≤ ∑ b ∈ c.members \ {a}, c.weight b :=
    Finset.sum_le_sum_of_subset hsub
  have hrest := sum_sdiff_singleton ha
  rw [quorumThreshold_wrapped hsum hwrap, validityThreshold_eq hsum] at hreach
  omega

theorem intersecting_of_dominated (hvalid : c.totalStake + 2 < 2 ^ 32) (h : c.Dominated) :
    c.Intersecting := by
  obtain ⟨a, ha, hdominant⟩ := h
  have hmem := fun S hS => mem_of_reaches hsum hwrap hvalid ha hdominant (S := S) hS
  refine ⟨?_, ?_, thresholds_le hsum⟩
  · intro S hS T hT hquorumS hquorumT
    have hboth : a ∈ S ∩ T :=
      Finset.mem_inter.mpr ⟨hmem S hS (Or.inl hquorumS), hmem T hT (Or.inl hquorumT)⟩
    have hle : c.weight a ≤ ∑ b ∈ S ∩ T, c.weight b :=
      Finset.single_le_sum (fun _ _ => Nat.zero_le _) hboth
    rw [validityThreshold_eq hsum]
    omega
  · intro S hS T hT hquorum hvalidity
    exact ⟨a, hmem S hS (Or.inl hquorum), hmem T hT (Or.inr hvalidity)⟩

/-- The empty set does not reach the validity threshold. -/
theorem fits_of_intersecting (h : c.Intersecting) : c.totalStake + 2 < 2 ^ 32 := by
  by_contra hwraps
  obtain ⟨a, _, hempty⟩ := h.validity c.members (Finset.Subset.refl _) ∅
    (Finset.empty_subset _) (h.all (by omega)).1 (by rw [validityThreshold_eq hsum]; simp; omega)
  exact Finset.notMem_empty a hempty

/-- No set and its complement are both quorums, so one authority dominates. -/
theorem dominated_of_intersecting (h : c.Intersecting) : c.Dominated := by
  have hvalid := fits_of_intersecting hsum hwrap h
  have hthreshold := quorumThreshold_wrapped hsum hwrap
  have hthird : 3 * c.quorumThreshold.toNat ≤ ∑ a ∈ c.members, c.weight a := by
    rw [hthreshold]
    show _ ≤ c.totalStake
    omega
  obtain ⟨a, ha, hrest⟩ := Quorum.exists_dominant (w := c.weight) hthird
    c.quorumThreshold_pos fun S hS => by
      by_contra hboth
      rw [not_or, not_lt, not_lt] at hboth
      have hshare := h.quorums S hS (c.members \ S) Finset.sdiff_subset hboth.1 hboth.2
      rw [Finset.inter_sdiff_self, Finset.sum_empty, validityThreshold_eq hsum] at hshare
      omega
  refine ⟨a, ha, ?_⟩
  have hsplit := sum_sdiff_singleton ha
  rw [hthreshold] at hrest
  omega

end

/-! ## §4. When quorums intersect. -/

/-- **When the thresholds make quorums intersect**: exactly if twice the total stake fits in
a `u32`, or the total plus two does and one authority dominates. -/
theorem thresholds_intersect_iff (c : Committee) (hsum : c.totalStake < 2 ^ 32) :
    c.Intersecting ↔
      2 * c.totalStake < 2 ^ 32 ∨ c.totalStake + 2 < 2 ^ 32 ∧ c.Dominated := by
  obtain hfit | hwrap := lt_or_ge (2 * c.totalStake) (2 ^ 32)
  · exact iff_of_true (intersecting_of_fit hfit) (Or.inl hfit)
  · constructor
    · intro h
      exact Or.inr ⟨fits_of_intersecting hsum hwrap h, dominated_of_intersecting hsum hwrap h⟩
    · rintro (hfit | ⟨hvalid, hdominated⟩)
      · exact absurd hfit (not_lt.mpr hwrap)
      · exact intersecting_of_dominated hsum hwrap hvalid hdominated

/-- Quorums of four equal authorities intersect. -/
theorem thresholds_intersect_iff_sample : sampleFour.Intersecting :=
  (thresholds_intersect_iff sampleFour (by decide +kernel)).mpr (Or.inl (by decide +kernel))

/-- Two authorities with a quarter of 2^32 each. -/
def sampleHalves : Committee :=
  let authority : Authority := { stake := 2 ^ 30, primary := ⟨"", ""⟩, workers := [0] }
  ⟨⟨[(sampleKey 0, authority), (sampleKey 1, authority)], by decide⟩⟩

/-- Each of the two authorities is a quorum of its own. -/
theorem thresholds_disjoint : ¬ ∀ c : Committee, c.totalStake < 2 ^ 32 → c.Intersecting := by
  intro hclaim
  have hshare := (hclaim sampleHalves (by decide +kernel)).quorums {sampleKey 0} (by decide +kernel)
    {sampleKey 1} (by decide +kernel) (by decide +kernel) (by decide +kernel)
  exact absurd hshare (by decide +kernel)

end Committee

end Mrv
