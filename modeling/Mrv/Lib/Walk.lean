/-
  Mrv.Lib.Walk — greedy walks down a ladder of candidates.

  A ladder gives at most one candidate at each rung.  A walk goes down a list of
  rungs from a current element and moves to the candidate of a rung whenever the
  current element is linked to it.  The point of the file is `walk_through`: if
  the walk is bound to be linked to the candidate of a rung when it gets there,
  then what it collects below that rung is the walk that starts there.  Two
  walks through the same element therefore agree below it.
-/
import Mathlib.Data.List.Basic
import Mathlib.Tactic

namespace Mrv.Walk

/-! ## §1. The rungs. -/

/-- `hi, hi - 2, hi - 4, …`, as long as it is at least `lo`. -/
def downBy2 (lo hi : ℕ) : List ℕ := (List.range ((hi + 2 - lo) / 2)).map (fun i => hi - 2 * i)

theorem mem_downBy2 {lo hi r : ℕ} (hlo : 0 < lo) :
    r ∈ downBy2 lo hi ↔ lo ≤ r ∧ r ≤ hi ∧ (hi - r) % 2 = 0 := by
  unfold downBy2
  simp only [List.mem_map, List.mem_range]
  constructor
  · rintro ⟨i, hi', rfl⟩
    omega
  · rintro ⟨h1, h2, h3⟩
    exact ⟨(hi - r) / 2, by omega, by omega⟩

/-- The rungs above, at and below a rung on the way. -/
theorem downBy2_split {lo hi r : ℕ} (hr : 2 ≤ r) (hlo : lo ≤ r) (hhi : r ≤ hi)
    (hpar : (hi - r) % 2 = 0) :
    downBy2 lo hi = downBy2 (r + 2) hi ++ r :: downBy2 lo (r - 2) := by
  obtain ⟨k, rfl⟩ : ∃ k, hi = r + 2 * k := ⟨(hi - r) / 2, by omega⟩
  have habove : (r + 2 * k + 2 - (r + 2)) / 2 = k := by omega
  have hbelow : (r + 2 * k + 2 - lo) / 2 = k + (1 + (r - 2 + 2 - lo) / 2) := by omega
  unfold downBy2
  rw [hbelow, habove, List.range_add, List.map_append, List.range_add]
  simp only [List.map_map, List.range_one, List.map_cons, List.cons_append, List.nil_append]
  refine congrArg₂ _ rfl (congrArg₂ _ (by simp) ?_)
  refine List.map_congr_left ?_
  intro i _
  simp only [Function.comp_apply]
  omega

/-- The rungs go down strictly. -/
theorem downBy2_sorted (lo hi : ℕ) : (downBy2 lo hi).Pairwise (· > ·) := by
  unfold downBy2
  rw [List.pairwise_map]
  refine List.Pairwise.imp_of_mem ?_ List.pairwise_lt_range
  intro i j hi' hj hij
  rw [List.mem_range] at hi' hj
  omega

/-! ## §2. The walk. -/

open Classical in
/-- The elements collected on the way down. -/
noncomputable def walk {α : Type*} (cand : ℕ → Option α) (linked : α → α → Prop) :
    List ℕ → α → List α
  | [], _ => []
  | r :: rs, x =>
      match cand r with
      | none => walk cand linked rs x
      | some y => if linked x y then y :: walk cand linked rs y else walk cand linked rs x

section

variable {α : Type*} {cand : ℕ → Option α} {linked : α → α → Prop}

theorem walk_cons_none {r : ℕ} {rs : List ℕ} {x : α} (h : cand r = none) :
    walk cand linked (r :: rs) x = walk cand linked rs x := by
  simp only [walk, h]

theorem walk_cons_linked {r : ℕ} {rs : List ℕ} {x y : α} (h : cand r = some y)
    (hl : linked x y) : walk cand linked (r :: rs) x = y :: walk cand linked rs y := by
  simp only [walk, h, if_pos hl]

theorem walk_cons_not_linked {r : ℕ} {rs : List ℕ} {x y : α} (h : cand r = some y)
    (hl : ¬ linked x y) : walk cand linked (r :: rs) x = walk cand linked rs x := by
  simp only [walk, h, if_neg hl]

/-- **Passing through**: when the start and every candidate above rung `r` are
linked to its candidate `y`, the walk meets `y` and continues as the walk from
`y`. -/
theorem walk_through {rs ts : List ℕ} {r : ℕ} {x y : α} (hy : cand r = some y)
    (hx : linked x y) (habove : ∀ s ∈ rs, ∀ z, cand s = some z → linked z y) :
    walk cand linked (rs ++ r :: ts) x = walk cand linked rs x ++ y :: walk cand linked ts y := by
  induction rs generalizing x with
  | nil =>
      rw [List.nil_append, walk_cons_linked hy hx]
      rfl
  | cons s rs ih =>
      have habove' : ∀ s ∈ rs, ∀ z, cand s = some z → linked z y :=
        fun s' hs' => habove s' (List.mem_cons_of_mem _ hs')
      rw [List.cons_append]
      cases hc : cand s with
      | none => rw [walk_cons_none hc, walk_cons_none hc, ih hx habove']
      | some z =>
          by_cases hl : linked x z
          · have hzy : linked z y := habove s List.mem_cons_self z hc
            rw [walk_cons_linked hc hl, walk_cons_linked hc hl, ih hzy habove']
            rfl
          · rw [walk_cons_not_linked hc hl, walk_cons_not_linked hc hl, ih hx habove']

end

end Mrv.Walk
