/-
  Mrv.Lib.Sort — sorting and least elements by a comparison function.

  A comparison function orders a list by a key when, on the elements of the list, it
  answers "greater" exactly where the key decreases (`OrdersBy`).  Then sorting with
  it gives the list in key order (`sortBy_pairwise`), and lists in key order with the
  same elements are equal if the key is injective on them (`eq_of_perm_of_pairwise`).
-/
import Mathlib.Data.List.Sort
import Mathlib.Tactic

namespace Mrv

universe u v

variable {α : Type u} {β : Type v}

/-- `sort_by`: a stable sort. -/
def sortBy (cmp : α → α → Ordering) (l : List α) : List α :=
  l.insertionSort (fun a b => cmp a b ≠ .gt)

/-- `sort_by` with a comparison that may fail: the sort fails when two elements of the
list cannot be compared. -/
def trySortBy (cmp : α → α → Option Ordering) (l : List α) : Option (List α) :=
  if l.Pairwise (fun a b => cmp a b ≠ none ∧ cmp b a ≠ none) then
    some (l.insertionSort (fun a b => cmp a b ≠ some .gt))
  else none

/-- `iter().min_by`: the first of the least elements. -/
def minBy (cmp : α → α → Ordering) : List α → Option α
  | [] => none
  | x :: xs => some (xs.foldl (fun least a => if cmp least a = .gt then a else least) x)

/-- On these elements the comparison is that of a key. -/
def OrdersBy [LE β] (cmp : α → α → Ordering) (key : α → β) (l : List α) : Prop :=
  ∀ a ∈ l, ∀ b ∈ l, cmp a b ≠ .gt ↔ key a ≤ key b

theorem sortBy_perm (cmp : α → α → Ordering) (l : List α) : (sortBy cmp l).Perm l :=
  List.perm_insertionSort _ l

@[simp] theorem mem_sortBy {cmp : α → α → Ordering} {l : List α} {a : α} :
    a ∈ sortBy cmp l ↔ a ∈ l := (sortBy_perm cmp l).mem_iff

/-- A list comes out in the order of another relation that agrees on its elements. -/
theorem insertionSort_congr {r r' : α → α → Prop} [DecidableRel r] [DecidableRel r']
    {l : List α} (h : ∀ a ∈ l, ∀ b ∈ l, r a b ↔ r' a b) :
    l.insertionSort r = l.insertionSort r' := by
  have hmap := List.map_insertionSort r r' id l h
  rw [List.map_id, List.map_id] at hmap
  exact hmap

section

variable [LinearOrder β] {cmp : α → α → Ordering} {key : α → β} {l l' : List α}

theorem OrdersBy.of_subset (h : OrdersBy cmp key l') (hsub : ∀ a ∈ l, a ∈ l') :
    OrdersBy cmp key l :=
  fun a ha b hb => h a (hsub a ha) b (hsub b hb)

theorem OrdersBy.gt_iff (h : OrdersBy cmp key l) {a b : α} (ha : a ∈ l) (hb : b ∈ l) :
    cmp a b = .gt ↔ key b < key a := by
  rw [← not_le, ← h a ha b hb, not_not]

theorem pairwise_insertionSort_key (key : α → β) (l : List α) :
    (l.insertionSort (fun a b => key a ≤ key b)).Pairwise (fun a b => key a ≤ key b) := by
  have htotal : Std.Total (fun a b => key a ≤ key b) := ⟨fun a b => le_total (key a) (key b)⟩
  have htrans : IsTrans α (fun a b => key a ≤ key b) := ⟨fun _ _ _ => le_trans⟩
  exact List.pairwise_insertionSort _ l

/-- **Sorting orders by the key.** -/
theorem sortBy_pairwise (h : OrdersBy cmp key l) :
    (sortBy cmp l).Pairwise (fun a b => key a ≤ key b) := by
  unfold sortBy
  rw [insertionSort_congr h]
  exact pairwise_insertionSort_key key l

/-- Two lists in key order with the same elements are equal. -/
theorem eq_of_perm_of_pairwise (hinj : Set.InjOn key {a | a ∈ l}) (hperm : l.Perm l')
    (hl : l.Pairwise (fun a b => key a ≤ key b)) (hl' : l'.Pairwise (fun a b => key a ≤ key b)) :
    l = l' :=
  hperm.eq_of_pairwise
    (fun _ _ ha hb hab hba => hinj ha (hperm.mem_iff.mpr hb) (le_antisymm hab hba)) hl hl'

/-- The least element found is in the list and below all others. -/
theorem minBy_spec (h : OrdersBy cmp key l) (hne : l ≠ []) :
    ∃ m ∈ l, minBy cmp l = some m ∧ ∀ a ∈ l, key m ≤ key a := by
  have hfold : ∀ (xs : List α) (x : α), OrdersBy cmp key (x :: xs) →
      ∃ m ∈ x :: xs, xs.foldl (fun least a => if cmp least a = .gt then a else least) x = m ∧
        ∀ a ∈ x :: xs, key m ≤ key a := by
    intro xs
    induction xs with
    | nil => exact fun x _ => ⟨x, List.mem_cons_self, rfl, by simp⟩
    | cons y ys ih =>
        intro x hx
        have hmem : x ∈ x :: y :: ys ∧ y ∈ x :: y :: ys := by simp
        have hgt := hx.gt_iff hmem.1 hmem.2
        rw [List.foldl_cons]
        by_cases hlt : key y < key x
        · rw [if_pos (hgt.mpr hlt)]
          have hrest : OrdersBy cmp key (y :: ys) :=
            hx.of_subset fun a ha => List.mem_cons_of_mem _ ha
          obtain ⟨m, hm, heq, hle⟩ := ih y hrest
          refine ⟨m, List.mem_cons_of_mem _ hm, heq, ?_⟩
          rw [List.forall_mem_cons]
          exact ⟨(hle y List.mem_cons_self).trans hlt.le, hle⟩
        · rw [if_neg (fun heq => hlt (hgt.mp heq))]
          have hsub : ∀ a ∈ x :: ys, a ∈ x :: y :: ys := fun a ha => by
            obtain rfl | ha := List.mem_cons.mp ha
            · exact hmem.1
            · simp [ha]
          obtain ⟨m, hm, heq, hle⟩ := ih x (hx.of_subset hsub)
          refine ⟨m, hsub m hm, heq, ?_⟩
          rw [List.forall_mem_cons, List.forall_mem_cons]
          have hmx := hle x List.mem_cons_self
          exact ⟨hmx, hmx.trans (not_lt.mp hlt), fun a ha => hle a (List.mem_cons_of_mem _ ha)⟩
  cases l with
  | nil => exact absurd rfl hne
  | cons x xs =>
      obtain ⟨m, hm, heq, hle⟩ := hfold xs x h
      exact ⟨m, hm, congrArg some heq, hle⟩

/-- A sort with a comparison that never fails on the list. -/
theorem trySortBy_spec {cmp : α → α → Option Ordering}
    (hsome : ∀ a ∈ l, ∀ b ∈ l, ∃ o, cmp a b = some o ∧ (o ≠ .gt ↔ key a ≤ key b)) :
    ∃ sorted, trySortBy cmp l = some sorted ∧ sorted.Perm l ∧
      sorted.Pairwise (fun a b => key a ≤ key b) := by
  have hne : ∀ a ∈ l, ∀ b ∈ l, cmp a b ≠ none := fun a ha b hb => by
    obtain ⟨o, ho, _⟩ := hsome a ha b hb
    rw [ho]
    exact Option.some_ne_none o
  have hcond : l.Pairwise (fun a b => cmp a b ≠ none ∧ cmp b a ≠ none) :=
    List.pairwise_iff_forall_sublist.mpr fun {a b} hab =>
      have ha : a ∈ l := hab.subset List.mem_cons_self
      have hb : b ∈ l := hab.subset (List.mem_cons_of_mem _ List.mem_cons_self)
      ⟨hne a ha b hb, hne b hb a ha⟩
  refine ⟨_, if_pos hcond, List.perm_insertionSort _ l, ?_⟩
  have hcongr : ∀ a ∈ l, ∀ b ∈ l, cmp a b ≠ some .gt ↔ key a ≤ key b := fun a ha b hb => by
    obtain ⟨o, ho, hiff⟩ := hsome a ha b hb
    rw [ho, ← hiff, Ne, Option.some.injEq]
  rw [insertionSort_congr hcongr]
  exact pairwise_insertionSort_key key l

end

end Mrv
