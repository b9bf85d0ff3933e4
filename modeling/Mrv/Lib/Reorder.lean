/-
  Mrv.Lib.Reorder — lists that differ by swaps of independent neighbours.

  Two permutations of the same elements may both respect a precedence relation.  Then
  one comes from the other by swaps of neighbours that may stand either way
  (`Reorder.of_perm`).

  For a step function whose steps commute on such neighbours, up to a relation between
  states, both lists lead to related states (`Commutes.run_perm`).
-/
import Mathlib.Data.List.Basic
import Mathlib.Tactic

namespace Mrv

variable {α σ : Type*}

/-! ## §1. Swaps. -/

/-- Swaps of neighbours of which each may come before the other. -/
inductive Reorder (R : α → α → Prop) : List α → List α → Prop
  | refl (l : List α) : Reorder R l l
  | cons (x : α) {l l' : List α} (h : Reorder R l l') : Reorder R (x :: l) (x :: l')
  | swap {x y : α} (l : List α) (hxy : R x y) (hyx : R y x) : Reorder R (x :: y :: l) (y :: x :: l)
  | trans {l₁ l₂ l₃ : List α} (h : Reorder R l₁ l₂) (h' : Reorder R l₂ l₃) : Reorder R l₁ l₃

namespace Reorder

variable {R : α → α → Prop}

theorem perm {l l' : List α} (h : Reorder R l l') : l.Perm l' := by
  induction h with
  | refl l => exact List.Perm.refl l
  | cons x _ ih => exact ih.cons x
  | swap l _ _ => exact List.Perm.swap _ _ l
  | trans _ _ ih ih' => exact ih.trans ih'

theorem pairwise {l l' : List α} (h : Reorder R l l') (hl : l.Pairwise R) : l'.Pairwise R := by
  induction h with
  | refl l => exact hl
  | cons x h ih =>
      rw [List.pairwise_cons] at hl ⊢
      exact ⟨fun y hy => hl.1 y (h.perm.mem_iff.mpr hy), ih hl.2⟩
  | swap l _ hyx =>
      simp only [List.pairwise_cons, List.forall_mem_cons] at hl ⊢
      exact ⟨⟨hyx, hl.2.1⟩, hl.1.2, hl.2.2⟩
  | trans _ _ ih ih' => exact ih' (ih hl)

/-- An element moves to the front past elements it is independent of. -/
theorem to_front {x : α} {pre : List α} (post : List α) (h : ∀ y ∈ pre, R x y ∧ R y x) :
    Reorder R (x :: (pre ++ post)) (pre ++ x :: post) := by
  induction pre with
  | nil => exact Reorder.refl _
  | cons y pre ih =>
      rw [List.forall_mem_cons] at h
      exact (Reorder.swap _ h.1.1 h.1.2).trans ((ih h.2).cons y)

/-- **Two orders that respect a precedence differ by swaps of independent neighbours.** -/
theorem of_perm {l l' : List α} (hperm : l.Perm l') (h : l.Pairwise R) (h' : l'.Pairwise R) :
    Reorder R l l' := by
  induction l generalizing l' with
  | nil =>
      rw [List.nil_perm.mp hperm]
      exact Reorder.refl []
  | cons x l ih =>
      rw [List.pairwise_cons] at h
      obtain ⟨pre, post, rfl⟩ := List.append_of_mem (hperm.subset List.mem_cons_self)
      have hrest : l.Perm (pre ++ post) := (List.perm_cons x).mp (hperm.trans List.perm_middle)
      rw [List.pairwise_append, List.pairwise_cons] at h'
      obtain ⟨hpre, ⟨_, hpost⟩, hcross⟩ := h'
      have hordered : (pre ++ post).Pairwise R := by
        rw [List.pairwise_append]
        exact ⟨hpre, hpost, fun a ha b hb => hcross a ha b (List.mem_cons_of_mem x hb)⟩
      -- what stood before `x` stands after it in the other order
      have hindependent : ∀ y ∈ pre, R x y ∧ R y x := by
        intro y hy
        have hyl : y ∈ l := hrest.mem_iff.mpr (List.mem_append_left post hy)
        exact ⟨h.1 y hyl, hcross y hy x List.mem_cons_self⟩
      exact ((ih hrest h.2 hordered).cons x).trans (to_front post hindependent)

end Reorder

/-! ## §2. Runs over reordered lists. -/

/-- A step function for which independent neighbours commute.  `R x y` says that `x` may come
before `y`, `Fit s x` that `x` may still come, and `Same` relates states that are not told
apart. -/
structure Commutes (f : σ → α → Option σ) (R : α → α → Prop) (Fit : σ → α → Prop)
    (Same : σ → σ → Prop) : Prop where
  total : ∀ s x, ∃ s', f s x = some s'
  refl : ∀ s, Same s s
  trans : ∀ {s t u}, Same s t → Same t u → Same s u
  congr : ∀ {s t x s' t'}, Same s t → f s x = some s' → f t x = some t' → Same s' t'
  keep : ∀ {s x y s'}, Fit s x → Fit s y → R x y → f s x = some s' → Fit s' y
  swap : ∀ {s x y a b a' b'}, Fit s x → Fit s y → R x y → R y x → f s x = some a →
    f a y = some b → f s y = some a' → f a' x = some b' → Same b b'

namespace Commutes

variable {f : σ → α → Option σ} {R : α → α → Prop} {Fit : σ → α → Prop}
  {Same : σ → σ → Prop} {l l' : List α} {s t s' t' : σ}

theorem run_total (h : Commutes f R Fit Same) (l : List α) (s : σ) :
    ∃ s', l.foldlM f s = some s' := by
  induction l generalizing s with
  | nil => exact ⟨s, rfl⟩
  | cons x l ih =>
      obtain ⟨a, ha⟩ := h.total s x
      obtain ⟨s', hs'⟩ := ih a
      refine ⟨s', ?_⟩
      rw [List.foldlM_cons, ha]
      exact hs'

theorem run_congr (h : Commutes f R Fit Same) (hsame : Same s t)
    (hs : l.foldlM f s = some s') (ht : l.foldlM f t = some t') : Same s' t' := by
  induction l generalizing s t with
  | nil =>
      rw [← Option.some.inj hs, ← Option.some.inj ht]
      exact hsame
  | cons x l ih =>
      rw [List.foldlM_cons] at hs ht
      obtain ⟨a, ha, hs⟩ := Option.bind_eq_some_iff.mp hs
      obtain ⟨b, hb, ht⟩ := Option.bind_eq_some_iff.mp ht
      exact ih (h.congr hsame ha hb) hs ht

theorem run_reorder (h : Commutes f R Fit Same) (hreorder : Reorder R l l')
    (hl : l.Pairwise R) (hfit : ∀ x ∈ l, Fit s x) (hsame : Same s t)
    (hs : l.foldlM f s = some s') (ht : l'.foldlM f t = some t') : Same s' t' := by
  induction hreorder generalizing s t s' t' with
  | refl l => exact h.run_congr hsame hs ht
  | cons x _ ih =>
      rw [List.pairwise_cons] at hl
      rw [List.forall_mem_cons] at hfit
      rw [List.foldlM_cons] at hs ht
      obtain ⟨a, ha, hs⟩ := Option.bind_eq_some_iff.mp hs
      obtain ⟨b, hb, ht⟩ := Option.bind_eq_some_iff.mp ht
      have hkeep := fun y hy => h.keep hfit.1 (hfit.2 y hy) (hl.1 y hy) ha
      exact ih hl.2 hkeep (h.congr hsame ha hb) hs ht
  | @swap x y l hxy hyx =>
      simp only [List.forall_mem_cons] at hfit
      rw [List.foldlM_cons] at hs ht
      obtain ⟨a, ha, hs⟩ := Option.bind_eq_some_iff.mp hs
      obtain ⟨b, hb, ht⟩ := Option.bind_eq_some_iff.mp ht
      rw [List.foldlM_cons] at hs ht
      obtain ⟨a₂, ha₂, hs⟩ := Option.bind_eq_some_iff.mp hs
      obtain ⟨b₂, hb₂, ht⟩ := Option.bind_eq_some_iff.mp ht
      -- the swapped order from the first state lies in between
      obtain ⟨m, hm⟩ := h.total s y
      obtain ⟨m₂, hm₂⟩ := h.total m x
      have hleft : Same a₂ m₂ := h.swap hfit.1 hfit.2.1 hxy hyx ha ha₂ hm hm₂
      have hright : Same m₂ b₂ := h.congr (h.congr hsame hm hb) hm₂ hb₂
      exact h.run_congr (h.trans hleft hright) hs ht
  | trans h₁ _ ih ih' =>
      obtain ⟨m, hm⟩ := h.run_total _ s
      have hfit' := fun x hx => hfit x (h₁.perm.mem_iff.mpr hx)
      exact h.trans (ih hl hfit (h.refl s) hs hm) (ih' (h₁.pairwise hl) hfit' hsame hm ht)

/-- **Orders that respect the precedence lead to the same state.** -/
theorem run_perm (h : Commutes f R Fit Same) (hperm : l.Perm l') (hl : l.Pairwise R)
    (hl' : l'.Pairwise R) (hfit : ∀ x ∈ l, Fit s x) (hsame : Same s t)
    (hs : l.foldlM f s = some s') (ht : l'.foldlM f t = some t') : Same s' t' :=
  h.run_reorder (Reorder.of_perm hperm hl hl') hl hfit hsame hs ht

end Commutes

end Mrv
