/-
  Mrv.Lib.Encoding — encodings of fixed width.

  Codes of one fixed width need no separators: from two equal strings of codes the
  same values can be read, as many as both have (`FixedWidth.flatMap_append_inj`).
  The number of codes is not in the string.  If nothing follows it is read off the
  length (`FixedWidth.flatMap_injective`); if codes of another width follow, a string may be
  read with more codes of the one kind and fewer of the other (`length_tradeoff`).
-/
import Mathlib.Data.List.Basic
import Mathlib.Tactic

namespace Mrv.Encoding

variable {α β γ : Type*}

/-- An injective encoding by strings of one length. -/
structure FixedWidth (f : α → List β) (k : ℕ) : Prop where
  length : ∀ x, (f x).length = k
  injective : Function.Injective f

namespace FixedWidth

variable {f : α → List β} {g : γ → List β} {k m : ℕ}

/-- The first code can be read off. -/
theorem append_inj (hf : FixedWidth f k) {x y : α} {rest rest' : List β}
    (h : f x ++ rest = f y ++ rest') : x = y ∧ rest = rest' := by
  obtain ⟨hcode, hrest⟩ := List.append_inj h ((hf.length x).trans (hf.length y).symm)
  exact ⟨hf.injective hcode, hrest⟩

/-- Codes of pairs. -/
theorem pair (hf : FixedWidth f k) (hg : FixedWidth g m) :
    FixedWidth (fun p : α × γ => f p.1 ++ g p.2) (k + m) where
  length := by
    intro p
    rw [List.length_append, hf.length, hg.length]
  injective := by
    intro p q h
    obtain ⟨hfst, hsnd⟩ := hf.append_inj h
    exact Prod.ext hfst (hg.injective hsnd)

theorem length_flatMap (hf : FixedWidth f k) (l : List α) : (l.flatMap f).length = k * l.length := by
  induction l with
  | nil => rfl
  | cons x l ih =>
      rw [List.flatMap_cons, List.length_append, hf.length, ih, List.length_cons]
      ring

/-- **As many codes as both strings have can be read off.** -/
theorem flatMap_append_inj (hf : FixedWidth f k) {l l' : List α} {rest rest' : List β}
    (hlength : l.length = l'.length) (h : l.flatMap f ++ rest = l'.flatMap f ++ rest') :
    l = l' ∧ rest = rest' := by
  induction l generalizing l' with
  | nil =>
      obtain rfl := List.length_eq_zero_iff.mp hlength.symm
      exact ⟨rfl, h⟩
  | cons x l ih =>
      cases l' with
      | nil => exact absurd hlength (Nat.succ_ne_zero _)
      | cons y l' =>
          rw [List.flatMap_cons, List.flatMap_cons, List.append_assoc, List.append_assoc] at h
          obtain ⟨rfl, htail⟩ := hf.append_inj h
          obtain ⟨rfl, hrest⟩ := ih (Nat.succ.inj hlength) htail
          exact ⟨rfl, hrest⟩

/-- Where nothing follows, the length of the string tells the number of codes. -/
theorem flatMap_injective (hf : FixedWidth f k) (hk : 0 < k) {l l' : List α}
    (h : l.flatMap f = l'.flatMap f) : l = l' := by
  have hlength := congrArg List.length h
  rw [hf.length_flatMap, hf.length_flatMap] at hlength
  have hall : l.flatMap f ++ [] = l'.flatMap f ++ [] := by rw [h]
  exact (hf.flatMap_append_inj (Nat.eq_of_mul_eq_mul_left hk hlength) hall).1

/-- Two kinds of codes, one after the other: more of the one are fewer of the other. -/
theorem length_tradeoff (hf : FixedWidth f k) (hg : FixedWidth g m) {l l' : List α}
    {r r' : List γ} (h : l.flatMap f ++ r.flatMap g = l'.flatMap f ++ r'.flatMap g) :
    k * l.length + m * r.length = k * l'.length + m * r'.length := by
  have hlength := congrArg List.length h
  simp only [List.length_append, hf.length_flatMap, hg.length_flatMap] at hlength
  exact hlength

end FixedWidth

end Mrv.Encoding
