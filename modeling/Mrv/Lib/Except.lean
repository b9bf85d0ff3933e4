/-
  Mrv.Lib.Except — taking fallible computations apart.

  A computation in `Except` that returns has returned at every step; each lemma
  here hands out the step values, so that a proof about a returned result never
  unfolds `bind`.
-/
import Mathlib.Tactic

namespace Mrv

universe u

variable {ε : Type*} {α β : Type u}

/-- `ensure!(cond, e)`: fail with `e` unless the condition holds. -/
def ensure {ε : Type} (cond : Bool) (e : ε) : Except ε Unit := if cond then .ok () else .error e

@[simp] theorem ensure_eq_ok {ε : Type} {cond : Bool} {e : ε} :
    ensure cond e = .ok () ↔ cond = true := by
  cases cond <;> simp [ensure]

theorem bind_eq_ok {x : Except ε α} {f : α → Except ε β} {b : β} :
    (x >>= f) = .ok b ↔ ∃ a, x = .ok a ∧ f a = .ok b := by
  cases x with
  | error e => simp [bind, Except.bind]
  | ok a => simp [bind, Except.bind]

/-- A check in front of a computation. -/
theorem ensure_bind_eq_ok {ε β : Type} {cond : Bool} {e : ε} {f : Unit → Except ε β} {b : β} :
    (ensure cond e >>= f) = .ok b ↔ cond = true ∧ f () = .ok b := by
  rw [bind_eq_ok]
  constructor
  · intro h
    obtain ⟨_, hcond, hf⟩ := h
    exact ⟨ensure_eq_ok.mp hcond, hf⟩
  · intro h
    exact ⟨(), ensure_eq_ok.mpr h.1, h.2⟩

theorem map_eq_ok {x : Except ε α} {f : α → β} {b : β} :
    (x >>= fun a => pure (f a)) = .ok b ↔ ∃ a, x = .ok a ∧ f a = b := by
  rw [bind_eq_ok]
  simp [pure, Except.pure]

/-- A loop over a list returns when every iteration does. -/
theorem forM_eq_ok {ε : Type} {f : α → Except ε Unit} {l : List α} :
    l.forM f = .ok () ↔ ∀ a ∈ l, f a = .ok () := by
  induction l with
  | nil => simp [pure, Except.pure]
  | cons a l ih =>
      rw [List.forall_mem_cons, ← ih]
      show (f a >>= fun _ => l.forM f) = .ok () ↔ _
      rw [bind_eq_ok]
      constructor
      · intro h
        obtain ⟨u, hu, hl⟩ := h
        exact ⟨hu, hl⟩
      · intro h
        exact ⟨(), h.1, h.2⟩

/-! ## Errors that do not come up: no step fails with them. -/

theorem ensure_ne_error {ε : Type} {cond : Bool} {e e' : ε} (h : e' ≠ e) :
    ensure cond e' ≠ .error e := by
  cases cond <;> simp [ensure, h]

theorem bind_ne_error {x : Except ε α} {f : α → Except ε β} {e : ε} (hx : x ≠ .error e)
    (hf : ∀ a, f a ≠ .error e) : (x >>= f) ≠ .error e := by
  cases x with
  | error e' => exact fun heq => hx (by rw [Except.error.inj heq])
  | ok a => exact hf a

theorem forM_ne_error {ε : Type} {f : α → Except ε Unit} {l : List α} {e : ε}
    (h : ∀ a ∈ l, f a ≠ .error e) : l.forM f ≠ .error e := by
  induction l with
  | nil => simp [pure, Except.pure]
  | cons a l ih =>
      rw [List.forall_mem_cons] at h
      exact bind_ne_error h.1 fun _ => ih h.2

end Mrv
