/-
  Mrv.Lib.Handler — handlers of events, and triples about them.

  A handler works on a state and may fail half-way; what it wrote before it
  failed stays written.  A triple says what holds after a handler that starts in
  a state with a given property: one postcondition for the handlers that return
  and one for those that fail.  There is one rule for each way of building a
  handler, so that a proof about a handler follows its text.

    * `Triple.bind`    — what the first part establishes, the rest may use,
    * `Triple.expect`  — failures that are turned into other failures,
    * `Triple.conseq`  — weaker promises from stronger assumptions,
    * `Keeps`          — the same before and after, with its own set of rules.
-/
import Mathlib.Tactic

namespace Mrv

/-- A handler with state `σ`, failures `ε` and result `α`. -/
abbrev Handler (σ ε α : Type) := ExceptT ε (StateM σ) α

namespace Handler

variable {σ ε α β : Type}

/-- The result of a handler and the state it leaves. -/
def exec (x : Handler σ ε α) (s : σ) : Except ε α × σ := (ExceptT.run x).run s

/-- Turn every failure `e` into `f e`: `x.await.expect(..)`. -/
def expect (x : Handler σ ε α) (f : ε → ε) : Handler σ ε α := tryCatch x (fun e => throw (f e))

/-- The value of a computation that does not touch the state. -/
def ofExcept {δ : Type} (f : δ → ε) : Except δ α → Handler σ ε α
  | .ok a => pure a
  | .error e => throw (f e)

/-! ## §1. What each way of building a handler does. -/

theorem exec_pure (a : α) (s : σ) : exec (pure a : Handler σ ε α) s = (.ok a, s) := rfl

theorem exec_modifyGet (f : σ → α × σ) (s : σ) :
    exec (modifyGet f : Handler σ ε α) s = (.ok (f s).1, (f s).2) := rfl

theorem exec_get (s : σ) : exec (get : Handler σ ε σ) s = (.ok s, s) := rfl

theorem exec_bind (x : Handler σ ε α) (f : α → Handler σ ε β) (s : σ) :
    exec (x >>= f) s = match exec x s with
      | (.ok a, s') => exec (f a) s'
      | (.error e, s') => (.error e, s') := by
  show (ExceptT.bindCont f (x s).1 (x s).2) = _
  unfold exec ExceptT.run StateT.run
  rcases x s with ⟨r, s'⟩
  cases r <;> rfl

theorem exec_expect (x : Handler σ ε α) (f : ε → ε) (s : σ) :
    exec (expect x f) s = match exec x s with
      | (.ok a, s') => (.ok a, s')
      | (.error e, s') => (.error (f e), s') := by
  unfold exec ExceptT.run StateT.run
  show (match (x s).1 with
    | .ok a => (pure (Except.ok a) : StateM σ (Except ε α))
    | .error e => (throw (f e) : Handler σ ε α)) (x s).2 = _
  rcases x s with ⟨r, s'⟩
  cases r <;> rfl

/-! ## §2. Triples. -/

/-- From a state with `P` the handler returns with `Q` or fails with `E`. -/
def Triple (P : σ → Prop) (x : Handler σ ε α) (Q : α → σ → Prop) (E : ε → σ → Prop) : Prop :=
  ∀ s, P s → match exec x s with
    | (.ok a, s') => Q a s'
    | (.error e, s') => E e s'

variable {P P' : σ → Prop} {Q Q' : α → σ → Prop} {R : β → σ → Prop} {E E' : ε → σ → Prop}

namespace Triple

theorem pure {a : α} (h : ∀ s, P s → Q a s) : Triple P (pure a) Q E := h

theorem throw {e : ε} (h : ∀ s, P s → E e s) : Triple P (throw e) Q E := h

theorem modifyGet {f : σ → α × σ} (h : ∀ s, P s → Q (f s).1 (f s).2) :
    Triple P (modifyGet f) Q E := h

theorem modify {f : σ → σ} {Q : PUnit → σ → Prop} (h : ∀ s, P s → Q ⟨⟩ (f s)) :
    Triple P (modify f) Q E := h

theorem get {Q : σ → σ → Prop} (h : ∀ s, P s → Q s s) : Triple P get Q E := h

theorem bind {x : Handler σ ε α} {f : α → Handler σ ε β} (hx : Triple P x Q E)
    (hf : ∀ a, Triple (Q a) (f a) R E) : Triple P (x >>= f) R E := by
  intro s hs
  have hmid := hx s hs
  rw [exec_bind]
  rcases hexec : exec x s with ⟨r, s'⟩
  rw [hexec] at hmid
  cases r with
  | ok a => exact hf a s' hmid
  | error e => exact hmid

theorem expect {x : Handler σ ε α} {f : ε → ε} (hx : Triple P x Q (fun e s => E (f e) s)) :
    Triple P (expect x f) Q E := by
  intro s hs
  have hmid := hx s hs
  rw [exec_expect]
  rcases hexec : exec x s with ⟨r, s'⟩
  rw [hexec] at hmid
  cases r with
  | ok a => exact hmid
  | error e' => exact hmid

theorem ite {c : Prop} [Decidable c] {x y : Handler σ ε α} (hx : c → Triple P x Q E)
    (hy : ¬ c → Triple P y Q E) : Triple P (if c then x else y) Q E := by
  by_cases hc : c
  · rw [if_pos hc]
    exact hx hc
  · rw [if_neg hc]
    exact hy hc

theorem ofExcept {δ : Type} {f : δ → ε} {r : Except δ α}
    (hok : ∀ a, r = .ok a → ∀ s, P s → Q a s) (herr : ∀ e s, P s → E (f e) s) :
    Triple P (ofExcept f r) Q E := by
  cases r with
  | ok a => exact hok a rfl
  | error e => exact herr e

/-- Weaker promises from stronger assumptions. -/
theorem conseq {x : Handler σ ε α} (h : Triple P x Q E) (hP : ∀ s, P' s → P s)
    (hQ : ∀ a s, Q a s → Q' a s) (hE : ∀ e s, E e s → E' e s) : Triple P' x Q' E' := by
  intro s hs
  have hmid := h s (hP s hs)
  rcases hexec : exec x s with ⟨r, s'⟩
  rw [hexec] at hmid
  cases r with
  | ok a => exact hQ a s' hmid
  | error e => exact hE e s' hmid

/-- Handlers that go on alike, wherever the first part takes them, do the same. -/
theorem exec_bind_congr {x : Handler σ ε α} {f g : α → Handler σ ε β} (hx : Triple P x Q E)
    (hfg : ∀ a s, Q a s → exec (f a) s = exec (g a) s) :
    ∀ s, P s → exec (x >>= f) s = exec (x >>= g) s := by
  intro s hs
  have hmid := hx s hs
  rw [exec_bind, exec_bind]
  rcases hexec : exec x s with ⟨r, s'⟩
  rw [hexec] at hmid
  cases r with
  | ok a => exact hfg a s' hmid
  | error e => rfl

/-- A fact about the starting state that does not mention it any more. -/
theorem of_forall {x : Handler σ ε α} (h : ∀ s, P s → Triple (fun t => t = s) x Q E) :
    Triple P x Q E :=
  fun s hs => h s hs s rfl

end Triple

/-- A handler that keeps a property of the state, whether it returns or fails. -/
def Keeps (I : σ → Prop) (x : Handler σ ε α) : Prop :=
  Triple I x (fun _ s => I s) (fun _ s => I s)

namespace Keeps

variable {I : σ → Prop}

theorem pure (a : α) : Keeps I (pure a : Handler σ ε α) := Triple.pure fun _ hs => hs

theorem throw (e : ε) : Keeps I (throw e : Handler σ ε α) := Triple.throw fun _ hs => hs

theorem get : Keeps I (get : Handler σ ε σ) := Triple.get fun _ hs => hs

theorem bind {x : Handler σ ε α} {f : α → Handler σ ε β} (hx : Keeps I x)
    (hf : ∀ a, Keeps I (f a)) : Keeps I (x >>= f) :=
  Triple.bind hx hf

theorem expect {x : Handler σ ε α} {f : ε → ε} (hx : Keeps I x) : Keeps I (expect x f) :=
  Triple.expect (hx.conseq (fun _ => id) (fun _ _ => id) (fun _ _ => id))

theorem ite {c : Prop} [Decidable c] {x y : Handler σ ε α} (hx : Keeps I x) (hy : Keeps I y) :
    Keeps I (if c then x else y) :=
  Triple.ite (fun _ => hx) (fun _ => hy)

theorem ofExcept {δ : Type} {f : δ → ε} {r : Except δ α} : Keeps I (ofExcept f r) :=
  Triple.ofExcept (fun _ _ _ hs => hs) (fun _ _ hs => hs)

end Keeps

/-- The state a handler leaves has every property the handler keeps. -/
theorem Keeps.exec {I : σ → Prop} {x : Handler σ ε α} (h : Keeps I x) {s : σ} (hs : I s) :
    I (exec x s).2 := by
  have hmid := h s hs
  rcases hexec : Handler.exec x s with ⟨r, s'⟩
  rw [hexec] at hmid
  cases r with
  | ok a => exact hmid
  | error e => exact hmid

end Handler

end Mrv
