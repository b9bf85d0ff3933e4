/-
  Mrv.Lib.Blocking — handlers that stop at each send on a bounded channel.

  A task that sends on a full channel waits in the middle of its handler until there
  is room, while other tasks change the state.  Here a handler is the tree of its
  sends: up to the first one it only works on the state, and what comes after a send
  is a function of the state in which the task goes on.

    * `Refines`      — resumed at once, a tree does what an ordinary handler does,
    * `Sends`        — a bound on the sends, with what is left of it at the end,
    * `Course.Sends.advance` — what a task adds to a channel before it stops.

  For both there is one rule for each way of building a handler.
-/
import Mrv.Lib.Handler

namespace Mrv

/-- How a handler goes on: it ends, or it sends a message and goes on in the state in which
the message was taken by the channel. -/
inductive Course (σ ε μ α : Type) where
  | done (result : Except ε α) (s : σ)
  | send (message : μ) (s : σ) (resume : σ → Course σ ε μ α)

/-- A handler with state `σ`, failures `ε` and result `α` that sends messages `μ`. -/
def Blocking (σ ε μ α : Type) := σ → Course σ ε μ α

namespace Course

variable {σ ε μ α β : Type}

/-- One course after another. -/
def bind : Course σ ε μ α → (α → σ → Course σ ε μ β) → Course σ ε μ β
  | .done (.ok a) s, f => f a s
  | .done (.error e) s, _ => .done (.error e) s
  | .send message s resume, f => .send message s (fun s' => (resume s').bind f)

/-- Turn every failure `e` into `f e`. -/
def expect (f : ε → ε) : Course σ ε μ α → Course σ ε μ α
  | .done (.ok a) s => .done (.ok a) s
  | .done (.error e) s => .done (.error (f e)) s
  | .send message s resume => .send message s (fun s' => (resume s').expect f)

/-- Go on as long as there is room for what is sent. -/
def advance (full : σ → Bool) (push : σ → μ → σ) : Course σ ε μ α → Course σ ε μ α
  | .done result s => .done result s
  | .send message s resume =>
      if full s = true then .send message s resume
      else (resume (push s message)).advance full push

/-- Go on to the end. -/
def settle (push : σ → μ → σ) : Course σ ε μ α → Except ε α × σ
  | .done result s => (result, s)
  | .send message s resume => (resume (push s message)).settle push

end Course

namespace Blocking

variable {σ ε μ α β : Type}

/-- The course of a handler from a state. -/
def run (x : Blocking σ ε μ α) (s : σ) : Course σ ε μ α := x s

instance : Monad (Blocking σ ε μ) where
  pure a := fun s => .done (.ok a) s
  bind x f := fun s => (x.run s).bind (fun a => (f a).run)

/-- A handler that sends nothing. -/
def lift (x : Handler σ ε α) : Blocking σ ε μ α := fun s => .done (x.exec s).1 (x.exec s).2

/-- Send a message. -/
def send (message : μ) : Blocking σ ε μ Unit :=
  fun s => .send message s (fun s' => .done (.ok ()) s')

/-- Turn every failure `e` into `f e`: `x.await.expect(..)`. -/
def expect (x : Blocking σ ε μ α) (f : ε → ε) : Blocking σ ε μ α := fun s => (x.run s).expect f

theorem run_bind (x : Blocking σ ε μ α) (f : α → Blocking σ ε μ β) (s : σ) :
    (x >>= f).run s = (x.run s).bind (fun a => (f a).run) := rfl

theorem run_expect (x : Blocking σ ε μ α) (f : ε → ε) (s : σ) :
    (x.expect f).run s = (x.run s).expect f := rfl

/-! ## §1. Handlers that are never kept waiting. -/

/-- With room for every message, `x` does what `y` does. -/
def Refines (push : σ → μ → σ) (x : Blocking σ ε μ α) (y : Handler σ ε α) : Prop :=
  ∀ s, (x.run s).settle push = y.exec s

theorem settle_bind (push : σ → μ → σ) (c : Course σ ε μ α) (f : α → σ → Course σ ε μ β) :
    (c.bind f).settle push = match c.settle push with
      | (.ok a, s') => (f a s').settle push
      | (.error e, s') => (.error e, s') := by
  induction c with
  | done result s =>
      cases result with
      | ok a => rfl
      | error e => rfl
  | send message s resume ih => exact ih (push s message)

theorem settle_expect (push : σ → μ → σ) (f : ε → ε) (c : Course σ ε μ α) :
    (c.expect f).settle push = match c.settle push with
      | (.ok a, s') => (.ok a, s')
      | (.error e, s') => (.error (f e), s') := by
  induction c with
  | done result s =>
      cases result with
      | ok a => rfl
      | error e => rfl
  | send message s resume ih => exact ih (push s message)

namespace Refines

variable {push : σ → μ → σ}

theorem pure (a : α) : Refines push (pure a : Blocking σ ε μ α) (pure a) := fun _ => rfl

theorem lift (x : Handler σ ε α) : Refines push (Blocking.lift x) x := fun _ => rfl

theorem bind {x : Blocking σ ε μ α} {y : Handler σ ε α} {f : α → Blocking σ ε μ β}
    {g : α → Handler σ ε β} (hx : Refines push x y) (hf : ∀ a, Refines push (f a) (g a)) :
    Refines push (x >>= f) (y >>= g) := by
  intro s
  rw [run_bind, settle_bind, hx s, Handler.exec_bind]
  rcases y.exec s with ⟨result, s'⟩
  cases result with
  | ok a => exact hf a s'
  | error e => rfl

theorem expect {x : Blocking σ ε μ α} {y : Handler σ ε α} (hx : Refines push x y) (f : ε → ε) :
    Refines push (x.expect f) (y.expect f) := by
  intro s
  rw [run_expect, settle_expect, hx s]
  refine Eq.trans ?_ (Handler.exec_expect y f s).symm
  rcases y.exec s with ⟨result, s'⟩
  cases result with
  | ok a => rfl
  | error e' => rfl

theorem send {message : μ} {y : Handler σ ε Unit}
    (hy : ∀ s, y.exec s = (.ok (), push s message)) : Refines push (Blocking.send message) y :=
  fun s => (hy s).symm

theorem ite {c : Prop} [Decidable c] {x x' : Blocking σ ε μ α} {y y' : Handler σ ε α}
    (hx : Refines push x y) (hx' : Refines push x' y') :
    Refines push (if c then x else x') (if c then y else y') := by
  by_cases hc : c
  · rw [if_pos hc, if_pos hc]
    exact hx
  · rw [if_neg hc, if_neg hc]
    exact hx'

end Refines

end Blocking

/-! ## §2. How many messages are sent. -/

namespace Course

variable {σ ε μ α β : Type}

/-- From a state of size `k`, at most `n` messages are sent, and otherwise the size stays;
`Q` holds of the sends that are left and of the result. -/
def Sends (size : σ → ℕ) (Q : ℕ → α → Prop) : Course σ ε μ α → ℕ → ℕ → Prop
  | .done result s, n, k => size s = k ∧ ∀ a, result = .ok a → Q n a
  | .send _ s resume, n, k =>
      size s = k ∧ 0 < n ∧ ∀ s', (resume s').Sends size Q (n - 1) (size s')

variable {size : σ → ℕ} {Q : ℕ → α → Prop} {R : ℕ → β → Prop}

theorem Sends.bind {n k : ℕ} {c : Course σ ε μ α} {f : α → σ → Course σ ε μ β}
    (hc : c.Sends size Q n k) (hf : ∀ n a, Q n a → ∀ s, (f a s).Sends size R n (size s)) :
    (c.bind f).Sends size R n k := by
  induction c generalizing n k with
  | done result s =>
      obtain ⟨hsize, hQ⟩ := hc
      cases result with
      | ok a =>
          rw [← hsize]
          exact hf n a (hQ a rfl) s
      | error e => exact ⟨hsize, fun b h => by cases h⟩
  | send message s resume ih =>
      obtain ⟨hsize, hpos, hrest⟩ := hc
      exact ⟨hsize, hpos, fun s' => ih s' (hrest s')⟩

theorem Sends.expect {n k : ℕ} {c : Course σ ε μ α} (hc : c.Sends size Q n k) (f : ε → ε) :
    (c.expect f).Sends size Q n k := by
  induction c generalizing n k with
  | done result s =>
      cases result with
      | ok a => exact hc
      | error e' => exact ⟨hc.1, fun a h => by cases h⟩
  | send message s resume ih =>
      obtain ⟨hsize, hpos, hrest⟩ := hc
      exact ⟨hsize, hpos, fun s' => ih s' (hrest s')⟩

/-- **Where a task stops**: it ended, having sent at most `n` messages, or it waits in front
of a full channel with one of the `n` in its hands. -/
theorem Sends.advance (full : σ → Bool) {push : σ → μ → σ}
    (hpush : ∀ s message, size (push s message) = size s + 1) {n k : ℕ} {c : Course σ ε μ α}
    (hc : c.Sends size Q n k) :
    match c.advance full push with
    | .done _ s => size s ≤ k + n
    | .send _ s resume => full s = true ∧ k ≤ size s ∧ size s + 1 ≤ k + n ∧
        ∀ s', (resume s').Sends size Q (k + n - (size s + 1)) (size s') := by
  induction c generalizing n k with
  | done result s =>
      show size s ≤ k + n
      rw [hc.1]
      omega
  | send message s resume ih =>
      obtain ⟨hsize, hpos, hrest⟩ := hc
      unfold Course.advance
      by_cases hfull : full s = true
      · rw [if_pos hfull]
        have hleft : k + n - (size s + 1) = n - 1 := by omega
        refine ⟨hfull, hsize.ge, by omega, ?_⟩
        rw [hleft]
        exact hrest
      · rw [if_neg hfull]
        -- the message is in the channel: one less to be sent, one more there
        have hnext := ih (push s message) (hrest (push s message))
        have hgrown : size (push s message) = k + 1 := by rw [hpush, hsize]
        have hsame : size (push s message) + (n - 1) = k + n := by omega
        rw [hsame, hgrown] at hnext
        revert hnext
        cases (resume (push s message)).advance full push with
        | done result s' => exact id
        | send message' s' resume' =>
            intro hnext
            exact ⟨hnext.1, by omega, hnext.2.2⟩

end Course

namespace Blocking

variable {σ ε μ α β : Type} {size : σ → ℕ} {Q : ℕ → α → Prop} {R : ℕ → β → Prop} {n : ℕ}

/-- A handler that sends at most `n` messages. -/
def Sends (size : σ → ℕ) (Q : ℕ → α → Prop) (n : ℕ) (x : Blocking σ ε μ α) : Prop :=
  ∀ s, (x.run s).Sends size Q n (size s)

namespace Sends

theorem pure {a : α} (h : Q n a) : Sends size Q n (pure a : Blocking σ ε μ α) := by
  intro s
  refine ⟨rfl, fun b hb => ?_⟩
  rw [← Except.ok.inj hb]
  exact h

/-- A handler that keeps the size sends nothing. -/
theorem lift {x : Handler σ ε α} (hx : ∀ k, Handler.Keeps (fun s => size s = k) x)
    (hQ : ∀ a, Q n a) : Sends size Q n (Blocking.lift x : Blocking σ ε μ α) :=
  fun s => ⟨(hx (size s)).exec rfl, fun a _ => hQ a⟩

theorem send {message : μ} {Q : ℕ → Unit → Prop} (hn : 0 < n) (h : Q (n - 1) ()) :
    Sends size Q n (Blocking.send message : Blocking σ ε μ Unit) :=
  fun _ => ⟨rfl, hn, fun _ => ⟨rfl, fun _ _ => h⟩⟩

theorem bind {x : Blocking σ ε μ α} {f : α → Blocking σ ε μ β} (hx : Sends size Q n x)
    (hf : ∀ n a, Q n a → Sends size R n (f a)) : Sends size R n (x >>= f) :=
  fun s => (hx s).bind hf

/-- What comes after a handler that keeps the size. -/
theorem lift_bind {x : Handler σ ε α} {f : α → Blocking σ ε μ β}
    (hx : ∀ k, Handler.Keeps (fun s => size s = k) x) (hf : ∀ a, Sends size R n (f a)) :
    Sends size R n (Blocking.lift x >>= f) := by
  refine bind (Q := fun m _ => m = n) (lift hx fun _ => rfl) ?_
  intro m a hm
  rw [hm]
  exact hf a

theorem expect {x : Blocking σ ε μ α} (hx : Sends size Q n x) (f : ε → ε) :
    Sends size Q n (x.expect f) :=
  fun s => (hx s).expect f

theorem ite {c : Prop} [Decidable c] {x y : Blocking σ ε μ α} (hx : c → Sends size Q n x)
    (hy : ¬ c → Sends size Q n y) : Sends size Q n (if c then x else y) := by
  by_cases hc : c
  · rw [if_pos hc]
    exact hx hc
  · rw [if_neg hc]
    exact hy hc

end Sends

end Blocking

end Mrv
