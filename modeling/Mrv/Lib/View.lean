/-
  Mrv.Lib.View — what a part of a system sees of a run.

  A view shows the states of a system as states of a part, and says which steps are
  steps of the part; all others leave what it shows alone.  A run of the system, seen
  through a view, is a run of the part, and so everything that holds in all runs of
  the part holds in the system.  Views compose.

  Parties are copies of the same kind of system that take one step at a time, each
  in a state of its own; a guard on the state of all of them says which steps are
  possible.  There is a view of each party.

    * `View.run`      — runs are seen as runs,
    * `View.comp`     — a part of a part,
    * `parties`       — the system of all parties,
    * `party`         — the view of one of them.
-/
import Mrv.Lib.System

namespace Mrv

namespace System

variable {σ τ υ ι κ μ : Type*}

/-- A part of a system. -/
structure View (S : System σ ι) (T : System τ κ) where
  /-- What is seen of a state. -/
  state : σ → τ
  /-- What is seen of a step, if it is one of the part. -/
  label : σ → ι → Option κ
  init : state S.init = T.init
  step : ∀ s i s', S.next s i = some s' → ∀ k, label s i = some k →
    T.next (state s) k = some (state s')
  silent : ∀ s i s', S.next s i = some s' → label s i = none → state s' = state s

namespace View

variable {S : System σ ι} {T : System τ κ} {U : System υ μ}

/-- What is seen of a history. -/
def history (V : View S T) (es : List (σ × ι)) : List (τ × κ) :=
  es.filterMap fun e => (V.label e.1 e.2).map fun k => (V.state e.1, k)

variable (V : View S T)

@[simp] theorem history_nil : V.history [] = [] := rfl

theorem history_cons_some {s : σ} {i : ι} {k : κ} {es : List (σ × ι)}
    (h : V.label s i = some k) : V.history ((s, i) :: es) = (V.state s, k) :: V.history es :=
  List.filterMap_cons_some (by rw [h]; rfl)

theorem history_cons_none {s : σ} {i : ι} {es : List (σ × ι)} (h : V.label s i = none) :
    V.history ((s, i) :: es) = V.history es :=
  List.filterMap_cons_none (by rw [h]; rfl)

theorem mem_history {es : List (σ × ι)} {t : τ} {k : κ} :
    (t, k) ∈ V.history es ↔ ∃ s i, (s, i) ∈ es ∧ V.label s i = some k ∧ V.state s = t := by
  unfold history
  rw [List.mem_filterMap]
  constructor
  · rintro ⟨⟨s, i⟩, hmem, heq⟩
    obtain ⟨k', hlabel, hpair⟩ := Option.map_eq_some_iff.mp heq
    obtain ⟨rfl, rfl⟩ := Prod.mk.inj hpair
    exact ⟨s, i, hmem, hlabel, rfl⟩
  · rintro ⟨s, i, hmem, hlabel, rfl⟩
    exact ⟨(s, i), hmem, by rw [hlabel]; rfl⟩

/-- **A run is seen as a run.** -/
theorem run {es : List (σ × ι)} {s : σ} (h : S.Run es s) : T.Run (V.history es) (V.state s) := by
  induction h with
  | init =>
      rw [V.init]
      exact Run.init
  | @step es s s' i h hnext ih =>
      cases hlabel : V.label s i with
      | none =>
          rw [V.history_cons_none hlabel, V.silent s i s' hnext hlabel]
          exact ih
      | some k =>
          rw [V.history_cons_some hlabel]
          exact ih.step (V.step s i s' hnext k hlabel)

/-- A part of a part. -/
def comp (W : View T U) (V : View S T) : View S U where
  state s := W.state (V.state s)
  label s i := (V.label s i).bind (W.label (V.state s))
  init := by rw [V.init, W.init]
  step s i s' hnext k hk := by
    obtain ⟨l, hl, hk⟩ := Option.bind_eq_some_iff.mp hk
    exact W.step _ _ _ (V.step s i s' hnext l hl) k hk
  silent s i s' hnext hnone := by
    cases hl : V.label s i with
    | none => rw [V.silent s i s' hnext hl]
    | some l =>
        rw [hl, Option.bind_some] at hnone
        exact W.silent _ _ _ (V.step s i s' hnext l hl) hnone

/-- What a part sees of what is seen. -/
theorem history_comp (W : View T U) (V : View S T) (es : List (σ × ι)) :
    (W.comp V).history es = W.history (V.history es) := by
  induction es with
  | nil => rfl
  | cons e es ih =>
      obtain ⟨s, i⟩ := e
      cases hl : V.label s i with
      | none =>
          have hnone : (W.comp V).label s i = none := by
            show (V.label s i).bind _ = none
            rw [hl, Option.bind_none]
          rw [history_cons_none _ hnone, history_cons_none _ hl, ih]
      | some l =>
          have hbind : (W.comp V).label s i = W.label (V.state s) l := by
            show (V.label s i).bind _ = _
            rw [hl, Option.bind_some]
          rw [history_cons_some _ hl]
          cases hk : W.label (V.state s) l with
          | none => rw [history_cons_none _ (hbind.trans hk), history_cons_none _ hk, ih]
          | some k =>
              rw [history_cons_some _ (hbind.trans hk), history_cons_some _ hk, ih]
              rfl

end View

/-! ## Parties. -/

variable [DecidableEq ι]

/-- Parties that take one step at a time; a guard says which steps are possible. -/
def parties (S : ι → System σ κ) (guard : (ι → σ) → ι → κ → Bool) : System (ι → σ) (ι × κ) where
  init i := (S i).init
  next s a :=
    if guard s a.1 a.2 = true then ((S a.1).next (s a.1) a.2).map (Function.update s a.1) else none

variable {S : ι → System σ κ} {guard : (ι → σ) → ι → κ → Bool} {s s' : ι → σ} {i : ι} {k : κ}

/-- **One step of the parties** is a possible step of one of them. -/
theorem parties_next (h : (parties S guard).next s (i, k) = some s') :
    guard s i k = true ∧ ∃ t, (S i).next (s i) k = some t ∧ s' = Function.update s i t := by
  unfold parties at h
  dsimp only at h
  split at h
  · next hguard =>
    obtain ⟨t, ht, heq⟩ := Option.map_eq_some_iff.mp h
    exact ⟨hguard, t, ht, heq.symm⟩
  · exact absurd h.symm (Option.some_ne_none _)

/-- The view of one party. -/
def party (S : ι → System σ κ) (guard : (ι → σ) → ι → κ → Bool) (i : ι) :
    View (parties S guard) (S i) where
  state s := s i
  label _ a := if a.1 = i then some a.2 else none
  init := rfl
  step s a s' hnext k hk := by
    obtain ⟨j, l⟩ := a
    obtain ⟨_, t, ht, rfl⟩ := parties_next hnext
    dsimp only at hk
    split at hk
    · next heq =>
      subst heq
      rw [← Option.some.inj hk, Function.update_self]
      exact ht
    · exact absurd hk.symm (Option.some_ne_none _)
  silent s a s' hnext hnone := by
    obtain ⟨j, l⟩ := a
    obtain ⟨_, t, _, rfl⟩ := parties_next hnext
    dsimp only at hnone
    split at hnone
    · exact absurd hnone (Option.some_ne_none _)
    · next hne => exact Function.update_of_ne (Ne.symm hne) _ _

end System

end Mrv
