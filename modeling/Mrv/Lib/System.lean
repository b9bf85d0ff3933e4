/-
  Mrv.Lib.System — transition systems, their runs and invariants.

  A system has initial states and a partial step function: a step takes a state
  and a label, and either the label is not enabled or there is a next state.  A
  run is kept with its history, the latest step first; each entry of the history
  is the state before the step together with the label.  Statements about every
  state ever reached, or about every step ever taken, are statements about a run
  and the entries of its history.

    * `Run.invariant`  — what holds initially and is preserved holds throughout,
    * `Run.at_entry`   — every entry of a history is a step of a shorter run,
    * `Run.forall_iff` — what holds throughout exactly if all steps meet a condition,
    * `exec_run`       — executing a list of labels gives a run,
    * `exec_labels`    — whose labels are those of the list,
    * `Run.eq_of_labels` — and determine the state.
-/
import Mathlib.Data.List.Basic
import Mathlib.Tactic

namespace Mrv

/-- A labelled transition system: its initial state and its enabled steps. -/
structure System (σ ι : Type*) where
  init : σ
  next : σ → ι → Option σ

namespace System

variable {σ ι : Type*} (S : System σ ι)

/-- Runs with their history, latest step first. -/
inductive Run : List (σ × ι) → σ → Prop
  | init : Run [] S.init
  | step {es : List (σ × ι)} {s s' : σ} {i : ι} (h : Run es s) (hnext : S.next s i = some s') :
      Run ((s, i) :: es) s'

variable {S}

/-- **The invariant rule.** -/
theorem Run.invariant {P : List (σ × ι) → σ → Prop} (hinit : P [] S.init)
    (hstep : ∀ es s i s', S.Run es s → P es s → S.next s i = some s' → P ((s, i) :: es) s')
    {es : List (σ × ι)} {s : σ} (h : S.Run es s) : P es s := by
  induction h with
  | init => exact hinit
  | step h hnext ih => exact hstep _ _ _ _ h ih hnext

/-- A history determines the state it leads to. -/
theorem Run.unique {es : List (σ × ι)} {s s' : σ} (h : S.Run es s) (h' : S.Run es s') :
    s = s' := by
  cases h with
  | init =>
      cases h' with
      | init => rfl
  | step _ hnext =>
      cases h' with
      | step _ hnext' => exact Option.some.inj (hnext.symm.trans hnext')

/-- **Every entry of a history was a step**: the run up to it ends in the state it
records, the label was enabled there, and the rest of the run came later. -/
theorem Run.at_entry {es : List (σ × ι)} {s t : σ} {i : ι} (h : S.Run es s) (he : (t, i) ∈ es) :
    ∃ later earlier t', es = later ++ (t, i) :: earlier ∧ S.Run earlier t ∧
      S.next t i = some t' := by
  induction h with
  | init => exact absurd he List.not_mem_nil
  | @step es s s' j h hnext ih =>
      rcases List.mem_cons.mp he with heq | he
      · obtain ⟨rfl, rfl⟩ := Prod.mk.inj heq
        exact ⟨[], es, s', rfl, h, hnext⟩
      · obtain ⟨later, earlier, t', heq, hrun, ht⟩ := ih he
        exact ⟨(s, j) :: later, earlier, t', by rw [heq]; rfl, hrun, ht⟩

/-- **Throughout a run**: where `I` holds initially and a step keeps it exactly if the step
meets `C`, it holds in all states exactly if all steps meet `C`.  What is assumed of the
last state, and holds before a step if it holds after it, may be used at each step. -/
theorem Run.forall_iff {I D : σ → Prop} {C : σ → ι → Prop} (hinit : I S.init)
    (hback : ∀ s i s', S.next s i = some s' → D s' → D s)
    (hstep : ∀ es s i s', S.Run es s → S.next s i = some s' → D s' → I s → (I s' ↔ C s i))
    {es : List (σ × ι)} {s : σ} (h : S.Run es s) (hD : D s) :
    (I s ∧ ∀ t i, (t, i) ∈ es → I t) ↔ ∀ t i, (t, i) ∈ es → C t i := by
  induction h with
  | init => exact iff_of_true ⟨hinit, by simp⟩ (by simp)
  | @step es s s' i hrun hnext ih =>
      have ih := ih (hback s i s' hnext hD)
      have hone := hstep es s i s' hrun hnext hD
      simp only [List.mem_cons, Prod.mk.injEq]
      constructor
      · rintro ⟨hs', hall⟩ t j (⟨rfl, rfl⟩ | hmem)
        · exact (hone (hall _ _ (Or.inl ⟨rfl, rfl⟩))).mp hs'
        · exact ih.mp ⟨hall s i (Or.inl ⟨rfl, rfl⟩), fun u k hu => hall u k (Or.inr hu)⟩ t j hmem
      · intro hall
        obtain ⟨hs, hearlier⟩ := ih.mpr fun t j hmem => hall t j (Or.inr hmem)
        refine ⟨(hone hs).mpr (hall s i (Or.inl ⟨rfl, rfl⟩)), ?_⟩
        rintro t j (⟨rfl, rfl⟩ | hmem)
        · exact hs
        · exact hearlier t j hmem

/-! ## Executing labels. -/

/-- Take the steps of a list of labels, keeping the history. -/
def exec (S : System σ ι) : List ι → List (σ × ι) → σ → Option (List (σ × ι) × σ)
  | [], es, s => some (es, s)
  | i :: is, es, s => (S.next s i).bind (fun s' => S.exec is ((s, i) :: es) s')

theorem exec_run {is : List ι} {es es' : List (σ × ι)} {s s' : σ} (h : S.Run es s)
    (hexec : S.exec is es s = some (es', s')) : S.Run es' s' := by
  induction is generalizing es s with
  | nil =>
      simp only [exec, Option.some.injEq, Prod.mk.injEq] at hexec
      obtain ⟨rfl, rfl⟩ := hexec
      exact h
  | cons i is ih =>
      obtain ⟨t, ht, hexec⟩ := Option.bind_eq_some_iff.mp hexec
      exact ih (.step h ht) hexec

/-- A property of the end of an execution, tested by running it. -/
theorem exec_check (S : System σ ι) (is : List ι) (check : List (σ × ι) → σ → Bool)
    (h : (S.exec is [] S.init).any (fun r => check r.1 r.2) = true) :
    ∃ es s, S.Run es s ∧ check es s = true := by
  obtain ⟨⟨es, s⟩, hexec, hcheck⟩ := (Option.any_eq_true _ _).mp h
  exact ⟨es, s, exec_run .init hexec, hcheck⟩

/-- The labels of an execution are those of the list. -/
theorem exec_labels {is : List ι} {es es' : List (σ × ι)} {s s' : σ}
    (hexec : S.exec is es s = some (es', s')) :
    es'.map Prod.snd = is.reverse ++ es.map Prod.snd := by
  induction is generalizing es s with
  | nil =>
      simp only [exec, Option.some.injEq, Prod.mk.injEq] at hexec
      rw [← hexec.1]
      rfl
  | cons i is ih =>
      obtain ⟨t, _, hexec⟩ := Option.bind_eq_some_iff.mp hexec
      rw [ih hexec, List.reverse_cons, List.append_assoc]
      rfl

/-- The labels of a run determine the state it leads to. -/
theorem Run.eq_of_labels {S : System σ ι} {es es' : List (σ × ι)} {s s' : σ} (h : S.Run es s)
    (h' : S.Run es' s') (hlabels : es.map Prod.snd = es'.map Prod.snd) : s = s' := by
  induction h generalizing es' s' with
  | init =>
      rw [List.map_nil, eq_comm, List.map_eq_nil_iff] at hlabels
      subst hlabels
      exact Run.unique .init h'
  | @step es t _ i _ hnext ih =>
      cases h' with
      | init => exact absurd hlabels (List.cons_ne_nil _ _)
      | step hrun' hnext' =>
          obtain ⟨hlast, hearlier⟩ := List.cons.inj hlabels
          have hsame := ih hrun' hearlier
          dsimp only at hlast
          rw [← hsame, ← hlast, hnext] at hnext'
          exact Option.some.inj hnext'

/-- A property of the end of an execution, together with its labels. -/
theorem exec_check_labels (S : System σ ι) (is : List ι) (check : σ → Bool)
    (h : (S.exec is [] S.init).any (fun r => check r.2) = true) :
    ∃ es s, S.Run es s ∧ es.map Prod.snd = is.reverse ∧ check s = true := by
  obtain ⟨⟨es, s⟩, hexec, hcheck⟩ := (Option.any_eq_true _ _).mp h
  refine ⟨es, s, exec_run .init hexec, ?_, hcheck⟩
  rw [exec_labels hexec]
  exact List.append_nil _

end System

end Mrv
