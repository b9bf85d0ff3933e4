/-
  Mrv.Consensus.Update — what insertion and cleanup leave in the DAG.

  The dag map is read through `Dag.find`.  Insertion changes one slot; the
  cleanup of `State.update` keeps a slot exactly when its round is not below the
  last committed round of its author and within `gc_depth` of the last committed
  round (`find_update`).  Folding the updates of a whole batch gives the lemmas
  of §3, which are all that the invariants of a run use.
-/
import Mrv.Consensus.State

namespace Mrv

/-! ## §1. The dag map. -/

namespace Dag

theorem find_eq_some_iff {dag : Dag} {r : ℕ} {a : PublicKey} {e : Digest × Certificate} :
    dag.find r a = some e ↔ ∃ authorities, dag.lookup r = some authorities ∧
      authorities.lookup a = some e := by
  unfold find
  exact Option.bind_eq_some_iff

theorem find_add (dag : Dag) (r r' : ℕ) (a a' : PublicKey) (e : Digest × Certificate) :
    (dag.add r a e).find r' a' = if r' = r ∧ a' = a then some e else dag.find r' a' := by
  unfold find add
  rw [AList.lookup_insert_eq_ite]
  by_cases hr : r' = r
  · subst hr
    rw [if_pos rfl, Option.bind_some, AList.lookup_insert_eq_ite]
    by_cases ha : a' = a
    · rw [if_pos ha, if_pos ⟨rfl, ha⟩]
    · rw [if_neg ha, if_neg (fun h => ha h.2)]
      cases dag.lookup r' with
      | none => simp
      | some authorities => rfl
  · rw [if_neg hr, if_neg (fun h => hr h.1)]

theorem find_cleanup (dag : Dag) (gcDepth lastCommittedRound : ℕ) (name : PublicKey)
    (round r : ℕ) (a : PublicKey) :
    (dag.cleanup gcDepth lastCommittedRound name round).find r a =
      if (a = name → round ≤ r) ∧ lastCommittedRound ≤ r + gcDepth then dag.find r a
      else none := by
  unfold find cleanup
  rw [AList.lookup_retain]
  cases hl : dag.lookup r with
  | none => simp
  | some authorities =>
      simp only [Option.bind_some]
      -- the round may be dropped as a whole because nothing is left in it
      have hkept : ((authorities.retain (fun n x => if n ≠ name ∨ round ≤ r then some x else none) :
            HashMap PublicKey (Digest × Certificate)).lookup a)
          = if a = name → round ≤ r then authorities.lookup a else none := by
        rw [AList.lookup_retain]
        cases authorities.lookup a with
        | none => simp
        | some e => simp [imp_iff_not_or]
      by_cases hgc : lastCommittedRound ≤ r + gcDepth
      · by_cases hempty : (authorities.retain
            (fun n x => if n ≠ name ∨ round ≤ r then some x else none) :
            HashMap PublicKey (Digest × Certificate)).entries = []
        · rw [if_neg (fun h => h.1 hempty)]
          have hnone : (authorities.retain
              (fun n x => if n ≠ name ∨ round ≤ r then some x else none) :
              HashMap PublicKey (Digest × Certificate)).lookup a = none := by
            rw [AList.lookup_eq_none]
            intro hmem
            have hkeys := AList.mem_keys.mp hmem
            rw [AList.keys, hempty] at hkeys
            simp at hkeys
          rw [hkept] at hnone
          by_cases hn : a = name → round ≤ r
          · rw [if_pos hn] at hnone
            simp [hnone]
          · rw [if_neg (fun h => hn h.1)]
            rfl
        · rw [if_pos ⟨hempty, hgc⟩, Option.bind_some, hkept]
          by_cases hn : a = name → round ≤ r
          · rw [if_pos hn, if_pos ⟨hn, hgc⟩]
          · rw [if_neg hn, if_neg (fun h => hn h.1)]
      · rw [if_neg (fun h => hgc h.2), if_neg (fun h => hgc h.2)]
        rfl

theorem find_foldl_cleanup (gcDepth lastCommittedRound r : ℕ) (a : PublicKey) :
    ∀ (es : List (Sigma fun _ : PublicKey => ℕ)) (dag : Dag),
      (es.foldl (fun dag e => dag.cleanup gcDepth lastCommittedRound e.1 e.2) dag).find r a =
        if (∀ e ∈ es, a = e.1 → e.2 ≤ r) ∧ (es ≠ [] → lastCommittedRound ≤ r + gcDepth)
        then dag.find r a else none
  | [], dag => by simp
  | e :: es, dag => by
      rw [List.foldl_cons, find_foldl_cleanup gcDepth lastCommittedRound r a es, find_cleanup]
      by_cases he : (a = e.1 → e.2 ≤ r) ∧ lastCommittedRound ≤ r + gcDepth
      · by_cases hes : ∀ e ∈ es, a = e.1 → e.2 ≤ r
        · rw [if_pos ⟨hes, fun _ => he.2⟩, if_pos he, if_pos]
          exact ⟨List.forall_mem_cons.mpr ⟨he.1, hes⟩, fun _ => he.2⟩
        · rw [if_neg (fun h => hes h.1), if_neg]
          exact fun h => hes (List.forall_mem_cons.mp h.1).2
      · rw [if_neg he, ite_self, if_neg]
        exact fun h => he ⟨(List.forall_mem_cons.mp h.1).1, h.2 (List.cons_ne_nil _ _)⟩

end Dag

/-! ## §2. One update. -/

namespace State

/-- The last committed round of an author, zero when there is none. -/
def committedRound (s : State) (a : PublicKey) : ℕ := (s.lastCommitted.lookup a).getD 0

/-- The cached maximum is the maximum. -/
def Tidy (s : State) : Prop := s.lastCommittedRound = s.lastCommitted.values.foldr max 0

theorem le_foldr_max {l : List ℕ} {k : ℕ} (h : k ∈ l) : k ≤ l.foldr max 0 := by
  induction l with
  | nil => simp at h
  | cons x l ih =>
      rw [List.foldr_cons]
      rcases List.mem_cons.mp h with rfl | h
      · exact Nat.le_max_left _ _
      · exact (ih h).trans (Nat.le_max_right _ _)

theorem foldr_max_mem (l : List ℕ) : l.foldr max 0 = 0 ∨ l.foldr max 0 ∈ l := by
  induction l with
  | nil => exact Or.inl rfl
  | cons x l ih =>
      rw [List.foldr_cons]
      rcases Nat.le_total x (l.foldr max 0) with h | h
      · rw [Nat.max_eq_right h]
        rcases ih with ih | ih
        · exact Or.inl ih
        · exact Or.inr (List.mem_cons_of_mem _ ih)
      · rw [Nat.max_eq_left h]
        exact Or.inr List.mem_cons_self

theorem Tidy.committedRound_le {s : State} (h : s.Tidy) (a : PublicKey) :
    s.committedRound a ≤ s.lastCommittedRound := by
  unfold committedRound
  rw [h]
  cases hl : s.lastCommitted.lookup a with
  | none => exact Nat.zero_le _
  | some k => exact le_foldr_max (AList.mem_values_of_lookup hl)

theorem Tidy.exists_committedRound {s : State} (h : s.Tidy) (hpos : 0 < s.lastCommittedRound) :
    ∃ a, s.committedRound a = s.lastCommittedRound := by
  rcases foldr_max_mem s.lastCommitted.values with h0 | hmem
  · rw [h, h0] at hpos
    exact absurd hpos (Nat.lt_irrefl 0)
  · obtain ⟨a, ha⟩ := AList.mem_values.mp hmem
    refine ⟨a, ?_⟩
    unfold committedRound
    rw [ha, h]
    rfl

section

variable (s : State) (c : Certificate) (gcDepth : ℕ)

theorem tidy_update : (s.update c gcDepth).Tidy := rfl

theorem lookup_update (a : PublicKey) :
    (s.update c gcDepth).lastCommitted.lookup a =
      if a = c.origin then some (max (s.committedRound c.origin) c.round)
      else s.lastCommitted.lookup a := by
  unfold update committedRound
  simp only []
  rw [AList.lookup_insert_eq_ite]
  by_cases ha : a = c.origin
  · rw [if_pos ha, if_pos ha]
    cases s.lastCommitted.lookup c.origin with
    | none => simp
    | some k => rfl
  · rw [if_neg ha, if_neg ha]

theorem committedRound_update (a : PublicKey) :
    (s.update c gcDepth).committedRound a =
      if a = c.origin then max (s.committedRound c.origin) c.round else s.committedRound a := by
  unfold committedRound
  rw [lookup_update]
  by_cases ha : a = c.origin
  · rw [if_pos ha, if_pos ha]
    rfl
  · rw [if_neg ha, if_neg ha]

/-- **The cleanup**: a slot survives exactly when its round is neither below its
author's last committed round nor out of the collector's reach. -/
theorem find_update (r : ℕ) (a : PublicKey) :
    (s.update c gcDepth).dag.find r a =
      if (s.update c gcDepth).committedRound a ≤ r ∧
          (s.update c gcDepth).lastCommittedRound ≤ r + gcDepth
      then s.dag.find r a else none := by
  have hne : (s.update c gcDepth).lastCommitted.entries ≠ [] := by
    intro hnil
    have hl := lookup_update s c gcDepth c.origin
    rw [if_pos rfl, AList.lookup_eq_some_iff, hnil] at hl
    simp at hl
  have hall : (∀ e ∈ (s.update c gcDepth).lastCommitted.entries, a = e.1 → e.2 ≤ r) ↔
      (s.update c gcDepth).committedRound a ≤ r := by
    constructor
    · intro h
      unfold committedRound
      cases hl : (s.update c gcDepth).lastCommitted.lookup a with
      | none => exact Nat.zero_le _
      | some k => exact h _ (AList.lookup_eq_some_iff.mp hl) rfl
    · rintro h ⟨a', k⟩ he rfl
      have hl := AList.lookup_eq_some_iff.mpr he
      unfold committedRound at h
      rw [hl] at h
      exact h
  have hdag : (s.update c gcDepth).dag.find r a = _ :=
    Dag.find_foldl_cleanup gcDepth (s.update c gcDepth).lastCommittedRound r a
      (s.update c gcDepth).lastCommitted.entries s.dag
  rw [hdag]
  simp only [hall, hne, ne_eq, not_false_eq_true, forall_true_left]

end

/-! ## §3. The updates of a batch. -/

/-- `state.update(&x, gc_depth)` for every certificate of a batch. -/
def updateAll (s : State) (batch : List Certificate) (gcDepth : ℕ) : State :=
  batch.foldl (fun s x => s.update x gcDepth) s

section

variable {s : State} {batch : List Certificate} {gcDepth : ℕ}

@[simp] theorem updateAll_nil : s.updateAll [] gcDepth = s := rfl

@[simp] theorem updateAll_cons {c : Certificate} :
    s.updateAll (c :: batch) gcDepth = (s.update c gcDepth).updateAll batch gcDepth := rfl

theorem updateAll_tidy (h : s.Tidy) : (s.updateAll batch gcDepth).Tidy := by
  induction batch generalizing s with
  | nil => exact h
  | cons c batch ih => exact ih (tidy_update s c gcDepth)

theorem committedRound_le_update (c : Certificate) (a : PublicKey) :
    s.committedRound a ≤ (s.update c gcDepth).committedRound a := by
  rw [committedRound_update]
  split
  · next h => rw [h]; exact Nat.le_max_left _ _
  · exact Nat.le_refl _

theorem committedRound_le_updateAll (a : PublicKey) :
    s.committedRound a ≤ (s.updateAll batch gcDepth).committedRound a := by
  induction batch generalizing s with
  | nil => exact Nat.le_refl _
  | cons c batch ih => exact (committedRound_le_update c a).trans ih

theorem round_le_committedRound_updateAll {x : Certificate} (hx : x ∈ batch) :
    x.round ≤ (s.updateAll batch gcDepth).committedRound x.origin := by
  induction batch generalizing s with
  | nil => simp at hx
  | cons c batch ih =>
      rcases List.mem_cons.mp hx with rfl | hx
      · rw [updateAll_cons]
        refine le_trans ?_ (committedRound_le_updateAll x.origin)
        rw [committedRound_update, if_pos rfl]
        exact Nat.le_max_right _ _
      · exact ih hx

/-- A last committed round that changed is the round of a certificate of the batch. -/
theorem committedRound_updateAll_cases (s : State) (batch : List Certificate) (gcDepth : ℕ)
    (a : PublicKey) :
    (s.updateAll batch gcDepth).committedRound a = s.committedRound a ∨
      ∃ x ∈ batch, x.origin = a ∧ x.round = (s.updateAll batch gcDepth).committedRound a := by
  induction batch generalizing s with
  | nil => exact Or.inl rfl
  | cons c batch ih =>
      rcases ih (s.update c gcDepth) with h | ⟨x, hx, ho, hr⟩
      · rw [updateAll_cons, h, committedRound_update]
        split
        · next ha =>
          rcases Nat.le_total (s.committedRound c.origin) c.round with hle | hle
          · exact Or.inr ⟨c, List.mem_cons_self, ha.symm, by rw [Nat.max_eq_right hle]⟩
          · left
            rw [Nat.max_eq_left hle, ha]
        · exact Or.inl rfl
      · exact Or.inr ⟨x, List.mem_cons_of_mem _ hx, ho, hr⟩

theorem lookup_isSome_updateAll {a : PublicKey} (h : (s.lastCommitted.lookup a).isSome) :
    ((s.updateAll batch gcDepth).lastCommitted.lookup a).isSome := by
  induction batch generalizing s with
  | nil => exact h
  | cons c batch ih =>
      refine ih ?_
      rw [lookup_update]
      split
      · rfl
      · exact h

theorem lastCommittedRound_le_updateAll (h : s.Tidy) :
    s.lastCommittedRound ≤ (s.updateAll batch gcDepth).lastCommittedRound := by
  rcases Nat.eq_zero_or_pos s.lastCommittedRound with h0 | hpos
  · rw [h0]; exact Nat.zero_le _
  · obtain ⟨a, ha⟩ := h.exists_committedRound hpos
    rw [← ha]
    exact (committedRound_le_updateAll a).trans ((updateAll_tidy h).committedRound_le a)

/-- Updates only remove certificates. -/
theorem find_of_find_updateAll {r : ℕ} {a : PublicKey} {e : Digest × Certificate}
    (h : (s.updateAll batch gcDepth).dag.find r a = some e) : s.dag.find r a = some e := by
  induction batch generalizing s with
  | nil => exact h
  | cons c batch ih =>
      have hc := ih h
      rw [find_update] at hc
      split at hc
      · exact hc
      · exact absurd hc.symm (Option.some_ne_none e)

/-- What survives a batch is current for its author and within reach. -/
theorem current_of_find_updateAll {r : ℕ} {a : PublicKey} {e : Digest × Certificate}
    (hne : batch ≠ []) (h : (s.updateAll batch gcDepth).dag.find r a = some e) :
    (s.updateAll batch gcDepth).committedRound a ≤ r ∧
      (s.updateAll batch gcDepth).lastCommittedRound ≤ r + gcDepth := by
  induction batch generalizing s with
  | nil => exact absurd rfl hne
  | cons c batch ih =>
      cases batch with
      | nil =>
          rw [updateAll_cons, updateAll_nil, find_update] at h
          split at h
          · next hcur => exact hcur
          · exact absurd h.symm (Option.some_ne_none e)
      | cons c' batch => exact ih (List.cons_ne_nil _ _) h

/-- What is current for its author and within reach after a batch, survives it. -/
theorem find_updateAll {r : ℕ} {a : PublicKey} {e : Digest × Certificate}
    (hf : s.dag.find r a = some e)
    (hr : (s.updateAll batch gcDepth).committedRound a ≤ r)
    (hgc : (s.updateAll batch gcDepth).lastCommittedRound ≤ r + gcDepth) :
    (s.updateAll batch gcDepth).dag.find r a = some e := by
  induction batch generalizing s with
  | nil => exact hf
  | cons c batch ih =>
      refine ih ?_ hr hgc
      have htidy := tidy_update s c gcDepth
      have h1 : (s.update c gcDepth).committedRound a ≤ r :=
        (committedRound_le_updateAll a).trans hr
      have h2 : (s.update c gcDepth).lastCommittedRound ≤ r + gcDepth :=
        (lastCommittedRound_le_updateAll htidy).trans hgc
      rw [find_update, if_pos ⟨h1, h2⟩]
      exact hf

end

end State

end Mrv
