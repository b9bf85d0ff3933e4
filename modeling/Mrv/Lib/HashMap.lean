/-
  Mrv.Lib.HashMap — hash maps as duplicate-free lists of entries.

  A hash map is Mathlib's `AList` at a constant value family: a list of entries
  whose keys are pairwise distinct, the proof carried in the structure.  The
  order of the list stands for one iteration order; nothing below depends on it.

  `AList` has `lookup`, `insert` and `erase`.  This file adds what programs over
  hash maps use besides these:

    * `values`  — the stored values,
    * `retain`  — update every value in place and drop some of the entries,
    * `collect` — the map of a list of pairs,
    * `modify`  — update the value of a key that is there (`get_mut`),
    * `mapValues` — the map with every value changed by a function,

  each with the lemma that says what `lookup` sees afterwards.
-/
import Mathlib.Data.List.AList
import Mathlib.Tactic

namespace AList

variable {K V : Type*}

/-! ## §1. Values. -/

/-- The stored values, in iteration order. -/
def values (m : AList (fun _ : K => V)) : List V := m.entries.map Sigma.snd

@[simp] theorem values_empty : (∅ : AList (fun _ : K => V)).values = [] := rfl

variable [DecidableEq K]

theorem lookup_eq_some_iff {m : AList (fun _ : K => V)} {k : K} {v : V} :
    m.lookup k = some v ↔ (⟨k, v⟩ : Sigma fun _ : K => V) ∈ m.entries :=
  mem_lookup_iff

theorem mem_values {m : AList (fun _ : K => V)} {v : V} :
    v ∈ m.values ↔ ∃ k, m.lookup k = some v := by
  simp only [values, List.mem_map, lookup_eq_some_iff]
  constructor
  · rintro ⟨⟨k, w⟩, hmem, rfl⟩
    exact ⟨k, hmem⟩
  · rintro ⟨k, hmem⟩
    exact ⟨⟨k, v⟩, hmem, rfl⟩

theorem mem_values_of_lookup {m : AList (fun _ : K => V)} {k : K} {v : V}
    (h : m.lookup k = some v) : v ∈ m.values :=
  mem_values.mpr ⟨k, h⟩

theorem lookup_insert_eq_ite (m : AList (fun _ : K => V)) (k k' : K) (v : V) :
    (m.insert k v).lookup k' = if k' = k then some v else m.lookup k' := by
  split
  · next h => subst h; exact lookup_insert m
  · next h => exact lookup_insert_ne h

/-- What is there stays there. -/
theorem isSome_lookup_insert {m : AList (fun _ : K => V)} {k k' : K} {v : V}
    (h : (m.lookup k').isSome) : ((m.insert k v).lookup k').isSome := by
  rw [lookup_insert_eq_ite]
  split
  · rfl
  · exact h

/-! ## §2. `retain`. -/

section Retain

variable {W : Type*}

/-- Visit every entry: replace its value, or drop the entry. -/
def retainEntries (g : K → V → Option W) :
    List (Sigma fun _ : K => V) → List (Sigma fun _ : K => W)
  | [] => []
  | ⟨k, v⟩ :: es =>
      match g k v with
      | some w => ⟨k, w⟩ :: retainEntries g es
      | none => retainEntries g es

omit [DecidableEq K] in
theorem keys_retainEntries_sublist (g : K → V → Option W) (es : List (Sigma fun _ : K => V)) :
    (retainEntries g es).keys.Sublist es.keys := by
  induction es with
  | nil => exact List.Sublist.slnil
  | cons e es ih =>
      obtain ⟨k, v⟩ := e
      cases hg : g k v with
      | none => simpa [retainEntries, hg] using ih.cons k
      | some w => simpa [retainEntries, hg] using ih

/-- Keep the entries on which `g` answers, with the value it gives. -/
def retain (g : K → V → Option W) (m : AList (fun _ : K => V)) : AList (fun _ : K => W) :=
  ⟨retainEntries g m.entries, (keys_retainEntries_sublist g m.entries).nodup m.nodupKeys⟩

theorem dlookup_retainEntries (g : K → V → Option W) (k : K) :
    ∀ es : List (Sigma fun _ : K => V), es.NodupKeys →
      (retainEntries g es).dlookup k = (es.dlookup k).bind (g k)
  | [], _ => rfl
  | ⟨k', v⟩ :: es, hnd => by
      have hnd' : (k' ∉ es.keys) ∧ es.NodupKeys := List.nodupKeys_cons.mp hnd
      have ih := dlookup_retainEntries g k es hnd'.2
      by_cases hk : k = k'
      · subst hk
        have hnone : es.dlookup k = none := List.dlookup_eq_none.mpr hnd'.1
        cases hg : g k v with
        | some w => simp [retainEntries, hg]
        | none => simp [retainEntries, hg, ih, hnone]
      · have hne : ∀ (x : V) (fs : List (Sigma fun _ : K => V)),
            List.dlookup k (⟨k', x⟩ :: fs) = fs.dlookup k :=
          fun x fs => List.dlookup_cons_ne fs ⟨k', x⟩ hk
        have hne' : ∀ (x : W) (fs : List (Sigma fun _ : K => W)),
            List.dlookup k (⟨k', x⟩ :: fs) = fs.dlookup k :=
          fun x fs => List.dlookup_cons_ne fs ⟨k', x⟩ hk
        cases hg : g k' v with
        | some w => simp only [retainEntries, hg, hne, hne', ih]
        | none => simp only [retainEntries, hg, hne, ih]

/-- **What `retain` leaves**: each key on its own. -/
@[simp] theorem lookup_retain (g : K → V → Option W) (m : AList (fun _ : K => V)) (k : K) :
    (m.retain g).lookup k = (m.lookup k).bind (g k) :=
  dlookup_retainEntries g k m.entries m.nodupKeys

end Retain

/-! ## §3. `collect`. -/

/-- The map of a list of pairs; a later pair replaces an earlier one. -/
def collect (es : List (K × V)) : AList (fun _ : K => V) :=
  es.foldl (fun m e => m.insert e.1 e.2) ∅

theorem lookup_foldl_insert (k : K) :
    ∀ (es : List (K × V)) (m : AList (fun _ : K => V)),
      (es.foldl (fun m e => m.insert e.1 e.2) m).lookup k = m.lookup k ∨
        ∃ v, (k, v) ∈ es ∧ (es.foldl (fun m e => m.insert e.1 e.2) m).lookup k = some v
  | [], _ => Or.inl rfl
  | ⟨k', v⟩ :: es, m => by
      rw [List.foldl_cons]
      rcases lookup_foldl_insert k es (m.insert k' v) with h | ⟨w, hw, h⟩
      · rw [h, lookup_insert_eq_ite]
        split
        · next hk => exact Or.inr ⟨v, by rw [hk]; exact List.mem_cons_self, rfl⟩
        · exact Or.inl rfl
      · exact Or.inr ⟨w, List.mem_cons_of_mem _ hw, h⟩

theorem mem_of_lookup_collect {es : List (K × V)} {k : K} {v : V}
    (h : (collect es).lookup k = some v) : (k, v) ∈ es := by
  rcases lookup_foldl_insert k es ∅ with h' | ⟨w, hw, h'⟩
  · unfold collect at h
    rw [h, lookup_empty] at h'
    exact absurd h' (Option.some_ne_none v)
  · unfold collect at h
    rw [h, Option.some.injEq] at h'
    exact h' ▸ hw

theorem lookup_foldl_insert_isSome {k : K} {v : V} :
    ∀ (es : List (K × V)) (m : AList (fun _ : K => V)),
      (k, v) ∈ es ∨ (m.lookup k).isSome →
        ((es.foldl (fun m e => m.insert e.1 e.2) m).lookup k).isSome
  | [], m, h => by
      rcases h with h | h
      · simp at h
      · exact h
  | ⟨k', w⟩ :: es, m, h => by
      rw [List.foldl_cons]
      refine lookup_foldl_insert_isSome (v := v) es _ ?_
      rcases h with h | h
      · rcases List.mem_cons.mp h with heq | h
        · obtain ⟨rfl, rfl⟩ := Prod.mk.inj heq
          exact Or.inr (by simp)
        · exact Or.inl h
      · refine Or.inr ?_
        rw [lookup_insert_eq_ite]
        split
        · rfl
        · exact h

theorem lookup_collect_isSome {es : List (K × V)} {k : K} {v : V} (h : (k, v) ∈ es) :
    ((collect es).lookup k).isSome :=
  lookup_foldl_insert_isSome es ∅ (Or.inl h)

/-- Starting every key of a list with one value. -/
theorem lookup_collect_const (ks : List K) (v : V) (k : K) :
    (collect (ks.map (fun k => (k, v)))).lookup k = if k ∈ ks then some v else none := by
  have hmem : ∀ w, (k, w) ∈ ks.map (fun k => (k, v)) ↔ k ∈ ks ∧ v = w := by
    intro w
    simp only [List.mem_map, Prod.mk.injEq]
    constructor
    · rintro ⟨k', hk', rfl, rfl⟩
      exact ⟨hk', rfl⟩
    · rintro ⟨hk, rfl⟩
      exact ⟨k, hk, rfl, rfl⟩
  cases hlookup : (collect (ks.map (fun k => (k, v)))).lookup k with
  | none =>
      rw [if_neg]
      intro hk
      have hsome := lookup_collect_isSome ((hmem v).mpr ⟨hk, rfl⟩)
      rw [hlookup] at hsome
      exact Bool.noConfusion hsome
  | some w =>
      obtain ⟨hk, rfl⟩ := (hmem w).mp (mem_of_lookup_collect hlookup)
      rw [if_pos hk]

/-! ## §4. `modify`. -/

/-- Update the value of a key, if the key is there. -/
def modify (m : AList (fun _ : K => V)) (k : K) (f : V → V) : AList (fun _ : K => V) :=
  match m.lookup k with
  | some v => m.insert k (f v)
  | none => m

theorem lookup_modify (m : AList (fun _ : K => V)) (k k' : K) (f : V → V) :
    (m.modify k f).lookup k' = if k' = k then (m.lookup k').map f else m.lookup k' := by
  unfold modify
  cases hk : m.lookup k with
  | none =>
      show m.lookup k' = _
      split
      · next heq => rw [heq, hk, Option.map_none]
      · rfl
  | some v =>
      show (m.insert k (f v)).lookup k' = _
      rw [lookup_insert_eq_ite]
      split
      · next heq => rw [heq, hk, Option.map_some]
      · rfl

/-- Updating the values of some keys, each once: the order does not matter. -/
theorem lookup_foldl_modify {ks : List K} (hnd : ks.Nodup) (m : AList (fun _ : K => V)) (k : K)
    (f : V → V) :
    (ks.foldl (fun m k => m.modify k f) m).lookup k =
      if k ∈ ks then (m.lookup k).map f else m.lookup k := by
  induction ks generalizing m with
  | nil => simp
  | cons k' ks ih =>
      rw [List.nodup_cons] at hnd
      rw [List.foldl_cons, ih hnd.2, lookup_modify]
      by_cases heq : k = k'
      · subst heq
        simp [hnd.1]
      · simp [heq]

/-! ## §5. `mapValues`. -/

section MapValues

variable {W V' W' : Type*}

/-- Every value changed by a function. -/
def mapValues (f : V → W) (m : AList (fun _ : K => V)) : AList (fun _ : K => W) :=
  m.retain (fun _ v => some (f v))

theorem lookup_mapValues (f : V → W) (m : AList (fun _ : K => V)) (k : K) :
    (m.mapValues f).lookup k = (m.lookup k).map f := by
  unfold mapValues
  rw [lookup_retain]
  cases m.lookup k <;> rfl

omit [DecidableEq K] in
theorem entries_mapValues (f : V → W) (m : AList (fun _ : K => V)) :
    (m.mapValues f).entries = m.entries.map (fun e => ⟨e.1, f e.2⟩) := by
  have hlist : ∀ es : List (Sigma fun _ : K => V),
      retainEntries (fun _ v => some (f v)) es = es.map (fun e => ⟨e.1, f e.2⟩) := by
    intro es
    induction es with
    | nil => rfl
    | cons e es ih => simp [retainEntries, ih]
  exact hlist m.entries

omit [DecidableEq K] in
theorem values_mapValues (f : V → W) (m : AList (fun _ : K => V)) :
    (m.mapValues f).values = m.values.map f := by
  unfold values
  rw [entries_mapValues, List.map_map, List.map_map]
  rfl

theorem mapValues_insert (f : V → W) (m : AList (fun _ : K => V)) (k : K) (v : V) :
    (m.insert k v).mapValues f = (m.mapValues f).insert k (f v) := by
  have herase : ∀ es : List (Sigma fun _ : K => V),
      (es.kerase k).map (fun e => (⟨e.1, f e.2⟩ : Sigma fun _ : K => W))
        = (es.map (fun e => (⟨e.1, f e.2⟩ : Sigma fun _ : K => W))).kerase k := by
    intro es
    induction es with
    | nil => rfl
    | cons e es ih =>
        rw [List.map_cons]
        by_cases hk : k = e.1
        · rw [List.kerase_cons_eq hk]
          exact (List.kerase_cons_eq (s := (⟨e.1, f e.2⟩ : Sigma fun _ : K => W)) hk).symm
        · rw [List.kerase_cons_ne hk, List.map_cons, ih]
          exact (List.kerase_cons_ne (s := (⟨e.1, f e.2⟩ : Sigma fun _ : K => W)) hk).symm
  apply AList.ext
  rw [entries_mapValues, entries_insert, entries_insert, entries_mapValues, List.map_cons, herase]

omit [DecidableEq K] in
/-- What `retain` keeps of changed values. -/
theorem retain_mapValues {f : V → W} {f' : V' → W'} {g : K → V → Option V'}
    {g' : K → W → Option W'} (h : ∀ k v, g' k (f v) = (g k v).map f')
    (m : AList (fun _ : K => V)) : (m.mapValues f).retain g' = (m.retain g).mapValues f' := by
  have hlist : ∀ es : List (Sigma fun _ : K => V),
      retainEntries g' (es.map (fun e => (⟨e.1, f e.2⟩ : Sigma fun _ : K => W)))
        = (retainEntries g es).map (fun e => ⟨e.1, f' e.2⟩) := by
    intro es
    induction es with
    | nil => rfl
    | cons e es ih =>
        obtain ⟨k, v⟩ := e
        have hone := h k v
        cases hg : g k v with
        | none =>
            rw [hg] at hone
            simpa [retainEntries, hg, hone] using ih
        | some w =>
            rw [hg] at hone
            simp [retainEntries, hg, hone, ih]
  apply AList.ext
  rw [entries_mapValues]
  show retainEntries g' (m.mapValues f).entries = _
  rw [entries_mapValues, hlist]
  rfl

theorem collect_mapValues (f : V → W) (es : List (K × V)) :
    (collect es).mapValues f = collect (es.map (fun e => (e.1, f e.2))) := by
  have hfold : ∀ m : AList (fun _ : K => V),
      (es.foldl (fun m e => m.insert e.1 e.2) m).mapValues f
        = (es.map (fun e => (e.1, f e.2))).foldl (fun m e => m.insert e.1 e.2) (m.mapValues f) := by
    induction es with
    | nil => exact fun _ => rfl
    | cons e es ih =>
        intro m
        rw [List.foldl_cons, ih, mapValues_insert, List.map_cons, List.foldl_cons]
  exact hfold ∅

end MapValues

end AList

namespace Mrv

/-- A map from keys to values. -/
abbrev HashMap (K V : Type*) := AList (fun _ : K => V)

end Mrv
