/-
  Mrv.Lib.SortedMap — ordered maps and sets.

  A B-tree map iterates its entries by increasing key.  Here it is the list of
  its entries in that order, with the proof that the keys increase strictly, so
  the first entry is the one with the least key and no key occurs twice.  A
  B-tree set is the strictly increasing list of its elements.

    * `insert`, `erase` — one key changes, the others do not (`get_insert`),
    * `ext_get`         — maps with the same values under all keys are equal,
    * `collect`         — the map of a list of pairs,
    * `entries_insert`, `entries_erase_head` — a map used as a queue: inserting
      above all keys appends, erasing the least key takes the head.
-/
import Mathlib.Order.Defs.LinearOrder
import Mathlib.Data.List.Basic
import Mathlib.Tactic

namespace Mrv

/-! ## §1. Ordered sets. -/

/-- An ordered set: its elements, strictly increasing. -/
@[ext]
structure BTreeSet (α : Type*) [LinearOrder α] where
  toList : List α
  sorted : toList.Pairwise (· < ·)

namespace BTreeSet

variable {α : Type*} [LinearOrder α]

instance : Membership α (BTreeSet α) := ⟨fun s a => a ∈ s.toList⟩

theorem mem_iff {s : BTreeSet α} {a : α} : a ∈ s ↔ a ∈ s.toList := Iff.rfl

instance (s : BTreeSet α) (a : α) : Decidable (a ∈ s) :=
  inferInstanceAs (Decidable (a ∈ s.toList))

instance : DecidableEq (BTreeSet α) := fun s t =>
  decidable_of_iff (s.toList = t.toList)
    ⟨fun h => by cases s; cases t; simpa using h, fun h => h ▸ rfl⟩

/-- The set without elements. -/
def empty : BTreeSet α := ⟨[], List.Pairwise.nil⟩

instance : EmptyCollection (BTreeSet α) := ⟨empty⟩

instance : Inhabited (BTreeSet α) := ⟨∅⟩

@[simp] theorem toList_empty : (∅ : BTreeSet α).toList = [] := rfl

@[simp] theorem not_mem_empty (a : α) : a ∉ (∅ : BTreeSet α) := List.not_mem_nil

theorem nodup (s : BTreeSet α) : s.toList.Nodup := s.sorted.imp ne_of_lt

/-- `collect`: the elements of a list, sorted, each once. -/
def ofList (l : List α) : BTreeSet α where
  toList := l.dedup.insertionSort (· ≤ ·)
  sorted := by
    have hnd : (l.dedup.insertionSort (· ≤ ·)).Nodup :=
      (List.perm_insertionSort (· ≤ ·) l.dedup).nodup_iff.mpr l.nodup_dedup
    exact ((List.pairwise_insertionSort (· ≤ ·) l.dedup).and hnd).imp
      (fun h => lt_of_le_of_ne h.1 h.2)

@[simp] theorem mem_ofList {l : List α} {a : α} : a ∈ ofList l ↔ a ∈ l := by
  show a ∈ l.dedup.insertionSort (· ≤ ·) ↔ a ∈ l
  rw [List.mem_insertionSort, List.mem_dedup]

theorem length_ofList_le (l : List α) : (ofList l).toList.length ≤ l.length := by
  show (l.dedup.insertionSort (· ≤ ·)).length ≤ l.length
  rw [List.length_insertionSort]
  exact (List.dedup_sublist l).length_le

/-- A set is what its elements are collected to. -/
theorem ofList_toList (s : BTreeSet α) : ofList s.toList = s := by
  refine BTreeSet.ext ?_
  show s.toList.dedup.insertionSort (· ≤ ·) = s.toList
  rw [List.dedup_eq_self.mpr s.nodup]
  exact List.Pairwise.insertionSort_eq (s.sorted.imp le_of_lt)

end BTreeSet

/-! ## §2. Ordered maps. -/

/-- An ordered map: its entries by strictly increasing key. -/
@[ext]
structure BTreeMap (K V : Type*) [LinearOrder K] where
  entries : List (K × V)
  sorted : (entries.map Prod.fst).Pairwise (· < ·)

namespace BTreeMap

variable {K V : Type*} [LinearOrder K]

/-- The map without entries. -/
def empty : BTreeMap K V := ⟨[], List.Pairwise.nil⟩

instance : EmptyCollection (BTreeMap K V) := ⟨empty⟩

instance : Inhabited (BTreeMap K V) := ⟨∅⟩

@[simp] theorem entries_empty : (∅ : BTreeMap K V).entries = [] := rfl

instance [DecidableEq V] : DecidableEq (BTreeMap K V) := fun s t =>
  decidable_of_iff (s.entries = t.entries)
    ⟨fun h => by cases s; cases t; simpa using h, fun h => h ▸ rfl⟩

/-- The keys, increasing. -/
def keys (m : BTreeMap K V) : List K := m.entries.map Prod.fst

/-- The values, by increasing key. -/
def values (m : BTreeMap K V) : List V := m.entries.map Prod.snd

theorem keys_nodup (m : BTreeMap K V) : m.keys.Nodup := m.sorted.imp ne_of_lt

/-- The value under a key. -/
def get (m : BTreeMap K V) (k : K) : Option V :=
  (m.entries.find? (fun e => decide (e.1 = k))).map Prod.snd

/-- Two entries of one key are the same entry. -/
theorem eq_of_mem_of_fst_eq {m : BTreeMap K V} {k : K} {v w : V}
    (hv : (k, v) ∈ m.entries) (hw : (k, w) ∈ m.entries) : v = w := by
  have hinj := List.inj_on_of_nodup_map m.keys_nodup hv hw rfl
  exact congrArg Prod.snd hinj

theorem get_eq_some_iff {m : BTreeMap K V} {k : K} {v : V} :
    m.get k = some v ↔ (k, v) ∈ m.entries := by
  unfold get
  constructor
  · intro h
    obtain ⟨⟨k', v'⟩, hfind, rfl⟩ := Option.map_eq_some_iff.mp h
    have hk : k' = k := by simpa using List.find?_some hfind
    subst hk
    exact List.mem_of_find?_eq_some hfind
  · intro h
    cases hfind : m.entries.find? (fun e => decide (e.1 = k)) with
    | none => simpa using List.find?_eq_none.mp hfind _ h
    | some e =>
        obtain ⟨k', v'⟩ := e
        have hk : k' = k := by simpa using List.find?_some hfind
        subst hk
        have hmem := List.mem_of_find?_eq_some hfind
        simp [eq_of_mem_of_fst_eq hmem h]

theorem get_eq_none_iff {m : BTreeMap K V} {k : K} : m.get k = none ↔ k ∉ m.keys := by
  constructor
  · intro h hmem
    obtain ⟨⟨k', v⟩, he, rfl⟩ := List.mem_map.mp hmem
    rw [get_eq_some_iff.mpr he] at h
    exact Option.some_ne_none v h
  · intro h
    cases hget : m.get k with
    | none => rfl
    | some v => exact absurd (List.mem_map.mpr ⟨_, get_eq_some_iff.mp hget, rfl⟩) h

/-- The entry of least key. -/
theorem get_head {m : BTreeMap K V} {k : K} {v : V} {es : List (K × V)}
    (h : m.entries = (k, v) :: es) : m.get k = some v := by
  rw [get_eq_some_iff, h]
  exact List.mem_cons_self

theorem mem_keys_iff {m : BTreeMap K V} {k : K} : k ∈ m.keys ↔ ∃ v, m.get k = some v := by
  constructor
  · intro h
    cases hget : m.get k with
    | none => exact absurd h (get_eq_none_iff.mp hget)
    | some v => exact ⟨v, rfl⟩
  · intro h
    obtain ⟨v, hv⟩ := h
    exact List.mem_map.mpr ⟨(k, v), get_eq_some_iff.mp hv, rfl⟩

/-! ## §3. Inserting and erasing. -/

/-- Insert in order, replacing the value of a key that is there. -/
def insertEntries (k : K) (v : V) : List (K × V) → List (K × V)
  | [] => [(k, v)]
  | e :: es =>
      if k < e.1 then (k, v) :: e :: es
      else if e.1 < k then e :: insertEntries k v es
      else (k, v) :: es

theorem mem_insertEntries {k : K} {v : V} {es : List (K × V)}
    (hsorted : (es.map Prod.fst).Pairwise (· < ·)) {e : K × V} :
    e ∈ insertEntries k v es ↔ e = (k, v) ∨ e ∈ es ∧ e.1 ≠ k := by
  induction es with
  | nil => simp [insertEntries]
  | cons e' es ih =>
      rw [List.map_cons, List.pairwise_cons] at hsorted
      have hlater : ∀ x ∈ es, e'.1 < x.1 := fun x hx => hsorted.1 x.1 (List.mem_map_of_mem hx)
      unfold insertEntries
      split
      · next hlt =>
        have hne : ∀ x ∈ e' :: es, x.1 ≠ k := by
          intro x hx
          obtain rfl | hx := List.mem_cons.mp hx
          · exact hlt.ne'
          · exact (hlt.trans (hlater x hx)).ne'
        rw [List.mem_cons]
        exact or_congr_right ⟨fun hx => ⟨hx, hne e hx⟩, fun hx => hx.1⟩
      · next hge =>
        split
        · next hgt =>
          rw [List.mem_cons, ih hsorted.2, List.mem_cons]
          constructor
          · rintro (rfl | rfl | ⟨hmem, hne⟩)
            · exact Or.inr ⟨Or.inl rfl, hgt.ne⟩
            · exact Or.inl rfl
            · exact Or.inr ⟨Or.inr hmem, hne⟩
          · rintro (rfl | ⟨rfl | hmem, hne⟩)
            · exact Or.inr (Or.inl rfl)
            · exact Or.inl rfl
            · exact Or.inr (Or.inr ⟨hmem, hne⟩)
        · next hle =>
          have heq : e'.1 = k := le_antisymm (not_lt.mp hge) (not_lt.mp hle)
          rw [List.mem_cons, List.mem_cons]
          constructor
          · rintro (rfl | hmem)
            · exact Or.inl rfl
            · refine Or.inr ⟨Or.inr hmem, ?_⟩
              rw [← heq]
              exact (hlater e hmem).ne'
          · rintro (rfl | ⟨rfl | hmem, hne⟩)
            · exact Or.inl rfl
            · exact absurd heq hne
            · exact Or.inr hmem

theorem sorted_insertEntries {k : K} {v : V} {es : List (K × V)}
    (hsorted : (es.map Prod.fst).Pairwise (· < ·)) :
    ((insertEntries k v es).map Prod.fst).Pairwise (· < ·) := by
  induction es with
  | nil => exact List.pairwise_singleton _ _
  | cons e' es ih =>
      have hcons := hsorted
      rw [List.map_cons, List.pairwise_cons] at hsorted
      unfold insertEntries
      split
      · next hlt =>
        rw [List.map_cons, List.pairwise_cons]
        refine ⟨fun x hx => ?_, hcons⟩
        rw [List.map_cons, List.mem_cons] at hx
        obtain rfl | hx := hx
        · exact hlt
        · exact hlt.trans (hsorted.1 x hx)
      · next hge =>
        split
        · next hgt =>
          rw [List.map_cons, List.pairwise_cons]
          refine ⟨fun x hx => ?_, ih hsorted.2⟩
          obtain ⟨e, he, rfl⟩ := List.mem_map.mp hx
          obtain rfl | ⟨hmem, _⟩ := (mem_insertEntries hsorted.2).mp he
          · exact hgt
          · exact hsorted.1 e.1 (List.mem_map_of_mem hmem)
        · next hle =>
          have heq : e'.1 = k := le_antisymm (not_lt.mp hge) (not_lt.mp hle)
          rw [List.map_cons, List.pairwise_cons]
          show (∀ x ∈ es.map Prod.fst, k < x) ∧ _
          rw [← heq]
          exact hsorted

/-- Put a value under a key. -/
def insert (m : BTreeMap K V) (k : K) (v : V) : BTreeMap K V :=
  ⟨insertEntries k v m.entries, sorted_insertEntries m.sorted⟩

/-- Remove a key. -/
def erase (m : BTreeMap K V) (k : K) : BTreeMap K V :=
  ⟨m.entries.filter (fun e => decide (e.1 ≠ k)),
    m.sorted.sublist (List.filter_sublist.map Prod.fst)⟩

theorem get_insert (m : BTreeMap K V) (k k' : K) (v : V) :
    (m.insert k v).get k' = if k' = k then some v else m.get k' := by
  apply Option.ext
  intro w
  rw [get_eq_some_iff]
  show (k', w) ∈ insertEntries k v m.entries ↔ _
  rw [mem_insertEntries m.sorted]
  split
  · next hk => simp [hk, eq_comm]
  · next hk => simp [hk, get_eq_some_iff]

@[simp] theorem mem_keys_insert {m : BTreeMap K V} {k k' : K} {v : V} :
    k' ∈ (m.insert k v).keys ↔ k' = k ∨ k' ∈ m.keys := by
  rw [mem_keys_iff, mem_keys_iff]
  simp only [get_insert]
  split
  · next hk => simp [hk]
  · next hk => simp [hk]

theorem get_erase (m : BTreeMap K V) (k k' : K) :
    (m.erase k).get k' = if k' = k then none else m.get k' := by
  apply Option.ext
  intro w
  rw [get_eq_some_iff]
  show (k', w) ∈ m.entries.filter (fun e => decide (e.1 ≠ k)) ↔ _
  rw [List.mem_filter]
  split
  · next hk => simp [hk]
  · next hk => simp [hk, get_eq_some_iff]

theorem get_erase_eq_some_iff {m : BTreeMap K V} {k k' : K} {v : V} :
    (m.erase k).get k' = some v ↔ k' ≠ k ∧ m.get k' = some v := by
  rw [get_erase]
  split
  · next hk => exact iff_of_false (Option.some_ne_none v).symm fun hne => hne.1 hk
  · next hk => exact (and_iff_right hk).symm

/-- A map is determined by what is under its keys. -/
theorem ext_get {m m' : BTreeMap K V} (h : ∀ k, m.get k = m'.get k) : m = m' := by
  have hmem : ∀ e, e ∈ m.entries ↔ e ∈ m'.entries := by
    rintro ⟨k, v⟩
    rw [← get_eq_some_iff, ← get_eq_some_iff, h k]
  have hperm : m.entries.Perm m'.entries :=
    (List.perm_ext_iff_of_nodup m.keys_nodup.of_map m'.keys_nodup.of_map).mpr hmem
  have heq : m.entries = m'.entries := by
    apply hperm.eq_of_pairwise _ (List.pairwise_map.mp m.sorted) (List.pairwise_map.mp m'.sorted)
    exact fun a b _ _ hab hba => absurd hab (lt_asymm hba)
  cases m
  cases m'
  exact (BTreeMap.mk.injEq _ _ _ _).mpr heq

theorem insertEntries_of_lt {k : K} {v : V} {es : List (K × V)} (h : ∀ e ∈ es, e.1 < k) :
    insertEntries k v es = es ++ [(k, v)] := by
  induction es with
  | nil => rfl
  | cons e es ih =>
      rw [List.forall_mem_cons] at h
      unfold insertEntries
      rw [if_neg (not_lt.mpr h.1.le), if_pos h.1, ih h.2]
      rfl

/-- Inserting above all keys appends. -/
theorem entries_insert {m : BTreeMap K V} {k : K} {v : V} (h : ∀ k' ∈ m.keys, k' < k) :
    (m.insert k v).entries = m.entries ++ [(k, v)] :=
  insertEntries_of_lt fun e he => h e.1 (List.mem_map_of_mem he)

/-- Erasing the least key takes the head. -/
theorem entries_erase_head {m : BTreeMap K V} {e : K × V} {es : List (K × V)}
    (h : m.entries = e :: es) : (m.erase e.1).entries = es := by
  have hsorted := m.sorted
  rw [h, List.map_cons, List.pairwise_cons] at hsorted
  show m.entries.filter (fun x => decide (x.1 ≠ e.1)) = es
  rw [h, List.filter_cons_of_neg (by simp), List.filter_eq_self]
  intro x hx
  exact decide_eq_true (hsorted.1 x.1 (List.mem_map_of_mem hx)).ne'

/-- `collect`: the map of a list of pairs, a later pair replacing an earlier one. -/
def collect (es : List (K × V)) : BTreeMap K V := es.foldl (fun m e => m.insert e.1 e.2) ∅

theorem mem_keys_collect {es : List (K × V)} {k : K} :
    k ∈ (collect es).keys ↔ k ∈ es.map Prod.fst := by
  have hfold : ∀ m : BTreeMap K V,
      k ∈ (es.foldl (fun m e => m.insert e.1 e.2) m).keys ↔ k ∈ es.map Prod.fst ∨ k ∈ m.keys := by
    induction es with
    | nil => simp
    | cons e es ih =>
        intro m
        rw [List.foldl_cons, ih, mem_keys_insert, List.map_cons, List.mem_cons, ← or_assoc]
        exact or_congr_left or_comm
  unfold collect
  rw [hfold]
  simp [keys]

theorem mem_of_mem_collect {es : List (K × V)} {e : K × V} (h : e ∈ (collect es).entries) :
    e ∈ es := by
  have hfold : ∀ m : BTreeMap K V,
      e ∈ (es.foldl (fun m e => m.insert e.1 e.2) m).entries → e ∈ es ∨ e ∈ m.entries := by
    clear h
    induction es with
    | nil => exact fun m h => Or.inr h
    | cons e' es ih =>
        intro m h
        obtain hlater | hinsert := ih _ h
        · exact Or.inl (List.mem_cons_of_mem _ hlater)
        · obtain rfl | ⟨hold, _⟩ := (mem_insertEntries m.sorted).mp hinsert
          · exact Or.inl List.mem_cons_self
          · exact Or.inr hold
  exact (hfold ∅ h).resolve_right List.not_mem_nil

theorem length_collect_le (es : List (K × V)) : (collect es).entries.length ≤ es.length := by
  have hnodup : (collect es).entries.Nodup := List.Nodup.of_map _ (collect es).keys_nodup
  exact (hnodup.subperm fun _ he => mem_of_mem_collect he).length_le

/-- A map is what its entries are collected to. -/
theorem collect_entries (m : BTreeMap K V) : collect m.entries = m := by
  have hfold : ∀ (es es' : List (K × V)) (m' : BTreeMap K V), m'.entries = es' →
      (es' ++ es).Pairwise (fun e e' => e.1 < e'.1) →
        (es.foldl (fun m e => m.insert e.1 e.2) m').entries = es' ++ es := by
    intro es
    induction es with
    | nil =>
        intro es' m' hm' _
        rw [List.append_nil]
        exact hm'
    | cons e es ih =>
        intro es' m' hm' hsorted
        rw [List.append_cons] at hsorted ⊢
        have hbelow : ∀ k ∈ m'.keys, k < e.1 := by
          intro k hk
          obtain ⟨e', he', rfl⟩ := List.mem_map.mp hk
          rw [hm'] at he'
          exact (List.pairwise_append.mp (List.pairwise_append.mp hsorted).1).2.2 e' he' e
            List.mem_cons_self
        exact ih _ _ (by rw [entries_insert hbelow, hm']) hsorted
  have hentries := hfold m.entries [] ∅ rfl (List.pairwise_map.mp m.sorted)
  exact BTreeMap.ext hentries

end BTreeMap

end Mrv
