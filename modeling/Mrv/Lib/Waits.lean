/-
  Mrv.Lib.Waits — a library on waits that can be cancelled.

  A task that waits for many things keeps its waits in a pool and, for each key that it
  waits for, the sending end of a channel that cancels the wait.  The map and the pool
  change apart: an entry that is dropped cancels its wait, which leaves the pool later;
  and a wait that ends takes the entry of its key along, whether or not that entry is
  its own.

    * `Tidy`     — every entry has its wait, in every state,
    * `live_iff` — the waits that are not cancelled are those of the entries,
    * `length_live` — and there is one for each.
-/
import Mrv.Lib.HashMap

namespace Mrv

/-- A wait for a key; the handle identifies the channel that cancels it. -/
structure Wait (κ : Type) where
  handle : ℕ
  key : κ
  deriving DecidableEq

/-- The waits of a task. -/
structure Waits (κ ε : Type) where
  /-- The handle of the wait for a key, and what else is noted about it. -/
  pending : HashMap κ (ℕ × ε)
  waiting : List (Wait κ)
  nextHandle : ℕ

namespace Waits

variable {κ ε : Type} [DecidableEq κ]

def new : Waits κ ε := { pending := ∅, waiting := [], nextHandle := 0 }

/-- A wait for a key begins. -/
def start (w : Waits κ ε) (k : κ) (e : ε) : Waits κ ε :=
  { pending := w.pending.insert k (w.nextHandle, e)
    waiting := w.waiting ++ [⟨w.nextHandle, k⟩]
    nextHandle := w.nextHandle + 1 }

/-- A wait ends with what it waited for. -/
def finish (w : Waits κ ε) (i : ℕ) (x : Wait κ) : Waits κ ε :=
  { w with pending := w.pending.erase x.key, waiting := w.waiting.eraseIdx i }

/-- A wait that was cancelled leaves the pool. -/
def discard (w : Waits κ ε) (i : ℕ) : Waits κ ε := { w with waiting := w.waiting.eraseIdx i }

/-- Some entries are kept, the waits of the others are cancelled. -/
def retain (w : Waits κ ε) (keep : ε → Bool) : Waits κ ε :=
  { w with pending := w.pending.retain (fun _ e => if keep e.2 then some e else none) }

/-- No entry holds the channel of a handle. -/
def canceled (w : Waits κ ε) (handle : ℕ) : Bool := decide (∀ e ∈ w.pending.values, e.1 ≠ handle)

/-! ## §1. The invariant. -/

/-- Every entry has its wait, and handles tell waits apart. -/
structure Tidy (w : Waits κ ε) : Prop where
  nodup : (w.waiting.map Wait.handle).Nodup
  below : ∀ x ∈ w.waiting, x.handle < w.nextHandle
  wait : ∀ k e, w.pending.lookup k = some e → ⟨e.1, k⟩ ∈ w.waiting

variable {w : Waits κ ε} {i : ℕ} {x : Wait κ}

theorem Tidy.new : (new : Waits κ ε).Tidy where
  nodup := List.nodup_nil
  below _ h := absurd h List.not_mem_nil
  wait k e h := by
    rw [show (Waits.new : Waits κ ε).pending = ∅ from rfl, AList.lookup_empty] at h
    exact absurd h.symm (Option.some_ne_none e)

theorem Tidy.start (h : w.Tidy) (k : κ) (e : ε) : (w.start k e).Tidy where
  nodup := by
    show ((w.waiting ++ [_]).map Wait.handle).Nodup
    rw [List.map_append, List.map_singleton, List.nodup_append]
    refine ⟨h.nodup, List.nodup_singleton _, fun a ha b hb heq => ?_⟩
    obtain ⟨y, hy, rfl⟩ := List.mem_map.mp ha
    have hlt := h.below y hy
    rw [heq, List.mem_singleton.mp hb] at hlt
    exact Nat.lt_irrefl _ hlt
  below y hy := by
    show y.handle < w.nextHandle + 1
    obtain hold | hnew := List.mem_append.mp hy
    · exact Nat.lt_succ_of_lt (h.below y hold)
    · rw [List.mem_singleton.mp hnew]
      exact Nat.lt_succ_self _
  wait k' e' hlookup := by
    change (w.pending.insert k _).lookup k' = some e' at hlookup
    rw [AList.lookup_insert_eq_ite] at hlookup
    split at hlookup
    · next heq =>
      rw [heq, ← Option.some.inj hlookup]
      exact List.mem_append_right _ List.mem_cons_self
    · exact List.mem_append_left _ (h.wait k' e' hlookup)

theorem Tidy.retain (h : w.Tidy) (keep : ε → Bool) : (w.retain keep).Tidy where
  nodup := h.nodup
  below := h.below
  wait k e hlookup := by
    change (w.pending.retain _).lookup k = some e at hlookup
    rw [AList.lookup_retain] at hlookup
    obtain ⟨e', he', hkeep⟩ := Option.bind_eq_some_iff.mp hlookup
    split at hkeep
    · rw [← Option.some.inj hkeep]
      exact h.wait k e' he'
    · cases hkeep

omit [DecidableEq κ] in
/-- A wait other than the one that leaves the pool stays. -/
theorem mem_eraseIdx_of_ne {l : List (Wait κ)} {y : Wait κ} (hget : l[i]? = some x) (hy : y ∈ l)
    (hne : y ≠ x) : y ∈ l.eraseIdx i := by
  obtain ⟨j, hj⟩ := List.mem_iff_getElem?.mp hy
  refine List.mem_eraseIdx_iff_getElem?.mpr ⟨j, fun heq => ?_, hj⟩
  rw [heq, hget] at hj
  exact hne (Option.some.inj hj).symm

theorem Tidy.erased (h : w.Tidy) :
    ((w.waiting.eraseIdx i).map Wait.handle).Nodup ∧
      ∀ y ∈ w.waiting.eraseIdx i, y.handle < w.nextHandle :=
  ⟨h.nodup.sublist ((List.eraseIdx_sublist _ _).map _),
    fun y hy => h.below y (List.mem_of_mem_eraseIdx hy)⟩

theorem Tidy.finish (h : w.Tidy) (hget : w.waiting[i]? = some x) : (w.finish i x).Tidy where
  nodup := h.erased.1
  below := h.erased.2
  wait k e hlookup := by
    change (w.pending.erase x.key).lookup k = some e at hlookup
    obtain rfl | hne := eq_or_ne k x.key
    · rw [AList.lookup_erase] at hlookup
      exact absurd hlookup.symm (Option.some_ne_none e)
    · rw [AList.lookup_erase_ne hne] at hlookup
      exact mem_eraseIdx_of_ne hget (h.wait k e hlookup) fun heq => hne (congrArg Wait.key heq)

theorem canceled_iff {handle : ℕ} :
    w.canceled handle = true ↔ ∀ k e, w.pending.lookup k = some e → e.1 ≠ handle := by
  unfold canceled
  rw [decide_eq_true_eq]
  constructor
  · exact fun h k e hlookup => h e (AList.mem_values_of_lookup hlookup)
  · intro h e he
    obtain ⟨k, hlookup⟩ := AList.mem_values.mp he
    exact h k e hlookup

theorem Tidy.discard (h : w.Tidy) (hget : w.waiting[i]? = some x)
    (hcanceled : w.canceled x.handle = true) : (w.discard i).Tidy where
  nodup := h.erased.1
  below := h.erased.2
  wait k e hlookup := mem_eraseIdx_of_ne hget (h.wait k e hlookup) fun heq =>
    canceled_iff.mp hcanceled k e hlookup (congrArg Wait.handle heq)

/-! ## §2. What is waited for. -/

/-- **The waits that are not cancelled are those of the entries.** -/
theorem Tidy.live_iff (h : w.Tidy) (hx : x ∈ w.waiting) :
    w.canceled x.handle = false ↔ ∃ e, w.pending.lookup x.key = some (x.handle, e) := by
  rw [← Bool.not_eq_true, canceled_iff, not_forall]
  constructor
  · rintro ⟨k, hk⟩
    rw [not_forall] at hk
    obtain ⟨⟨handle, e⟩, hk⟩ := hk
    rw [Classical.not_imp, not_not] at hk
    obtain ⟨hlookup, hhandle⟩ := hk
    have hsame := List.inj_on_of_nodup_map h.nodup (h.wait k _ hlookup) hx hhandle
    rw [← hsame]
    exact ⟨e, hlookup⟩
  · rintro ⟨e, hlookup⟩
    exact ⟨x.key, fun hall => hall _ hlookup rfl⟩

/-- A pending key is waited for. -/
theorem Tidy.exists_live (h : w.Tidy) {k : κ} {e : ℕ × ε} (hlookup : w.pending.lookup k = some e) :
    ∃ (i : ℕ) (x : Wait κ), w.waiting[i]? = some x ∧ x.key = k ∧ w.canceled x.handle = false := by
  have hmem := h.wait k e hlookup
  obtain ⟨i, hi⟩ := List.mem_iff_getElem?.mp hmem
  exact ⟨i, _, hi, rfl, (h.live_iff hmem).mpr ⟨e.2, hlookup⟩⟩

/-- The waits that are not cancelled. -/
def live (w : Waits κ ε) : List (Wait κ) := w.waiting.filter (fun x => !w.canceled x.handle)

/-- **There is one live wait for each pending key.** -/
theorem Tidy.live_perm (h : w.Tidy) : (w.live.map Wait.key).Perm w.pending.keys := by
  have hlive : ∀ x ∈ w.live, x ∈ w.waiting ∧ ∃ e, w.pending.lookup x.key = some (x.handle, e) := by
    intro x hx
    obtain ⟨hmem, hcanceled⟩ := List.mem_filter.mp hx
    exact ⟨hmem, (h.live_iff hmem).mp (Bool.not_eq_true' _ ▸ hcanceled)⟩
  refine (List.perm_ext_iff_of_nodup ?_ w.pending.keys_nodup).mpr fun k => ?_
  · refine List.Nodup.map_on (fun x hx y hy hkey => ?_) ((List.Nodup.of_map _ h.nodup).filter _)
    obtain ⟨hx, e, he⟩ := hlive x hx
    obtain ⟨hy, e', he'⟩ := hlive y hy
    rw [hkey, he'] at he
    have hhandle := (Prod.mk.inj (Option.some.inj he)).1
    exact List.inj_on_of_nodup_map h.nodup hx hy hhandle.symm
  · rw [List.mem_map]
    constructor
    · rintro ⟨x, hx, rfl⟩
      obtain ⟨_, e, he⟩ := hlive x hx
      exact AList.lookup_isSome.mp (by rw [he]; rfl)
    · intro hk
      obtain ⟨e, he⟩ := Option.isSome_iff_exists.mp (AList.lookup_isSome.mpr hk)
      have hmem := h.wait k e he
      exact ⟨_, List.mem_filter.mpr ⟨hmem, by rw [(h.live_iff hmem).mpr ⟨e.2, he⟩]; rfl⟩, rfl⟩

end Waits

end Mrv
