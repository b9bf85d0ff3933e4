/-
  Mrv.Lib.Search — depth-first search with an explicit stack.

  `search` pops a node, emits it, and pushes those of its successors whose key
  is not marked yet, marking them as it pushes.  Successors come from a function
  that may fail; running out of fuel is a failure of the caller's choice.

  The proofs do not follow the fuel.  `Explores st m out` is the big-step
  relation "from stack `st` and marks `m` the search emits `out`", and
  `search_eq_ok` turns a successful run into it.  On the relation:

    * `Explores.forall_mem`     — an invariant closed under successors,
    * `Explores.key_mem`        — completeness: successors of emitted nodes are
                                  marked or emitted,
    * `Explores.keys_nodup`     — no key is emitted twice,
    * `Explores.filter`         — nodes outside a successor-closed part can be
                                  dropped from the start,
    * `Explores.det`            — the emitted list is a function of the
                                  successors of what it contains.
-/
import Mathlib.Data.Finset.Card
import Mathlib.Tactic

namespace Mrv.Search

variable {α β ε : Type*} [DecidableEq β]

/-! ## §1. The algorithm. -/

/-- Push the candidates whose key is fresh, marking each as it is pushed. -/
def pushFresh (key : α → β) : List α → List α → Finset β → List α × Finset β
  | [], st, m => (st, m)
  | y :: ys, st, m =>
      if key y ∈ m then pushFresh key ys st m
      else pushFresh key ys (y :: st) (insert (key y) m)

/-- Emit the nodes in the order in which they leave the stack. -/
def search (stuck : ε) (key : α → β) (succ : α → Except ε (List α)) :
    Nat → List α → Finset β → Except ε (List α)
  | 0, _, _ => .error stuck
  | _ + 1, [], _ => .ok []
  | fuel + 1, x :: st, m => do
      let ys ← succ x
      let out ← search stuck key succ fuel (pushFresh key ys st m).1 (pushFresh key ys st m).2
      return x :: out

/-- The search from stack `st` and marks `m` emits `out`. -/
inductive Explores (key : α → β) (succ : α → Except ε (List α)) :
    List α → Finset β → List α → Prop
  | done (m : Finset β) : Explores key succ [] m []
  | pop {x : α} {st : List α} {m : Finset β} {ys out : List α} (hsucc : succ x = .ok ys)
      (hrest : Explores key succ (pushFresh key ys st m).1 (pushFresh key ys st m).2 out) :
      Explores key succ (x :: st) m (x :: out)

theorem search_eq_ok {stuck : ε} {key : α → β} {succ : α → Except ε (List α)} :
    ∀ {fuel : Nat} {st : List α} {m : Finset β} {out : List α},
      search stuck key succ fuel st m = .ok out → Explores key succ st m out
  | 0, _, _, _, h => by simp [search] at h
  | _ + 1, [], m, out, h => by
      simp only [search, Except.ok.injEq] at h
      subst h
      exact .done m
  | fuel + 1, x :: st, m, out, h => by
      simp only [search, bind, Except.bind] at h
      split at h
      · simp at h
      · next ys hys =>
        split at h
        · simp at h
        · next rest hrest =>
          simp only [pure, Except.pure, Except.ok.injEq] at h
          subst h
          exact .pop hys (search_eq_ok hrest)

section Map

variable {γ : Type*} {g : α → γ} {key : α → β} {key' : γ → β} (hkey : ∀ x, key' (g x) = key x)

include hkey

/-- Pushing renamed candidates. -/
theorem pushFresh_map (ys st : List α) (m : Finset β) :
    pushFresh key' (ys.map g) (st.map g) m
      = ((pushFresh key ys st m).1.map g, (pushFresh key ys st m).2) := by
  induction ys generalizing st m with
  | nil => rfl
  | cons y ys ih =>
      rw [List.map_cons]
      unfold pushFresh
      rw [hkey]
      split
      · exact ih st m
      · exact ih (y :: st) (insert (key y) m)

/-- **The search on renamed nodes**: if keys are kept and the successors of a renamed node are
the renamed successors, the search emits the renamed nodes. -/
theorem search_map {succ : α → Except ε (List α)} {succ' : γ → Except ε (List γ)}
    (hsucc : ∀ x, succ' (g x) = (succ x).map (List.map g)) (stuck : ε) :
    ∀ (fuel : Nat) (st : List α) (m : Finset β),
      search stuck key' succ' fuel (st.map g) m = (search stuck key succ fuel st m).map (List.map g)
  | 0, _, _ => rfl
  | _ + 1, [], _ => rfl
  | fuel + 1, x :: st, m => by
      rw [List.map_cons]
      unfold search
      rw [hsucc]
      cases succ x with
      | error e => rfl
      | ok ys =>
          have hrest := search_map hsucc stuck fuel (pushFresh key ys st m).1
            (pushFresh key ys st m).2
          show (search stuck key' succ' fuel (pushFresh key' (ys.map g) (st.map g) m).1
              (pushFresh key' (ys.map g) (st.map g) m).2 >>= fun out => pure (g x :: out)) = _
          rw [pushFresh_map hkey]
          rw [hrest]
          show _ = Except.map (List.map g) (search stuck key succ fuel (pushFresh key ys st m).1
            (pushFresh key ys st m).2 >>= fun out => pure (x :: out))
          cases search stuck key succ fuel (pushFresh key ys st m).1 (pushFresh key ys st m).2 <;>
            rfl

end Map

/-! ## §2. What one push does. -/

section Push

variable {key : α → β}

theorem pushFresh_cons_of_mem {y : α} {ys st : List α} {m : Finset β} (h : key y ∈ m) :
    pushFresh key (y :: ys) st m = pushFresh key ys st m := if_pos h

theorem pushFresh_cons_of_notMem {y : α} {ys st : List α} {m : Finset β} (h : key y ∉ m) :
    pushFresh key (y :: ys) st m = pushFresh key ys (y :: st) (insert (key y) m) := if_neg h

theorem mem_pushFresh {ys st : List α} {m : Finset β} {z : α}
    (h : z ∈ (pushFresh key ys st m).1) : z ∈ ys ∨ z ∈ st := by
  induction ys generalizing st m with
  | nil => exact Or.inr h
  | cons y ys ih =>
      unfold pushFresh at h
      split at h
      · rcases ih h with hz | hz
        · exact Or.inl (List.mem_cons_of_mem _ hz)
        · exact Or.inr hz
      · rcases ih h with hz | hz
        · exact Or.inl (List.mem_cons_of_mem _ hz)
        · rcases List.mem_cons.mp hz with rfl | hz
          · exact Or.inl List.mem_cons_self
          · exact Or.inr hz

theorem mem_pushFresh_of_mem {ys st : List α} {m : Finset β} {z : α} (h : z ∈ st) :
    z ∈ (pushFresh key ys st m).1 := by
  induction ys generalizing st m with
  | nil => exact h
  | cons y ys ih =>
      unfold pushFresh
      split
      · exact ih h
      · exact ih (List.mem_cons_of_mem _ h)

/-- After the push every candidate's key is marked: it was, or a candidate with
that key is on the stack. -/
theorem key_pushFresh {ys : List α} (st : List α) (m : Finset β) {y : α} (hy : y ∈ ys) :
    key y ∈ m ∨ ∃ z ∈ ys, z ∈ (pushFresh key ys st m).1 ∧ key z = key y := by
  induction ys generalizing st m with
  | nil => simp at hy
  | cons x ys ih =>
      unfold pushFresh
      split
      · next hx =>
        rcases List.mem_cons.mp hy with rfl | hy
        · exact Or.inl hx
        · rcases ih st m hy with hm | ⟨z, hz, hstack, hzy⟩
          · exact Or.inl hm
          · exact Or.inr ⟨z, List.mem_cons_of_mem _ hz, hstack, hzy⟩
      · next hx =>
        have hself : x ∈ (pushFresh key ys (x :: st) (insert (key x) m)).1 :=
          mem_pushFresh_of_mem List.mem_cons_self
        rcases List.mem_cons.mp hy with rfl | hy
        · exact Or.inr ⟨y, List.mem_cons_self, hself, rfl⟩
        · rcases ih (x :: st) (insert (key x) m) hy with hm | ⟨z, hz, hstack, hzy⟩
          · rcases Finset.mem_insert.mp hm with heq | hm
            · exact Or.inr ⟨x, List.mem_cons_self, hself, heq.symm⟩
            · exact Or.inl hm
          · exact Or.inr ⟨z, List.mem_cons_of_mem _ hz, hstack, hzy⟩

theorem marks_pushFresh {ys st : List α} {m : Finset β} {b : β} :
    b ∈ (pushFresh key ys st m).2 ↔ b ∈ m ∨ ∃ y ∈ ys, key y = b := by
  induction ys generalizing st m with
  | nil => simp [pushFresh]
  | cons x ys ih =>
      unfold pushFresh
      split
      · next hx =>
        rw [ih]
        constructor
        · rintro (h | ⟨y, hy, rfl⟩)
          · exact Or.inl h
          · exact Or.inr ⟨y, List.mem_cons_of_mem _ hy, rfl⟩
        · rintro (h | ⟨y, hy, rfl⟩)
          · exact Or.inl h
          · rcases List.mem_cons.mp hy with rfl | hy
            · exact Or.inl hx
            · exact Or.inr ⟨y, hy, rfl⟩
      · rw [ih, Finset.mem_insert]
        constructor
        · rintro ((rfl | h) | ⟨y, hy, rfl⟩)
          · exact Or.inr ⟨x, List.mem_cons_self, rfl⟩
          · exact Or.inl h
          · exact Or.inr ⟨y, List.mem_cons_of_mem _ hy, rfl⟩
        · rintro (h | ⟨y, hy, rfl⟩)
          · exact Or.inl (Or.inr h)
          · rcases List.mem_cons.mp hy with rfl | hy
            · exact Or.inl (Or.inl rfl)
            · exact Or.inr ⟨y, hy, rfl⟩

/-- Stacks with distinct, marked keys stay so. -/
theorem pushFresh_nodup (key : α → β) (ys st : List α) (m : Finset β)
    (hnd : (st.map key).Nodup) (hm : ∀ z ∈ st, key z ∈ m) :
    ((pushFresh key ys st m).1.map key).Nodup ∧
      ∀ z ∈ (pushFresh key ys st m).1, key z ∈ (pushFresh key ys st m).2 := by
  induction ys generalizing st m with
  | nil => exact ⟨hnd, hm⟩
  | cons y ys ih =>
      unfold pushFresh
      split
      · exact ih st m hnd hm
      · next hy =>
        refine ih _ _ ?_ ?_
        · rw [List.map_cons, List.nodup_cons]
          refine ⟨?_, hnd⟩
          intro hmem
          obtain ⟨z, hz, hzy⟩ := List.mem_map.mp hmem
          exact hy (hzy ▸ hm z hz)
        · intro z hz
          rcases List.mem_cons.mp hz with rfl | hz
          · exact Finset.mem_insert_self _ _
          · exact Finset.mem_insert_of_mem (hm z hz)

/-- The pushed part on its own: the old stack stays below it, and the new keys
are distinct and were not marked. -/
theorem pushFresh_eq_append (key : α → β) (ys st : List α) (m : Finset β) :
    ∃ new : List α, pushFresh key ys st m = (new ++ st, m ∪ (new.map key).toFinset) ∧
      (new.map key).Nodup ∧ ∀ z ∈ new, z ∈ ys ∧ key z ∉ m := by
  induction ys generalizing st m with
  | nil => exact ⟨[], by simp [pushFresh], by simp, by simp⟩
  | cons y ys ih =>
      unfold pushFresh
      split
      · obtain ⟨new, heq, hnd, hnew⟩ := ih st m
        exact ⟨new, heq, hnd, fun z hz => ⟨List.mem_cons_of_mem _ (hnew z hz).1, (hnew z hz).2⟩⟩
      · next hy =>
        obtain ⟨new, heq, hnd, hfresh⟩ := ih (y :: st) (insert (key y) m)
        refine ⟨new ++ [y], ?_, ?_, ?_⟩
        · rw [heq]
          refine Prod.ext (by simp) ?_
          ext b
          simp only [Finset.mem_union, Finset.mem_insert, List.mem_toFinset, List.map_append,
            List.mem_append, List.map_cons, List.map_nil, List.mem_singleton]
          tauto
        · rw [List.map_append, List.nodup_append]
          refine ⟨hnd, by simp, ?_⟩
          intro a ha b hb
          simp only [List.map_cons, List.map_nil, List.mem_singleton] at hb
          obtain ⟨z, hz, rfl⟩ := List.mem_map.mp ha
          intro heq'
          exact (hfresh z hz).2 (by rw [heq', hb]; exact Finset.mem_insert_self _ _)
        · intro z hz
          rcases List.mem_append.mp hz with hz | hz
          · exact ⟨List.mem_cons_of_mem _ (hfresh z hz).1,
              fun hmem => (hfresh z hz).2 (Finset.mem_insert_of_mem hmem)⟩
          · rw [List.mem_singleton.mp hz]
            exact ⟨List.mem_cons_self, hy⟩

end Push

/-! ## §3. What a whole search emits. -/

namespace Explores

variable {key : α → β} {succ : α → Except ε (List α)} {st out : List α} {m : Finset β}

theorem mem_of_mem_stack (h : Explores key succ st m out) {x : α} (hx : x ∈ st) : x ∈ out := by
  induction h with
  | done => exact hx
  | pop _ _ ih =>
      rcases List.mem_cons.mp hx with rfl | hx
      · exact List.mem_cons_self
      · exact List.mem_cons_of_mem _ (ih (mem_pushFresh_of_mem hx))

/-- **Soundness**: whatever holds of the stack and passes to successors holds of
every emitted node. -/
theorem forall_mem (h : Explores key succ st m out) {I : α → Prop} (hst : ∀ x ∈ st, I x)
    (hstep : ∀ x ys, I x → succ x = .ok ys → ∀ y ∈ ys, I y) : ∀ x ∈ out, I x := by
  induction h with
  | done => simp
  | @pop x st m ys out hsucc _ ih =>
      have hx : I x := hst x List.mem_cons_self
      have hrest : ∀ z ∈ (pushFresh key ys st m).1, I z := by
        intro z hz
        rcases mem_pushFresh hz with hz | hz
        · exact hstep x ys hx hsucc z hz
        · exact hst z (List.mem_cons_of_mem _ hz)
      intro z hz
      rcases List.mem_cons.mp hz with rfl | hz
      · exact hx
      · exact ih hrest z hz

theorem succ_ok (h : Explores key succ st m out) : ∀ x ∈ out, ∃ ys, succ x = .ok ys := by
  induction h with
  | done => simp
  | @pop x st m ys out hsucc _ ih =>
      intro z hz
      rcases List.mem_cons.mp hz with rfl | hz
      · exact ⟨ys, hsucc⟩
      · exact ih z hz

/-- **Completeness**: a successor of an emitted node was marked before, or a successor
with its key is emitted. -/
theorem key_mem (h : Explores key succ st m out) {x y : α} {ys : List α} (hx : x ∈ out)
    (hsucc : succ x = .ok ys) (hy : y ∈ ys) :
    key y ∈ m ∨ ∃ w ∈ out, ∃ ws, succ w = .ok ws ∧ ∃ z ∈ ws, z ∈ out ∧ key z = key y := by
  induction h with
  | done => simp at hx
  | @pop w st m ws out hws hrest ih =>
      -- what was pushed now is emitted later
      have hpushed : ∀ v ∈ ws, key v = key y → key y ∈ m ∨ ∃ u ∈ w :: out, ∃ us,
          succ u = .ok us ∧ ∃ z ∈ us, z ∈ w :: out ∧ key z = key y := by
        intro v hv hvy
        rcases key_pushFresh st m hv with hm | ⟨z, hz, hstack, hzv⟩
        · exact Or.inl (hvy ▸ hm)
        · exact Or.inr ⟨w, List.mem_cons_self, ws, hws, z, hz,
            List.mem_cons_of_mem _ (hrest.mem_of_mem_stack hstack), hzv.trans hvy⟩
      rcases List.mem_cons.mp hx with rfl | hx
      · obtain rfl : ws = ys := by simpa [hws] using hsucc
        exact hpushed y hy rfl
      · rcases ih hx with hm | ⟨u, hu, us, hus, z, hz, hzout, hzy⟩
        · rcases marks_pushFresh.mp hm with hm | ⟨v, hv, hvy⟩
          · exact Or.inl hm
          · exact hpushed v hv hvy
        · exact Or.inr ⟨u, List.mem_cons_of_mem _ hu, us, hus, z, hz,
            List.mem_cons_of_mem _ hzout, hzy⟩

/-- **No key twice**, when the stack starts with distinct, marked keys. -/
theorem keys_nodup (h : Explores key succ st m out) (hnd : (st.map key).Nodup)
    (hm : ∀ z ∈ st, key z ∈ m) :
    (out.map key).Nodup ∧ ∀ z ∈ out, z ∈ st ∨ key z ∉ m := by
  induction h with
  | done => exact ⟨List.nodup_nil, by simp⟩
  | @pop x st m ys out hsucc _ ih =>
      have hx : key x ∉ st.map key := (List.nodup_cons.mp hnd).1
      have hst : (st.map key).Nodup := (List.nodup_cons.mp hnd).2
      have hmst : ∀ z ∈ st, key z ∈ m := fun z hz => hm z (List.mem_cons_of_mem _ hz)
      obtain ⟨new, heq, hnew, hfresh⟩ := pushFresh_eq_append key ys st m
      obtain ⟨hpnd, hpm⟩ := pushFresh_nodup key ys _ _ hst hmst
      obtain ⟨hout, hcases⟩ := ih hpnd hpm
      rw [heq] at hcases
      -- what is explored later was on the stack, or is marked only now
      have hrest : ∀ z ∈ out, z ∈ st ∨ key z ∉ m := by
        intro z hz
        rcases hcases z hz with hz' | hz'
        · rcases List.mem_append.mp hz' with hz' | hz'
          · exact Or.inr (hfresh z hz').2
          · exact Or.inl hz'
        · exact Or.inr (fun hmem => hz' (Finset.mem_union_left _ hmem))
      refine ⟨?_, ?_⟩
      · rw [List.map_cons, List.nodup_cons]
        refine ⟨?_, hout⟩
        intro hmem
        obtain ⟨z, hz, hzx⟩ := List.mem_map.mp hmem
        rcases hrest z hz with hz' | hz'
        · exact hx (hzx ▸ List.mem_map_of_mem hz')
        · exact hz' (hzx ▸ hm x List.mem_cons_self)
      · intro z hz
        rcases List.mem_cons.mp hz with rfl | hz
        · exact Or.inl List.mem_cons_self
        · rcases hrest z hz with hz' | hz'
          · exact Or.inl (List.mem_cons_of_mem _ hz')
          · exact Or.inr hz'

/-- **Determinism**: two searches whose successor functions agree on what the
first emits, emit the same. -/
theorem det {succ' : α → Except ε (List α)} {out' : List α} (h : Explores key succ st m out)
    (h' : Explores key succ' st m out') (hagree : ∀ x ∈ out, succ x = succ' x) : out = out' := by
  induction h generalizing out' with
  | done => cases h'; rfl
  | @pop x st m ys out hsucc _ ih =>
      cases h' with
      | pop hsucc' hrest' =>
          have hys := hagree x List.mem_cons_self
          rw [hsucc, hsucc'] at hys
          injection hys with hys
          subst hys
          rw [ih hrest' (fun z hz => hagree z (List.mem_cons_of_mem _ hz))]

end Explores

/-! ## §4. Dropping a successor-closed part. -/

/-- Nodes outside `p` lead outside `p` only, and a key tells whether its node is
in `p`; then pushing and restricting to `p` commute. -/
theorem pushFresh_filter {key : α → β} {p : α → Bool} {I : α → Prop}
    (hkey : ∀ x y, I x → I y → key x = key y → p x = p y) :
    ∀ (ys st : List α) (m m' : Finset β), (∀ y ∈ ys, I y) →
      (∀ x, I x → p x = true → (key x ∈ m ↔ key x ∈ m')) →
      (pushFresh key ys st m).1.filter p = (pushFresh key (ys.filter p) (st.filter p) m').1 ∧
        ∀ x, I x → p x = true →
          (key x ∈ (pushFresh key ys st m).2 ↔
            key x ∈ (pushFresh key (ys.filter p) (st.filter p) m').2)
  | [], st, m, m', _, hm => ⟨rfl, hm⟩
  | y :: ys, st, m, m', hI, hm => by
      have hIy : I y := hI y List.mem_cons_self
      have hIys : ∀ z ∈ ys, I z := fun z hz => hI z (List.mem_cons_of_mem _ hz)
      cases hp : p y with
      | true =>
          rw [List.filter_cons_of_pos hp]
          by_cases hy : key y ∈ m
          · rw [pushFresh_cons_of_mem hy, pushFresh_cons_of_mem ((hm y hIy hp).mp hy)]
            exact pushFresh_filter hkey ys st m m' hIys hm
          · rw [pushFresh_cons_of_notMem hy,
              pushFresh_cons_of_notMem (fun h => hy ((hm y hIy hp).mpr h)),
              ← List.filter_cons_of_pos hp]
            refine pushFresh_filter hkey ys (y :: st) _ _ hIys ?_
            intro x hx hpx
            simp only [Finset.mem_insert, hm x hx hpx]
      | false =>
          have hneg : ¬ p y = true := by simp [hp]
          rw [List.filter_cons_of_neg hneg]
          by_cases hy : key y ∈ m
          · rw [pushFresh_cons_of_mem hy]
            exact pushFresh_filter hkey ys st m m' hIys hm
          · rw [pushFresh_cons_of_notMem hy, ← List.filter_cons_of_neg (l := st) hneg]
            refine pushFresh_filter hkey ys (y :: st) _ _ hIys ?_
            -- the mark of a node outside `p` is no mark of a node inside
            intro x hx hpx
            rw [Finset.mem_insert, hm x hx hpx, or_iff_right]
            intro heq
            have := hkey x y hx hIy heq
            simp [hpx, hp] at this

/-- **Restriction**: what a search emits inside `p` is what the search that never
leaves `p` emits. -/
theorem Explores.filter {key : α → β} {succ succ' : α → Except ε (List α)} {st out : List α}
    {m m' : Finset β} {p : α → Bool} {I : α → Prop} (h : Explores key succ st m out)
    (hst : ∀ x ∈ st, I x) (hstep : ∀ x ys, I x → succ x = .ok ys → ∀ y ∈ ys, I y)
    (hkey : ∀ x y, I x → I y → key x = key y → p x = p y)
    (hdown : ∀ x ys, I x → succ x = .ok ys → p x = false → ∀ y ∈ ys, p y = false)
    (hsucc' : ∀ x ys, I x → p x = true → succ x = .ok ys → succ' x = .ok (ys.filter p))
    (hm : ∀ x, I x → p x = true → (key x ∈ m ↔ key x ∈ m')) :
    Explores key succ' (st.filter p) m' (out.filter p) := by
  induction h generalizing m' with
  | done m => exact .done m'
  | @pop x st m ys out hsucc _ ih =>
      have hIx : I x := hst x List.mem_cons_self
      have hIys : ∀ y ∈ ys, I y := hstep x ys hIx hsucc
      -- the new stack holds only what the invariant allows
      have hIpush : ∀ z ∈ (pushFresh key ys st m).1, I z := by
        intro z hz
        rcases mem_pushFresh hz with hz | hz
        · exact hIys z hz
        · exact hst z (List.mem_cons_of_mem _ hz)
      obtain ⟨hstack, hmarks⟩ := pushFresh_filter hkey ys st m m' hIys hm
      have hrest := ih hIpush hmarks
      rw [hstack] at hrest
      cases hp : p x with
      | true =>
          rw [List.filter_cons_of_pos hp, List.filter_cons_of_pos hp]
          exact .pop (hsucc' x ys hIx hp hsucc) hrest
      | false =>
          rw [List.filter_cons_of_neg (by simp [hp]), List.filter_cons_of_neg (by simp [hp])]
          have hnil : ys.filter p = [] := by
            rw [List.filter_eq_nil_iff]
            intro y hy
            simp [hdown x ys hIx hsucc hp y hy]
          rw [hnil] at hrest
          exact hrest

/-! ## §5. Enough fuel. -/

/-- **Termination**: where successors are always defined and their keys lie in a
finite set, fuel for that set and the stack is enough. -/
theorem search_total (stuck : ε) {key : α → β} {succ : α → Except ε (List α)} {F : Finset β}
    {I : α → Prop} (hsucc : ∀ x, I x → ∃ ys, succ x = .ok ys ∧ ∀ y ∈ ys, I y ∧ key y ∈ F) :
    ∀ (fuel : Nat) (st : List α) (m : Finset β), (∀ x ∈ st, I x) →
      st.length + (F \ m).card < fuel → ∃ out, search stuck key succ fuel st m = .ok out
  | 0, _, _, _, h => absurd h (Nat.not_lt_zero _)
  | _ + 1, [], _, _, _ => ⟨[], rfl⟩
  | fuel + 1, x :: st, m, hI, h => by
      obtain ⟨ys, hys, hF⟩ := hsucc x (hI x List.mem_cons_self)
      obtain ⟨new, heq, hnd, hfresh⟩ := pushFresh_eq_append key ys st m
      have hpush : ∀ z ∈ new ++ st, I z := by
        intro z hz
        rcases List.mem_append.mp hz with hz | hz
        · exact (hF z (hfresh z hz).1).1
        · exact hI z (List.mem_cons_of_mem _ hz)
      have hsub : (new.map key).toFinset ⊆ F \ m := by
        intro b hb
        obtain ⟨z, hz, rfl⟩ := List.mem_map.mp (List.mem_toFinset.mp hb)
        exact Finset.mem_sdiff.mpr ⟨(hF z (hfresh z hz).1).2, (hfresh z hz).2⟩
      have hcard : (F \ (m ∪ (new.map key).toFinset)).card + new.length = (F \ m).card := by
        have hlen : (new.map key).toFinset.card = new.length := by
          rw [List.toFinset_card_of_nodup hnd, List.length_map]
        rw [← Finset.sup_eq_union, ← sdiff_sdiff_left, ← hlen]
        exact Finset.card_sdiff_add_card_eq_card hsub
      have hlt : (new ++ st).length + (F \ (m ∪ (new.map key).toFinset)).card < fuel := by
        simp only [List.length_append, List.length_cons] at h ⊢
        omega
      obtain ⟨out, hout⟩ := search_total stuck hsucc fuel (new ++ st) _ hpush hlt
      refine ⟨x :: out, ?_⟩
      simp only [search, hys, heq, hout, bind, Except.bind, pure, Except.pure]

end Mrv.Search
