/-
  Mrv.Lib.Dfs — depth-first search and strongly connected components.

  A search visits the successors of a node one after the other, each unless it was
  visited before, and lists a node when it enters it or when it leaves it.  What a
  search lists is what can be reached without passing what was visited before
  (`Searched`).

  Listed on leaving, the nodes of a search are ranked: every node that reaches a
  node `u` belongs to the component of one listed with `u` or later (`Ranked`).
  So if the list is taken from its end, and from each node what reaches it outside
  the components found so far is collected by a search along the reversed edges,
  the lists collected are the strongly connected components (`components_spec`).

  A loop over a stack that drops what it pops a second time lists what a search
  lists, in some order (`popAll_searched`).
-/
import Mathlib.Logic.Relation
import Mathlib.Algebra.BigOperators.Group.Finset.Basic
import Mathlib.Data.Finset.Card
import Mathlib.Tactic

namespace Mrv.Dfs

open Relation (ReflTransGen)

universe u

variable {α : Type u} [DecidableEq α]

/-! ## §1. The search. -/

/-- What was visited, and the list made so far. -/
abbrev Found (α : Type u) := Finset α × List α

/-- Visit those nodes of a list that are not visited yet. -/
def each (visit : α → Found α → Option (Found α)) : List α → Found α → Option (Found α)
  | [], s => some s
  | x :: xs, s => if x ∈ s.1 then each visit xs s else (visit x s).bind (each visit xs)

/-- When a node is listed. -/
inductive Moment where
  | enter
  | leave

/-- Visit a node and what can be reached from it. -/
def visit (moment : Moment) (next : α → List α) : ℕ → α → Found α → Option (Found α)
  | 0, _, _ => none
  | fuel + 1, node, (visited, out) =>
      match moment with
      | .enter => each (visit moment next fuel) (next node) (insert node visited, out ++ [node])
      | .leave =>
          (each (visit moment next fuel) (next node) (insert node visited, out)).map
            (fun s => (s.1, s.2 ++ [node]))

/-! ## §2. Reaching without passing a set. -/

omit [DecidableEq α] in
/-- Paths from elsewhere do not depend on the edges of a node without incoming ones. -/
theorem reflTransGen_iff_of_source {r r' : α → α → Prop} {k x y : α}
    (hsame : ∀ a, a ≠ k → ∀ b, r a b ↔ r' a b) (hsource : ∀ a, a ≠ k → ¬ r a k) (hx : x ≠ k) :
    ReflTransGen r x y ↔ ReflTransGen r' x y := by
  constructor
  · intro h
    induction h using ReflTransGen.head_induction_on with
    | refl => exact ReflTransGen.refl
    | @head a b hstep _ ih =>
        have hb : b ≠ k := fun heq => hsource a hx (heq ▸ hstep)
        exact ReflTransGen.head ((hsame a hx b).mp hstep) (ih hb)
  · intro h
    induction h using ReflTransGen.head_induction_on with
    | refl => exact ReflTransGen.refl
    | @head a b hstep _ ih =>
        have hstep' := (hsame a hx b).mpr hstep
        have hb : b ≠ k := fun heq => hsource a hx (heq ▸ hstep')
        exact ReflTransGen.head hstep' (ih hb)

omit [DecidableEq α] in
/-- A node without incoming edges is not reached. -/
theorem not_reflTransGen_source {r : α → α → Prop} {k x : α} (hsource : ∀ a, a ≠ k → ¬ r a k)
    (hx : x ≠ k) : ¬ ReflTransGen r x k := by
  intro h
  induction h using ReflTransGen.head_induction_on with
  | refl => exact hx rfl
  | @head a b hstep _ ih => exact ih fun heq => hsource a hx (heq ▸ hstep)

/-- Reaching along edges into nodes outside a set. -/
def Reach (next : α → List α) (V : Finset α) : α → α → Prop :=
  ReflTransGen (fun x y => y ∈ next x ∧ y ∉ V)

omit [DecidableEq α] in
/-- Reaching without passing anything is reaching. -/
theorem reach_empty {next : α → List α} {x y : α} :
    Reach next ∅ x y ↔ ReflTransGen (fun x y => y ∈ next x) x y := by
  have heq : (fun x y => y ∈ next x ∧ y ∉ (∅ : Finset α)) = fun x y => y ∈ next x := by
    funext x y
    simp
  unfold Reach
  rw [heq]

/-- Reaching each other. -/
def Mutual (next : α → List α) (V : Finset α) (x y : α) : Prop :=
  Reach next V x y ∧ Reach next V y x

variable {next : α → List α} {V W : Finset α} {x y z : α}

omit [DecidableEq α] in
theorem Reach.mono (hsub : V ⊆ W) (h : Reach next W x y) : Reach next V x y := by
  induction h with
  | refl => exact ReflTransGen.refl
  | tail _ hstep ih => exact ih.tail ⟨hstep.1, fun hmem => hstep.2 (hsub hmem)⟩

omit [DecidableEq α] in
theorem Mutual.mono (hsub : V ⊆ W) (h : Mutual next W x y) : Mutual next V x y :=
  ⟨h.1.mono hsub, h.2.mono hsub⟩

omit [DecidableEq α] in
theorem Mutual.refl (x : α) : Mutual next V x x := ⟨ReflTransGen.refl, ReflTransGen.refl⟩

omit [DecidableEq α] in
theorem Mutual.symm (h : Mutual next V x y) : Mutual next V y x := ⟨h.2, h.1⟩

omit [DecidableEq α] in
theorem Mutual.trans (h : Mutual next V x y) (h' : Mutual next V y z) : Mutual next V x z :=
  ⟨h.1.trans h'.1, h'.2.trans h.2⟩

/-- The nodes of a list lead, outside `V`, to nodes of the list only. -/
def Closed (next : α → List α) (V : Finset α) (N : List α) : Prop :=
  ∀ x ∈ N, ∀ y ∈ next x, y ∈ V ∨ y ∈ N

omit [DecidableEq α] in
theorem Closed.reach {N : List α} (h : Closed next V N) (hx : x ∈ N) (hxy : Reach next V x y) :
    y ∈ N := by
  induction hxy with
  | refl => exact hx
  | tail _ hstep ih => exact (h _ ih _ hstep.1).resolve_left hstep.2

/-- A path that ends outside a closed list avoids it. -/
theorem Closed.avoid {N : List α} (h : Closed next V N) (hy : y ∉ N) (hxy : Reach next V x y) :
    Reach next (V ∪ N.toFinset) x y := by
  induction hxy using ReflTransGen.head_induction_on with
  | refl => exact ReflTransGen.refl
  | @head x z hstep hrest ih =>
      refine ReflTransGen.head ⟨hstep.1, fun hmem => ?_⟩ ih
      obtain hV | hN := Finset.mem_union.mp hmem
      · exact hstep.2 hV
      · exact hy (h.reach (List.mem_toFinset.mp hN) hrest)

/-- A path avoids a node or leads to it. -/
theorem Reach.avoid_or {a : α} (h : Reach next V x y) :
    Reach next (insert a V) x y ∨ Reach next V x a := by
  induction h with
  | refl => exact Or.inl ReflTransGen.refl
  | @tail y z hxy hstep ih =>
      obtain havoid | hto := ih
      · by_cases hz : z = a
        · right
          rw [← hz]
          exact hxy.tail hstep
        · left
          refine havoid.tail ⟨hstep.1, fun hmem => ?_⟩
          obtain heq | hV := Finset.mem_insert.mp hmem
          · exact hz heq
          · exact hstep.2 hV
      · exact Or.inr hto

/-! ## §3. What a search lists. -/

/-- What a search from the nodes `xs` lists when `V` was visited before. -/
structure Searched (next : α → List α) (V : Finset α) (xs N : List α) : Prop where
  nodup : N.Nodup
  fresh : ∀ x ∈ N, x ∉ V
  starts : ∀ x ∈ xs, x ∈ V ∨ x ∈ N
  closed : Closed next V N
  reached : ∀ y ∈ N, ∃ x ∈ xs, x ∉ V ∧ Reach next V x y

/-- Every node of the list that reaches `u` reaches, and is reached by, one that is listed
with `u` or later. -/
def Ranked (next : α → List α) (V : Finset α) (N : List α) : Prop :=
  ∀ u T, u :: T <:+ N → ∀ v ∈ N, Reach next V v u → ∃ w ∈ u :: T, Mutual next V v w

omit [DecidableEq α] in
theorem Searched.nil : Searched next V [] [] := by
  refine ⟨List.nodup_nil, ?_, ?_, ?_, ?_⟩ <;> exact fun _ hx => absurd hx List.not_mem_nil

omit [DecidableEq α] in
theorem Ranked.nil : Ranked next V [] := fun _ _ _ _ hv => absurd hv List.not_mem_nil

omit [DecidableEq α] in
theorem Searched.skip {xs N : List α} (hx : x ∈ V) (h : Searched next V xs N) :
    Searched next V (x :: xs) N := by
  refine ⟨h.nodup, h.fresh, ?_, h.closed, fun y hy => ?_⟩
  · exact List.forall_mem_cons.mpr ⟨Or.inl hx, h.starts⟩
  · obtain ⟨z, hz, hfresh, hreach⟩ := h.reached y hy
    exact ⟨z, List.mem_cons_of_mem _ hz, hfresh, hreach⟩

theorem mem_union_toFinset {N : List α} : x ∈ V ∪ N.toFinset ↔ x ∈ V ∨ x ∈ N := by
  rw [Finset.mem_union, List.mem_toFinset]

/-- A search from a node and then from the others. -/
theorem Searched.append {xs N N' : List α} (hx : x ∉ V) (h : Searched next V [x] N)
    (h' : Searched next (V ∪ N.toFinset) xs N') : Searched next V (x :: xs) (N ++ N') := by
  refine ⟨?_, ?_, ?_, ?_, ?_⟩
  · rw [List.nodup_append]
    refine ⟨h.nodup, h'.nodup, fun a ha b hb heq => ?_⟩
    rw [heq] at ha
    exact h'.fresh b hb (mem_union_toFinset.mpr (Or.inr ha))
  · intro y hy
    obtain hy | hy := List.mem_append.mp hy
    · exact h.fresh y hy
    · exact fun hV => h'.fresh y hy (mem_union_toFinset.mpr (Or.inl hV))
  · intro y hy
    rw [List.mem_append]
    obtain rfl | hy := List.mem_cons.mp hy
    · have hstart := h.starts y List.mem_cons_self
      tauto
    · have hstart := h'.starts y hy
      rw [mem_union_toFinset] at hstart
      tauto
  · intro y hy z hz
    rw [List.mem_append]
    obtain hy | hy := List.mem_append.mp hy
    · have hclosed := h.closed y hy z hz
      tauto
    · have hclosed := h'.closed y hy z hz
      rw [mem_union_toFinset] at hclosed
      tauto
  · intro y hy
    obtain hy | hy := List.mem_append.mp hy
    · obtain ⟨z, hz, _, hreach⟩ := h.reached y hy
      rw [List.mem_singleton.mp hz] at hreach
      exact ⟨x, List.mem_cons_self, hx, hreach⟩
    · obtain ⟨z, hz, hfresh, hreach⟩ := h'.reached y hy
      refine ⟨z, List.mem_cons_of_mem _ hz, fun hV => ?_, hreach.mono Finset.subset_union_left⟩
      exact hfresh (mem_union_toFinset.mpr (Or.inl hV))

omit [DecidableEq α] in
theorem suffix_append_cases {s N N' : List α} (h : s <:+ N ++ N') :
    s <:+ N' ∨ ∃ t, t <:+ N ∧ s = t ++ N' := by
  obtain ⟨r, hr⟩ := h
  obtain ⟨as, hr', hs⟩ | ⟨as, hr', hs⟩ := List.append_eq_append_iff.mp hr
  · exact Or.inr ⟨as, ⟨r, hr'.symm⟩, hs⟩
  · exact Or.inl ⟨as, hs.symm⟩

/-- Ranks of one search and of the one after it. -/
theorem Ranked.append {xs N N' : List α} (h : Searched next V [x] N)
    (h' : Searched next (V ∪ N.toFinset) xs N') (hr : Ranked next V N)
    (hr' : Ranked next (V ∪ N.toFinset) N') : Ranked next V (N ++ N') := by
  -- a node of the second search: nothing of the first reaches it
  have hsecond : ∀ u T, u :: T <:+ N' → ∀ v ∈ N ++ N', Reach next V v u →
      ∃ w ∈ u :: T, Mutual next V v w := by
    intro u T hlater v hv hreach
    have hu : u ∈ N' := hlater.subset List.mem_cons_self
    have hnot : u ∉ N := fun hmem => h'.fresh u hu (mem_union_toFinset.mpr (Or.inr hmem))
    obtain hv | hv := List.mem_append.mp hv
    · exact absurd (h.closed.reach hv hreach) hnot
    · obtain ⟨w, hw, hmutual⟩ := hr' u T hlater v hv (h.closed.avoid hnot hreach)
      exact ⟨w, hw, hmutual.mono Finset.subset_union_left⟩
  intro u T hsuffix v hv hreach
  obtain hlater | ⟨t, ht, heq⟩ := suffix_append_cases hsuffix
  · exact hsecond u T hlater v hv hreach
  · cases t with
    | nil =>
        have hlater : u :: T <:+ N' := by
          rw [heq]
          exact List.suffix_refl _
        exact hsecond u T hlater v hv hreach
    | cons u' t =>
        rw [List.cons_append, List.cons.injEq] at heq
        obtain ⟨rfl, rfl⟩ := heq
        obtain hv | hv := List.mem_append.mp hv
        · obtain ⟨w, hw, hmutual⟩ := hr u t ht v hv hreach
          refine ⟨w, ?_, hmutual⟩
          rw [← List.cons_append]
          exact List.mem_append_left _ hw
        · exact ⟨v, List.mem_cons_of_mem _ (List.mem_append_right _ hv), Mutual.refl v⟩

/-- A search from a node: the node and what a search from its successors lists. -/
theorem Searched.node {N : List α} (hx : x ∉ V) (h : Searched next (insert x V) (next x) N) :
    Searched next V [x] (x :: N) := by
  have hfresh : ∀ y ∈ N, y ≠ x ∧ y ∉ V := fun y hy => by
    have hnot := h.fresh y hy
    rw [Finset.mem_insert] at hnot
    tauto
  refine ⟨?_, ?_, ?_, ?_, ?_⟩
  · rw [List.nodup_cons]
    exact ⟨fun hmem => (hfresh x hmem).1 rfl, h.nodup⟩
  · rw [List.forall_mem_cons]
    exact ⟨hx, fun y hy => (hfresh y hy).2⟩
  · intro y hy
    rw [List.mem_singleton.mp hy]
    exact Or.inr List.mem_cons_self
  · have hstep : ∀ z, z ∈ insert x V ∨ z ∈ N → z ∈ V ∨ z ∈ x :: N := fun z hz => by
      rw [Finset.mem_insert] at hz
      rw [List.mem_cons]
      tauto
    intro y hy z hz
    obtain rfl | hy := List.mem_cons.mp hy
    · exact hstep z (h.starts z hz)
    · exact hstep z (h.closed y hy z hz)
  · intro y hy
    obtain rfl | hy := List.mem_cons.mp hy
    · exact ⟨y, List.mem_cons_self, hx, ReflTransGen.refl⟩
    · obtain ⟨z, hz, hnot, hreach⟩ := h.reached y hy
      have hsub : V ⊆ insert x V := Finset.subset_insert x V
      exact ⟨x, List.mem_cons_self, hx,
        ReflTransGen.head ⟨hz, fun hV => hnot (hsub hV)⟩ (hreach.mono hsub)⟩

omit [DecidableEq α] in
theorem Searched.perm {xs N N' : List α} (h : Searched next V xs N) (hperm : N.Perm N') :
    Searched next V xs N' := by
  refine ⟨hperm.nodup h.nodup, fun y hy => h.fresh y (hperm.mem_iff.mpr hy), fun y hy => ?_,
    fun y hy z hz => ?_, fun y hy => h.reached y (hperm.mem_iff.mpr hy)⟩
  · exact (h.starts y hy).imp_right hperm.mem_iff.mp
  · exact (h.closed y (hperm.mem_iff.mpr hy) z hz).imp_right hperm.mem_iff.mp

/-- A node listed after what was searched from its successors. -/
theorem Ranked.node {N : List α} (hx : x ∉ V) (h : Searched next (insert x V) (next x) N)
    (hr : Ranked next (insert x V) N) : Ranked next V (N ++ [x]) := by
  intro u T hsuffix v hv hreach
  have hlast : x ∈ u :: T := by
    obtain hlater | ⟨t, _, heq⟩ := suffix_append_cases hsuffix
    · have hu : u ∈ [x] := hlater.subset List.mem_cons_self
      rw [List.mem_singleton.mp hu]
      exact List.mem_cons_self
    · rw [heq]
      exact List.mem_append_right _ List.mem_cons_self
  -- the node reaches everything that is listed
  have hfrom : Reach next V x v := by
    obtain ⟨z, hz, _, hto⟩ := (h.node hx).reached v (List.mem_append.mp hv |>.elim
      (List.mem_cons_of_mem x) (fun hmem => by rw [List.mem_singleton.mp hmem]; exact
        List.mem_cons_self))
    rw [List.mem_singleton.mp hz] at hto
    exact hto
  by_cases hback : Reach next V v x
  · exact ⟨x, hlast, hback, hfrom⟩
  · have havoid : Reach next (insert x V) v u := hreach.avoid_or.resolve_right hback
    have hvN : v ∈ N := (List.mem_append.mp hv).resolve_right fun hmem => by
      rw [List.mem_singleton.mp hmem] at hback
      exact hback ReflTransGen.refl
    have hu : u ≠ x := fun heq => hback (heq ▸ hreach)
    obtain hlater | ⟨t, ht, heq⟩ := suffix_append_cases hsuffix
    · exact absurd (List.mem_singleton.mp (hlater.subset List.mem_cons_self)) hu
    · cases t with
      | nil => exact absurd (List.cons.inj heq).1 hu
      | cons u' t =>
          rw [List.cons_append, List.cons.injEq] at heq
          obtain ⟨rfl, rfl⟩ := heq
          obtain ⟨w, hw, hmutual⟩ := hr u t ht v hvN havoid
          refine ⟨w, ?_, hmutual.mono (Finset.subset_insert x V)⟩
          rw [← List.cons_append]
          exact List.mem_append_left _ hw

/-! ## §4. What a visit adds. -/

/-- A search from the nodes `xs` added the nodes `N`. -/
structure Adds (moment : Moment) (next : α → List α) (V : Finset α) (out xs : List α)
    (s : Found α) (N : List α) : Prop where
  visited : s.1 = V ∪ N.toFinset
  listed : s.2 = out ++ N
  searched : Searched next V xs N
  ranked : moment = .leave → Ranked next V N

variable {moment : Moment} {out xs : List α} {s : Found α}

theorem each_adds {visit : α → Found α → Option (Found α)}
    (hvisit : ∀ {x V out s}, x ∉ V → visit x (V, out) = some s →
      ∃ N, Adds moment next V out [x] s N)
    (h : each visit xs (V, out) = some s) : ∃ N, Adds moment next V out xs s N := by
  induction xs generalizing V out with
  | nil =>
      obtain rfl := Option.some.inj h
      exact ⟨[], by simp, by simp, Searched.nil, fun _ => Ranked.nil⟩
  | cons x xs ih =>
      unfold each at h
      by_cases hx : x ∈ V
      · rw [if_pos hx] at h
        obtain ⟨N, hN⟩ := ih h
        exact ⟨N, hN.visited, hN.listed, hN.searched.skip hx, hN.ranked⟩
      · rw [if_neg hx] at h
        obtain ⟨⟨V', out'⟩, hfirst, hrest⟩ := Option.bind_eq_some_iff.mp h
        obtain ⟨N, hN⟩ := hvisit hx hfirst
        obtain ⟨N', hN'⟩ := ih hrest
        obtain rfl : V' = V ∪ N.toFinset := hN.visited
        obtain rfl : out' = out ++ N := hN.listed
        refine ⟨N ++ N', ?_, ?_, hN.searched.append hx hN'.searched, fun hm => ?_⟩
        · rw [hN'.visited, List.toFinset_append, Finset.union_assoc]
        · rw [hN'.listed, List.append_assoc]
        · exact Ranked.append hN.searched hN'.searched (hN.ranked hm) (hN'.ranked hm)

theorem visit_adds {fuel : ℕ} (hx : x ∉ V) (h : visit moment next fuel x (V, out) = some s) :
    ∃ N, Adds moment next V out [x] s N := by
  induction fuel generalizing x V out s with
  | zero => exact absurd h.symm (Option.some_ne_none s)
  | succ fuel ih =>
      unfold visit at h
      cases moment with
      | enter =>
          obtain ⟨N, hN⟩ := each_adds ih h
          refine ⟨x :: N, ?_, ?_, hN.searched.node hx, fun hm => Moment.noConfusion hm⟩
          · rw [hN.visited, List.toFinset_cons, Finset.insert_union, Finset.union_insert]
          · rw [hN.listed, List.append_assoc]
            rfl
      | leave =>
          obtain ⟨s', hs', rfl⟩ := Option.map_eq_some_iff.mp h
          obtain ⟨N, hN⟩ := each_adds ih hs'
          have hperm : (x :: N).Perm (N ++ [x]) := (List.perm_append_singleton x N).symm
          refine ⟨N ++ [x], ?_, ?_, (hN.searched.node hx).perm hperm, fun hm => ?_⟩
          · show s'.1 = _
            rw [hN.visited, ← List.toFinset_eq_of_perm _ _ hperm, List.toFinset_cons,
              Finset.insert_union, Finset.union_insert]
          · show s'.2 ++ [x] = _
            rw [hN.listed, List.append_assoc]
          · exact Ranked.node hx hN.searched (hN.ranked hm)

/-! ## §5. The fuel is enough. -/

theorem each_total {visit : α → Found α → Option (Found α)} {U : Finset α}
    (hvisit : ∀ y V' out, y ∈ U → y ∉ V' → V ⊆ V' →
      ∃ s, visit y (V', out) = some s ∧ V' ⊆ s.1)
    (hxs : ∀ y ∈ xs, y ∈ U) (hV : V ⊆ W) : ∃ s, each visit xs (W, out) = some s := by
  induction xs generalizing W out with
  | nil => exact ⟨(W, out), rfl⟩
  | cons y xs ih =>
      rw [List.forall_mem_cons] at hxs
      unfold each
      by_cases hy : y ∈ W
      · rw [if_pos hy]
        exact ih hxs.2 hV
      · rw [if_neg hy]
        obtain ⟨⟨W', out'⟩, hs, hsub⟩ := hvisit y W out hxs.1 hy hV
        rw [hs]
        exact ih hxs.2 (hV.trans hsub)

/-- A visit returns when its fuel is the number of nodes left. -/
theorem visit_total {U : Finset α} (hU : ∀ y ∈ U, ∀ z ∈ next y, z ∈ U) {fuel : ℕ}
    (hx : x ∈ U) (hnot : x ∉ V) (hfuel : (U \ V).card ≤ fuel) :
    ∃ s, visit moment next fuel x (V, out) = some s := by
  induction fuel generalizing x V out with
  | zero =>
      have hmem : x ∈ U \ V := Finset.mem_sdiff.mpr ⟨hx, hnot⟩
      have hpos : 0 < (U \ V).card := Finset.card_pos.mpr ⟨x, hmem⟩
      omega
  | succ fuel ih =>
      -- one node less is left, so the fuel is enough for the successors
      have hless : ∀ V' : Finset α, insert x V ⊆ V' → (U \ V').card ≤ fuel := by
        intro V' hsub
        have hlt : (U \ V').card < (U \ V).card := by
          apply Finset.card_lt_card
          rw [Finset.ssubset_iff_of_subset]
          · have hV' : x ∈ V' := hsub (Finset.mem_insert_self x V)
            exact ⟨x, Finset.mem_sdiff.mpr ⟨hx, hnot⟩, fun h => (Finset.mem_sdiff.mp h).2 hV'⟩
          · exact Finset.sdiff_subset_sdiff (Finset.Subset.refl U)
              ((Finset.subset_insert x V).trans hsub)
        omega
      have hvisit : ∀ y V' out', y ∈ U → y ∉ V' → insert x V ⊆ V' →
          ∃ s, visit moment next fuel y (V', out') = some s ∧ V' ⊆ s.1 := by
        intro y V' out' hy hfresh hsub
        have hagain : ∃ s, visit moment next fuel y (V', out') = some s :=
          ih hy hfresh (hless V' hsub)
        obtain ⟨s, hs⟩ := hagain
        obtain ⟨N, hN⟩ := visit_adds hfresh hs
        refine ⟨s, hs, ?_⟩
        rw [hN.visited]
        exact Finset.subset_union_left
      unfold visit
      cases moment with
      | enter => exact each_total hvisit (hU x hx) (Finset.Subset.refl _)
      | leave =>
          have heach : ∃ s, each (visit .leave next fuel) (next x) (insert x V, out) = some s :=
            each_total hvisit (hU x hx) (Finset.Subset.refl _)
          obtain ⟨s, hs⟩ := heach
          exact ⟨_, Option.map_eq_some_iff.mpr ⟨s, hs, rfl⟩⟩

/-! ## §6. Strongly connected components. -/

/-- The nodes of a search from `nodes`, each listed on leaving it. -/
def finishOrder (next : α → List α) (fuel : ℕ) (nodes : List α) : Option (List α) :=
  (each (visit .leave next fuel) nodes (∅, [])).map Prod.snd

/-- Take the nodes of a stack; from each that was not visited yet, collect what a search
along the edges `prev` lists. -/
def collect (prev : α → List α) (fuel : ℕ) : List α → Finset α → Option (List (List α))
  | [], _ => some []
  | x :: stack, visited =>
      if x ∈ visited then collect prev fuel stack visited
      else (visit .enter prev fuel x (visited, [])).bind
        (fun s => (collect prev fuel stack s.1).map (fun components => s.2 :: components))

/-- The lists `cs` are the components of the nodes of `F` outside `V`. -/
structure Components (next : α → List α) (F : List α) (V : Finset α) (cs : List (List α)) :
    Prop where
  nodup : cs.flatten.Nodup
  mem_flatten : ∀ x, x ∈ cs.flatten ↔ x ∈ F ∧ x ∉ V
  ne_nil : ∀ c ∈ cs, c ≠ []
  mem_iff : ∀ c ∈ cs, ∀ x ∈ c, ∀ y, y ∈ c ↔ y ∈ F ∧ Mutual next ∅ x y

section

variable {prev : α → List α} {F : List α} (hclosed : Closed next ∅ F)
  (hprev : ∀ x ∈ F, ∀ y, y ∈ prev x ↔ y ∈ F ∧ x ∈ next y)

include hprev

omit [DecidableEq α] in
/-- A path along the edges `prev` is a path along the edges `next`, the other way. -/
theorem reach_prev (hx : x ∈ F) (h : Reach prev V x y) : y ∈ F ∧ Reach next ∅ y x := by
  induction h with
  | refl => exact ⟨hx, ReflTransGen.refl⟩
  | tail _ hstep ih =>
      obtain ⟨hmem, hedge⟩ := (hprev _ ih.1 _).mp hstep.1
      exact ⟨hmem, ReflTransGen.head ⟨hedge, Finset.notMem_empty _⟩ ih.2⟩

include hclosed

omit [DecidableEq α] in
/-- A path along the edges `next` whose nodes are outside `V` can be walked back. -/
theorem reach_next (hy : y ∈ F) (h : Reach next ∅ y x)
    (hV : ∀ z, Reach next ∅ y z → Reach next ∅ z x → z ∉ V) : Reach prev V x y := by
  induction h using ReflTransGen.head_induction_on with
  | refl => exact ReflTransGen.refl
  | @head y z hstep hrest ih =>
      have hz : z ∈ F := (hclosed y hy z hstep.1).resolve_left hstep.2
      have hback : Reach prev V x z :=
        ih hz (fun w hzw hwx => hV w (ReflTransGen.head hstep hzw) hwx)
      refine hback.tail ⟨(hprev z hz y).mpr ⟨hy, hstep.1⟩, ?_⟩
      exact hV y ReflTransGen.refl (ReflTransGen.head hstep hrest)

omit [DecidableEq α] in
/-- **One component**: when all nodes ranked after `u` are in `V`, and `V` holds whole
components, what reaches `u` outside `V` is the component of `u`. -/
theorem reach_prev_iff {u : α} {D : List α} (hranked : Ranked next ∅ F) (hsuffix : u :: D <:+ F)
    (hD : ∀ x ∈ D, x ∈ V) (hV : ∀ x ∈ V, ∀ y, Mutual next ∅ x y → y ∈ V) (hu : u ∉ V) :
    Reach prev V u y ↔ y ∈ F ∧ Mutual next ∅ u y := by
  have huF : u ∈ F := hsuffix.subset List.mem_cons_self
  constructor
  · intro h
    obtain ⟨hy, hyu⟩ := reach_prev hprev huF h
    have hfresh : y ∉ V := by
      obtain rfl | ⟨_, _, hstep⟩ := ReflTransGen.cases_tail h
      · exact hu
      · exact hstep.2
    obtain ⟨w, hw, hmutual⟩ := hranked u D hsuffix y hy hyu
    obtain rfl | hw := List.mem_cons.mp hw
    · exact ⟨hy, hmutual.symm⟩
    · exact absurd (hV w (hD w hw) y hmutual.symm) hfresh
  · intro h
    apply reach_next hclosed hprev h.1 h.2.2
    intro z hyz hzu hz
    exact hu (hV z hz u ⟨hzu, h.2.1.trans hyz⟩)

/-- The first component taken from a stack is that of the node on top. -/
theorem collect_fresh {fuel : ℕ} {u : α} {stack D : List α} {V : Finset α}
    {cs : List (List α)} (hranked : Ranked next ∅ F) (hsuffix : u :: D <:+ F)
    (hD : ∀ x ∈ D, x ∈ V) (hV : ∀ x ∈ V, ∀ y, Mutual next ∅ x y → y ∈ V) (hu : u ∉ V)
    (h : collect prev fuel (u :: stack) V = some cs) :
    ∃ c cs', cs = c :: cs' ∧ collect prev fuel stack (V ∪ c.toFinset) = some cs' ∧ c.Nodup ∧
      (∀ x ∈ c, x ∉ V) ∧ u ∈ c ∧ ∀ y, y ∈ c ↔ y ∈ F ∧ Mutual next ∅ u y := by
  unfold collect at h
  rw [if_neg hu] at h
  obtain ⟨⟨V', c⟩, hvisit, hrest⟩ := Option.bind_eq_some_iff.mp h
  obtain ⟨cs', hcs', rfl⟩ := Option.map_eq_some_iff.mp hrest
  obtain ⟨N, hN⟩ := visit_adds hu hvisit
  obtain rfl : V' = V ∪ N.toFinset := hN.visited
  obtain rfl : c = N := hN.listed
  have hmem : ∀ y, y ∈ c ↔ y ∈ F ∧ Mutual next ∅ u y := by
    intro y
    rw [← reach_prev_iff hclosed hprev hranked hsuffix hD hV hu]
    constructor
    · intro hy
      obtain ⟨z, hz, _, hreach⟩ := hN.searched.reached y hy
      rw [List.mem_singleton.mp hz] at hreach
      exact hreach
    · intro hreach
      have hstart := hN.searched.starts u List.mem_cons_self
      exact hN.searched.closed.reach (hstart.resolve_left hu) hreach
  have huF : u ∈ F := hsuffix.subset List.mem_cons_self
  exact ⟨c, cs', rfl, hcs', hN.searched.nodup, hN.searched.fresh,
    (hmem u).mpr ⟨huF, Mutual.refl u⟩, hmem⟩

omit hprev in
/-- What was visited stays a union of components. -/
theorem whole_union {u : α} {c : List α} (hV : ∀ x ∈ V, ∀ y, Mutual next ∅ x y → y ∈ V)
    (hmem : ∀ y, y ∈ c ↔ y ∈ F ∧ Mutual next ∅ u y) :
    ∀ x ∈ V ∪ c.toFinset, ∀ y, Mutual next ∅ x y → y ∈ V ∪ c.toFinset := by
  intro x hx y hxy
  rw [mem_union_toFinset] at hx ⊢
  refine hx.imp (fun hx => hV x hx y hxy) (fun hx => ?_)
  obtain ⟨hxF, hux⟩ := (hmem x).mp hx
  exact (hmem y).mpr ⟨hclosed.reach hxF hxy.1, hux.trans hxy⟩

/-- **The components**: taken from the end of a ranked list. -/
theorem collect_components {fuel : ℕ} {stack : List α} {V : Finset α} {cs : List (List α)}
    (hranked : Ranked next ∅ F) {D : List α} (hF : stack.reverse ++ D = F)
    (hD : ∀ x ∈ D, x ∈ V) (hV : ∀ x ∈ V, ∀ y, Mutual next ∅ x y → y ∈ V)
    (h : collect prev fuel stack V = some cs) :
    Components next F V cs ∧
      cs.Pairwise (fun c c' => ∀ x ∈ c', ∀ y ∈ c, ¬ Reach next ∅ x y) := by
  induction stack generalizing V D cs with
  | nil =>
      obtain rfl := Option.some.inj h
      have hnone : ∀ x, ¬ (x ∈ F ∧ x ∉ V) := by
        rintro x ⟨hx, hnot⟩
        rw [← hF] at hx
        exact hnot (hD x hx)
      exact ⟨⟨List.nodup_nil, fun x => by simp [hnone x], by simp, by simp⟩, List.Pairwise.nil⟩
  | cons u stack ih =>
      have hF' : stack.reverse ++ u :: D = F := by
        rw [← hF, List.reverse_cons, List.append_assoc]
        rfl
      by_cases hu : u ∈ V
      · unfold collect at h
        rw [if_pos hu] at h
        refine ih hF' ?_ hV h
        exact List.forall_mem_cons.mpr ⟨hu, hD⟩
      · have hsuffix : u :: D <:+ F := ⟨stack.reverse, hF'⟩
        obtain ⟨c, cs', rfl, hcs', hnodup, hfresh, huc, hmem⟩ :=
          collect_fresh hclosed hprev hranked hsuffix hD hV hu h
        obtain ⟨hcomponents, hordered⟩ := ih hF' (List.forall_mem_cons.mpr
          ⟨mem_union_toFinset.mpr (Or.inr huc),
            fun x hx => mem_union_toFinset.mpr (Or.inl (hD x hx))⟩) (whole_union hclosed hV hmem) hcs'
        refine ⟨⟨?_, fun x => ?_, ?_, ?_⟩, List.pairwise_cons.mpr ⟨?_, hordered⟩⟩
        · rw [List.flatten_cons, List.nodup_append]
          refine ⟨hnodup, hcomponents.nodup, fun a ha b hb heq => ?_⟩
          have hb' := ((hcomponents.mem_flatten b).mp hb).2
          rw [mem_union_toFinset, ← heq] at hb'
          exact hb' (Or.inr ha)
        · rw [List.flatten_cons, List.mem_append, hcomponents.mem_flatten, mem_union_toFinset]
          have hxF : x ∈ c → x ∈ F := fun hx => ((hmem x).mp hx).1
          have hxV := hfresh x
          tauto
        · exact List.forall_mem_cons.mpr ⟨List.ne_nil_of_mem huc, hcomponents.ne_nil⟩
        · rw [List.forall_mem_cons]
          refine ⟨fun x hx y => ?_, hcomponents.mem_iff⟩
          obtain ⟨_, hux⟩ := (hmem x).mp hx
          rw [hmem y]
          exact and_congr_right fun _ => ⟨fun huy => hux.symm.trans huy, fun hxy => hux.trans hxy⟩
        · -- what reaches the node on top belongs to it or was taken before
          intro c' hc' x hx y hy hreach
          have hx' := (hcomponents.mem_flatten x).mp (List.mem_flatten.mpr ⟨c', hc', hx⟩)
          rw [mem_union_toFinset] at hx'
          have hxu : Reach next ∅ x u := hreach.trans ((hmem y).mp hy).2.2
          obtain ⟨w, hw, hmutual⟩ := hranked u D hsuffix x hx'.1 hxu
          obtain rfl | hw := List.mem_cons.mp hw
          · exact hx'.2 (Or.inr ((hmem x).mpr ⟨hx'.1, hmutual.symm⟩))
          · exact hx'.2 (Or.inl (hV w (hD w hw) x hmutual.symm))

omit hclosed in
theorem collect_total {fuel : ℕ} {stack : List α} (hstack : ∀ x ∈ stack, x ∈ F)
    (hfuel : F.toFinset.card ≤ fuel) (V : Finset α) :
    ∃ cs, collect prev fuel stack V = some cs := by
  induction stack generalizing V with
  | nil => exact ⟨[], rfl⟩
  | cons x stack ih =>
      rw [List.forall_mem_cons] at hstack
      unfold collect
      by_cases hx : x ∈ V
      · rw [if_pos hx]
        exact ih hstack.2 V
      · rw [if_neg hx]
        have hU : ∀ y ∈ F.toFinset, ∀ z ∈ prev y, z ∈ F.toFinset := by
          intro y hy z hz
          rw [List.mem_toFinset] at hy ⊢
          exact ((hprev y hy z).mp hz).1
        have hcard : (F.toFinset \ V).card ≤ fuel :=
          (Finset.card_le_card Finset.sdiff_subset).trans hfuel
        have hvisit : ∃ s, visit .enter prev fuel x (V, []) = some s :=
          visit_total hU (List.mem_toFinset.mpr hstack.1) hx hcard
        obtain ⟨s, hs⟩ := hvisit
        obtain ⟨cs, hcs⟩ := ih hstack.2 s.1
        rw [hs, Option.bind_some, hcs]
        exact ⟨_, rfl⟩

end

/-- **Two searches find the components**: one forward from the nodes in any order, one
backward from the nodes in reverse order of finishing.  No path leads from a component to
one found before it. -/
theorem components_spec {prev : α → List α} {nodes : List α} {fuel : ℕ}
    (hnext : ∀ x ∈ nodes, ∀ y ∈ next x, y ∈ nodes)
    (hprev : ∀ x ∈ nodes, ∀ y, y ∈ prev x ↔ y ∈ nodes ∧ x ∈ next y)
    (hfuel : nodes.toFinset.card ≤ fuel) :
    ∃ F cs, finishOrder next fuel nodes = some F ∧ collect prev fuel F.reverse ∅ = some cs ∧
      Components next nodes ∅ cs ∧
        cs.Pairwise (fun c c' => ∀ x ∈ c', ∀ y ∈ c, ¬ Reach next ∅ x y) := by
  have hforward : ∃ s, each (visit .leave next fuel) nodes (∅, []) = some s := by
    have hU : ∀ y ∈ nodes.toFinset, ∀ z ∈ next y, z ∈ nodes.toFinset := by
      intro y hy z hz
      rw [List.mem_toFinset] at hy ⊢
      exact hnext y hy z hz
    apply each_total (V := ∅) (U := nodes.toFinset)
    · intro y V' out hy hfresh _
      have hcard : (nodes.toFinset \ V').card ≤ fuel :=
        (Finset.card_le_card Finset.sdiff_subset).trans hfuel
      have hvisit : ∃ s, visit .leave next fuel y (V', out) = some s :=
        visit_total hU hy hfresh hcard
      obtain ⟨s, hs⟩ := hvisit
      obtain ⟨N, hN⟩ := visit_adds hfresh hs
      refine ⟨s, hs, ?_⟩
      rw [hN.visited]
      exact Finset.subset_union_left
    · exact fun y hy => List.mem_toFinset.mpr hy
    · exact Finset.Subset.refl ∅
  obtain ⟨⟨V, F⟩, hs⟩ := hforward
  obtain ⟨N, hN⟩ := each_adds visit_adds hs
  obtain rfl : F = N := hN.listed
  have hmem : ∀ x, x ∈ F ↔ x ∈ nodes := by
    intro x
    constructor
    · intro hx
      obtain ⟨y, hy, _, hreach⟩ := hN.searched.reached x hx
      have hclosed : Closed next ∅ nodes := fun y hy z hz => Or.inr (hnext y hy z hz)
      exact hclosed.reach hy hreach
    · intro hx
      exact (hN.searched.starts x hx).resolve_left (Finset.notMem_empty x)
  -- the reversed graph has the same nodes
  have hprevF : ∀ x ∈ F, ∀ y, y ∈ prev x ↔ y ∈ F ∧ x ∈ next y := by
    intro x hx y
    rw [hmem y]
    exact hprev x ((hmem x).mp hx) y
  have hcard : F.toFinset.card ≤ fuel := by
    have heq : F.toFinset = nodes.toFinset := by
      ext x
      rw [List.mem_toFinset, List.mem_toFinset]
      exact hmem x
    rw [heq]
    exact hfuel
  obtain ⟨cs, hcs⟩ := collect_total hprevF (fun x hx => List.mem_reverse.mp hx) hcard ∅
  obtain ⟨hcomponents, hordered⟩ :=
    collect_components hN.searched.closed hprevF (hN.ranked rfl) (D := []) (by simp)
      (fun x hx => absurd hx List.not_mem_nil) (fun x hx => absurd hx (Finset.notMem_empty x)) hcs
  refine ⟨F, cs, ?_, hcs, ⟨hcomponents.nodup, fun x => ?_, hcomponents.ne_nil,
    fun c hc x hx y => ?_⟩, hordered⟩
  · unfold finishOrder
    rw [hs]
    rfl
  · rw [hcomponents.mem_flatten, hmem]
  · rw [hcomponents.mem_iff c hc x hx, hmem]

/-! ## §7. Searching with a stack. -/

/-- The nodes popped from a stack for the first time, when popping a node pushes its
successors. -/
def popAll (next : α → List α) : ℕ → List α → Finset α → Option (List α)
  | 0, _, _ => none
  | _ + 1, [], _ => some []
  | fuel + 1, x :: stack, visited =>
      if x ∈ visited then popAll next fuel stack visited
      else (popAll next fuel ((next x).reverse ++ stack) (insert x visited)).map
        (fun out => x :: out)

theorem Searched.pop {stack N : List α} (hx : x ∉ V)
    (h : Searched next (insert x V) ((next x).reverse ++ stack) N) :
    Searched next V (x :: stack) (x :: N) := by
  -- what is popped later is neither the node on top nor known before
  have hfresh : ∀ y ∈ N, y ≠ x ∧ y ∉ V := fun y hy => by
    have hnot := h.fresh y hy
    rw [Finset.mem_insert] at hnot
    tauto
  have hstart : ∀ y, y ∈ next x ∨ y ∈ stack → y ∈ V ∨ y ∈ x :: N := fun y hy => by
    rw [← List.mem_reverse, ← List.mem_append] at hy
    have hmem := h.starts y hy
    rw [Finset.mem_insert] at hmem
    rw [List.mem_cons]
    tauto
  have hsub : V ⊆ insert x V := Finset.subset_insert x V
  refine ⟨?_, ?_, ?_, ?_, ?_⟩
  · rw [List.nodup_cons]
    exact ⟨fun hmem => (hfresh x hmem).1 rfl, h.nodup⟩
  · rw [List.forall_mem_cons]
    exact ⟨hx, fun y hy => (hfresh y hy).2⟩
  · rw [List.forall_mem_cons]
    exact ⟨Or.inr List.mem_cons_self, fun y hy => hstart y (Or.inr hy)⟩
  · intro y hy z hz
    obtain rfl | hy := List.mem_cons.mp hy
    · exact hstart z (Or.inl hz)
    · have hmem := h.closed y hy z hz
      rw [Finset.mem_insert] at hmem
      rw [List.mem_cons]
      tauto
  · intro y hy
    obtain rfl | hy := List.mem_cons.mp hy
    · exact ⟨y, List.mem_cons_self, hx, ReflTransGen.refl⟩
    · obtain ⟨z, hz, hnot, hreach⟩ := h.reached y hy
      have hzV : z ∉ V := fun hV => hnot (hsub hV)
      obtain hz | hz := List.mem_append.mp hz
      · rw [List.mem_reverse] at hz
        exact ⟨x, List.mem_cons_self, hx, ReflTransGen.head ⟨hz, hzV⟩ (hreach.mono hsub)⟩
      · exact ⟨z, List.mem_cons_of_mem _ hz, hzV, hreach.mono hsub⟩

/-- **What the loop lists.** -/
theorem popAll_searched {fuel : ℕ} {stack : List α} (h : popAll next fuel stack V = some out) :
    Searched next V stack out := by
  induction fuel generalizing stack V out with
  | zero => exact absurd h.symm (Option.some_ne_none out)
  | succ fuel ih =>
      cases stack with
      | nil =>
          obtain rfl := Option.some.inj h
          exact Searched.nil
      | cons x stack =>
          unfold popAll at h
          by_cases hx : x ∈ V
          · rw [if_pos hx] at h
            exact (ih h).skip hx
          · rw [if_neg hx] at h
            obtain ⟨N, hN, rfl⟩ := Option.map_eq_some_iff.mp h
            exact (ih hN).pop hx

/-- The loop pops the stack and, once for each node, its successors. -/
theorem popAll_total {U : Finset α} (hU : ∀ y, y ∉ U → next y = []) {fuel : ℕ} {stack : List α}
    (hfuel : stack.length + ∑ y ∈ U \ V, (next y).length < fuel) :
    ∃ out, popAll next fuel stack V = some out := by
  induction fuel generalizing stack V with
  | zero => exact absurd hfuel (Nat.not_lt_zero _)
  | succ fuel ih =>
      cases stack with
      | nil => exact ⟨[], rfl⟩
      | cons x stack =>
          rw [List.length_cons] at hfuel
          unfold popAll
          by_cases hx : x ∈ V
          · rw [if_pos hx]
            apply ih
            omega
          · rw [if_neg hx]
            -- the successors of a new node come onto the stack, and off the sum
            have hsum : (next x).length + ∑ y ∈ U \ insert x V, (next y).length =
                ∑ y ∈ U \ V, (next y).length := by
              by_cases hxU : x ∈ U
              · have hmem : x ∈ U \ V := Finset.mem_sdiff.mpr ⟨hxU, hx⟩
                rw [← Finset.add_sum_erase _ _ hmem, Finset.sdiff_insert]
              · have hsame : U \ insert x V = U \ V := by
                  rw [Finset.sdiff_insert, Finset.erase_eq_of_notMem]
                  exact fun hmem => hxU (Finset.mem_sdiff.mp hmem).1
                rw [hU x hxU, hsame, List.length_nil, Nat.zero_add]
            have hrest : ∃ out, popAll next fuel ((next x).reverse ++ stack) (insert x V) =
                some out := by
              apply ih
              rw [List.length_append, List.length_reverse]
              omega
            obtain ⟨out, hout⟩ := hrest
            exact ⟨x :: out, by rw [hout]; rfl⟩

end Mrv.Dfs
