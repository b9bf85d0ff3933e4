/-
  Mrv.Lib.Kahn — topological sorting by counting predecessors.

  Each node has a degree, the number of its predecessors that are not taken yet.
  The loop takes the first of the ready nodes, those of degree zero, in the order a
  sorting function gives, and lowers the degrees of its successors.  A node without
  a degree, and a degree lowered below zero, are failures.

  On an acyclic graph the loop returns, and what it returns is greedy: every node
  comes after its predecessors, and no node could be taken at a moment at which a
  lesser one was available (`Greedy`, `run_greedy`).  When distinct nodes are never
  equal in the order there is one greedy list only (`Greedy.unique`).
-/
import Mrv.Lib.HashMap
import Mathlib.Data.Finset.Card
import Mathlib.Order.WellFounded
import Mathlib.Data.Fintype.Card

namespace Mrv.Kahn

open Relation (TransGen)

universe u

variable {α : Type u} [DecidableEq α]

/-! ## §1. The loop. -/

/-- Lower the degrees of some nodes; those that drop to zero become ready. -/
def release : List α → HashMap α ℕ → List α → Option (HashMap α ℕ × List α)
  | [], degree, ready => some (degree, ready)
  | x :: xs, degree, ready =>
      match degree.lookup x with
      | some (k + 1) => release xs (degree.insert x k) (if k = 0 then ready ++ [x] else ready)
      | _ => none

/-- Take ready nodes until there is none. -/
def run (sort : List α → Option (List α)) (succ : α → List α) :
    ℕ → HashMap α ℕ → List α → Option (List α)
  | 0, _, _ => none
  | fuel + 1, degree, ready =>
      if ready = [] then some []
      else
        match sort ready with
        | some (current :: rest) =>
            (release (succ current) degree rest).bind
              (fun s => (run sort succ fuel s.1 s.2).map (fun out => current :: out))
        | _ => none

/-! ## §2. Greedy lists. -/

/-- Every element of a list comes after all that it needs. -/
def Respects {α : Type*} (needs : α → α → Prop) (l : List α) : Prop :=
  ∀ pre b post, l = pre ++ b :: post → ∀ a, needs b a → a ∈ pre

omit [DecidableEq α] in
theorem respects_append {needs : α → α → Prop} {l l' : List α} :
    Respects needs (l ++ l') ↔ Respects needs l ∧
      ∀ pre b post, l' = pre ++ b :: post → ∀ a, needs b a → a ∈ l ++ pre := by
  constructor
  · intro h
    constructor
    · intro pre b post heq a ha
      exact h pre b (post ++ l') (by rw [heq]; simp) a ha
    · intro pre b post heq a ha
      exact h (l ++ pre) b post (by rw [heq]; simp) a ha
  · rintro ⟨h, h'⟩ pre b post heq a ha
    obtain ⟨mid, rfl, hl'⟩ | ⟨mid, hl, hpost⟩ := List.append_eq_append_iff.mp heq
    · exact h' mid b post hl' a ha
    · cases mid with
      | nil =>
          rw [List.append_nil] at hl
          have hmem := h' [] b post hpost.symm a ha
          rw [List.append_nil, hl] at hmem
          exact hmem
      | cons c mid =>
          obtain ⟨rfl, _⟩ := List.cons.inj hpost
          exact h pre b mid hl a ha

omit [DecidableEq α] in
/-- An acyclic relation has a source in every set that is not empty. -/
theorem exists_source {edge : α → α → Prop} (hacyclic : ∀ x, ¬ TransGen edge x x)
    {S : Finset α} (hS : S.Nonempty) : ∃ x ∈ S, ∀ p ∈ S, ¬ edge p x := by
  let before : S → S → Prop := fun p x => TransGen edge p.1 x.1
  have htrans : IsTrans S before := ⟨fun _ _ _ => TransGen.trans⟩
  have hirrefl : Std.Irrefl before := ⟨fun x => hacyclic x.1⟩
  have hwf : WellFounded before := Finite.wellFounded_of_trans_of_irrefl before
  obtain ⟨a, ha⟩ := hS
  obtain ⟨x, _, hmin⟩ := hwf.has_min Set.univ ⟨⟨a, ha⟩, trivial⟩
  exact ⟨x.1, x.2, fun p hp hedge => hmin ⟨p, hp⟩ trivial (TransGen.single hedge)⟩

/-- A node that is not taken, while all its predecessors are. -/
def Available (nodes : Finset α) (edge : α → α → Prop) (D : Finset α) (x : α) : Prop :=
  x ∈ nodes ∧ x ∉ D ∧ ∀ p ∈ nodes, edge p x → p ∈ D

/-- The lists that take, from the nodes outside `D`, a least available one at a time. -/
inductive Greedy (nodes : Finset α) (edge le : α → α → Prop) : Finset α → List α → Prop
  | done {D : Finset α} (hall : ∀ x ∈ nodes, x ∈ D) : Greedy nodes edge le D []
  | take {D : Finset α} {x : α} {out : List α} (havailable : Available nodes edge D x)
      (hleast : ∀ y, Available nodes edge D y → le x y)
      (hrest : Greedy nodes edge le (insert x D) out) : Greedy nodes edge le D (x :: out)

namespace Greedy

variable {nodes D : Finset α} {edge le : α → α → Prop} {out : List α}

theorem mem_iff (h : Greedy nodes edge le D out) (x : α) : x ∈ out ↔ x ∈ nodes ∧ x ∉ D := by
  induction h with
  | done hall => simpa using hall x
  | @take D y out havailable _ _ ih =>
      rw [List.mem_cons, ih, Finset.mem_insert]
      constructor
      · intro hx
        obtain rfl | hx := hx
        · exact ⟨havailable.1, havailable.2.1⟩
        · exact ⟨hx.1, fun hD => hx.2 (Or.inr hD)⟩
      · intro hx
        by_cases hxy : x = y
        · exact Or.inl hxy
        · exact Or.inr ⟨hx.1, fun hor => hor.elim hxy hx.2⟩

theorem nodup (h : Greedy nodes edge le D out) : out.Nodup := by
  induction h with
  | done => exact List.nodup_nil
  | take _ _ hrest ih =>
      rw [List.nodup_cons, hrest.mem_iff]
      exact ⟨fun hx => hx.2 (Finset.mem_insert_self _ _), ih⟩

/-- At each element of a greedy list: its predecessors came before, and it is least among
what was available. -/
theorem split (h : Greedy nodes edge le D out) {pre post : List α} {x : α}
    (heq : out = pre ++ x :: post) :
    (∀ p ∈ nodes, edge p x → p ∈ D ∨ p ∈ pre) ∧
      ∀ y ∈ nodes, y ∉ D → y ∉ pre → (∀ p ∈ nodes, edge p y → p ∈ D ∨ p ∈ pre) → le x y := by
  induction h generalizing pre with
  | done => exact absurd heq.symm (List.append_ne_nil_of_right_ne_nil _ (List.cons_ne_nil _ _))
  | @take D z out havailable hleast _ ih =>
      cases pre with
      | nil =>
          obtain ⟨rfl, rfl⟩ := List.cons.inj heq
          refine ⟨fun p hp hedge => Or.inl (havailable.2.2 p hp hedge), ?_⟩
          intro y hy hD _ hpred
          refine hleast y ⟨hy, hD, fun p hp hedge => ?_⟩
          exact (hpred p hp hedge).resolve_right List.not_mem_nil
      | cons z' pre =>
          rw [List.cons_append, List.cons.injEq] at heq
          obtain ⟨rfl, heq⟩ := heq
          have hmem : ∀ p, p ∈ insert z D ∨ p ∈ pre ↔ p ∈ D ∨ p ∈ z :: pre := by
            intro p
            rw [Finset.mem_insert, List.mem_cons]
            tauto
          obtain ⟨hpred, hle⟩ := ih heq
          refine ⟨fun p hp hedge => (hmem p).mp (hpred p hp hedge), ?_⟩
          intro y hy hD hpre hypred
          have hnot : y ∉ insert z D ∧ y ∉ pre := by
            rw [← not_or, hmem y]
            exact not_or.mpr ⟨hD, hpre⟩
          exact hle y hy hnot.1 hnot.2 (fun p hp hedge => (hmem p).mpr (hypred p hp hedge))

/-- A node is taken before a lesser one only if a predecessor of the lesser one, whose own
predecessors are all taken, comes later. -/
theorem exists_blocker (htrans : ∀ x y z, edge x y → edge y z → edge x z)
    (hirrefl : ∀ x, ¬ edge x x) (h : Greedy nodes edge le ∅ out) {pre post : List α} {a b : α}
    (heq : out = pre ++ b :: post) (ha : a ∈ nodes) (hpre : a ∉ pre) (hle : ¬ le b a) :
    ∃ x ∈ nodes, x ∉ pre ∧ edge x a ∧ le b x := by
  classical
  obtain ⟨_, hleast⟩ := h.split heq
  -- otherwise the lesser one would have been available
  have hblocked : (nodes.filter (fun p => p ∉ pre ∧ edge p a)).Nonempty := by
    by_contra hempty
    rw [Finset.not_nonempty_iff_eq_empty, Finset.filter_eq_empty_iff] at hempty
    refine hle (hleast a ha (Finset.notMem_empty a) hpre fun p hp hedge => Or.inr ?_)
    by_contra hpre'
    exact hempty hp ⟨hpre', hedge⟩
  have hacyclic : ∀ x, ¬ TransGen edge x x := by
    have hedge : ∀ x y, TransGen edge x y → edge x y := by
      intro x y hxy
      induction hxy with
      | single hstep => exact hstep
      | tail _ hstep ih => exact htrans _ _ _ ih hstep
    exact fun x hx => hirrefl x (hedge x x hx)
  obtain ⟨x, hx, hsource⟩ := exists_source hacyclic hblocked
  obtain ⟨hxnodes, hxpre, hxa⟩ := Finset.mem_filter.mp hx
  refine ⟨x, hxnodes, hxpre, hxa, hleast x hxnodes (Finset.notMem_empty x) hxpre ?_⟩
  intro p hp hpx
  right
  by_contra hppre
  exact hsource p (Finset.mem_filter.mpr ⟨hp, hppre, htrans p x a hpx hxa⟩) hpx

/-- A node without predecessors is taken before a node that has a greater predecessor. -/
theorem mem_of_blocked (h : Greedy nodes edge le ∅ out) {pre post : List α} {a b x : α}
    (heq : out = pre ++ a :: post) (hb : b ∈ nodes) (hfree : ∀ p, ¬ edge p b) (hx : x ∈ nodes)
    (hxa : edge x a) (hle : ¬ le x b) : b ∈ pre := by
  have hxpre := ((h.split heq).1 x hx hxa).resolve_left (Finset.notMem_empty x)
  obtain ⟨pre', mid, hpre⟩ := List.append_of_mem hxpre
  have heq' : out = pre' ++ x :: (mid ++ a :: post) := by
    rw [heq, hpre]
    simp
  by_contra hbpre
  refine hle ((h.split heq').2 b hb (Finset.notMem_empty b) (fun hmem => hbpre ?_)
    fun p _ hedge => absurd hedge (hfree p))
  rw [hpre]
  exact List.mem_append_left _ hmem

/-- **One greedy list**, when distinct nodes are never equal in the order. -/
theorem unique {out' : List α} (hanti : ∀ x ∈ nodes, ∀ y ∈ nodes, le x y → le y x → x = y)
    (h : Greedy nodes edge le D out) (h' : Greedy nodes edge le D out') : out = out' := by
  induction h generalizing out' with
  | done hall =>
      cases h' with
      | done => rfl
      | take havailable _ _ => exact absurd (hall _ havailable.1) havailable.2.1
  | @take D x out havailable hleast hrest ih =>
      cases h' with
      | done hall => exact absurd (hall _ havailable.1) havailable.2.1
      | @take _ y out' havailable' hleast' hrest' =>
          have hxy : x = y := hanti x havailable.1 y havailable'.1
            (hleast y havailable') (hleast' x havailable)
          subst hxy
          rw [ih hrest']

/-- Renaming the nodes. -/
theorem map {β : Type u} [DecidableEq β] {f : α → β} {edge' le' : β → β → Prop}
    (hinj : Set.InjOn f nodes) (hD : D ⊆ nodes)
    (hedge : ∀ x ∈ nodes, ∀ y ∈ nodes, edge' (f x) (f y) ↔ edge x y)
    (hle : ∀ x ∈ nodes, ∀ y ∈ nodes, le x y → le' (f x) (f y))
    (h : Greedy nodes edge le D out) :
    Greedy (nodes.image f) edge' le' (D.image f) (out.map f) := by
  have hmem : ∀ {D : Finset α}, D ⊆ nodes → ∀ x ∈ nodes, f x ∈ D.image f ↔ x ∈ D := by
    intro D hD x hx
    rw [Finset.mem_image]
    constructor
    · rintro ⟨y, hy, heq⟩
      rw [← hinj (hD hy) hx heq]
      exact hy
    · exact fun hx => ⟨x, hx, rfl⟩
  -- a node is available exactly if its image is
  have havail : ∀ {D : Finset α}, D ⊆ nodes → ∀ x ∈ nodes,
      Available (nodes.image f) edge' (D.image f) (f x) ↔ Available nodes edge D x := by
    intro D hD x hx
    unfold Available
    rw [hmem hD x hx, hmem (Finset.Subset.refl nodes) x hx, Finset.forall_mem_image]
    refine and_congr_right fun _ => and_congr_right fun _ => forall₂_congr fun p hp => ?_
    rw [hedge p hp x hx, hmem hD p hp]
  induction h with
  | done hall =>
      apply Greedy.done
      rw [Finset.forall_mem_image]
      exact fun x hx => Finset.mem_image_of_mem f (hall x hx)
  | @take D x out havailable hleast _ ih =>
      apply Greedy.take
      · exact (havail hD x havailable.1).mpr havailable
      · intro y hy
        obtain ⟨z, hz, rfl⟩ := Finset.mem_image.mp hy.1
        exact hle x havailable.1 z hz (hleast z ((havail hD z hz).mp hy))
      · rw [← Finset.image_insert]
        exact ih (Finset.insert_subset havailable.1 hD)

end Greedy

/-! ## §3. The degrees. -/

theorem release_spec {xs : List α} {degree : HashMap α ℕ} (hnd : xs.Nodup)
    (hpos : ∀ x ∈ xs, ∃ k, degree.lookup x = some (k + 1)) (ready : List α) :
    ∃ degree', release xs degree ready =
        some (degree', ready ++ xs.filter (fun x => decide (degree.lookup x = some 1))) ∧
      ∀ y, degree'.lookup y =
        if y ∈ xs then (degree.lookup y).map (fun k => k - 1) else degree.lookup y := by
  induction xs generalizing degree ready with
  | nil => exact ⟨degree, by simp [release], fun y => by simp⟩
  | cons x xs ih =>
      rw [List.nodup_cons] at hnd
      obtain ⟨k, hk⟩ := hpos x List.mem_cons_self
      -- the degrees of the other successors are still what they were
      have hother : ∀ y ∈ xs, (degree.insert x k).lookup y = degree.lookup y := fun y hy => by
        apply AList.lookup_insert_ne
        intro heq
        rw [heq] at hy
        exact hnd.1 hy
      have hpos' : ∀ y ∈ xs, ∃ k', (degree.insert x k).lookup y = some (k' + 1) := fun y hy => by
        rw [hother y hy]
        exact hpos y (List.mem_cons_of_mem _ hy)
      obtain ⟨degree', hrun, hdegree⟩ :=
        ih hnd.2 hpos' (if k = 0 then ready ++ [x] else ready)
      have hfilter : xs.filter (fun y => decide ((degree.insert x k).lookup y = some 1)) =
          xs.filter (fun y => decide (degree.lookup y = some 1)) :=
        List.filter_congr fun y hy => by rw [hother y hy]
      refine ⟨degree', ?_, fun y => ?_⟩
      · unfold release
        rw [hk]
        show release xs (degree.insert x k) _ = _
        rw [hrun, hfilter, List.filter_cons, hk]
        by_cases hk0 : k = 0
        · simp [hk0]
        · simp [hk0]
      · rw [hdegree y]
        by_cases hyx : y = x
        · subst hyx
          simp [hnd.1, hk]
        · rw [AList.lookup_insert_ne hyx]
          simp only [List.mem_cons, hyx, false_or]

/-- The degrees count the predecessors outside `D`, and the ready nodes are those
available. -/
structure Counts (nodes : Finset α) (succ : α → List α) (D : Finset α) (degree : HashMap α ℕ)
    (ready : List α) : Prop where
  subset : D ⊆ nodes
  closed : ∀ x ∈ D, ∀ p ∈ nodes, x ∈ succ p → p ∈ D
  degree : ∀ x ∈ nodes, x ∉ D →
    degree.lookup x = some ((nodes \ D).filter (fun p => x ∈ succ p)).card
  ready_nodup : ready.Nodup
  mem_ready : ∀ x, x ∈ ready ↔ Available nodes (fun p x => x ∈ succ p) D x

section

variable {nodes D : Finset α} {succ : α → List α} {degree : HashMap α ℕ} {ready : List α}
  {sort : List α → Option (List α)} {le : α → α → Prop}

/-- Available nodes are those of degree zero. -/
theorem available_iff {x : α} :
    Available nodes (fun p x => x ∈ succ p) D x ↔
      x ∈ nodes ∧ x ∉ D ∧ ((nodes \ D).filter (fun p => x ∈ succ p)).card = 0 := by
  unfold Available
  refine and_congr_right fun _ => and_congr_right fun _ => ?_
  rw [Finset.card_eq_zero, Finset.filter_eq_empty_iff]
  refine ⟨fun h p hp hx => ?_, fun h p hp hx => ?_⟩
  · rw [Finset.mem_sdiff] at hp
    exact hp.2 (h p hp.1 hx)
  · by_contra hD
    exact h (Finset.mem_sdiff.mpr ⟨hp, hD⟩) hx

/-- Taking a node lowers the count of its successors by one. -/
theorem card_insert (succ : α → List α) {current : α} (hcurrent : current ∈ nodes)
    (hnot : current ∉ D) (y : α) :
    ((nodes \ D).filter (fun p => y ∈ succ p)).card =
      ((nodes \ insert current D).filter (fun p => y ∈ succ p)).card +
        if y ∈ succ current then 1 else 0 := by
  have hsplit : nodes \ D = insert current (nodes \ insert current D) := by
    ext p
    simp only [Finset.mem_sdiff, Finset.mem_insert]
    by_cases hp : p = current
    · subst hp
      simp [hcurrent, hnot]
    · simp [hp]
  have hfresh : current ∉ (nodes \ insert current D).filter (fun p => y ∈ succ p) := by
    simp
  rw [hsplit, Finset.filter_insert]
  split
  · rw [Finset.card_insert_of_notMem hfresh]
  · rfl

/-- **One round of the loop.** -/
theorem Counts.step (h : Counts nodes succ D degree ready) (hsucc : ∀ x ∈ nodes, (succ x).Nodup)
    (hnodes : ∀ x ∈ nodes, ∀ y ∈ succ x, y ∈ nodes) {current : α} {rest : List α}
    (hperm : (current :: rest).Perm ready) :
    ∃ degree' ready', release (succ current) degree rest = some (degree', ready') ∧
      Counts nodes succ (insert current D) degree' ready' := by
  have hready : ∀ x, x ∈ ready ↔ x = current ∨ x ∈ rest := fun x => by
    rw [← hperm.mem_iff, List.mem_cons]
  have hnd := hperm.nodup_iff.mpr h.ready_nodup
  rw [List.nodup_cons] at hnd
  have hcurrent := (h.mem_ready current).mp ((hready current).mpr (Or.inl rfl))
  -- a node that is available is not its own successor
  have hself : current ∉ succ current := fun hmem =>
    hcurrent.2.1 (hcurrent.2.2 current hcurrent.1 hmem)
  have hfresh : ∀ y ∈ succ current, y ∉ D := fun y hy hD =>
    hcurrent.2.1 (h.closed y hD current hcurrent.1 hy)
  -- one predecessor less is missing for each successor
  have hcount := card_insert succ hcurrent.1 hcurrent.2.1
  have hpos : ∀ y ∈ succ current, ∃ k, degree.lookup y = some (k + 1) := fun y hy => by
    rw [h.degree y (hnodes current hcurrent.1 y hy) (hfresh y hy), hcount y, if_pos hy]
    exact ⟨_, rfl⟩
  obtain ⟨degree', hrelease, hdegree⟩ := release_spec (hsucc current hcurrent.1) hpos rest
  refine ⟨degree', _, hrelease, ?_, ?_, ?_, ?_, ?_⟩
  · exact Finset.insert_subset hcurrent.1 h.subset
  · intro x hx p hp hedge
    obtain rfl | hx := Finset.mem_insert.mp hx
    · exact Finset.mem_insert_of_mem (hcurrent.2.2 p hp hedge)
    · exact Finset.mem_insert_of_mem (h.closed x hx p hp hedge)
  · intro x hx hnot
    rw [Finset.mem_insert, not_or] at hnot
    rw [hdegree x, h.degree x hx hnot.2, hcount x]
    split
    · rfl
    · rfl
  · rw [List.nodup_append]
    refine ⟨hnd.2, (hsucc current hcurrent.1).filter _, fun a ha b hb heq => ?_⟩
    rw [List.mem_filter, ← heq] at hb
    have havailable := (h.mem_ready a).mp ((hready a).mpr (Or.inr ha))
    exact hcurrent.2.1 (havailable.2.2 current hcurrent.1 hb.1)
  · intro x
    rw [List.mem_append, List.mem_filter, available_iff]
    by_cases hxc : x = current
    · subst hxc
      simp [hnd.1, hself]
    · have hrest : x ∈ rest ↔ Available nodes (fun p x => x ∈ succ p) D x := by
        rw [← h.mem_ready, hready]
        simp [hxc]
      rw [hrest, available_iff, hcount x, Finset.mem_insert]
      by_cases hx : x ∈ succ current
      · have hxn := hnodes current hcurrent.1 x hx
        rw [h.degree x hxn (hfresh x hx), hcount x]
        simp [hx, hxn, hfresh x hx, hxc]
      · simp [hx, hxc]

/-- **The loop returns a greedy list.** -/
theorem run_greedy (hsucc : ∀ x ∈ nodes, (succ x).Nodup)
    (hnodes : ∀ x ∈ nodes, ∀ y ∈ succ x, y ∈ nodes)
    (hacyclic : ∀ x, ¬ TransGen (fun p x => x ∈ succ p) x x)
    (hsort : ∀ l, (∀ x ∈ l, x ∈ nodes) → l.Nodup →
      ∃ l', sort l = some l' ∧ l'.Perm l ∧ l'.Pairwise le) (hrefl : ∀ x ∈ nodes, le x x)
    {fuel : ℕ} (h : Counts nodes succ D degree ready) (hfuel : (nodes \ D).card < fuel) :
    ∃ out, run sort succ fuel degree ready = some out ∧
      Greedy nodes (fun p x => x ∈ succ p) le D out := by
  induction fuel generalizing D degree ready with
  | zero => exact absurd hfuel (Nat.not_lt_zero _)
  | succ fuel ih =>
      unfold run
      by_cases hnil : ready = []
      · rw [if_pos hnil]
        refine ⟨[], rfl, Greedy.done fun x hx => ?_⟩
        by_contra hnot
        -- a source of what is left is available
        obtain ⟨y, hy, hsource⟩ := exists_source hacyclic ⟨x, Finset.mem_sdiff.mpr ⟨hx, hnot⟩⟩
        rw [Finset.mem_sdiff] at hy
        have havailable : Available nodes (fun p x => x ∈ succ p) D y := by
          refine ⟨hy.1, hy.2, fun p hp hedge => ?_⟩
          by_contra hD
          exact hsource p (Finset.mem_sdiff.mpr ⟨hp, hD⟩) hedge
        rw [← h.mem_ready, hnil] at havailable
        exact List.not_mem_nil havailable
      · rw [if_neg hnil]
        have hmem : ∀ x ∈ ready, x ∈ nodes := fun x hx => ((h.mem_ready x).mp hx).1
        obtain ⟨sorted, hsorted, hperm, hpairwise⟩ := hsort ready hmem h.ready_nodup
        cases sorted with
        | nil => exact absurd hperm.nil_eq.symm hnil
        | cons current rest =>
            rw [hsorted]
            obtain ⟨degree', ready', hrelease, hcounts⟩ := h.step hsucc hnodes hperm
            have hcurrent : current ∈ ready := hperm.mem_iff.mp List.mem_cons_self
            have havailable := (h.mem_ready current).mp hcurrent
            have hless : (nodes \ insert current D).card < fuel := by
              have hlt : (nodes \ insert current D).card < (nodes \ D).card := by
                apply Finset.card_lt_card
                rw [Finset.ssubset_iff_of_subset
                  (Finset.sdiff_subset_sdiff (Finset.Subset.refl _) (Finset.subset_insert _ _))]
                exact ⟨current, Finset.mem_sdiff.mpr ⟨havailable.1, havailable.2.1⟩, by simp⟩
              omega
            obtain ⟨out, hout, hgreedy⟩ := ih hcounts hless
            refine ⟨current :: out, ?_, Greedy.take havailable ?_ hgreedy⟩
            · show (release (succ current) degree rest).bind _ = _
              rw [hrelease, Option.bind_some, hout]
              rfl
            · intro y hy
              have hymem := hperm.mem_iff.mpr ((h.mem_ready y).mpr hy)
              obtain rfl | hymem := List.mem_cons.mp hymem
              · exact hrefl y hy.1
              · exact (List.pairwise_cons.mp hpairwise).1 y hymem

end

end Mrv.Kahn
