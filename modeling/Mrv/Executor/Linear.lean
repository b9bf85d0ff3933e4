/-
  Mrv.Executor.Linear — `sort_batch` linearises the verdict graph.

  `find_scc` finds the strongly connected components of the verdicts
  (`findScc_spec`), the component graph is their condensation
  (`componentGraph_spec`), and the loop over the ready components takes a least
  available component at a time.  `Linearises` puts this together in terms of the
  verdicts alone, and leaves one list of blocks (`Linearises.unique`).
-/
import Mrv.Executor.Components
import Mrv.Executor.Stages

namespace Mrv

open Relation (ReflTransGen TransGen)

namespace MrvExecutor

variable {core : MrvExecutor} {s : State} {σ : HashOrder} {a b : Digest}

/-! ## §1. The components. -/

/-- Two digests reach each other along verdicts. -/
def Strong (core : MrvExecutor) (s : State) (l : List Digest) (a b : Digest) : Prop :=
  ReflTransGen (core.Verdict s l) a b ∧ ReflTransGen (core.Verdict s l) b a

theorem Strong.refl (core : MrvExecutor) (s : State) (l : List Digest) (a : Digest) :
    core.Strong s l a a := ⟨ReflTransGen.refl, ReflTransGen.refl⟩

/-- The strongly connected components of the verdicts between the digests of `l`. -/
structure Scc (core : MrvExecutor) (s : State) (l : List Digest) (cs : List (List Digest)) :
    Prop where
  nodup : cs.flatten.Nodup
  mem_flatten : ∀ x, x ∈ cs.flatten ↔ x ∈ l
  ne_nil : ∀ c ∈ cs, c ≠ []
  mem_iff : ∀ c ∈ cs, ∀ x ∈ c, ∀ y, y ∈ c ↔ y ∈ l ∧ core.Strong s l x y

/-- **`find_scc` finds the strongly connected components.** -/
theorem findScc_spec {nodes : List Digest} {graph : Graph}
    (hedge : ∀ x y, graph.Edge x y ↔ core.Verdict s nodes x y) :
    ∃ cs, s.findScc σ nodes graph = some cs ∧ core.Scc s nodes cs := by
  obtain ⟨cs, hcs, hcomponents, _⟩ := findScc_components (s := s) (σ := σ)
    (fun x y hxy => ⟨((hedge x y).mp hxy).1, ((hedge x y).mp hxy).2.1⟩)
  have hrel : graph.Edge = core.Verdict s nodes := by
    funext x y
    exact propext (hedge x y)
  refine ⟨cs, hcs, hcomponents.nodup, fun x => ?_, hcomponents.ne_nil, fun c hc x hx y => ?_⟩
  · rw [hcomponents.mem_flatten]
    simp
  · rw [hcomponents.mem_iff c hc x hx, mutual_iff_reaches]
    unfold Graph.Reaches Strong
    rw [hrel]

/-! ## §2. The component graph. -/

/-- The component of a digest. -/
def InComponent (cs : List (List Digest)) (d : Digest) (i : ℕ) : Prop :=
  ∃ c, cs[i]? = some c ∧ d ∈ c

theorem InComponent.lt {cs : List (List Digest)} {d : Digest} {i : ℕ} (h : InComponent cs d i) :
    i < cs.length := by
  obtain ⟨c, hc, _⟩ := h
  exact (List.getElem?_eq_some_iff.mp hc).1

/-- Each digest is in one component. -/
theorem InComponent.unique {cs : List (List Digest)} (hnd : cs.flatten.Nodup) {d : Digest}
    {i j : ℕ} (hi : InComponent cs d i) (hj : InComponent cs d j) : i = j := by
  have hdisjoint := (List.nodup_flatten.mp hnd).2
  rw [List.pairwise_iff_getElem] at hdisjoint
  have hlt : ∀ {i j : ℕ}, InComponent cs d i → InComponent cs d j → ¬ i < j := by
    rintro i j ⟨c, hc, hd⟩ ⟨c', hc', hd'⟩ hij
    obtain ⟨hi, rfl⟩ := List.getElem?_eq_some_iff.mp hc
    obtain ⟨hj, rfl⟩ := List.getElem?_eq_some_iff.mp hc'
    exact hdisjoint i j hi hj hij hd hd'
  exact le_antisymm (not_lt.mp (hlt hj hi)) (not_lt.mp (hlt hi hj))

theorem lookup_nodeToComponent {cs : List (List Digest)} (hnd : cs.flatten.Nodup) {d : Digest}
    {i : ℕ} : (nodeToComponent cs).lookup d = some i ↔ InComponent cs d i := by
  have hmem : ∀ j, (d, j) ∈ cs.zipIdx.flatMap (fun c => c.1.map (fun digest => (digest, c.2))) ↔
      InComponent cs d j := by
    intro j
    simp only [List.mem_flatMap, List.mem_map, Prod.mk.injEq, Prod.exists,
      List.mk_mem_zipIdx_iff_getElem?]
    constructor
    · rintro ⟨c, k, hc, d', hd', rfl, rfl⟩
      exact ⟨c, hc, hd'⟩
    · rintro ⟨c, hc, hd⟩
      exact ⟨c, j, hc, d, hd, rfl, rfl⟩
  constructor
  · exact fun h => (hmem i).mp (AList.mem_of_lookup_collect h)
  · intro h
    have hsome : ((nodeToComponent cs).lookup d).isSome :=
      AList.lookup_collect_isSome ((hmem i).mpr h)
    obtain ⟨j, hj⟩ := Option.isSome_iff_exists.mp hsome
    rw [hj, ((hmem j).mp (AList.mem_of_lookup_collect hj)).unique hnd h]

/-- Some edge of the list leads from one component to the other. -/
def Crosses (cs : List (List Digest)) (es : List (Digest × Digest)) (i j : ℕ) : Prop :=
  i ≠ j ∧ ∃ e ∈ es, InComponent cs e.1 i ∧ InComponent cs e.2 j

/-- The component graph of a list of edges, with its indegrees. -/
structure Condensed (cs : List (List Digest)) (es : List (Digest × Digest))
    (acc : ComponentGraph) : Prop where
  keys : ∀ i, acc.graph.lookup i ≠ none ↔ i < cs.length
  edge : ∀ i < cs.length, ∀ j, j ∈ (acc.graph.lookup i).getD ∅ ↔ Crosses cs es i j
  degrees : ∀ j, acc.indegree.lookup j ≠ none ↔ j < cs.length
  indegree : ∀ j < cs.length, acc.indegree.lookup j =
    some ((Finset.range cs.length).filter (fun i => j ∈ (acc.graph.lookup i).getD ∅)).card

theorem crosses_concat {cs : List (List Digest)} (hnd : cs.flatten.Nodup)
    {es : List (Digest × Digest)} {e : Digest × Digest} {i j : ℕ} (hi : InComponent cs e.1 i)
    (hj : InComponent cs e.2 j) (i' j' : ℕ) :
    Crosses cs (es ++ [e]) i' j' ↔ Crosses cs es i' j' ∨ i' ≠ j' ∧ i' = i ∧ j' = j := by
  unfold Crosses
  simp only [List.mem_append, List.mem_singleton]
  constructor
  · rintro ⟨hne, e', he' | rfl, h1, h2⟩
    · exact Or.inl ⟨hne, e', he', h1, h2⟩
    · exact Or.inr ⟨hne, h1.unique hnd hi, h2.unique hnd hj⟩
  · rintro (⟨hne, e', he', h1, h2⟩ | ⟨hne, rfl, rfl⟩)
    · exact ⟨hne, e', Or.inl he', h1, h2⟩
    · exact ⟨hne, e, Or.inr rfl, hi, hj⟩

/-- A new successor of a component. -/
theorem mem_insert_successor {graph : HashMap ℕ (Finset ℕ)} {i j : ℕ} {targets : Finset ℕ}
    (htargets : graph.lookup i = some targets) (i' j' : ℕ) :
    j' ∈ ((graph.insert i (insert j targets)).lookup i').getD ∅ ↔
      j' ∈ (graph.lookup i').getD ∅ ∨ i' = i ∧ j' = j := by
  rw [AList.lookup_insert_eq_ite]
  split
  · next heq =>
    subst heq
    rw [htargets, Option.getD_some, Option.getD_some, Finset.mem_insert]
    tauto
  · next hne => simp [hne]

/-- A key that is there already is the only one inserted. -/
theorem lookup_insert_ne_none {V : Type} {m : HashMap ℕ V} {n i : ℕ} {v : V} (hi : i < n)
    (h : ∀ k, m.lookup k ≠ none ↔ k < n) (k : ℕ) : (m.insert i v).lookup k ≠ none ↔ k < n := by
  rw [AList.lookup_insert_eq_ite]
  split
  · next heq => simp [heq, hi]
  · exact h k

/-- One more predecessor raises the indegree by one. -/
theorem card_insert_predecessor {n i : ℕ} (hi : i < n) {P : ℕ → Prop} [DecidablePred P]
    (hP : ¬ P i) : ((Finset.range n).filter (fun k => P k ∨ k = i)).card =
      ((Finset.range n).filter P).card + 1 := by
  have hsplit : (Finset.range n).filter (fun k => P k ∨ k = i) =
      insert i ((Finset.range n).filter P) := by
    ext k
    rw [Finset.mem_insert, Finset.mem_filter, Finset.mem_filter, Finset.mem_range]
    constructor
    · rintro ⟨hk, hold | rfl⟩
      · exact Or.inr ⟨hk, hold⟩
      · exact Or.inl rfl
    · rintro (rfl | ⟨hk, hold⟩)
      · exact ⟨hi, Or.inr rfl⟩
      · exact ⟨hk, Or.inl hold⟩
  rw [hsplit, Finset.card_insert_of_notMem]
  rw [Finset.mem_filter]
  exact fun hmem => hP hmem.2

/-- A first edge from one component to another. -/
theorem Condensed.insert {cs : List (List Digest)} (hnd : cs.flatten.Nodup)
    {es : List (Digest × Digest)} {acc : ComponentGraph} (h : Condensed cs es acc)
    {e : Digest × Digest} {i j : ℕ} (hi : InComponent cs e.1 i) (hj : InComponent cs e.2 j)
    (hij : i ≠ j) {targets : Finset ℕ} (htargets : acc.graph.lookup i = some targets)
    (hnew : j ∉ targets) {degree : ℕ} (hdegree : acc.indegree.lookup j = some degree) :
    Condensed cs (es ++ [e])
      { graph := acc.graph.insert i (insert j targets)
        indegree := acc.indegree.insert j (degree + 1) } := by
  refine ⟨lookup_insert_ne_none hi.lt h.keys, fun i' hi' j' => ?_,
    lookup_insert_ne_none hj.lt h.degrees, fun j' hj' => ?_⟩
  · rw [mem_insert_successor htargets, h.edge i' hi' j', crosses_concat hnd hi hj]
    apply or_congr_right
    constructor
    · rintro ⟨rfl, rfl⟩
      exact ⟨hij, rfl, rfl⟩
    · exact fun h => h.2
  · simp only [mem_insert_successor htargets]
    rw [AList.lookup_insert_eq_ite]
    split
    · next heq =>
      -- one more component leads to this one
      subst heq
      have hold : ¬ j' ∈ (acc.graph.lookup i).getD ∅ := by
        rw [htargets]
        exact hnew
      rw [h.indegree j' hj', Option.some.injEq] at hdegree
      simp only [and_true]
      rw [card_insert_predecessor hi.lt hold, hdegree]
    · next hne =>
      rw [h.indegree j' hj']
      simp [hne]

theorem Condensed.add {cs : List (List Digest)} (hnd : cs.flatten.Nodup)
    {es : List (Digest × Digest)} {acc : ComponentGraph} (h : Condensed cs es acc)
    {e : Digest × Digest} {i j : ℕ} (hi : InComponent cs e.1 i) (hj : InComponent cs e.2 j) :
    ∃ acc', addComponentEdge (nodeToComponent cs) acc e = some acc' ∧
      Condensed cs (es ++ [e]) acc' := by
  unfold addComponentEdge
  rw [(lookup_nodeToComponent hnd).mpr hi, (lookup_nodeToComponent hnd).mpr hj]
  dsimp only
  by_cases hij : i = j
  · rw [if_pos hij]
    refine ⟨acc, rfl, h.keys, fun i' hi' j' => ?_, h.degrees, h.indegree⟩
    rw [h.edge i' hi' j', crosses_concat hnd hi hj, or_iff_left]
    rintro ⟨hne, rfl, rfl⟩
    exact hne hij
  · rw [if_neg hij]
    obtain ⟨targets, htargets⟩ := Option.ne_none_iff_exists'.mp ((h.keys i).mpr hi.lt)
    rw [htargets]
    dsimp only
    by_cases hin : j ∈ targets
    · rw [if_pos hin]
      have hmem := h.edge i hi.lt j
      rw [htargets, Option.getD_some] at hmem
      refine ⟨acc, rfl, h.keys, fun i' hi' j' => ?_, h.degrees, h.indegree⟩
      rw [h.edge i' hi' j', crosses_concat hnd hi hj, or_iff_left_of_imp]
      rintro ⟨_, rfl, rfl⟩
      exact hmem.mp hin
    · rw [if_neg hin, h.indegree j hj.lt]
      exact ⟨_, rfl, h.insert hnd hi hj hij htargets hin (h.indegree j hj.lt)⟩

/-- The graph before any edge is added. -/
theorem Condensed.start (cs : List (List Digest)) : Condensed cs []
    { graph := AList.collect ((List.range cs.length).map (fun i => (i, ∅)))
      indegree := AList.collect ((List.range cs.length).map (fun i => (i, 0))) } := by
  refine ⟨fun i => ?_, fun i hi j => ?_, fun i => ?_, fun j hj => ?_⟩
  · rw [AList.lookup_collect_const]
    simp
  · rw [AList.lookup_collect_const]
    simp [hi, Crosses]
  · rw [AList.lookup_collect_const]
    simp
  · simp only [AList.lookup_collect_const]
    rw [if_pos (List.mem_range.mpr hj), Finset.filter_false_of_mem, Finset.card_empty]
    intro i hi
    rw [if_pos (List.mem_range.mpr (Finset.mem_range.mp hi))]
    exact Finset.notMem_empty j

theorem exists_inComponent {cs : List (List Digest)} {d : Digest} (hd : d ∈ cs.flatten) :
    ∃ i, InComponent cs d i := by
  obtain ⟨c, hc, hdc⟩ := List.mem_flatten.mp hd
  obtain ⟨i, hi, rfl⟩ := List.getElem_of_mem hc
  exact ⟨i, cs[i], List.getElem?_eq_getElem hi, hdc⟩

/-- The loop over the edges. -/
theorem Condensed.foldlM {cs : List (List Digest)} (hnd : cs.flatten.Nodup)
    {es : List (Digest × Digest)} (hes : ∀ e ∈ es, e.1 ∈ cs.flatten ∧ e.2 ∈ cs.flatten)
    {done : List (Digest × Digest)} {acc : ComponentGraph} (h : Condensed cs done acc) :
    ∃ acc', es.foldlM (addComponentEdge (nodeToComponent cs)) acc = some acc' ∧
      Condensed cs (done ++ es) acc' := by
  induction es generalizing done acc with
  | nil => exact ⟨acc, rfl, by rwa [List.append_nil]⟩
  | cons e es ih =>
      rw [List.forall_mem_cons] at hes
      obtain ⟨i, hi⟩ := exists_inComponent hes.1.1
      obtain ⟨j, hj⟩ := exists_inComponent hes.1.2
      obtain ⟨acc', hacc', hcondensed⟩ := h.add hnd hi hj
      obtain ⟨acc'', hrun, hfinal⟩ := ih hes.2 hcondensed
      refine ⟨acc'', ?_, ?_⟩
      · rw [List.foldlM_cons, hacc']
        exact hrun
      · rw [List.append_assoc] at hfinal
        exact hfinal

/-- **The component graph is the condensation.** -/
theorem componentGraph_spec {graph : Graph} {cs : List (List Digest)} (hnd : cs.flatten.Nodup)
    (hkeys : ∀ d, graph.lookup d ≠ none → d ∈ cs.flatten)
    (hedge : ∀ x y, graph.Edge x y → x ∈ cs.flatten ∧ y ∈ cs.flatten) :
    ∃ acc, componentGraph σ graph cs = some acc ∧
      Condensed cs (edges σ .edges .edgesTo graph) acc := by
  have hall : graph.keys.all (fun source => ((nodeToComponent cs).lookup source).isSome) = true := by
    rw [List.all_eq_true]
    intro d hd
    rw [← AList.mem_keys, ← AList.lookup_isSome, Option.isSome_iff_ne_none] at hd
    obtain ⟨i, hi⟩ := exists_inComponent (hkeys d hd)
    rw [(lookup_nodeToComponent hnd).mpr hi]
    rfl
  have hes : ∀ e ∈ edges σ .edges .edgesTo graph, e.1 ∈ cs.flatten ∧ e.2 ∈ cs.flatten :=
    fun e he => hedge e.1 e.2 (mem_edges.mp he)
  obtain ⟨acc, hacc, hcondensed⟩ := (Condensed.start cs).foldlM hnd hes
  refine ⟨acc, ?_, hcondensed⟩
  unfold componentGraph
  dsimp only
  rw [if_pos hall]
  exact hacc

/-! ## §3. The loop over the ready components. -/

theorem mem_nextComponents {graph : HashMap ℕ (Finset ℕ)} {i j : ℕ} :
    j ∈ nextComponents σ graph i ↔ j ∈ (graph.lookup i).getD ∅ := by
  unfold nextComponents
  rw [List.mem_insertionSort, HashOrder.mem_visit, Finset.mem_sort]

theorem nextComponents_nodup (graph : HashMap ℕ (Finset ℕ)) (i : ℕ) :
    (nextComponents σ graph i).Nodup := by
  unfold nextComponents
  rw [(List.perm_insertionSort _ _).nodup_iff, (σ.perm _ _).nodup_iff]
  exact Finset.sort_nodup _ _

section

variable {l : List Digest} {cs : List (List Digest)} {i : ℕ}

theorem getElem?_eq_getD (hi : i < cs.length) : cs[i]? = some (cs.getD i []) := by
  rw [List.getD_eq_getElem cs [] hi]
  exact List.getElem?_eq_getElem hi

theorem getD_mem (hi : i < cs.length) : cs.getD i [] ∈ cs := by
  rw [List.getD_eq_getElem cs [] hi]
  exact List.getElem_mem hi

/-- The members of a component are in store. -/
theorem Scc.stored (hscc : core.Scc s l cs) (hstored : ∀ d ∈ l, Stored s d) (hi : i < cs.length) :
    ∀ d ∈ cs.getD i [], Stored s d := fun d hd =>
  hstored d ((hscc.mem_flatten d).mp (List.mem_flatten_of_mem (getD_mem hi) hd))

end

/-- The key of the least member of a component. -/
def blockKey (s : State) (c : List Digest) : ℕ ×ₗ PublicKey ×ₗ Digest :=
  s.tieKey ((minBy s.tieBreak c).getD Digest.default)

theorem blockKey_spec {c : List Digest} (hc : ∀ d ∈ c, Stored s d) (hne : c ≠ []) :
    ∃ m ∈ c, minBy s.tieBreak c = some m ∧ blockKey s c = s.tieKey m ∧
      ∀ d ∈ c, s.tieKey m ≤ s.tieKey d := by
  obtain ⟨m, hm, hmin, hle⟩ := minBy_spec (ordersBy_tieBreak hc) hne
  refine ⟨m, hm, hmin, ?_, hle⟩
  unfold blockKey
  rw [hmin, Option.getD_some]

section Loop

variable {cs : List (List Digest)} {acc : ComponentGraph} {graph : Graph} {l : List Digest}

theorem lt_of_mem_nextComponents {es : List (Digest × Digest)} (hacc : Condensed cs es acc)
    {i j : ℕ} (h : j ∈ nextComponents σ acc.graph i) : i < cs.length ∧ j < cs.length := by
  rw [mem_nextComponents] at h
  have hi : i < cs.length := by
    rw [← hacc.keys]
    intro hnone
    simp [hnone] at h
  obtain ⟨_, e, _, _, h2⟩ := (hacc.edge i hi j).mp h
  exact ⟨hi, h2.lt⟩

/-- The components of two digests that a path leads from and to. -/
theorem reaches_of_transGen (hscc : core.Scc s l cs)
    (hedge : ∀ x y, graph.Edge x y ↔ core.Verdict s l x y)
    (hacc : Condensed cs (edges σ .edges .edgesTo graph) acc) {i j : ℕ}
    (h : TransGen (fun p x => x ∈ nextComponents σ acc.graph p) i j) :
    ∀ a b, InComponent cs a i → InComponent cs b j → ReflTransGen (core.Verdict s l) a b := by
  have hwithin : ∀ {a b i}, InComponent cs a i → InComponent cs b i →
      ReflTransGen (core.Verdict s l) a b := by
    rintro a b i ⟨c, hc, ha⟩ ⟨c', hc', hb⟩
    obtain rfl : c = c' := Option.some.inj (hc.symm.trans hc')
    exact ((hscc.mem_iff c (List.mem_of_getElem? hc) a ha b).mp hb).2.1
  have hstep : ∀ {i j}, j ∈ nextComponents σ acc.graph i →
      ∀ a b, InComponent cs a i → InComponent cs b j → ReflTransGen (core.Verdict s l) a b := by
    intro i j hij a b ha hb
    rw [mem_nextComponents, hacc.edge i ha.lt j] at hij
    obtain ⟨_, e, he, h1, h2⟩ := hij
    have hverdict := (hedge e.1 e.2).mp (mem_edges.mp he)
    exact ((hwithin ha h1).tail hverdict).trans (hwithin h2 hb)
  induction h with
  | single hij => exact hstep hij
  | @tail j k hij hjk ih =>
      intro a b ha hb
      -- a component on the way is not empty
      have hj := (lt_of_mem_nextComponents hacc hjk).1
      have hcj : cs[j]? = some cs[j] := List.getElem?_eq_getElem hj
      obtain ⟨m, hm⟩ := List.exists_mem_of_ne_nil _ (hscc.ne_nil cs[j] (List.getElem_mem hj))
      have hmj : InComponent cs m j := ⟨cs[j], hcj, hm⟩
      exact (ih a m ha hmj).trans (hstep hjk m b hmj hb)

/-- The condensation is acyclic. -/
theorem condensation_acyclic (hscc : core.Scc s l cs)
    (hedge : ∀ x y, graph.Edge x y ↔ core.Verdict s l x y)
    (hacc : Condensed cs (edges σ .edges .edgesTo graph) acc) (i : ℕ) :
    ¬ TransGen (fun p x => x ∈ nextComponents σ acc.graph p) i i := by
  intro h
  obtain ⟨k, hik, hki⟩ := TransGen.head'_iff.mp h
  have hcross := hik
  rw [mem_nextComponents, hacc.edge i (lt_of_mem_nextComponents hacc hik).1 k] at hcross
  obtain ⟨hne, e, he, h1, h2⟩ := hcross
  have hforward : ReflTransGen (core.Verdict s l) e.1 e.2 :=
    reaches_of_transGen hscc hedge hacc (TransGen.single hik) _ _ h1 h2
  have hback : ReflTransGen (core.Verdict s l) e.2 e.1 := by
    obtain rfl | hki := ReflTransGen.cases_head_iff.mp hki
    · exact absurd rfl hne
    · obtain ⟨m, hkm, hmi⟩ := hki
      exact reaches_of_transGen hscc hedge hacc (TransGen.head'_iff.mpr ⟨m, hkm, hmi⟩) _ _ h2 h1
  obtain ⟨c, hc, hmem⟩ := h1
  have hsame := (hscc.mem_iff c (List.mem_of_getElem? hc) e.1 hmem e.2).mpr
    ⟨((hedge _ _).mp (mem_edges.mp he)).2.1, hforward, hback⟩
  exact hne (InComponent.unique hscc.nodup ⟨c, hc, hsame⟩ h2)

/-- At the start the indegrees count all predecessors. -/
theorem counts_start {es : List (Digest × Digest)} (hacc : Condensed cs es acc) :
    Kahn.Counts (Finset.range cs.length) (nextComponents σ acc.graph) ∅ acc.indegree
      (initiallyReady σ acc.indegree) := by
  have hdegree : ∀ j < cs.length, acc.indegree.lookup j = some
      ((Finset.range cs.length \ ∅).filter (fun i => j ∈ nextComponents σ acc.graph i)).card := by
    intro j hj
    rw [hacc.indegree j hj, Finset.sdiff_empty]
    simp only [mem_nextComponents]
  refine ⟨Finset.empty_subset _, by simp, fun j hj _ => hdegree j (Finset.mem_range.mp hj), ?_, ?_⟩
  · apply List.Nodup.filter
    rw [(σ.perm _ _).nodup_iff]
    exact acc.indegree.keys_nodup
  · intro j
    rw [Kahn.available_iff]
    unfold initiallyReady
    rw [List.mem_filter, HashOrder.mem_visit, ← AList.mem_keys, ← AList.lookup_isSome,
      Option.isSome_iff_ne_none, hacc.degrees, decide_eq_true_iff, Finset.mem_range]
    refine and_congr_right fun hj => ?_
    rw [hdegree j hj, Option.some.injEq]
    simp

/-- **The loop takes a least available component at a time.** -/
theorem order_spec (hscc : core.Scc s l cs) (hstored : ∀ d ∈ l, Stored s d)
    (hedge : ∀ x y, graph.Edge x y ↔ core.Verdict s l x y)
    (hacc : Condensed cs (edges σ .edges .edgesTo graph) acc) :
    ∃ order, Kahn.run (trySortBy (s.compareIndices cs)) (nextComponents σ acc.graph)
        (cs.length + 1) acc.indegree (initiallyReady σ acc.indegree) = some order ∧
      Kahn.Greedy (Finset.range cs.length) (fun i j => j ∈ nextComponents σ acc.graph i)
        (fun i j => blockKey s (cs.getD i []) ≤ blockKey s (cs.getD j [])) ∅ order := by
  -- the least member of a component stands for it
  have hkey : ∀ i, i < cs.length → ∃ m, minBy s.tieBreak (cs.getD i []) = some m ∧
      Stored s m ∧ blockKey s (cs.getD i []) = s.tieKey m := by
    intro i hi
    have hin := hscc.stored hstored hi
    obtain ⟨m, hm, hmin, hkey, _⟩ := blockKey_spec hin (hscc.ne_nil _ (getD_mem hi))
    exact ⟨m, hmin, hin m hm, hkey⟩
  have hcounts := counts_start (σ := σ) hacc
  refine Kahn.run_greedy (fun i _ => nextComponents_nodup _ i) ?_ ?_ ?_
    (fun i _ => le_refl (blockKey s (cs.getD i []))) hcounts ?_
  · intro i _ j hij
    exact Finset.mem_range.mpr (lt_of_mem_nextComponents hacc hij).2
  · exact condensation_acyclic hscc hedge hacc
  · intro ready hready _
    apply trySortBy_spec
    intro i hi j hj
    obtain ⟨m, hm, hmstored, hmkey⟩ := hkey i (Finset.mem_range.mp (hready i hi))
    obtain ⟨m', hm', hmstored', hmkey'⟩ := hkey j (Finset.mem_range.mp (hready j hj))
    refine ⟨s.tieBreak m m', ?_, ?_⟩
    · unfold State.compareIndices State.compareComponents
      rw [getElem?_eq_getD (Finset.mem_range.mp (hready i hi)),
        getElem?_eq_getD (Finset.mem_range.mp (hready j hj))]
      simp only [hm, hm']
    · rw [hmkey, hmkey']
      exact tieBreak_iff hmstored hmstored'
  · rw [Finset.sdiff_empty, Finset.card_range]
    omega

end Loop

/-! ## §4. The blocks. -/

/-- A verdict leads from one block to another. -/
def BlockEdge (core : MrvExecutor) (s : State) (l : List Digest) (B B' : List Digest) : Prop :=
  B ≠ B' ∧ ∃ a ∈ B, ∃ b ∈ B', core.Verdict s l a b

/-- Some member of the first block is before all of the second. -/
def BlockLe (s : State) (B B' : List Digest) : Prop :=
  ∃ a ∈ B, ∀ b ∈ B', s.tieKey a ≤ s.tieKey b

/-- The blocks of a linearisation: the components of the verdicts, each sorted, taken one
after the other, each time a least one of those whose predecessors are all taken. -/
structure Linearises (core : MrvExecutor) (s : State) (l : List Digest)
    (blocks : List (List Digest)) : Prop where
  scc : core.Scc s l blocks
  sorted : ∀ B ∈ blocks, B.Pairwise (fun a b => s.tieKey a ≤ s.tieKey b)
  greedy : Kahn.Greedy blocks.toFinset (core.BlockEdge s l) (BlockLe s) ∅ blocks

namespace Linearises

variable {l l' : List Digest} {blocks blocks' : List (List Digest)}

theorem mem_of_mem (h : core.Linearises s l blocks) {B : List Digest} (hB : B ∈ blocks)
    (ha : a ∈ B) : a ∈ l := (h.scc.mem_flatten a).mp (List.mem_flatten_of_mem hB ha)

/-- Two blocks that share a digest are the same. -/
theorem eq_of_mem (h : core.Linearises s l blocks) (h' : core.Linearises s l blocks')
    {B B' : List Digest} (hB : B ∈ blocks) (hB' : B' ∈ blocks') (ha : a ∈ B) (ha' : a ∈ B') :
    B = B' := by
  apply eq_of_perm_of_pairwise (fun x _ y _ hxy => tieKey_injective s hxy) ?_
    (h.sorted B hB) (h'.sorted B' hB')
  rw [List.perm_ext_iff_of_nodup ((List.nodup_flatten.mp h.scc.nodup).1 B hB)
    ((List.nodup_flatten.mp h'.scc.nodup).1 B' hB')]
  intro x
  rw [h.scc.mem_iff B hB a ha, h'.scc.mem_iff B' hB' a ha']

/-- **There is one linearisation.** -/
theorem unique (h : core.Linearises s l blocks) (h' : core.Linearises s l blocks') :
    blocks = blocks' := by
  have hmem : ∀ {blocks blocks' : List (List Digest)}, core.Linearises s l blocks →
      core.Linearises s l blocks' → ∀ B ∈ blocks, B ∈ blocks' := by
    intro blocks blocks' h h' B hB
    obtain ⟨a, ha⟩ := List.exists_mem_of_ne_nil B (h.scc.ne_nil B hB)
    have hal := h.mem_of_mem hB ha
    rw [← h'.scc.mem_flatten, List.mem_flatten] at hal
    obtain ⟨B', hB', ha'⟩ := hal
    rw [h.eq_of_mem h' hB hB' ha ha']
    exact hB'
  have hsame : blocks.toFinset = blocks'.toFinset := by
    ext B
    rw [List.mem_toFinset, List.mem_toFinset]
    exact ⟨hmem h h' B, hmem h' h B⟩
  refine Kahn.Greedy.unique ?_ h.greedy (hsame ▸ h'.greedy)
  rintro B hB B' hB' ⟨a, ha, hale⟩ ⟨b, hb, hble⟩
  have heq : a = b := tieKey_injective s (le_antisymm (hale b hb) (hble a ha))
  rw [List.mem_toFinset] at hB hB'
  exact h.eq_of_mem h hB hB' ha (heq ▸ hb)

/-- A linearisation depends on the verdicts and the tie-break keys only. -/
theorem congr {s' : State} (hbetter : ∀ a b, core.Better s a b ↔ core.Better s' a b)
    (hkey : s.tieKey = s'.tieKey) (hl : ∀ d, d ∈ l ↔ d ∈ l') (h : core.Linearises s l blocks) :
    core.Linearises s' l' blocks := by
  have hverdict : core.Verdict s l = core.Verdict s' l' := by
    funext a b
    unfold Verdict
    rw [hl a, hl b, hbetter a b]
  obtain ⟨⟨hnd, hflat, hne, hmem⟩, hsorted, hgreedy⟩ := h
  unfold Strong at hmem
  unfold BlockEdge BlockLe at hgreedy
  rw [hverdict] at hmem hgreedy
  simp only [hl] at hflat hmem
  simp only [hkey] at hsorted hgreedy
  exact ⟨⟨hnd, hflat, hne, hmem⟩, hsorted, hgreedy⟩

theorem perm (h : core.Linearises s l blocks) (hnd : l.Nodup) : blocks.flatten.Perm l := by
  rw [List.perm_ext_iff_of_nodup h.scc.nodup hnd]
  exact h.scc.mem_flatten

/-- No verdict leads from a block to one before it. -/
theorem forward (h : core.Linearises s l blocks) :
    blocks.Pairwise (fun B B' => ∀ a ∈ B, ∀ b ∈ B', ¬ core.Verdict s l b a) := by
  rw [List.pairwise_iff_forall_sublist]
  intro B B' hsub a ha b hb hverdict
  obtain ⟨pre, rest, hsplit, hpre, hrest⟩ := List.cons_sublist_iff.mp hsub
  obtain ⟨pre', mid', hpre⟩ := List.append_of_mem hpre
  have heq : blocks = pre' ++ B :: (mid' ++ rest) := by
    rw [hsplit, hpre]
    simp
  have hnd := h.greedy.nodup
  have hB' : B' ∈ mid' ++ rest := List.mem_append_right _ (List.singleton_sublist.mp hrest)
  rw [heq, List.nodup_append] at hnd
  have hne : B' ≠ B := by
    rintro rfl
    exact (List.nodup_cons.mp hnd.2.1).1 hB'
  have hmem : B' ∈ blocks.toFinset := by
    rw [List.mem_toFinset, heq]
    exact List.mem_append_right _ (List.mem_cons_of_mem _ hB')
  have hbefore := (h.greedy.split heq).1 B' hmem ⟨hne, b, hb, a, ha, hverdict⟩
  have hin := hbefore.resolve_left (Finset.notMem_empty _)
  exact hnd.2.2 B' hin B' (List.mem_cons_of_mem _ hB') rfl

end Linearises

/-! ## §5. `sort_batch`. -/

section

variable {l : List Digest}

/-- The sorted members of a component. -/
def block (s : State) (cs : List (List Digest)) (i : ℕ) : List Digest :=
  sortBy s.tieBreak (cs.getD i [])

theorem mapM_block {cs : List (List Digest)} {order : List ℕ} (h : ∀ i ∈ order, i < cs.length) :
    order.mapM (fun current => cs[current]?.map (sortBy s.tieBreak)) =
      some (order.map (block s cs)) := by
  induction order with
  | nil => rfl
  | cons i order ih =>
      rw [List.forall_mem_cons] at h
      have hi : cs[i]?.map (sortBy s.tieBreak) = some (block s cs i) := by
        unfold block
        rw [List.getD_eq_getElem cs [] h.1, List.getElem?_eq_getElem h.1]
        rfl
      rw [List.mapM_cons, hi, ih h.2]
      rfl

section

variable {cs : List (List Digest)} {i j : ℕ} {d : Digest}

theorem mem_block : d ∈ block s cs i ↔ d ∈ cs.getD i [] := mem_sortBy

theorem inComponent_iff (hi : i < cs.length) : InComponent cs d i ↔ d ∈ block s cs i := by
  unfold InComponent
  rw [mem_block, getElem?_eq_getD hi]
  simp

theorem Scc.exists_mem_block (hscc : core.Scc s l cs) (hi : i < cs.length) :
    ∃ d, d ∈ block s cs i := by
  obtain ⟨d, hd⟩ := List.exists_mem_of_ne_nil _ (hscc.ne_nil _ (getD_mem hi))
  exact ⟨d, mem_block.mpr hd⟩

theorem Scc.block_inj (hscc : core.Scc s l cs) (hi : i < cs.length) (hj : j < cs.length)
    (heq : block s cs i = block s cs j) : i = j := by
  obtain ⟨d, hd⟩ := hscc.exists_mem_block hi
  refine InComponent.unique hscc.nodup ((inComponent_iff hi).mpr hd) ?_
  rw [inComponent_iff hj, ← heq]
  exact hd

/-- The blocks are the components, in another order. -/
theorem flatten_block_perm {order : List ℕ} (hnd : order.Nodup)
    (hrange : ∀ i, i ∈ order ↔ i < cs.length) :
    (order.map (block s cs)).flatten.Perm cs.flatten := by
  have hperm : order.Perm (List.range cs.length) := by
    rw [List.perm_ext_iff_of_nodup hnd List.nodup_range]
    intro i
    rw [hrange, List.mem_range]
  have hcs : (List.range cs.length).map (fun i => cs.getD i []) = cs := by
    apply List.ext_getElem
    · simp
    · intro i h1 h2
      simp [h2]
  have hright : (order.flatMap (block s cs)).Perm ((List.range cs.length).flatMap (block s cs)) :=
    hperm.flatMap_right _
  have hleft : ((List.range cs.length).flatMap (block s cs)).Perm
      ((List.range cs.length).flatMap (fun i => cs.getD i [])) :=
    List.Perm.flatMap_left _ fun i _ => sortBy_perm _ _
  have hall := hright.trans hleft
  rw [List.flatMap_def, List.flatMap_def, hcs] at hall
  exact hall

/-- The edges between the blocks are those of the component graph. -/
theorem Scc.blockEdge_iff {graph : Graph} {acc : ComponentGraph} (hscc : core.Scc s l cs)
    (hedge : ∀ x y, graph.Edge x y ↔ core.Verdict s l x y)
    (hacc : Condensed cs (edges σ .edges .edgesTo graph) acc) (hi : i < cs.length)
    (hj : j < cs.length) :
    core.BlockEdge s l (block s cs i) (block s cs j) ↔ j ∈ nextComponents σ acc.graph i := by
  rw [mem_nextComponents, hacc.edge i hi j]
  constructor
  · rintro ⟨hne, a, ha, b, hb, hverdict⟩
    refine ⟨fun heq => hne (congrArg _ heq), (a, b), ?_, (inComponent_iff hi).mpr ha,
      (inComponent_iff hj).mpr hb⟩
    exact mem_edges.mpr ((hedge a b).mpr hverdict)
  · rintro ⟨hne, e, he, h1, h2⟩
    refine ⟨fun heq => hne (hscc.block_inj hi hj heq), e.1, (inComponent_iff hi).mp h1, e.2,
      (inComponent_iff hj).mp h2, ?_⟩
    exact (hedge _ _).mp (mem_edges.mp he)

theorem Scc.blockLe (hscc : core.Scc s l cs) (hstored : ∀ d ∈ l, Stored s d) (hi : i < cs.length)
    (hj : j < cs.length) (hle : blockKey s (cs.getD i []) ≤ blockKey s (cs.getD j [])) :
    BlockLe s (block s cs i) (block s cs j) := by
  obtain ⟨m, hm, _, hkey, _⟩ :=
    blockKey_spec (hscc.stored hstored hi) (hscc.ne_nil _ (getD_mem hi))
  obtain ⟨m', _, _, hkey', hleast⟩ :=
    blockKey_spec (hscc.stored hstored hj) (hscc.ne_nil _ (getD_mem hj))
  rw [hkey, hkey'] at hle
  exact ⟨m, mem_block.mpr hm, fun d hd => hle.trans (hleast d (mem_block.mp hd))⟩

end

/-- The sorted components in a greedy order linearise the verdicts. -/
theorem linearises_of_order {cs : List (List Digest)} {order : List ℕ} {graph : Graph}
    {acc : ComponentGraph} (hscc : core.Scc s l cs) (hstored : ∀ d ∈ l, Stored s d)
    (hedge : ∀ x y, graph.Edge x y ↔ core.Verdict s l x y)
    (hacc : Condensed cs (edges σ .edges .edgesTo graph) acc)
    (horder : Kahn.Greedy (Finset.range cs.length) (fun i j => j ∈ nextComponents σ acc.graph i)
      (fun i j => blockKey s (cs.getD i []) ≤ blockKey s (cs.getD j [])) ∅ order) :
    core.Linearises s l (order.map (block s cs)) := by
  have hrange : ∀ i, i ∈ order ↔ i < cs.length := by
    intro i
    rw [horder.mem_iff, Finset.mem_range]
    simp
  have hperm : (order.map (block s cs)).flatten.Perm cs.flatten :=
    flatten_block_perm horder.nodup hrange
  refine ⟨⟨hperm.nodup_iff.mpr hscc.nodup, fun x => ?_, ?_, ?_⟩, ?_, ?_⟩
  · rw [hperm.mem_iff]
    exact hscc.mem_flatten x
  · intro B hB
    obtain ⟨i, hi, rfl⟩ := List.mem_map.mp hB
    obtain ⟨d, hd⟩ := hscc.exists_mem_block ((hrange i).mp hi)
    exact List.ne_nil_of_mem hd
  · intro B hB x hx y
    obtain ⟨i, hi, rfl⟩ := List.mem_map.mp hB
    rw [mem_block] at hx ⊢
    exact hscc.mem_iff _ (getD_mem ((hrange i).mp hi)) x hx y
  · intro B hB
    obtain ⟨i, hi, rfl⟩ := List.mem_map.mp hB
    exact sortBy_pairwise (ordersBy_tieBreak (hscc.stored hstored ((hrange i).mp hi)))
  · have himage : (order.map (block s cs)).toFinset =
        (Finset.range cs.length).image (block s cs) := by
      ext B
      rw [List.mem_toFinset, List.mem_map, Finset.mem_image]
      simp only [hrange, Finset.mem_range]
    rw [himage, ← Finset.image_empty (block s cs)]
    apply horder.map
    · intro i hi j hj heq
      exact hscc.block_inj (Finset.mem_range.mp hi) (Finset.mem_range.mp hj) heq
    · exact Finset.empty_subset _
    · intro i hi j hj
      exact hscc.blockEdge_iff hedge hacc (Finset.mem_range.mp hi) (Finset.mem_range.mp hj)
    · intro i hi j hj hle
      exact hscc.blockLe hstored (Finset.mem_range.mp hi) (Finset.mem_range.mp hj) hle

/-- The blocks of a batch. -/
theorem sortedBlocks_spec (hdelta : 0 < core.deltaThreshold)
    (hs : ∀ d st, s.aufStates.lookup d = some st → st.Frozen) (hstored : ∀ d ∈ l, Stored s d) :
    ∃ blocks, core.sortedBlocks s σ l = some blocks ∧ core.Linearises s l blocks := by
  let nodes := sortBy s.tieBreak l
  obtain ⟨graph, hgraph, hkeys, hedges⟩ := verdictGraph_spec hdelta hs nodes
  have hnodes : ∀ d, d ∈ nodes ↔ d ∈ l := fun d => mem_sortBy
  have hverdict : core.Verdict s nodes = core.Verdict s l := by
    funext a b
    unfold Verdict
    rw [hnodes a, hnodes b]
  rw [hverdict] at hedges
  have hfind : ∃ cs, s.findScc σ nodes graph = some cs ∧ core.Scc s nodes cs := by
    apply findScc_spec
    rw [hverdict]
    exact hedges
  obtain ⟨cs, hcs, hscc⟩ := hfind
  have hsccl : core.Scc s l cs := by
    refine ⟨hscc.nodup, fun x => (hscc.mem_flatten x).trans (hnodes x), hscc.ne_nil, ?_⟩
    intro c hc x hx y
    rw [hscc.mem_iff c hc x hx y, hnodes y]
    unfold Strong
    rw [hverdict]
  obtain ⟨acc, hacc, hcondensed⟩ := componentGraph_spec (σ := σ) hsccl.nodup
    (fun d hd => (hsccl.mem_flatten d).mpr ((hnodes d).mp ((hkeys d).mp hd)))
    (fun x y hxy => by
      have hv := (hedges x y).mp hxy
      exact ⟨(hsccl.mem_flatten x).mpr hv.1, (hsccl.mem_flatten y).mpr hv.2.1⟩)
  obtain ⟨order, horder, hgreedy⟩ := order_spec hsccl hstored hedges hcondensed
  refine ⟨order.map (block s cs), ?_, linearises_of_order hsccl hstored hedges hcondensed hgreedy⟩
  have hrange : ∀ i ∈ order, i < cs.length := fun i hi =>
    Finset.mem_range.mp ((hgreedy.mem_iff i).mp hi).1
  unfold sortedBlocks
  simp only [Option.bind_eq_bind]
  rw [hgraph, Option.bind_some, hcs, Option.bind_some, hacc, Option.bind_some, horder,
    Option.bind_some]
  exact mapM_block hrange

/-- A list without two digests is its own linearisation. -/
theorem linearises_short (hlength : l.length ≤ 1) :
    core.Linearises s l (l.map (fun d => [d])) := by
  match l, hlength with
  | [], _ =>
      exact ⟨⟨List.nodup_nil, by simp, by simp, by simp⟩, by simp, Kahn.Greedy.done (by simp)⟩
  | [d], _ =>
      refine ⟨⟨by simp, by simp, by simp, ?_⟩, by simp, ?_⟩
      · intro c hc x hx y
        obtain rfl : c = [d] := List.mem_singleton.mp hc
        obtain rfl := List.mem_singleton.mp hx
        exact ⟨fun hy => ⟨hy, List.mem_singleton.mp hy ▸ Strong.refl core s _ y⟩, fun hy => hy.1⟩
      · have hall : ∀ B ∈ [[d]].toFinset, B = [d] := fun B hB => by simpa using hB
        apply Kahn.Greedy.take
        · refine ⟨by simp, Finset.notMem_empty _, fun p hp hedge => ?_⟩
          exact absurd (hall p hp) hedge.1
        · intro B hB
          rw [hall B hB.1]
          exact ⟨d, List.mem_cons_self, fun b hb => by rw [List.mem_singleton.mp hb]⟩
        · apply Kahn.Greedy.done
          intro B hB
          rw [hall B hB]
          exact Finset.mem_insert_self _ _

/-- **`sort_batch`**: it returns, and its blocks linearise the verdicts. -/
theorem sortBatch_spec (hdelta : 0 < core.deltaThreshold)
    (hs : ∀ d st, s.aufStates.lookup d = some st → st.Frozen) (σ : HashOrder)
    (hstored : ∀ d ∈ l, Stored s d) :
    ∃ blocks, core.sortBatch s σ l = some blocks.flatten ∧ core.Linearises s l blocks := by
  unfold sortBatch
  by_cases hlength : l.length ≤ 1
  · rw [if_pos hlength]
    refine ⟨l.map (fun d => [d]), ?_, linearises_short hlength⟩
    rw [← List.flatMap_def]
    simp
  · rw [if_neg hlength]
    obtain ⟨blocks, hblocks, hlin⟩ := sortedBlocks_spec (σ := σ) hdelta hs hstored
    exact ⟨blocks, by rw [hblocks]; rfl, hlin⟩

end

/-! ## §6. Reachable states. -/

/-- **`sort_batch` linearises the verdict graph**: at every stage, between two batches or
inside one, on distinct members of a pending batch it succeeds and returns the components of
the verdicts as blocks, each sorted by `tie_break`, with no verdict from a block to one
before it. -/
theorem sort_batch_linearises [Crypto] (committeeSize windowCap : ℕ) (capacity : Option ℕ)
    {ops : Operations} {g : Stage} (hops : (spawn committeeSize windowCap capacity).Passes ops g)
    {k : ℕ} {batch : BatchState} (hbatch : g.state.batches.get k = some batch) {l : List Digest}
    (hdistinct : l.Nodup) (hmembers : ∀ d ∈ l, d ∈ batch.members) (σ : HashOrder) :
    let core := spawn committeeSize windowCap capacity
    ∃ blocks : List (List Digest), core.sortBatch g.state σ l = some blocks.flatten ∧
      blocks.flatten.Perm l ∧
      (∀ B ∈ blocks, B ≠ [] ∧ ∀ x ∈ B, ∀ y, y ∈ B ↔ y ∈ l ∧ core.Strong g.state l x y) ∧
      (∀ B ∈ blocks, B.Pairwise (fun a b => g.state.tieBreak a b ≠ .gt)) ∧
      blocks.Pairwise (fun B B' => ∀ a ∈ B, ∀ b ∈ B', ¬ core.Verdict g.state l b a) := by
  have hsane := ((inductive_sane _).passes hops).1
  have hstored : ∀ d ∈ l, Stored g.state d := fun d hd =>
    hsane.members k batch hbatch d (hmembers d hd)
  obtain ⟨blocks, hsort, hlin⟩ :=
    sortBatch_spec (deltaThreshold_spawn committeeSize windowCap capacity) hsane.frozen σ hstored
  refine ⟨blocks, hsort, hlin.perm hdistinct, fun B hB => ?_, fun B hB => ?_, hlin.forward⟩
  · exact ⟨hlin.scc.ne_nil B hB, hlin.scc.mem_iff B hB⟩
  · apply (hlin.sorted B hB).imp_of_mem
    intro a b ha hb hle
    exact (tieBreak_iff (hstored a (hlin.mem_of_mem hB ha))
      (hstored b (hlin.mem_of_mem hB hb))).mpr hle

/-- The contest is recorded, and a certificate of the next batch. -/
def sampleContested : List Operation :=
  sampleContest.map .register ++ [.record (sampleDelivery 0 sampleContest).batch HashOrder.listed,
    .register (Certificate.sample 3 0 [0, 1])]

set_option maxRecDepth 10000 in
theorem exists_contestedStage :
    letI := sampleCrypto
    ∃ ops g, (spawn 4 10 none).Passes ops g ∧ g.current = [Certificate.sample 3 0 [0, 1]] ∧
      g.state.batches.get 0 = some ⟨sampleContest.map Certificate.digest⟩ ∧
      (spawn 4 10 none).Better g.state (sampleDigest 1 0) (sampleDigest 1 1) :=
  let _ := sampleCrypto
  let ⟨ops, g, hops, hcheck⟩ := System.exec_check (spawn 4 10 none).stages sampleContested
    (fun _ g => decide (g.current = [Certificate.sample 3 0 [0, 1]] ∧
      (g.state.batches.get 0).map BatchState.members =
        some (sampleContest.map Certificate.digest) ∧
      (spawn 4 10 none).Better g.state (sampleDigest 1 0) (sampleDigest 1 1)))
    (by decide +kernel)
  have ⟨hcurrent, hpending, hbetter⟩ := of_decide_eq_true hcheck
  have ⟨_, hget, hmembers⟩ := Option.map_eq_some_iff.mp hpending
  ⟨ops, g, hops, hcurrent, hget.trans (congrArg (fun ms => some (BatchState.mk ms)) hmembers),
    hbetter⟩

/-- Two members of a pending batch, one better than the other, while the next batch is being
recorded. -/
theorem sort_batch_linearises_sample :
    letI := sampleCrypto
    let core := spawn 4 10 none
    let l := [sampleDigest 1 1, sampleDigest 1 0]
    ∃ ops g, core.Passes ops g ∧ g.current = [Certificate.sample 3 0 [0, 1]] ∧
      core.Better g.state (sampleDigest 1 0) (sampleDigest 1 1) ∧
      ∃ blocks : List (List Digest),
        core.sortBatch g.state HashOrder.listed l = some blocks.flatten ∧
        blocks.flatten.Perm l ∧
        (∀ B ∈ blocks, B ≠ [] ∧ ∀ x ∈ B, ∀ y, y ∈ B ↔ y ∈ l ∧ core.Strong g.state l x y) ∧
        (∀ B ∈ blocks, B.Pairwise (fun a b => g.state.tieBreak a b ≠ .gt)) ∧
        blocks.Pairwise (fun B B' => ∀ a ∈ B, ∀ b ∈ B', ¬ core.Verdict g.state l b a) := by
  let _ := sampleCrypto
  obtain ⟨ops, g, hops, hcurrent, hget, hbetter⟩ := exists_contestedStage
  have hdistinct : [sampleDigest 1 1, sampleDigest 1 0].Nodup := by decide
  have hmembers : ∀ d ∈ [sampleDigest 1 1, sampleDigest 1 0],
      d ∈ sampleContest.map Certificate.digest := by decide +kernel
  exact ⟨ops, g, hops, hcurrent, hbetter,
    sort_batch_linearises 4 10 none hops hget hdistinct hmembers HashOrder.listed⟩

end MrvExecutor

end Mrv
