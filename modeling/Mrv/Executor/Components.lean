/-
  Mrv.Executor.Components — `find_scc` on any graph.

  The forward search follows the sorted neighbors of a node, the backward search the
  reversed edges; both are searches of `Lib.Dfs` over the edges of the graph, in some
  order.  So the components found are the strongly connected ones, each once, and no
  edge leads back from a component to an earlier one (`find_scc_partitions`).
-/
import Mrv.Executor.Verdict

namespace Mrv

open Relation (ReflTransGen)

namespace MrvExecutor

variable {core : MrvExecutor} {s : State} {σ : HashOrder} {a b : Digest}

/-! ## §1. The two searches. -/

theorem mem_edges {outer : Traversal} {inner : Digest → Traversal} {graph : Graph}
    {e : Digest × Digest} : e ∈ edges σ outer inner graph ↔ graph.Edge e.1 e.2 := by
  obtain ⟨x, y⟩ := e
  unfold edges Graph.Edge
  simp only [List.mem_flatMap, List.mem_map, HashOrder.mem_visit, Finset.mem_sort, Prod.mk.injEq]
  constructor
  · rintro ⟨x', _, y', hy, rfl, rfl⟩
    exact hy
  · intro hy
    refine ⟨x, ?_, y, hy, rfl, rfl⟩
    rw [← AList.mem_keys, ← AList.lookup_isSome]
    cases hx : graph.lookup x with
    | none => simp [hx] at hy
    | some tos => rfl

theorem mem_orderedNeighbors {graph : Graph} :
    b ∈ s.orderedNeighbors σ graph a ↔ graph.Edge a b := by
  unfold State.orderedNeighbors Graph.Edge
  cases graph.lookup a with
  | none => simp
  | some tos => simp

theorem mem_foldl_pushReverse (es : List (Digest × Digest)) (m : HashMap Digest (List Digest))
    (a b : Digest) :
    b ∈ ((es.foldl State.pushReverse m).lookup a).getD [] ↔
      b ∈ (m.lookup a).getD [] ∨ (b, a) ∈ es := by
  induction es generalizing m with
  | nil => simp
  | cons e es ih =>
      obtain ⟨x, y⟩ := e
      rw [List.foldl_cons, ih]
      unfold State.pushReverse
      rw [AList.lookup_insert_eq_ite, List.mem_cons, Prod.mk.injEq]
      split
      · next heq =>
        subst heq
        simp [or_assoc]
      · next hne => simp [hne]

/-- The reverse graph has the edges against their direction. -/
theorem mem_reverseGraph {nodes : List Digest} {graph : Graph} :
    b ∈ ((s.reverseGraph σ nodes graph).lookup a).getD [] ↔ graph.Edge b a := by
  let start : HashMap Digest (List Digest) := AList.collect (nodes.map (fun d => (d, [])))
  have hstart : (start.lookup a).getD [] = [] := by
    rw [AList.lookup_collect_const]
    split <;> rfl
  have hpushed := mem_foldl_pushReverse (edges σ .reverse .reverseTo graph) start a b
  rw [hstart, mem_edges] at hpushed
  rw [← (hpushed.trans (by simp) :
    b ∈ (((edges σ .reverse .reverseTo graph).foldl State.pushReverse start).lookup a).getD [] ↔
      graph.Edge b a)]
  unfold State.reverseGraph
  rw [AList.lookup_retain]
  cases ((edges σ .reverse .reverseTo graph).foldl State.pushReverse start).lookup a with
  | none => simp
  | some tos => simp

theorem collectComponents_eq (reverseGraph : HashMap Digest (List Digest)) (fuel : ℕ)
    (stack : List Digest) (visited : Finset Digest) :
    State.collectComponents reverseGraph fuel stack visited =
      Dfs.collect (fun node => (reverseGraph.lookup node).getD []) fuel stack visited := by
  induction stack generalizing visited with
  | nil => rfl
  | cons node stack ih =>
      unfold State.collectComponents Dfs.collect State.dfsReverse
      simp only [ih]

/-- Paths along the edges of a graph. -/
def Graph.Reaches (graph : Graph) : Digest → Digest → Prop := ReflTransGen graph.Edge

theorem mutual_iff_reaches {graph : Graph} :
    Dfs.Mutual (s.orderedNeighbors σ graph) ∅ a b ↔ graph.Reaches a b ∧ graph.Reaches b a := by
  have hrel : (fun x y => y ∈ s.orderedNeighbors σ graph x) = graph.Edge := by
    funext x y
    exact propext mem_orderedNeighbors
  unfold Dfs.Mutual Graph.Reaches
  rw [Dfs.reach_empty, Dfs.reach_empty, hrel]

/-- Both searches end, and find the components of the forward search. -/
theorem findScc_components {nodes : List Digest} {graph : Graph}
    (hedge : ∀ x y, graph.Edge x y → x ∈ nodes ∧ y ∈ nodes) :
    ∃ cs, s.findScc σ nodes graph = some cs ∧
      Dfs.Components (s.orderedNeighbors σ graph) nodes ∅ cs ∧
        cs.Pairwise (fun c c' => ∀ x ∈ c', ∀ y ∈ c, ¬ graph.Reaches x y) := by
  have hnext : ∀ x ∈ nodes, ∀ y ∈ s.orderedNeighbors σ graph x, y ∈ nodes :=
    fun x _ y hy => (hedge x y (mem_orderedNeighbors.mp hy)).2
  have hprev : ∀ x ∈ nodes, ∀ y, y ∈ ((s.reverseGraph σ nodes graph).lookup x).getD [] ↔
      y ∈ nodes ∧ x ∈ s.orderedNeighbors σ graph y := by
    intro x _ y
    rw [mem_reverseGraph, mem_orderedNeighbors]
    exact ⟨fun h => ⟨(hedge y x h).1, h⟩, fun h => h.2⟩
  obtain ⟨F, cs, hF, hcs, hcomponents, hordered⟩ :=
    Dfs.components_spec hnext hprev (List.toFinset_card_le nodes)
  refine ⟨cs, ?_, hcomponents, ?_⟩
  · obtain ⟨⟨visited, finishStack⟩, hfound, rfl⟩ := Option.map_eq_some_iff.mp hF
    unfold State.findScc
    have hforward : Dfs.each (s.dfsForward σ graph nodes.length) nodes (∅, []) =
        some (visited, finishStack) := hfound
    rw [hforward]
    show State.collectComponents _ _ finishStack.reverse ∅ = some cs
    rw [collectComponents_eq]
    exact hcs
  · refine hordered.imp fun hnone x hx y hy hreach => hnone x hx y hy ?_
    rw [Dfs.reach_empty]
    exact ReflTransGen.mono (fun _ _ huv => mem_orderedNeighbors.mpr huv) x y hreach

/-! ## §2. The components. -/

/-- A graph over a list of nodes: they are its keys, and its edges stay inside. -/
structure Graph.On (graph : Graph) (nodes : List Digest) : Prop where
  keys : ∀ d, d ∈ graph.keys ↔ d ∈ nodes
  inside : ∀ x y, graph.Edge x y → y ∈ nodes

/-- The strongly connected components of a graph over `nodes`, in a topological order. -/
structure Graph.Partition (graph : Graph) (nodes : List Digest) (cs : List (List Digest)) :
    Prop where
  perm : cs.flatten.Perm nodes
  ne_nil : ∀ c ∈ cs, c ≠ []
  /-- Two nodes share a component exactly if each is reachable from the other. -/
  same : ∀ x ∈ nodes, ∀ y ∈ nodes,
    (∃ c ∈ cs, x ∈ c ∧ y ∈ c) ↔ graph.Reaches x y ∧ graph.Reaches y x
  /-- No edge leads from a later component to an earlier one. -/
  topological : cs.Pairwise (fun c c' => ∀ x ∈ c', ∀ y ∈ c, ¬ graph.Edge x y)

/-- **`find_scc` computes the strongly connected components**, in whatever order the
edges are visited. -/
theorem find_scc_partitions (s : State) (σ : HashOrder) {nodes : List Digest} {graph : Graph}
    (hnodup : nodes.Nodup) (hon : graph.On nodes) :
    ∃ cs, s.findScc σ nodes graph = some cs ∧ graph.Partition nodes cs := by
  have hedge : ∀ x y, graph.Edge x y → x ∈ nodes ∧ y ∈ nodes := by
    intro x y hxy
    refine ⟨(hon.keys x).mp ?_, hon.inside x y hxy⟩
    rw [← AList.mem_keys, ← AList.lookup_isSome]
    unfold Graph.Edge at hxy
    cases hx : graph.lookup x with
    | none => simp [hx] at hxy
    | some tos => rfl
  obtain ⟨cs, hcs, hcomponents, hordered⟩ := findScc_components (s := s) (σ := σ) hedge
  have hmem : ∀ x, x ∈ cs.flatten ↔ x ∈ nodes := by
    intro x
    rw [hcomponents.mem_flatten]
    simp
  refine ⟨cs, hcs, ?_, hcomponents.ne_nil, ?_, ?_⟩
  · exact (List.perm_ext_iff_of_nodup hcomponents.nodup hnodup).mpr hmem
  · intro x hx y hy
    constructor
    · intro h
      obtain ⟨c, hc, hxc, hyc⟩ := h
      exact mutual_iff_reaches.mp ((hcomponents.mem_iff c hc x hxc y).mp hyc).2
    · intro h
      obtain ⟨c, hc, hxc⟩ := List.mem_flatten.mp ((hmem x).mpr hx)
      exact ⟨c, hc, hxc, (hcomponents.mem_iff c hc x hxc y).mpr ⟨hy, mutual_iff_reaches.mpr h⟩⟩
  · -- an edge is a path
    exact hordered.imp fun hnone x hx y hy hxy => hnone x hx y hy (ReflTransGen.single hxy)

/-- Two nodes on a cycle, and a third that the cycle leads to. -/
def sampleCycle : Graph :=
  ⟨[⟨sampleDigest 1 2, ∅⟩, ⟨sampleDigest 1 0, {sampleDigest 1 1}⟩,
    ⟨sampleDigest 1 1, {sampleDigest 1 0, sampleDigest 1 2}⟩],
    List.nodupKeys_iff_pairwise.mpr (by decide +kernel)⟩

/-- The components of such a graph. -/
theorem find_scc_partitions_sample :
    let nodes := [sampleDigest 1 2, sampleDigest 1 0, sampleDigest 1 1]
    ∃ cs, State.new.findScc HashOrder.listed nodes sampleCycle = some cs ∧
      sampleCycle.Partition nodes cs := by
  refine find_scc_partitions State.new HashOrder.listed (by decide +kernel) ⟨?_, ?_⟩
  · exact fun d => Iff.rfl
  · have hall : ∀ e ∈ sampleCycle.entries, ∀ y ∈ e.2,
        y ∈ [sampleDigest 1 2, sampleDigest 1 0, sampleDigest 1 1] := by
      decide +kernel
    intro x y hxy
    unfold Graph.Edge at hxy
    cases hx : sampleCycle.lookup x with
    | none => simp [hx] at hxy
    | some tos =>
        rw [hx] at hxy
        exact hall _ (AList.lookup_eq_some_iff.mp hx) y hxy

end MrvExecutor

end Mrv
