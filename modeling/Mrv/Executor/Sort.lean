/-
  Mrv.Executor.Sort — MRV ordering in one batch: frozen pair verdicts, strongly
  connected components, topological order, tie-break (`sort_batch`).

  A failing `expect`, an index out of range and a degree lowered below zero are `none`.
  The recursive searches take the number of nodes as fuel.
-/
import Mrv.Executor.State
import Mrv.Lib.Kahn

namespace Mrv

inductive OrderingRelation where
  | aBetter
  | bBetter
  | tie
  deriving DecidableEq

namespace MrvExecutor

namespace State

/-! ## §1. Tie-breaking. -/

/-- By round, then by origin, then by digest. -/
def tieBreak (s : State) (a b : Digest) : Ordering :=
  match s.store.lookup a, s.store.lookup b with
  | some ca, some cb =>
      (compare ca.round cb.round).then ((compare ca.origin cb.origin).then (compare a b))
  | _, _ => compare a b

/-- By their least members. -/
def compareComponents (s : State) (c1 c2 : List Digest) : Option Ordering :=
  match minBy s.tieBreak c1, minBy s.tieBreak c2 with
  | some min1, some min2 => some (s.tieBreak min1 min2)
  | _, _ => none

/-! ## §2. Pair verdicts. -/

def seenCountAt (s : State) (digest : Digest) (round : ℕ) : ℕ :=
  ((s.aufStates.lookup digest).bind (fun st => st.seenByRound.get round)).elim 0 Finset.card

end State

/-- The verdict of the rounds in which both could be seen. -/
def verdict (core : MrvExecutor) (s : State) (a b : Digest) (rounds : List ℕ) :
    OrderingRelation :=
  let diff := fun round => (s.seenCountAt a round : ℤ) - s.seenCountAt b round
  let pos := rounds.countP (fun r => decide (core.deltaThreshold ≤ diff r))
  let neg := rounds.countP (fun r =>
    decide (¬ core.deltaThreshold ≤ diff r ∧ diff r ≤ -core.deltaThreshold))
  if 1 ≤ pos ∧ neg = 0 then .aBetter
  else if 1 ≤ neg ∧ pos = 0 then .bBetter
  else .tie

def comparePair (core : MrvExecutor) (s : State) (a b : Digest) : Option OrderingRelation :=
  match s.aufStates.lookup a, s.aufStates.lookup b with
  | some stateA, some stateB =>
      -- Capped-but-not-mature AUFs never produce a positive fairness edge.
      if stateA.mature = false ∨ stateB.mature = false then some .tie
      else
        match stateA.horizon, stateB.horizon with
        | some horizonA, some horizonB =>
            let pairHorizon := max horizonA horizonB
            let coexistenceStart := max stateA.round stateB.round
            if pairHorizon ≤ coexistenceStart then some .tie
            else some (core.verdict s a b
              (List.range' (coexistenceStart + 1) (pairHorizon - coexistenceStart)))
        | _, _ => none
  | _, _ => some .tie

/-- A verdict graph: the nodes each node is better than. -/
abbrev Graph := HashMap Digest (Finset Digest)

/-- `graph.get_mut(a).expect("node must exist").insert(b)`. -/
def addEdge (graph : Graph) (a b : Digest) : Option Graph :=
  (graph.lookup a).map (fun tos => graph.insert a (insert b tos))

/-- Compare a pair and record the verdict. -/
def addVerdict (core : MrvExecutor) (s : State) (graph : Graph) (pair : Digest × Digest) :
    Option Graph :=
  match core.comparePair s pair.1 pair.2 with
  | none => none
  | some .aBetter => addEdge graph pair.1 pair.2
  | some .bBetter => addEdge graph pair.2 pair.1
  | some .tie => some graph

/-- `(nodes[i], nodes[j])` for `i < j`. -/
def pairs : List Digest → List (Digest × Digest)
  | [] => []
  | a :: nodes => nodes.map (fun b => (a, b)) ++ pairs nodes

def verdictGraph (core : MrvExecutor) (s : State) (nodes : List Digest) : Option Graph :=
  (pairs nodes).foldlM (core.addVerdict s) (AList.collect (nodes.map (fun d => (d, ∅))))

/-! ## §3. Strongly connected components. -/

/-- `for (from, tos) in graph { for to in tos`. -/
def edges (σ : HashOrder) (outer : Traversal) (inner : Digest → Traversal) (graph : Graph) :
    List (Digest × Digest) :=
  (σ.visit outer graph.keys).flatMap (fun source =>
    (σ.visit (inner source) (((graph.lookup source).getD ∅).sort (· ≤ ·))).map
      (fun target => (source, target)))

namespace State

/-- The neighbors of a node in the order in which `dfs_forward` visits them. -/
def orderedNeighbors (s : State) (σ : HashOrder) (graph : Graph) (node : Digest) :
    List Digest :=
  match graph.lookup node with
  | none => []
  | some neighbors => sortBy s.tieBreak (σ.visit (.neighbors node) (neighbors.sort (· ≤ ·)))

def dfsForward (s : State) (σ : HashOrder) (graph : Graph) (fuel : ℕ) :
    Digest → Dfs.Found Digest → Option (Dfs.Found Digest) :=
  Dfs.visit .leave (s.orderedNeighbors σ graph) fuel

def dfsReverse (reverseGraph : HashMap Digest (List Digest)) (fuel : ℕ) :
    Digest → Dfs.Found Digest → Option (Dfs.Found Digest) :=
  Dfs.visit .enter (fun node => (reverseGraph.lookup node).getD []) fuel

/-- `reverse_graph.entry(to).or_default().push(from)`. -/
def pushReverse (reverseGraph : HashMap Digest (List Digest)) (edge : Digest × Digest) :
    HashMap Digest (List Digest) :=
  reverseGraph.insert edge.2 ((reverseGraph.lookup edge.2).getD [] ++ [edge.1])

/-- The edges against their direction, each list sorted. -/
def reverseGraph (s : State) (σ : HashOrder) (nodes : List Digest) (graph : Graph) :
    HashMap Digest (List Digest) :=
  ((edges σ .reverse .reverseTo graph).foldl pushReverse
    (AList.collect (nodes.map (fun d => (d, []))))).retain (fun _ tos => some (sortBy s.tieBreak tos))

/-- The loop of `find_scc` over the finish stack. -/
def collectComponents (reverseGraph : HashMap Digest (List Digest)) (fuel : ℕ) :
    List Digest → Finset Digest → Option (List (List Digest))
  | [], _ => some []
  | node :: finishStack, visited =>
      if node ∈ visited then collectComponents reverseGraph fuel finishStack visited
      else (dfsReverse reverseGraph fuel node (visited, [])).bind
        (fun found => (collectComponents reverseGraph fuel finishStack found.1).map
          (fun components => found.2 :: components))

def findScc (s : State) (σ : HashOrder) (nodes : List Digest) (graph : Graph) :
    Option (List (List Digest)) :=
  match Dfs.each (s.dfsForward σ graph nodes.length) nodes (∅, []) with
  | none => none
  | some (_, finishStack) =>
      collectComponents (s.reverseGraph σ nodes graph) nodes.length finishStack.reverse ∅

end State

/-! ## §4. The order of the components. -/

/-- The edges between components, and how many enter each. -/
structure ComponentGraph where
  graph : HashMap ℕ (Finset ℕ)
  indegree : HashMap ℕ ℕ

/-- Which component a node is in. -/
def nodeToComponent (components : List (List Digest)) : HashMap Digest ℕ :=
  AList.collect (components.zipIdx.flatMap (fun c => c.1.map (fun digest => (digest, c.2))))

/-- The loop body over the edges of the verdict graph. -/
def addComponentEdge (nodeToComponent : HashMap Digest ℕ) (acc : ComponentGraph)
    (edge : Digest × Digest) : Option ComponentGraph :=
  match nodeToComponent.lookup edge.1, nodeToComponent.lookup edge.2 with
  | some source, some target =>
      if source = target then some acc
      else
        match acc.graph.lookup source, acc.indegree.lookup target with
        | none, _ => none
        | some targets, degree =>
            if target ∈ targets then some acc
            else degree.map (fun k =>
              { graph := acc.graph.insert source (insert target targets)
                indegree := acc.indegree.insert target (k + 1) })
  | _, _ => none

def componentGraph (σ : HashOrder) (graph : Graph) (components : List (List Digest)) :
    Option ComponentGraph :=
  let indices := List.range components.length
  -- `node_to_component[from]` is read for nodes without edges as well
  if graph.keys.all (fun source => ((nodeToComponent components).lookup source).isSome) then
    (edges σ .edges .edgesTo graph).foldlM (addComponentEdge (nodeToComponent components))
      { graph := AList.collect (indices.map (fun i => (i, ∅)))
        indegree := AList.collect (indices.map (fun i => (i, 0))) }
  else none

/-- The components without incoming edges. -/
def initiallyReady (σ : HashOrder) (indegree : HashMap ℕ ℕ) : List ℕ :=
  (σ.visit .indegree indegree.keys).filter (fun i => decide (indegree.lookup i = some 0))

/-- `next_components`. -/
def nextComponents (σ : HashOrder) (graph : HashMap ℕ (Finset ℕ)) (current : ℕ) : List ℕ :=
  (σ.visit (.components current) (((graph.lookup current).getD ∅).sort (· ≤ ·))).insertionSort
    (· ≤ ·)

/-- `self.compare_components(&components[*a], &components[*b])`. -/
def State.compareIndices (s : State) (components : List (List Digest)) (a b : ℕ) :
    Option Ordering :=
  match components[a]?, components[b]? with
  | some c1, some c2 => s.compareComponents c1 c2
  | _, _ => none

/-- The sorted components, in the order in which the loop over `ready` takes them. -/
def sortedBlocks (core : MrvExecutor) (s : State) (σ : HashOrder) (members : List Digest) :
    Option (List (List Digest)) := do
  let nodes := sortBy s.tieBreak members
  let graph ← core.verdictGraph s nodes
  let components ← s.findScc σ nodes graph
  let condensed ← componentGraph σ graph components
  let order ← Kahn.run (trySortBy (s.compareIndices components)) (nextComponents σ condensed.graph)
    (components.length + 1) condensed.indegree (initiallyReady σ condensed.indegree)
  order.mapM (fun current => components[current]?.map (sortBy s.tieBreak))

def sortBatch (core : MrvExecutor) (s : State) (σ : HashOrder) (members : List Digest) :
    Option (List Digest) :=
  if members.length ≤ 1 then some members
  else (core.sortedBlocks s σ members).map List.flatten

end MrvExecutor

end Mrv
