/-
  Mrv.Executor.State — the state of the MRV executor and its bookkeeping
  (`mrv_executor/src/lib.rs`).

  The executor keeps every certificate it received, and for each one that is not
  output yet the origins that see it, round by round.  Rounds are `u64`: the one
  addition on them saturates.

  Hash maps and hash sets are traversed in an order that is up to the hash function.
  `HashOrder` stands for it: it may rearrange what is traversed, at each place in the
  code (`Traversal`) in its own way.
-/
import Mrv.Consensus.State
import Mrv.Lib.Sort
import Mrv.Lib.Dfs

namespace Mrv

/-! ## §1. The state. -/

structure AufState where
  round : ℕ
  seenByRound : BTreeMap ℕ (Finset PublicKey)
  horizon : Option ℕ
  mature : Bool

/-- `AufState::new`. -/
def AufState.new (round : ℕ) : AufState :=
  { round, seenByRound := ∅, horizon := none, mature := false }

structure BatchState where
  members : List Digest

/-- The parameters of the executor, and how long its output is listened to. -/
structure MrvExecutor where
  windowCap : ℕ
  /-- 2f + 1 -/
  reachThreshold : ℕ
  /-- f + 1 -/
  deltaThreshold : ℤ
  /-- The receiver of `tx_output` is dropped after this many certificates, if ever. -/
  capacity : Option ℕ

/-- `u64::saturating_add`. -/
def saturatingAdd (a b : ℕ) : ℕ := min (a + b) (2 ^ 64 - 1)

namespace MrvExecutor

/-- The parameters `spawn` computes. -/
def spawn (committeeSize windowCap : ℕ) (capacity : Option ℕ) : MrvExecutor :=
  let n := max committeeSize 1
  let f := (n - 1) / 3
  { windowCap := max windowCap 1
    reachThreshold := 2 * f + 1
    deltaThreshold := f + 1
    capacity }

structure State where
  /-- Full committed DAG metadata that MRV can query. -/
  store : HashMap Digest Certificate
  /-- Active AUFs that are not finalized yet. -/
  aufStates : HashMap Digest AufState
  /-- Active batches that are not finalized yet. -/
  batches : BTreeMap ℕ BatchState
  activeFloorRound : Option ℕ
  frontierRound : ℕ
  /-- What was sent on the channel. -/
  txOutput : List Certificate

/-- The state before the first batch. -/
def State.new : State :=
  { store := ∅, aufStates := ∅, batches := ∅, activeFloorRound := none, frontierRound := 0,
    txOutput := [] }

/-- The places where a hash map or a hash set is traversed. -/
inductive Traversal where
  /-- `auf_states.values_mut()` in `apply_window_cap`. -/
  | states
  /-- `auf_states.values()` in `recompute_active_floor_round`. -/
  | rounds
  /-- The neighbors of a node in `dfs_forward`. -/
  | neighbors (node : Digest)
  /-- `graph` in `find_scc`. -/
  | reverse
  /-- The neighbors of a node in `find_scc`. -/
  | reverseTo (node : Digest)
  /-- `graph` in `sort_batch`. -/
  | edges
  /-- The neighbors of a node in `sort_batch`. -/
  | edgesTo (node : Digest)
  /-- `component_indegree.iter()`. -/
  | indegree
  /-- The neighbors of a component. -/
  | components (component : ℕ)

/-- An iteration order of the hash maps and hash sets. -/
structure HashOrder where
  visit : Traversal → ∀ {α : Type}, List α → List α
  perm : ∀ (t : Traversal) {α : Type} (l : List α), (visit t l).Perm l

/-- Elements come in the order in which the model lists them. -/
def HashOrder.listed : HashOrder := ⟨fun _ _ l => l, fun _ _ l => List.Perm.refl l⟩

@[simp] theorem HashOrder.mem_visit (σ : HashOrder) (t : Traversal) {α : Type} {l : List α}
    {a : α} : a ∈ σ.visit t l ↔ a ∈ l := (σ.perm t l).mem_iff

end MrvExecutor

/-! ## §2. Visibility. -/

/-- An author is seen in a round: the loop body of `update_seen_for_new_certificate`
on an active state. -/
def AufState.see (st : AufState) (reachThreshold round : ℕ) (author : PublicKey) : AufState :=
  let seen := (st.seenByRound.get round).getD ∅
  let seenByRound := st.seenByRound.insert round (insert author seen)
  -- only an author that is new can complete the threshold, and only once
  if author ∉ seen ∧ st.horizon = none ∧ reachThreshold ≤ (insert author seen).card then
    { st with seenByRound, horizon := some round, mature := true }
  else { st with seenByRound }

namespace MrvExecutor

namespace State

/-- The loop of `update_seen_for_new_certificate` over its stack. -/
def updateSeenLoop (reachThreshold : ℕ) (store : HashMap Digest Certificate)
    (minRound round : ℕ) (author : PublicKey) :
    ℕ → List Digest → Finset Digest → HashMap Digest AufState → Option (HashMap Digest AufState)
  -- never reached with the fuel of `fuel`
  | 0, _, _, _ => none
  | _ + 1, [], _, aufStates => some aufStates
  | fuel + 1, current :: stack, visited, aufStates =>
      let continue' := updateSeenLoop reachThreshold store minRound round author fuel
      if current ∈ visited then continue' stack visited aufStates
      else
        let visited := insert current visited
        match store.lookup current with
        | none => continue' stack visited aufStates
        | some certificate =>
            -- below the floor there is no active state
            if certificate.round < minRound then continue' stack visited aufStates
            else
              let aufStates := aufStates.modify current (fun st => st.see reachThreshold round author)
              -- at the floor the author is noted, but the parents are not followed
              if certificate.round = minRound then continue' stack visited aufStates
              else continue' (certificate.header.parents.toList.reverse ++ stack) visited aufStates

/-- Enough for the loop: each stored certificate pushes its parents once. -/
def fuel (s : State) : ℕ :=
  (s.store.values.map (fun certificate => certificate.header.parents.toList.length)).sum + 2

def updateSeenForNewCertificate (s : State) (reachThreshold round : ℕ) (author : PublicKey)
    (digest : Digest) : Option State :=
  let minRound := s.activeFloorRound.getD round
  (updateSeenLoop reachThreshold s.store minRound round author s.fuel [digest] ∅ s.aufStates).map
    (fun aufStates => { s with aufStates })

def noteActiveRound (s : State) (round : ℕ) : State :=
  { s with activeFloorRound := some (s.activeFloorRound.elim round (fun m => min m round)) }

def recomputeActiveFloorRound (s : State) (σ : HashOrder) : State :=
  { s with activeFloorRound := ((σ.visit .rounds s.aufStates.values).map AufState.round).min? }

/-! ## §3. Horizons. -/

end State

/-- The loop body of `apply_window_cap`. -/
def capState (core : MrvExecutor) (frontierRound : ℕ) (st : AufState) : AufState :=
  -- a horizon stays, whether the threshold or the cap set it
  if st.horizon ≠ none then st
  else
    let capRound := saturatingAdd st.round core.windowCap
    -- the cap sets a horizon without making the state mature
    if capRound ≤ frontierRound then { st with horizon := some capRound, mature := false }
    else st

def applyWindowCap (core : MrvExecutor) (σ : HashOrder) (s : State) : State :=
  { s with
    aufStates := (σ.visit .states s.aufStates.keys).foldl
      (fun aufStates digest => aufStates.modify digest (core.capState s.frontierRound))
      s.aufStates }

namespace State

/-- The last horizon of the members, if each has one. -/
def batchHorizon (s : State) (members : List Digest) : Option ℕ :=
  members.foldlM
    (fun horizon digest =>
      ((s.aufStates.lookup digest).bind AufState.horizon).map (fun h => max horizon h))
    0

/-! ## §4. Releasing a batch. -/

/-- The loop of `release_batch`: the states left, and whether one of the floor round was
removed. -/
def removeMembers (floor : Option ℕ) :
    List Digest → HashMap Digest AufState × Bool → HashMap Digest AufState × Bool
  | [], acc => acc
  | digest :: members, (aufStates, removedFloor) =>
      let atFloor := (aufStates.lookup digest).elim false (fun st => decide (some st.round = floor))
      removeMembers floor members (aufStates.erase digest, removedFloor || atFloor)

def releaseBatch (s : State) (σ : HashOrder) (batchIndex : ℕ) (members : List Digest) : State :=
  let removed := removeMembers s.activeFloorRound members (s.aufStates, false)
  let s := { s with batches := s.batches.erase batchIndex, aufStates := removed.1 }
  -- the floor can only rise if a state of the floor round left
  if removed.2 then s.recomputeActiveFloorRound σ else s

end State

end MrvExecutor

end Mrv
