/-
  Mrv.Consensus.State — the state of the commit rule and the functions that read
  and update it (`consensus/src/lib.rs`).

  The DAG in memory is a map of maps: round, then author, then the certificate
  with its digest.  `State.update` prunes it after every committed certificate.

  A subtraction below zero and a failing `expect` stop the task: they are the
  constructors of `Panic`, and everything that can hit one returns `Except`.
-/
import Mrv.Messages
import Mrv.Lib.Search
import Mrv.Lib.Walk

namespace Mrv

/-- Why the consensus task can stop. -/
inductive Panic where
  /-- A round number would drop below zero. -/
  | underflow
  /-- We should have the whole history by now. -/
  | missingHistory
  /-- The leader of a round is picked among no authorities. -/
  | noAuthority
  /-- The search over the DAG ran out of fuel (it never does). -/
  | outOfFuel
  deriving DecidableEq

structure CommittedSubDag where
  batchIndex : ℕ
  leaderRound : ℕ
  leaderDigest : Digest
  certificates : List Certificate
  deriving DecidableEq

/-- The representation of the DAG in memory. -/
abbrev Dag := HashMap ℕ (HashMap PublicKey (Digest × Certificate))

namespace Dag

/-- The certificate of an author in a round, with its digest. -/
def find (dag : Dag) (round : ℕ) (name : PublicKey) : Option (Digest × Certificate) :=
  (dag.lookup round).bind (fun authorities => authorities.lookup name)

/-- `dag.entry(round).or_insert_with(HashMap::new).insert(name, x)`. -/
def add (dag : Dag) (round : ℕ) (name : PublicKey) (x : Digest × Certificate) : Dag :=
  dag.insert round (((dag.lookup round).getD ∅).insert name x)

/-- One round of the cleanup loop: drop the certificates of `name` below its last
committed round, the rounds left empty and the rounds out of reach. -/
def cleanup (dag : Dag) (gcDepth lastCommittedRound : ℕ) (name : PublicKey) (round : ℕ) :
    Dag :=
  dag.retain (fun r authorities =>
    let authorities' : HashMap PublicKey (Digest × Certificate) :=
      authorities.retain (fun n x => if n ≠ name ∨ round ≤ r then some x else none)
    if authorities'.entries ≠ [] ∧ lastCommittedRound ≤ r + gcDepth then some authorities'
    else none)

/-- The number of certificates in memory. -/
def size (dag : Dag) : ℕ := (dag.values.map (fun authorities => authorities.values.length)).sum

end Dag

/-- The state that needs to be persisted for crash-recovery. -/
structure State where
  /-- The last committed round. -/
  lastCommittedRound : ℕ
  /-- The last committed round for each authority. -/
  lastCommitted : HashMap PublicKey ℕ
  /-- The latest committed certificate (and its parents) for every authority. -/
  dag : Dag

namespace State

/-- `State::new`. -/
def new [Crypto] (genesis : List Certificate) : State :=
  let genesis := AList.collect (genesis.map (fun x => (x.origin, (x.digest, x))))
  { lastCommittedRound := 0
    lastCommitted := genesis.retain (fun _ x => some x.2.round)
    dag := AList.insert 0 genesis ∅ }

/-- Update and clean up internal state based on a committed certificate. -/
def update (s : State) (certificate : Certificate) (gcDepth : ℕ) : State :=
  let round := match s.lastCommitted.lookup certificate.origin with
    | some r => max r certificate.round
    | none => certificate.round
  let lastCommitted := s.lastCommitted.insert certificate.origin round
  let lastCommittedRound := lastCommitted.values.foldr max 0
  { lastCommittedRound
    lastCommitted
    dag := lastCommitted.entries.foldl
      (fun dag e => dag.cleanup gcDepth lastCommittedRound e.1 e.2) s.dag }

/-- The parent of `x` with this digest, as `order_dag` finds it: in the round
below, and not of a round already committed for its author. -/
def nextParent (s : State) (x : Certificate) (parent : Digest) : Option (Digest × Certificate) :=
  match (s.dag.lookup (x.round - 1)).bind
      (fun authorities => authorities.values.find? (fun e => decide (e.1 = parent))) with
  -- We already ordered or GC up to here.
  | none => none
  | some e => if s.lastCommitted.lookup e.2.origin = some e.2.round then none else some e

/-- The parents `order_dag` may push when it sequences a certificate. -/
def nextParents (s : State) (x : Digest × Certificate) :
    Except Panic (List (Digest × Certificate)) :=
  if x.2.header.parents.toList = [] then .ok []
  else if x.2.round = 0 then .error .underflow
  else .ok (x.2.header.parents.toList.filterMap (s.nextParent x.2))

end State

/-- The parameters of the consensus task. -/
structure Consensus where
  /-- The committee information. -/
  committee : Committee
  /-- The depth of the garbage collector. -/
  gcDepth : ℕ

namespace Consensus

/-- The certificate (and its digest) of the leader of a round, if we have it. -/
def leader (self : Consensus) (round : ℕ) (dag : Dag) :
    Except Panic (Option (Digest × Certificate)) :=
  let coin := round
  -- Elect the leader.
  let keys := self.committee.authorities.keys.insertionSort (· ≤ ·)
  match keys[coin % self.committee.size]? with
  | none => .error .noAuthority
  | some leader => .ok (dag.find round leader)

/-- The layers of `linked`: the certificates of each round that some certificate
of the layer above names as a parent. -/
def linkedLayer (dag : Dag) : List ℕ → List Certificate → Except Panic (List Certificate)
  | [], parents => .ok parents
  | r :: rs, parents =>
      match dag.lookup r with
      | none => .error .missingHistory
      | some authorities =>
          linkedLayer dag rs ((authorities.values.filter
            (fun e => parents.any (fun x => decide (e.1 ∈ x.header.parents)))).map Prod.snd)

/-- Checks if there is a path between two leaders. -/
def linked (leader prevLeader : Certificate) (dag : Dag) : Except Panic Bool := do
  let rounds := (List.range' prevLeader.round (leader.round - prevLeader.round)).reverse
  let parents ← linkedLayer dag rounds [leader]
  return parents.any (fun x => x.eq prevLeader)

/-- The loop of `order_leaders` over the rounds of past leaders. -/
def orderLeadersLoop (self : Consensus) (dag : Dag) :
    List ℕ → Certificate → Except Panic (List Certificate)
  | [], _ => .ok []
  | r :: rs, leader => do
      -- Get the certificate proposed by the previous leader.
      match ← self.leader r dag with
      | none => self.orderLeadersLoop dag rs leader
      | some (_, prevLeader) =>
          -- Check whether there is a path between the last two leaders.
          if ← linked leader prevLeader dag then
            let toCommit ← self.orderLeadersLoop dag rs prevLeader
            return prevLeader :: toCommit
          else
            self.orderLeadersLoop dag rs leader

/-- Order the past leaders that we didn't already commit, latest first. -/
def orderLeaders (self : Consensus) (leader : Certificate) (state : State) :
    Except Panic (List Certificate) :=
  if leader.round < 2 then .error .underflow
  else do
    let rounds := Walk.downBy2 (state.lastCommittedRound + 2) (leader.round - 2)
    let toCommit ← self.orderLeadersLoop state.dag rounds leader
    return leader :: toCommit

/-- Flatten the dag referenced by the input certificate. -/
def orderDag [Crypto] (self : Consensus) (leader : Certificate) (state : State) :
    Except Panic (List Certificate) := do
  let ordered ← Search.search .outOfFuel Prod.fst state.nextParents (state.dag.size + 2)
    [(leader.digest, leader)] ∅
  -- Ensure we do not commit garbage collected certificates.
  let ordered := (ordered.map Prod.snd).filter
    (fun x => decide (state.lastCommittedRound ≤ x.round + self.gcDepth))
  -- Order the output by round.
  return ordered.insertionSort (fun x y => x.round ≤ y.round)

/-- The stake of the certificates of a round that name the leader as a parent. -/
def support (self : Consensus) (dag : Dag) (round : ℕ) (leaderDigest : Digest) :
    Except Panic Stake :=
  match dag.lookup round with
  | none => .error .missingHistory
  | some authorities =>
      .ok ((authorities.values.filter (fun e => decide (leaderDigest ∈ e.2.header.parents))).map
        (fun e => self.committee.stake e.2.origin)).sum

/-- The leaders to commit after a certificate of the given round was added, oldest
first; none when the round reveals no leader or the leader lacks support. -/
def leadersToCommit (self : Consensus) (state : State) (round : ℕ) :
    Except Panic (List Certificate) :=
  if round = 0 then .error .underflow
  else
    let r := round - 1
    -- We only elect leaders for even round numbers.
    if r % 2 ≠ 0 ∨ r < 4 then .ok []
    else
      -- If we already ordered this leader, there is nothing to do.
      let leaderRound := r - 2
      if leaderRound ≤ state.lastCommittedRound then .ok []
      else do
        match ← self.leader leaderRound state.dag with
        | none => return []
        | some (leaderDigest, leader) =>
            -- Check if the leader has f+1 support from its children (ie. round r-1).
            let stake ← self.support state.dag (r - 1) leaderDigest
            if stake < self.committee.validityThreshold then return []
            else
              let toCommit ← self.orderLeaders leader state
              return toCommit.reverse

end Consensus

end Mrv
