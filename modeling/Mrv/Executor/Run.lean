/-
  Mrv.Executor.Run — runs of the MRV executor (`MrvExecutor::run`).

  A step receives one committed batch, records it, caps the horizons and outputs the
  batches that are ready, lowest index first.  The executor stops when the receiver of
  its output is dropped, and when it panics: then there is no next state.

  A step is taken with an iteration order for each batch index: that of the hash maps
  built while the batch of that index is processed.
-/
import Mrv.Executor.Sort
import Mrv.Lib.System

namespace Mrv

variable [Crypto]

namespace MrvExecutor

/-- Why the executor stops. -/
inductive Stop where
  /-- MRV stopped because downstream receiver was dropped. -/
  | receiverDropped
  | panic
  deriving DecidableEq

/-! ## §1. Recording a batch. -/

/-- A certificate that is not active yet becomes active. -/
def State.activate (s : State) (digest : Digest) (round : ℕ) : State :=
  if s.aufStates.lookup digest = none then
    let s := s.noteActiveRound round
    { s with aufStates := s.aufStates.insert digest (AufState.new round) }
  else s

/-- The loop body of `on_committed_batch`. -/
def State.register (core : MrvExecutor) (s : State) (certificate : Certificate) : Option State :=
  let digest := certificate.digest
  let round := certificate.round
  let author := certificate.origin
  -- the certificate is stored before it is traversed
  let s := { s with
    frontierRound := max s.frontierRound round
    store := s.store.insert digest certificate }
  (s.activate digest round).updateSeenForNewCertificate core.reachThreshold round author digest

/-- The members of a batch: the digests of its certificates. -/
def members (batch : CommittedSubDag) : List Digest :=
  batch.certificates.map Certificate.digest

/-- A batch with members becomes active. -/
def State.enqueue (s : State) (batch : CommittedSubDag) : State :=
  if members batch ≠ [] then
    { s with batches := s.batches.insert batch.batchIndex ⟨members batch⟩ }
  else s

/-- `on_committed_batch` up to `apply_window_cap`. -/
def record (core : MrvExecutor) (σ : HashOrder) (s : State) (batch : CommittedSubDag) :
    Option State :=
  (batch.certificates.foldlM (State.register core) s).map
    (fun s => core.applyWindowCap σ (s.enqueue batch))

/-! ## §2. Output. -/

/-- `self.tx_output.send(certificate)`. -/
def send (core : MrvExecutor) (s : State) (certificate : Certificate) : Option State :=
  if core.capacity = some s.txOutput.length then none
  else some { s with txOutput := s.txOutput ++ [certificate] }

/-- Output the batch of lowest index: the certificates in order, then the release. -/
def finalize (core : MrvExecutor) (σ : HashOrder) (s : State) (batchIndex : ℕ)
    (members : List Digest) : Except Stop State :=
  match core.sortBatch s σ members with
  | none => .error .panic
  | some sorted =>
      match (sorted.filterMap s.store.lookup).foldlM core.send s with
      | none => .error .receiverDropped
      | some s => .ok (s.releaseBatch σ batchIndex members)

/-- The loop of `try_finalize_batches`, at most `fuel` times. -/
def tryFinalizeBatches (core : MrvExecutor) (orders : ℕ → HashOrder) :
    ℕ → State → Except Stop State
  | 0, _ => .error .panic
  | fuel + 1, s =>
      match s.batches.entries with
      | [] => .ok s
      | (nextRound, batch) :: _ =>
          -- `members.is_empty()`: the entry goes, the loop goes on
          if batch.members = [] then
            tryFinalizeBatches core orders fuel { s with batches := s.batches.erase nextRound }
          else
            match s.batchHorizon batch.members with
            -- some member has no horizon yet
            | none => .ok s
            | some batchHorizon =>
                if s.frontierRound < batchHorizon then .ok s
                else
                  match core.finalize (orders nextRound) s nextRound batch.members with
                  | .error e => .error e
                  | .ok s => tryFinalizeBatches core orders fuel s

def onCommittedBatch (core : MrvExecutor) (orders : ℕ → HashOrder) (s : State)
    (batch : CommittedSubDag) : Except Stop State :=
  match core.record (orders batch.batchIndex) s batch with
  | none => .error .panic
  -- each turn but the last takes a batch off the map
  | some s => core.tryFinalizeBatches orders (s.batches.entries.length + 1) s

/-! ## §3. Runs. -/

/-- A batch is received from `rx_input`. -/
structure Delivery where
  batch : CommittedSubDag
  orders : ℕ → HashOrder

/-- The state after a batch for which `on_committed_batch` returns `Ok`; otherwise the
executor stops. -/
def next (core : MrvExecutor) (s : State) (d : Delivery) : Option State :=
  (core.onCommittedBatch d.orders s d.batch).toOption

/-- The executor as a transition system. -/
def system (core : MrvExecutor) : System State Delivery :=
  { init := State.new, next := core.next }

/-- A history of the executor, latest step first. -/
abbrev History := List (State × Delivery)

/-- Runs of the executor. -/
abbrev Run (core : MrvExecutor) (es : History) (s : State) : Prop := core.system.Run es s

/-! ## §4. What a history received. -/

/-- The batches a history received, in order. -/
def received : History → List CommittedSubDag
  | [] => []
  | (_, d) :: es => received es ++ [d.batch]

omit [Crypto] in
@[simp] theorem received_cons (s : State) (d : Delivery) (es : History) :
    received ((s, d) :: es) = received es ++ [d.batch] := rfl

/-- The certificates of some batches, in order. -/
def certificates (bs : List CommittedSubDag) : List Certificate :=
  bs.flatMap CommittedSubDag.certificates

omit [Crypto] in
@[simp] theorem certificates_append (bs bs' : List CommittedSubDag) :
    certificates (bs ++ bs') = certificates bs ++ certificates bs' :=
  List.flatMap_append

omit [Crypto] in
@[simp] theorem certificates_cons (b : CommittedSubDag) (bs : List CommittedSubDag) :
    certificates (b :: bs) = b.certificates ++ certificates bs := rfl

omit [Crypto] in
@[simp] theorem certificates_nil : certificates [] = [] := rfl

/-- No certificate digest occurs twice. -/
def Fresh (cs : List Certificate) : Prop := (cs.map Certificate.digest).Nodup

/-- The batches come with increasing index. -/
def Increasing (bs : List CommittedSubDag) : Prop :=
  (bs.map CommittedSubDag.batchIndex).Pairwise (· < ·)

instance (cs : List Certificate) : Decidable (Fresh cs) :=
  inferInstanceAs (Decidable (cs.map Certificate.digest).Nodup)

instance (bs : List CommittedSubDag) : Decidable (Increasing bs) :=
  inferInstanceAs (Decidable ((bs.map CommittedSubDag.batchIndex).Pairwise (· < ·)))

theorem Fresh.of_append {cs cs' : List Certificate} (h : Fresh (cs ++ cs')) : Fresh cs := by
  unfold Fresh at h
  rw [List.map_append] at h
  exact h.of_append_left

theorem Fresh.eq_of_digest {cs : List Certificate} (h : Fresh cs) {x y : Certificate}
    (hx : x ∈ cs) (hy : y ∈ cs) (heq : x.digest = y.digest) : x = y :=
  List.inj_on_of_nodup_map h hx hy heq

/-- The certificates of two parts have different digests. -/
theorem Fresh.apart {cs cs' : List Certificate} (h : Fresh (cs ++ cs')) {x y : Certificate}
    (hx : x ∈ cs) (hy : y ∈ cs') : x.digest ≠ y.digest := by
  unfold Fresh at h
  rw [List.map_append, List.nodup_append] at h
  exact h.2.2 x.digest (List.mem_map_of_mem hx) y.digest (List.mem_map_of_mem hy)

theorem Fresh.ne_of_append {cs : List Certificate} {c x : Certificate} (h : Fresh (cs ++ [c]))
    (hx : x ∈ cs) : x.digest ≠ c.digest :=
  h.apart hx List.mem_cons_self

/-- A delivery for examples: a batch of the given index, maps traversed as listed. -/
def sampleDelivery (batchIndex : ℕ) (cs : List Certificate) : Delivery :=
  { batch := { batchIndex, leaderRound := 0, leaderDigest := Digest.default, certificates := cs }
    orders := fun _ => HashOrder.listed }

/-- A batch for examples: of two certificates of round 1 the first is seen by three authors
in round 2, the second only in round 3. -/
def sampleContest : List Certificate :=
  [Certificate.sample 1 0 [], Certificate.sample 1 1 [], Certificate.sample 2 0 [0],
    Certificate.sample 2 1 [0], Certificate.sample 2 2 [0], Certificate.sample 2 3 [1],
    Certificate.sample 3 0 [0, 3], Certificate.sample 3 1 [0, 3], Certificate.sample 3 2 [0, 3]]

end MrvExecutor

end Mrv
