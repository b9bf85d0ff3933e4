/-
  Mrv.Worker.BatchMaker — batches of client transactions (`worker/src/batch_maker.rs`).

  Transactions are pushed onto the current batch; the push that reaches the batch size
  seals it, and so does the timer.  What the batch maker is for is `Batched`: whatever
  the order of transactions and ticks, nothing is lost or reordered, and a batch is
  sealed as soon as it is large enough.

  Two accesses may stop the task.  The benchmark build looks at the first byte of a
  transaction before it looks at the length; and the buffer is reserved by the number
  of transactions, with a size in bytes.  `batch_maker_survives_iff` states exactly
  which transactions are batched in every interleaving.
-/
import Mrv.Lib.Except

namespace Mrv

abbrev Transaction := List UInt8

abbrev Batch := List Transaction

/-- How the program is built. -/
structure Build where
  /-- The `benchmark` feature. -/
  benchmark : Bool
  /-- Whether arithmetic that overflows panics; it wraps otherwise. -/
  overflowChecks : Bool
  deriving DecidableEq

/-- `Assemble clients transactions into batches.` -/
structure BatchMaker where
  batchSize : ℕ
  currentBatch : Batch
  currentBatchSize : ℕ
  /-- The batches delivered through `tx_message`, oldest first. -/
  sealed : List Batch
  deriving DecidableEq

namespace BatchMaker

/-- Why the task stops. -/
inductive Panic where
  | multiplyOverflow
  /-- `Vec::with_capacity` of more than `isize::MAX` bytes. -/
  | capacityOverflow
  | indexOutOfBounds
  deriving DecidableEq

/-! ## §1. The task. -/

/-- `batch_size * 2` on 64 bits. -/
def capacity (build : Build) (batchSize : ℕ) : Except Panic ℕ :=
  if batchSize * 2 < 2 ^ 64 then .ok (batchSize * 2)
  else if build.overflowChecks then .error .multiplyOverflow
  else .ok (batchSize * 2 % 2 ^ 64)

/-- `Batch::with_capacity`: a transaction's header takes 24 bytes. -/
def withCapacity (n : ℕ) : Except Panic Batch :=
  if 24 * n < 2 ^ 63 then .ok [] else .error .capacityOverflow

def spawn (build : Build) (batchSize : ℕ) : Except Panic BatchMaker := do
  let n ← capacity build batchSize
  let currentBatch ← withCapacity n
  return ⟨batchSize, currentBatch, 0, []⟩

/-- The id of a sample transaction: `tx[0] == 0u8 && tx.len() > 8`, then `tx[1..9]`. -/
def sampleId : Transaction → Except Panic (Option (List UInt8))
  -- `tx[0]` stands before `tx.len() > 8`
  | [] => .error .indexOutOfBounds
  | b :: tx => .ok (if b = 0 ∧ 8 < (b :: tx).length then some (tx.take 8) else none)

/-- `tx_ids`. -/
def txIds : Batch → Except Panic (List (List UInt8))
  | [] => .ok []
  | tx :: batch => do
      let id ← sampleId tx
      let ids ← txIds batch
      return id.toList ++ ids

/-- `Serialize the batch` and deliver it. -/
def deliver (s : BatchMaker) : BatchMaker :=
  { s with
    currentBatchSize := 0
    currentBatch := []
    sealed := s.sealed ++ [s.currentBatch] }

/-- `Seal and broadcast the current batch.`  The ids only go to the log. -/
def «seal» (build : Build) (s : BatchMaker) : Except Panic BatchMaker :=
  if build.benchmark then do
    let _ ← txIds s.currentBatch
    return s.deliver
  else .ok s.deliver

/-- What wakes the task. -/
inductive Action where
  | receive (transaction : Transaction)
  | timer
  deriving DecidableEq

/-- The transaction joins the current batch. -/
def push (transaction : Transaction) (s : BatchMaker) : BatchMaker :=
  { s with
    currentBatchSize := s.currentBatchSize + transaction.length
    currentBatch := s.currentBatch ++ [transaction] }

/-- One turn of the main loop. -/
def step (build : Build) (s : BatchMaker) : Action → Except Panic BatchMaker
  | .receive transaction =>
      let s := s.push transaction
      -- `if self.current_batch_size >= self.batch_size`
      if s.batchSize ≤ s.currentBatchSize then s.seal build else .ok s
  -- a tick seals what there is, if there is anything
  | .timer => if s.currentBatch = [] then .ok s else s.seal build

/-- `Main loop receiving incoming transactions and creating batches.` -/
def loop (build : Build) : BatchMaker → List Action → Except Panic BatchMaker
  | s, [] => .ok s
  | s, action :: actions => do
      let s ← s.step build action
      loop build s actions

def run (build : Build) (batchSize : ℕ) (actions : List Action) : Except Panic BatchMaker := do
  let s ← spawn build batchSize
  s.loop build actions

/-- The transactions received, in order. -/
def received : List Action → List Transaction
  | [] => []
  | .receive transaction :: actions => transaction :: received actions
  | .timer :: actions => received actions

/-! ## §2. What the task is for. -/

/-- The size of a batch in bytes. -/
def totalLength (batch : Batch) : ℕ := (batch.map List.length).sum

/-- The transactions `txs` in batches: nothing lost, nothing reordered, no batch empty and
none larger than needed.  (Only a batch size of zero is reached by no transactions.) -/
structure Batched (batchSize : ℕ) (txs : List Transaction) (s : BatchMaker) : Prop where
  order : s.sealed.flatten ++ s.currentBatch = txs
  size : s.currentBatchSize = totalLength s.currentBatch
  nonempty : ∀ batch ∈ s.sealed, batch ≠ []
  minimal : ∀ batch ∈ s.sealed, ∀ start, start <+: batch → start ≠ batch → start ≠ [] →
    totalLength start < batchSize

/-- The buffer of the first batch can be reserved. -/
def Fits (build : Build) (batchSize : ℕ) : Prop :=
  24 * (if build.overflowChecks then 2 * batchSize else 2 * batchSize % 2 ^ 64) < 2 ^ 63

/-! ## §3. The accesses that may fail. -/

theorem spawn_of_fits {build : Build} {batchSize : ℕ} (h : Fits build batchSize) :
    spawn build batchSize = .ok ⟨batchSize, [], 0, []⟩ := by
  unfold Fits at h
  have hcapacity : ∃ n, capacity build batchSize = .ok n ∧ 24 * n < 2 ^ 63 := by
    unfold capacity
    split at h
    · next hchecks => exact ⟨batchSize * 2, if_pos (by omega), by omega⟩
    · next hchecks =>
      by_cases hlt : batchSize * 2 < 2 ^ 64
      · exact ⟨batchSize * 2, if_pos hlt, by omega⟩
      · rw [if_neg hlt, if_neg hchecks]
        exact ⟨batchSize * 2 % 2 ^ 64, rfl, by omega⟩
  obtain ⟨n, hn, hlt⟩ := hcapacity
  unfold spawn
  rw [hn]
  show (withCapacity n >>= fun currentBatch => _) = _
  unfold withCapacity
  rw [if_pos hlt]
  rfl

theorem fits_of_spawn {build : Build} {batchSize : ℕ} {s : BatchMaker}
    (h : spawn build batchSize = .ok s) : Fits build batchSize := by
  obtain ⟨n, hn, h⟩ := bind_eq_ok.mp h
  obtain ⟨_, hcapacity, _⟩ := bind_eq_ok.mp h
  have hlt : 24 * n < 2 ^ 63 := by
    by_contra hge
    unfold withCapacity at hcapacity
    rw [if_neg hge] at hcapacity
    cases hcapacity
  unfold capacity at hn
  unfold Fits
  split at hn
  · have hmul := Except.ok.inj hn
    split <;> omega
  · split at hn
    · cases hn
    · next hchecks =>
      have hmod := Except.ok.inj hn
      rw [if_neg hchecks]
      omega

/-- The scan for sample transactions reads the first byte of each transaction. -/
theorem txIds_total_iff {batch : Batch} :
    (∃ ids, txIds batch = .ok ids) ↔ ∀ tx ∈ batch, tx ≠ [] := by
  induction batch with
  | nil => exact iff_of_true ⟨[], rfl⟩ (by simp)
  | cons tx batch ih =>
      rw [List.forall_mem_cons, ← ih]
      constructor
      · intro h
        obtain ⟨ids, h⟩ := h
        obtain ⟨id, hid, h⟩ := bind_eq_ok.mp h
        obtain ⟨ids, hids, _⟩ := bind_eq_ok.mp h
        refine ⟨?_, ids, hids⟩
        intro hnil
        subst hnil
        cases hid
      · intro h
        obtain ⟨hne, ids, hids⟩ := h
        cases tx with
        | nil => exact absurd rfl hne
        | cons b tx =>
            unfold txIds
            rw [hids]
            exact ⟨_, rfl⟩

/-- A batch that the scan lets pass. -/
def Scans (build : Build) (batch : Batch) : Prop := build.benchmark = true → ∀ tx ∈ batch, tx ≠ []

theorem seal_eq_ok_iff {build : Build} {s s' : BatchMaker} :
    s.seal build = .ok s' ↔ Scans build s.currentBatch ∧ s' = s.deliver := by
  unfold «seal» Scans
  by_cases hbenchmark : build.benchmark = true
  · rw [if_pos hbenchmark, bind_eq_ok]
    constructor
    · intro h
      obtain ⟨ids, hids, h⟩ := h
      exact ⟨fun _ => txIds_total_iff.mp ⟨ids, hids⟩, (Except.ok.inj h).symm⟩
    · intro h
      obtain ⟨ids, hids⟩ := txIds_total_iff.mpr (h.1 hbenchmark)
      exact ⟨ids, hids, congrArg Except.ok h.2.symm⟩
  · rw [if_neg hbenchmark]
    constructor
    · intro h
      exact ⟨fun h' => absurd h' hbenchmark, (Except.ok.inj h).symm⟩
    · intro h
      rw [h.2]

/-! ## §4. The invariant of the loop. -/

/-- The current batch waits for more transactions, and what was sealed was scanned. -/
structure Invariant (build : Build) (batchSize : ℕ) (txs : List Transaction) (s : BatchMaker) :
    Prop extends Batched batchSize txs s where
  batchSize_eq : s.batchSize = batchSize
  below : s.currentBatch ≠ [] → s.currentBatchSize < batchSize
  scanned : ∀ batch ∈ s.sealed, Scans build batch

theorem totalLength_append (a b : Batch) : totalLength (a ++ b) = totalLength a + totalLength b := by
  unfold totalLength
  rw [List.map_append, List.sum_append]

theorem totalLength_le_of_prefix {a b : Batch} (h : a <+: b) : totalLength a ≤ totalLength b := by
  obtain ⟨rest, rfl⟩ := h
  rw [totalLength_append]
  omega

section

variable {build : Build} {batchSize : ℕ} {txs : List Transaction} {s s' : BatchMaker}

theorem invariant_spawn : Invariant build batchSize [] ⟨batchSize, [], 0, []⟩ :=
  { order := rfl
    size := rfl
    nonempty := by simp
    minimal := by simp
    batchSize_eq := rfl
    below := fun h => absurd rfl h
    scanned := by simp }

/-- Sealing a batch that no shorter one could replace. -/
theorem Batched.deliver (hs : Batched batchSize txs s) (hne : s.currentBatch ≠ [])
    (hmin : ∀ start, start <+: s.currentBatch → start ≠ s.currentBatch → start ≠ [] →
      totalLength start < batchSize) : Batched batchSize txs s.deliver := by
  refine ⟨?_, rfl, ?_, ?_⟩
  · show (s.sealed ++ [s.currentBatch]).flatten ++ [] = txs
    simp [← hs.order]
  · intro batch hbatch
    obtain hbatch | hbatch := List.mem_append.mp hbatch
    · exact hs.nonempty batch hbatch
    · rw [List.mem_singleton.mp hbatch]
      exact hne
  · intro batch hbatch
    obtain hbatch | hbatch := List.mem_append.mp hbatch
    · exact hs.minimal batch hbatch
    · rw [List.mem_singleton.mp hbatch]
      exact hmin

theorem Invariant.push (hs : Invariant build batchSize txs s) (tx : Transaction) :
    Batched batchSize (txs ++ [tx]) (s.push tx) := by
  refine ⟨?_, ?_, hs.nonempty, hs.minimal⟩
  · show s.sealed.flatten ++ (s.currentBatch ++ [tx]) = txs ++ [tx]
    rw [← List.append_assoc, hs.order]
  · show s.currentBatchSize + tx.length = totalLength (s.currentBatch ++ [tx])
    rw [totalLength_append, hs.size]
    rfl

/-- A batch that was sealed leaves the invariant behind. -/
theorem Batched.invariant_deliver (hs : Batched batchSize txs s.deliver)
    (hsize : s.batchSize = batchSize) (hscanned : ∀ batch ∈ s.sealed, Scans build batch)
    (hcurrent : Scans build s.currentBatch) : Invariant build batchSize txs s.deliver := by
  refine ⟨hs, hsize, fun h => absurd rfl h, ?_⟩
  intro batch hbatch
  obtain hbatch | hbatch := List.mem_append.mp hbatch
  · exact hscanned batch hbatch
  · rw [List.mem_singleton.mp hbatch]
    exact hcurrent

theorem Invariant.receive (hs : Invariant build batchSize txs s) {tx : Transaction}
    (h : s.step build (.receive tx) = .ok s') : Invariant build batchSize (txs ++ [tx]) s' := by
  have hpush := hs.push tx
  change (if s.batchSize ≤ (s.push tx).currentBatchSize then (s.push tx).seal build
    else .ok (s.push tx)) = .ok s' at h
  rw [hs.batchSize_eq] at h
  split at h
  · obtain ⟨hscans, rfl⟩ := seal_eq_ok_iff.mp h
    refine (hpush.deliver ?_ ?_).invariant_deliver hs.batchSize_eq hs.scanned hscans
    · exact List.append_ne_nil_of_right_ne_nil _ (List.cons_ne_nil _ _)
    · -- a shorter batch stood before this transaction and was below the size
      intro start hstart hproper hne
      obtain rfl | hstart := List.prefix_concat_iff.mp hstart
      · exact absurd rfl hproper
      · have hcurrent : s.currentBatch ≠ [] := by
          intro hnil
          rw [hnil] at hstart
          exact hne (List.prefix_nil.mp hstart)
        have hle := totalLength_le_of_prefix hstart
        have hbelow := hs.below hcurrent
        rw [hs.size] at hbelow
        omega
  · next hlt =>
    obtain rfl := Except.ok.inj h
    exact ⟨hpush, hs.batchSize_eq, fun _ => Nat.lt_of_not_le hlt, hs.scanned⟩

theorem Invariant.timer (hs : Invariant build batchSize txs s)
    (h : s.step build .timer = .ok s') : Invariant build batchSize txs s' := by
  change (if s.currentBatch = [] then .ok s else s.seal build) = .ok s' at h
  split at h
  · obtain rfl := Except.ok.inj h
    exact hs
  · next hne =>
    obtain ⟨hscans, rfl⟩ := seal_eq_ok_iff.mp h
    refine (hs.toBatched.deliver hne ?_).invariant_deliver hs.batchSize_eq hs.scanned hscans
    intro start hstart _ _
    have hle := totalLength_le_of_prefix hstart
    have hbelow := hs.below hne
    rw [hs.size] at hbelow
    omega

/-- **Every turn keeps the invariant.** -/
theorem Invariant.loop (hs : Invariant build batchSize txs s) {actions : List Action}
    (h : s.loop build actions = .ok s') :
    Invariant build batchSize (txs ++ received actions) s' := by
  induction actions generalizing s txs with
  | nil =>
      obtain rfl := Except.ok.inj h
      rw [received, List.append_nil]
      exact hs
  | cons action actions ih =>
      obtain ⟨t, ht, hrest⟩ := bind_eq_ok.mp h
      cases action with
      | receive tx =>
          have hreceived := ih (hs.receive ht) hrest
          rw [List.append_assoc] at hreceived
          exact hreceived
      | timer => exact ih (hs.timer ht) hrest

/-! ## §5. When no turn fails. -/

/-- Transactions that pass the scan are never in the way. -/
theorem Invariant.step_total (hs : Invariant build batchSize txs s) {action : Action}
    (hscans : Scans build (txs ++ received [action])) :
    ∃ s', s.step build action = .ok s' := by
  have hcurrent : ∀ tx ∈ s.currentBatch, tx ∈ txs := by
    intro tx htx
    rw [← hs.order]
    exact List.mem_append_right _ htx
  cases action with
  | receive tx =>
      show ∃ s', (if s.batchSize ≤ (s.push tx).currentBatchSize then (s.push tx).seal build
        else .ok (s.push tx)) = .ok s'
      split
      · refine ⟨(s.push tx).deliver, seal_eq_ok_iff.mpr ⟨?_, rfl⟩⟩
        intro hbenchmark tx' htx'
        refine hscans hbenchmark tx' ?_
        obtain htx' | htx' := List.mem_append.mp htx'
        · exact List.mem_append_left _ (hcurrent tx' htx')
        · exact List.mem_append_right _ htx'
      · exact ⟨_, rfl⟩
  | timer =>
      show ∃ s', (if s.currentBatch = [] then .ok s else s.seal build) = .ok s'
      split
      · exact ⟨s, rfl⟩
      · refine ⟨s.deliver, seal_eq_ok_iff.mpr ⟨?_, rfl⟩⟩
        intro hbenchmark tx htx
        exact hscans hbenchmark tx (List.mem_append_left _ (hcurrent tx htx))

theorem received_append (a b : List Action) : received (a ++ b) = received a ++ received b := by
  induction a with
  | nil => rfl
  | cons action a ih =>
      cases action with
      | receive tx => exact congrArg (tx :: ·) ih
      | timer => exact ih

theorem Invariant.loop_total (hs : Invariant build batchSize txs s) {actions : List Action}
    (hscans : Scans build (txs ++ received actions)) :
    ∃ s', s.loop build actions = .ok s' := by
  induction actions generalizing s txs with
  | nil => exact ⟨s, rfl⟩
  | cons action actions ih =>
      have hsplit : txs ++ received (action :: actions) =
          txs ++ received [action] ++ received actions := by
        rw [List.append_assoc, ← received_append]
        rfl
      rw [hsplit] at hscans
      have hone : Scans build (txs ++ received [action]) :=
        fun hbenchmark tx htx => hscans hbenchmark tx (List.mem_append_left _ htx)
      obtain ⟨t, ht⟩ := hs.step_total hone
      have hturn : s.loop build [action] = .ok t := by
        unfold BatchMaker.loop
        rw [ht]
        rfl
      obtain ⟨s', hs'⟩ := ih (hs.loop hturn) hscans
      refine ⟨s', ?_⟩
      unfold BatchMaker.loop
      rw [ht]
      exact hs'

end

theorem received_map_receive (txs : List Transaction) : received (txs.map .receive) = txs := by
  induction txs with
  | nil => rfl
  | cons tx txs ih => exact congrArg (tx :: ·) ih

/-- A tick after a run of the loop leaves nothing to be sealed. -/
theorem currentBatch_of_timer {build : Build} {s s' : BatchMaker}
    (h : s.step build .timer = .ok s') : s'.currentBatch = [] := by
  change (if s.currentBatch = [] then .ok s else s.seal build) = .ok s' at h
  split at h
  · next hnil =>
    obtain rfl := Except.ok.inj h
    exact hnil
  · obtain ⟨_, rfl⟩ := seal_eq_ok_iff.mp h
    rfl

theorem loop_append {build : Build} {s s' : BatchMaker} {a b : List Action}
    (h : s.loop build (a ++ b) = .ok s') :
    ∃ t, s.loop build a = .ok t ∧ t.loop build b = .ok s' := by
  induction a generalizing s with
  | nil => exact ⟨s, rfl, h⟩
  | cons action a ih =>
      obtain ⟨t, ht, h⟩ := bind_eq_ok.mp h
      obtain ⟨u, hu, hrest⟩ := ih h
      refine ⟨u, ?_, hrest⟩
      unfold loop
      rw [ht]
      exact hu

/-- **Exactly when transactions are batched in every interleaving with the timer**: the
buffer can be reserved, and the benchmark build receives no empty transaction. -/
theorem batch_maker_survives_iff (build : Build) (batchSize : ℕ) (txs : List Transaction) :
    (∀ actions, received actions = txs →
      ∃ s, run build batchSize actions = .ok s ∧ Batched batchSize txs s) ↔
    Fits build batchSize ∧ (build.benchmark = true → ∀ tx ∈ txs, tx ≠ []) := by
  constructor
  · intro h
    -- a tick after the last transaction scans all of them
    have hreceived : received (txs.map .receive ++ [.timer]) = txs := by
      rw [received_append, received_map_receive]
      exact List.append_nil txs
    obtain ⟨s, hrun, -⟩ := h _ hreceived
    obtain ⟨s₀, hspawn, hloop⟩ := bind_eq_ok.mp hrun
    have hfits := fits_of_spawn hspawn
    obtain rfl := Except.ok.inj ((spawn_of_fits hfits).symm.trans hspawn)
    refine ⟨hfits, ?_⟩
    intro hbenchmark tx htx
    have hinv := invariant_spawn.loop hloop
    rw [hreceived, List.nil_append] at hinv
    have hempty : s.currentBatch = [] := by
      obtain ⟨t, _, ht⟩ := loop_append hloop
      obtain ⟨u, hu, hs⟩ := bind_eq_ok.mp ht
      obtain rfl := Except.ok.inj hs
      exact currentBatch_of_timer hu
    rw [← hinv.order, hempty, List.append_nil] at htx
    obtain ⟨batch, hbatch, htx⟩ := List.mem_flatten.mp htx
    exact hinv.scanned batch hbatch hbenchmark tx htx
  · intro h actions hactions
    obtain ⟨hfits, hscans⟩ := h
    rw [← hactions] at hscans
    have hspawn : Invariant build batchSize [] ⟨batchSize, [], 0, []⟩ := invariant_spawn
    obtain ⟨s, hs⟩ := hspawn.loop_total hscans
    have hinv := hspawn.loop hs
    rw [List.nil_append, hactions] at hinv
    refine ⟨s, ?_, hinv.toBatched⟩
    unfold run
    rw [spawn_of_fits hfits]
    exact hs

/-- An empty transaction stops the benchmark build at the next tick. -/
theorem batch_maker_panics :
    ¬ ∀ (build : Build) (batchSize : ℕ) (actions : List Action),
      ∃ s, run build batchSize actions = .ok s ∧ Batched batchSize (received actions) s := by
  intro h
  obtain ⟨s, hs, _⟩ := h ⟨true, false⟩ 500000 [.receive [], .timer]
  have hpanic : run ⟨true, false⟩ 500000 [.receive [], .timer] = .error .indexOutOfBounds := rfl
  rw [hpanic] at hs
  cases hs

end BatchMaker

end Mrv
