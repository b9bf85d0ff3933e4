/-
  Mrv.Worker.QuorumWaiter — acknowledgements of a batch (`worker/src/quorum_waiter.rs`).

  A batch was broadcast to the other workers; each has a handler that resolves with an
  acknowledgement, or with an error when the sender is dropped.  The waiter adds up the
  stake of the handlers as they resolve and forwards the batch at a quorum.

  It does not look at how a handler resolved, and it compares with the threshold only
  after a resolution: `wait_eq` says what it forwards, and `forwards_iff_acknowledged`
  when that is what a quorum of acknowledgements calls for.
-/
import Mrv.Config

namespace Mrv

abbrev SerializedBatchMessage := List UInt8

/-- The receiving end of a one-shot channel. -/
structure CancelHandler where
  id : ℕ
  deriving DecidableEq

/-- What a handler resolves with. -/
inductive Resolution where
  | acknowledged (bytes : List UInt8)
  /-- The sender was dropped. -/
  | dropped
  deriving DecidableEq

structure QuorumWaiterMessage where
  /-- A serialized `WorkerMessage::Batch` message. -/
  batch : SerializedBatchMessage
  /-- The cancel handlers to receive the acknowledgements of our broadcast. -/
  handlers : List (PublicKey × CancelHandler)

/-- The QuorumWaiter waits for 2f authorities to acknowledge reception of a batch. -/
structure QuorumWaiter where
  committee : Committee
  /-- The stake of this authority. -/
  stake : Stake

namespace QuorumWaiter

/-! ## §1. The task. -/

/-- The waiter of a worker of the authority `name`. -/
def spawn (committee : Committee) (name : PublicKey) : QuorumWaiter :=
  ⟨committee, committee.stake name⟩

/-- `It waits for a future to complete and then delivers a value.` -/
def waiter (_waitFor : Resolution) (deliver : Stake) : Stake := deliver

/-- A handler that resolved, and with what. -/
abbrev Resolved := (PublicKey × CancelHandler) × Resolution

/-- `wait_for_quorum.next()` until the total stake reaches a quorum; returns what is sent to
`tx_batch`.  A future that resolved is not pending any more. -/
def wait (self : QuorumWaiter) (batch : SerializedBatchMessage) :
    Stake → List (PublicKey × CancelHandler) → List Resolved → List SerializedBatchMessage
  | _, _, [] => []
  | totalStake, waitForQuorum, (future, resolution) :: rest =>
      if future ∈ waitForQuorum then
        let totalStake := totalStake + waiter resolution (self.committee.stake future.1)
        if self.committee.quorumThreshold ≤ totalStake then [batch]
        else self.wait batch totalStake (waitForQuorum.erase future) rest
      else self.wait batch totalStake waitForQuorum rest

/-- `Main loop`, for one message and the handlers in the order in which they resolve. -/
def run (self : QuorumWaiter) (message : QuorumWaiterMessage) (resolved : List Resolved) :
    List SerializedBatchMessage :=
  self.wait message.batch self.stake message.handlers resolved

/-! ## §2. What the task is for. -/

/-- The stake of the authorities whose handlers resolved. -/
def resolvedStake (committee : Committee) (resolved : List Resolved) : ℕ :=
  (resolved.map (fun r => committee.weight r.1.1)).sum

/-- An acknowledgement. -/
def IsAcknowledged : Resolution → Bool
  | .acknowledged _ => true
  | .dropped => false

/-- The stake of the authorities that acknowledged. -/
def acknowledgedStake (committee : Committee) (resolved : List Resolved) : ℕ :=
  resolvedStake committee (resolved.filter (fun r => IsAcknowledged r.2))

/-- An order in which some of the handlers of a message resolve. -/
structure Resolves (message : QuorumWaiterMessage) (resolved : List Resolved) : Prop where
  handlers : ∀ r ∈ resolved, r.1 ∈ message.handlers
  once : (resolved.map Prod.fst).Nodup

/-- The batch is forwarded, once, exactly if this authority and those that acknowledged
hold a quorum. -/
structure ForwardsOnQuorum (committee : Committee) (name : PublicKey)
    (message : QuorumWaiterMessage) (resolved : List Resolved) : Prop where
  forwards : committee.quorumThreshold.toNat ≤
      committee.weight name + acknowledgedStake committee resolved →
    (spawn committee name).run message resolved = [message.batch]
  waits : committee.weight name + acknowledgedStake committee resolved <
      committee.quorumThreshold.toNat →
    (spawn committee name).run message resolved = []

/-! ## §3. What the task does. -/

/-- **What is forwarded**: the stake of every handler that resolved is counted, and at
least one has to resolve. -/
theorem wait_eq {self : QuorumWaiter} {batch : SerializedBatchMessage} {totalStake : Stake}
    {waitForQuorum : List (PublicKey × CancelHandler)} {resolved : List Resolved}
    (hpending : ∀ r ∈ resolved, r.1 ∈ waitForQuorum) (honce : (resolved.map Prod.fst).Nodup)
    (hfits : totalStake.toNat + resolvedStake self.committee resolved < 2 ^ 32) :
    self.wait batch totalStake waitForQuorum resolved =
      if resolved ≠ [] ∧ self.committee.quorumThreshold.toNat ≤
        totalStake.toNat + resolvedStake self.committee resolved then [batch] else [] := by
  induction resolved generalizing totalStake waitForQuorum with
  | nil => rfl
  | cons r resolved ih =>
      obtain ⟨future, resolution⟩ := r
      have hsum : resolvedStake self.committee ((future, resolution) :: resolved) =
          self.committee.weight future.1 + resolvedStake self.committee resolved := List.sum_cons
      rw [hsum] at hfits
      have hadd : (totalStake + self.committee.stake future.1).toNat =
          totalStake.toNat + self.committee.weight future.1 := by
        rw [UInt32.toNat_add]
        show (totalStake.toNat + self.committee.weight future.1) % 2 ^ 32 = _
        exact Nat.mod_eq_of_lt (by omega)
      have htest : self.committee.quorumThreshold ≤
          totalStake + self.committee.stake future.1 ↔
          self.committee.quorumThreshold.toNat ≤
            totalStake.toNat + self.committee.weight future.1 := by
        rw [UInt32.le_iff_toNat_le, hadd]
      have hmem : future ∈ waitForQuorum := hpending _ List.mem_cons_self
      rw [List.map_cons, List.nodup_cons] at honce
      show (if future ∈ waitForQuorum then
        if self.committee.quorumThreshold ≤ totalStake + self.committee.stake future.1 then [batch]
        else self.wait batch (totalStake + self.committee.stake future.1)
          (waitForQuorum.erase future) resolved
        else self.wait batch totalStake waitForQuorum resolved) = _
      rw [if_pos hmem, hsum]
      by_cases hquorum : self.committee.quorumThreshold.toNat ≤
          totalStake.toNat + self.committee.weight future.1
      · rw [if_pos (htest.mpr hquorum), if_pos ⟨List.cons_ne_nil _ _, by omega⟩]
      · have hrest : ∀ r ∈ resolved, r.1 ∈ waitForQuorum.erase future := by
          intro r hr
          have hne : r.1 ≠ future := by
            intro heq
            have hmap : r.1 ∈ resolved.map Prod.fst := List.mem_map_of_mem hr
            rw [heq] at hmap
            exact honce.1 hmap
          exact (List.mem_erase_of_ne hne).mpr (hpending r (List.mem_cons_of_mem _ hr))
        rw [if_neg (mt htest.mp hquorum), ih hrest honce.2 (by omega), hadd, ← Nat.add_assoc]
        -- the total below the quorum cannot be the last one to be tested
        refine if_congr ?_ rfl rfl
        constructor
        · intro h
          exact ⟨List.cons_ne_nil _ _, h.2⟩
        · intro h
          refine ⟨?_, h.2⟩
          intro hnil
          have hzero : resolvedStake self.committee resolved = 0 := by
            rw [hnil]
            rfl
          omega

section

variable {committee : Committee} {name : PublicKey} {message : QuorumWaiterMessage}
  {resolved : List Resolved}

theorem acknowledgedStake_le : acknowledgedStake committee resolved ≤
    resolvedStake committee resolved :=
  List.Sublist.sum_le_sum (List.filter_sublist.map _) (fun _ _ => Nat.zero_le _)

/-- When counting every resolution makes no difference: the stakes add up in a `u32`, a
quorum of acknowledgements comes with a resolution, and the handlers that were dropped do
not complete a quorum. -/
structure Counts (committee : Committee) (name : PublicKey) (resolved : List Resolved) :
    Prop where
  fits : committee.weight name + resolvedStake committee resolved < 2 ^ 32
  resolution : committee.quorumThreshold.toNat ≤
    committee.weight name + acknowledgedStake committee resolved → resolved ≠ []
  dropped : committee.weight name + acknowledgedStake committee resolved <
      committee.quorumThreshold.toNat →
    committee.weight name + resolvedStake committee resolved < committee.quorumThreshold.toNat

theorem run_eq (hresolves : Resolves message resolved)
    (hfits : committee.weight name + resolvedStake committee resolved < 2 ^ 32) :
    (spawn committee name).run message resolved =
      if resolved ≠ [] ∧ committee.quorumThreshold.toNat ≤
        committee.weight name + resolvedStake committee resolved then [message.batch] else [] :=
  wait_eq hresolves.handlers hresolves.once hfits

/-- Where the stakes add up, the condition is necessary. -/
theorem counts_of_forwards (hresolves : Resolves message resolved)
    (hfits : committee.weight name + resolvedStake committee resolved < 2 ^ 32)
    (h : ForwardsOnQuorum committee name message resolved) : Counts committee name resolved := by
  have hrun := run_eq hresolves hfits
  refine ⟨hfits, ?_, ?_⟩
  · intro hquorum hnil
    have hforwards := h.forwards hquorum
    rw [hrun, if_neg (fun hif => hif.1 hnil)] at hforwards
    cases hforwards
  · intro hbelow
    by_contra hall
    have hwaits := h.waits hbelow
    have hne : resolved ≠ [] := by
      intro hnil
      rw [hnil] at hall hbelow
      exact hall hbelow
    rw [hrun, if_pos ⟨hne, by omega⟩] at hwaits
    cases hwaits

/-- Distinct authorities hold no more than the committee does. -/
theorem resolvedStake_le (hothers : (name :: message.handlers.map Prod.fst).Nodup)
    (hresolves : Resolves message resolved) :
    committee.weight name + resolvedStake committee resolved ≤ committee.totalStake := by
  have hauthors : ((resolved.map Prod.fst).map Prod.fst).Nodup := by
    refine hresolves.once.map_on fun x hx y hy => ?_
    obtain ⟨r, hr, rfl⟩ := List.mem_map.mp hx
    obtain ⟨r', hr', rfl⟩ := List.mem_map.mp hy
    exact List.inj_on_of_nodup_map (List.nodup_cons.mp hothers).2 (hresolves.handlers r hr)
      (hresolves.handlers r' hr')
  have hname : name ∉ (resolved.map Prod.fst).map Prod.fst := by
    intro hmem
    obtain ⟨x, hx, rfl⟩ := List.mem_map.mp hmem
    obtain ⟨r, hr, rfl⟩ := List.mem_map.mp hx
    exact (List.nodup_cons.mp hothers).1 (List.mem_map_of_mem (hresolves.handlers r hr))
  have hsum := List.sum_toFinset committee.weight (List.nodup_cons.mpr ⟨hname, hauthors⟩)
  rw [List.map_cons, List.sum_cons, List.map_map, List.map_map] at hsum
  show committee.weight name + (resolved.map (fun r => committee.weight r.1.1)).sum ≤ _
  exact hsum.symm.le.trans (Committee.sum_weight_le_totalStake _)

/-- **When a batch is forwarded iff a quorum acknowledged it**: exactly when counting every
resolution makes no difference, if the handlers are those of distinct other authorities and
the stake of the committee fits; whatever the committee, that condition is enough, and where
the stakes add up it is also necessary. -/
theorem forwards_iff_acknowledged (committee : Committee) (name : PublicKey)
    (message : QuorumWaiterMessage) (resolved : List Resolved)
    (hresolves : Resolves message resolved) :
    (Counts committee name resolved → ForwardsOnQuorum committee name message resolved) ∧
    (committee.weight name + resolvedStake committee resolved < 2 ^ 32 →
      ForwardsOnQuorum committee name message resolved → Counts committee name resolved) ∧
    ((name :: message.handlers.map Prod.fst).Nodup → committee.totalStake < 2 ^ 32 →
      (ForwardsOnQuorum committee name message resolved ↔ Counts committee name resolved)) := by
  have hle : acknowledgedStake committee resolved ≤ resolvedStake committee resolved :=
    acknowledgedStake_le
  have henough (h : Counts committee name resolved) :
      ForwardsOnQuorum committee name message resolved := by
    have hrun := run_eq hresolves h.fits
    constructor
    · intro hquorum
      rw [hrun, if_pos ⟨h.resolution hquorum, by omega⟩]
    · intro hbelow
      have hall := h.dropped hbelow
      rw [hrun, if_neg (fun hif => by omega)]
  refine ⟨henough, counts_of_forwards hresolves, fun hothers htotal => ⟨?_, henough⟩⟩
  exact counts_of_forwards hresolves ((resolvedStake_le hothers hresolves).trans_lt htotal)

end

/-- A batch for three other workers. -/
def sampleMessage : QuorumWaiterMessage :=
  { batch := [1]
    handlers := [(sampleKey 1, ⟨1⟩), (sampleKey 2, ⟨2⟩), (sampleKey 3, ⟨3⟩)] }

/-- Two of them acknowledge. -/
def sampleResolved : List Resolved :=
  [((sampleKey 3, ⟨3⟩), .acknowledged []), ((sampleKey 1, ⟨1⟩), .acknowledged [])]

/-- The two complete a quorum with ours, and the batch is forwarded. -/
theorem forwards_iff_acknowledged_sample :
    ForwardsOnQuorum Committee.sampleFour (sampleKey 0) sampleMessage sampleResolved := by
  have hresolves : Resolves sampleMessage sampleResolved := ⟨by decide, by decide⟩
  exact ((forwards_iff_acknowledged _ _ _ _ hresolves).2.2 (by decide) (by decide +kernel)).mpr
    ⟨by decide, by decide, by decide⟩

/-- Two handlers that were dropped: the batch is forwarded although nobody holds it. -/
theorem forwards_unacknowledged :
    ¬ ∀ (committee : Committee) (name : PublicKey) (message : QuorumWaiterMessage)
      (resolved : List Resolved),
      (name :: message.handlers.map Prod.fst).Nodup → Resolves message resolved →
      ForwardsOnQuorum committee name message resolved := by
  intro h
  have hresolves : Resolves sampleMessage
      [((sampleKey 3, ⟨3⟩), .dropped), ((sampleKey 1, ⟨1⟩), .dropped)] :=
    ⟨by decide, by decide⟩
  have hwaits := (h Committee.sampleFour (sampleKey 0) sampleMessage _ (by decide) hresolves).waits
    (by decide)
  have hforwards : (spawn Committee.sampleFour (sampleKey 0)).run sampleMessage
      [((sampleKey 3, ⟨3⟩), .dropped), ((sampleKey 1, ⟨1⟩), .dropped)] = [[1]] := by decide
  rw [hforwards] at hwaits
  cases hwaits

end QuorumWaiter

end Mrv
