/-
  Mrv.Protocol.Process — the process of one authority (`node/src/main.rs`).

  `run` spawns the tasks of a primary, the consensus task and the executor, and
  connects them by channels: the proposer's headers go to the core, the core's
  quorums back to the proposer and its certificates to consensus, the committed
  certificates to the garbage collector and the batches to the executor.  Each task
  takes from a channel what was put there, in order; the tasks take turns.

  The primary, consensus and the executor are seen through views (`primaryView`,
  `consensusView`, `executorView`), so that what was shown of their runs holds here.  What is
  put together here is the promise of the proposer to the core:

    * `Run.promised` — each header the core takes is made by our proposer, in a new
                       round and on a quorum of certificates the core accepted,
    * `Run.channels` — each task takes what the others sent, in order.
-/
import Mrv.Consensus.Run
import Mrv.Executor.Run
import Mrv.Lib.View
import Mrv.Primary.Backing

namespace Mrv

open Mrv.System (View)

variable [Crypto]

/-! ## §1. The process. -/

/-- The key, the committee and the parameters of a process. -/
structure ProcessConfig where
  core : Core
  headerSize : ℕ

namespace ProcessConfig

def proposer (self : ProcessConfig) : Proposer :=
  { name := self.core.name, headerSize := self.headerSize }

def consensus (self : ProcessConfig) : Consensus :=
  { committee := self.core.committee, gcDepth := self.core.gcDepth }

/-- `analyze` takes all that the executor puts out. -/
def executor (self : ProcessConfig) : MrvExecutor :=
  .spawn self.core.committee.size self.core.gcDepth none

end ProcessConfig

/-- The tasks of a process, and how much was taken from each of its channels. -/
structure Process where
  primary : Primary
  proposer : Proposer.State
  /-- The digests the proposer received and the headers it sent, in order. -/
  log : List Event
  consensus : Node
  executor : MrvExecutor.State
  /-- Taken by the proposer from `tx_parents`. -/
  parents : ℕ
  /-- Taken by the core from `tx_headers`. -/
  headers : ℕ
  /-- Taken by consensus from `tx_new_certificates`. -/
  certificates : ℕ
  /-- Taken by the garbage collector from `tx_feedback`. -/
  feedback : ℕ
  /-- Taken by the executor from `tx_consensus_to_mrv`. -/
  batches : ℕ

namespace Process

/-- What one of the tasks does next. -/
inductive Action where
  /-- A task of the primary moves, on what is its own or comes from outside. -/
  | primary (a : Primary.Action)
  /-- The timer of the proposer expires. -/
  | elapse
  /-- The proposer takes parents. -/
  | parents
  /-- The proposer takes the digest of a batch of our workers. -/
  | digest (digest : Digest) (workerId : WorkerId)
  /-- The proposer is woken by its timer. -/
  | timer
  /-- The core takes a header of the proposer. -/
  | header
  /-- Consensus takes a certificate. -/
  | certificate
  /-- Consensus flattens a leader. -/
  | commit
  /-- The garbage collector takes a committed certificate. -/
  | collect
  /-- The executor takes a batch, with the iteration orders of its hash maps. -/
  | batch (orders : ℕ → MrvExecutor.HashOrder)

/-- The steps of the proposer. -/
def Action.proposing : Action → Option Proposing.Action
  | .elapse => some .elapse
  | .parents => some .parents
  | .digest d workerId => some (.digest d workerId)
  | .timer => some .timer
  | _ => none

/-- The part of a process that is the proposer, its channels included. -/
def proposing (n : Process) : Proposing :=
  { core := n.primary.core, taken := n.parents, proposer := n.proposer, log := n.log }

/-- The process after the proposer moved. -/
def proposed (n : Process) (m : Proposing) : Process :=
  { n with parents := m.taken, proposer := m.proposer, log := m.log }

/-- The next header in the channel of the proposer. -/
def nextHeader (n : Process) : Option Header := (created n.log)[n.headers]?

/-- The next certificate in the channel of the core. -/
def nextCertificate (n : Process) : Option Certificate := n.primary.core.txConsensus[n.certificates]?

/-- The next certificate in the channel of consensus. -/
def nextFeedback (n : Process) : Option Certificate := n.consensus.feedback[n.feedback]?

def nextBatch (n : Process) : Option CommittedSubDag := n.consensus.output[n.batches]?

end Process

namespace ProcessConfig

variable (self : ProcessConfig)

/-- The process before its first step. -/
def start : Process :=
  { primary := Primary.new, proposer := Proposer.State.new self.core.committee, log := []
    consensus := self.consensus.start, executor := MrvExecutor.State.new, parents := 0, headers := 0
    certificates := 0, feedback := 0, batches := 0 }

/-- The proposer moves. -/
def propose (n : Process) (a : Proposing.Action) : Option Process :=
  (Proposing.next self.core self.proposer n.proposing a).map n.proposed

/-- What comes to the tasks of the primary from other tasks of the process. -/
def inside : Primary.Action → Bool
  | .ownHeader _ => true
  | .committed _ => true
  | _ => false

def next (n : Process) : Process.Action → Option Process
  | .primary a =>
      if inside a = true then none
      else (self.core.next n.primary a).map (fun primary => { n with primary })
  | .elapse => self.propose n .elapse
  | .parents => self.propose n .parents
  | .digest digest workerId => self.propose n (.digest digest workerId)
  | .timer => self.propose n .timer
  | .header => do
      let header ← n.nextHeader
      let primary ← self.core.next n.primary (.ownHeader header)
      some { n with primary, headers := n.headers + 1 }
  | .certificate => do
      let certificate ← n.nextCertificate
      let consensus ← self.consensus.next n.consensus (.receive certificate)
      some { n with consensus, certificates := n.certificates + 1 }
  | .commit => (self.consensus.next n.consensus .commit).map (fun consensus => { n with consensus })
  | .collect => do
      let certificate ← n.nextFeedback
      -- `if round > last_committed_round`: the last committed round is the consensus round
      let primary := (self.core.next n.primary (.committed certificate.round)).getD n.primary
      some { n with primary, feedback := n.feedback + 1 }
  | .batch orders => do
      let batch ← n.nextBatch
      let executor ← self.executor.next n.executor ⟨batch, orders⟩
      some { n with executor, batches := n.batches + 1 }

/-- A process as a transition system. -/
def system : System Process Process.Action := { init := self.start, next := self.next }

/-- A history of a process, latest step first. -/
abbrev History := List (Process × Process.Action)

/-- Runs of a process. -/
abbrev Run (es : History) (n : Process) : Prop := self.system.Run es n

/-! ## §2. What its tasks see. -/

variable {self} {es : History} {n n' : Process}

/-- **The steps of a process.** -/
inductive Steps (self : ProcessConfig) (n : Process) : Process.Action → Process → Prop
  | primary (a : Primary.Action) (primary : Primary) (hinside : inside a = false)
      (hnext : self.core.next n.primary a = some primary) :
      Steps self n (.primary a) { n with primary }
  | proposer (a : Process.Action) (b : Proposing.Action) (m : Proposing)
      (hkind : a.proposing = some b)
      (hnext : Proposing.next self.core self.proposer n.proposing b = some m) :
      Steps self n a (n.proposed m)
  | header (header : Header) (primary : Primary) (hheader : n.nextHeader = some header)
      (hnext : self.core.next n.primary (.ownHeader header) = some primary) :
      Steps self n .header { n with primary, headers := n.headers + 1 }
  | certificate (certificate : Certificate) (consensus : Node)
      (hcertificate : n.nextCertificate = some certificate)
      (hnext : self.consensus.next n.consensus (.receive certificate) = some consensus) :
      Steps self n .certificate { n with consensus, certificates := n.certificates + 1 }
  | commit (consensus : Node) (hnext : self.consensus.next n.consensus .commit = some consensus) :
      Steps self n .commit { n with consensus }
  | collect (certificate : Certificate) (hcertificate : n.nextFeedback = some certificate) :
      Steps self n .collect { n with
        primary := (self.core.next n.primary (.committed certificate.round)).getD n.primary
        feedback := n.feedback + 1 }
  | batch (orders : ℕ → MrvExecutor.HashOrder) (batch : CommittedSubDag)
      (executor : MrvExecutor.State) (hbatch : n.nextBatch = some batch)
      (hnext : self.executor.next n.executor ⟨batch, orders⟩ = some executor) :
      Steps self n (.batch orders) { n with executor, batches := n.batches + 1 }

theorem steps_of_next {a : Process.Action} (h : self.next n a = some n') : Steps self n a n' := by
  have hproposer : ∀ b, self.propose n b = some n' → a.proposing = some b →
      Steps self n a n' := by
    intro b hb hkind
    obtain ⟨m, hm, rfl⟩ := Option.map_eq_some_iff.mp hb
    exact .proposer a b m hkind hm
  cases a with
  | primary a =>
      unfold next at h
      dsimp only at h
      cases hinside : inside a with
      | true =>
          rw [hinside, if_pos rfl] at h
          exact absurd h.symm (Option.some_ne_none _)
      | false =>
          rw [hinside, if_neg Bool.false_ne_true] at h
          obtain ⟨primary, hnext, rfl⟩ := Option.map_eq_some_iff.mp h
          exact .primary a primary hinside hnext
  | elapse => exact hproposer .elapse h rfl
  | parents => exact hproposer .parents h rfl
  | digest digest workerId => exact hproposer _ h rfl
  | timer => exact hproposer .timer h rfl
  | header =>
      obtain ⟨header, hheader, h⟩ := Option.bind_eq_some_iff.mp h
      obtain ⟨primary, hnext, h⟩ := Option.bind_eq_some_iff.mp h
      rw [← Option.some.inj h]
      exact .header header primary hheader hnext
  | certificate =>
      obtain ⟨certificate, hcertificate, h⟩ := Option.bind_eq_some_iff.mp h
      obtain ⟨consensus, hnext, h⟩ := Option.bind_eq_some_iff.mp h
      rw [← Option.some.inj h]
      exact .certificate certificate consensus hcertificate hnext
  | commit =>
      obtain ⟨consensus, hnext, rfl⟩ := Option.map_eq_some_iff.mp h
      exact .commit consensus hnext
  | collect =>
      obtain ⟨certificate, hcertificate, h⟩ := Option.bind_eq_some_iff.mp h
      rw [← Option.some.inj h]
      exact .collect certificate hcertificate
  | batch orders =>
      obtain ⟨batch, hbatch, h⟩ := Option.bind_eq_some_iff.mp h
      obtain ⟨executor, hnext, h⟩ := Option.bind_eq_some_iff.mp h
      rw [← Option.some.inj h]
      exact .batch orders batch executor hbatch hnext

theorem next_committed (self : Core) (n : Primary) (round : ℕ) :
    self.next n (.committed round)
      = if n.consensusRound < round then some { n with consensusRound := round } else none := rfl

/-- The garbage collector leaves the core alone. -/
theorem core_committed (self : Core) (n : Primary) (round : ℕ) :
    ((self.next n (.committed round)).getD n).core = n.core := by
  rw [next_committed]
  split <;> rfl

/-- The garbage collector keeps the highest round. -/
theorem consensusRound_committed (self : Core) (n : Primary) (round : ℕ) :
    ((self.next n (.committed round)).getD n).consensusRound = max n.consensusRound round := by
  rw [next_committed]
  split
  · next hlt => exact (max_eq_right (Nat.le_of_lt hlt)).symm
  · next hlt => exact (max_eq_left (Nat.le_of_not_lt hlt)).symm

/-- Nothing else moves the consensus round. -/
theorem consensusRound_of_next {self : Core} {n n' : Primary} {a : Primary.Action}
    (h : self.next n a = some n') (ha : ∀ round, a ≠ .committed round) :
    n'.consensusRound = n.consensusRound := by
  obtain ⟨input, n₀, hinput, _, rfl⟩ | hbackground := Core.next_cases h
  · exact (Primary.of_input hinput).2
  · cases Primary.works_of_background hbackground with
    | committed round _ => exact absurd rfl (ha round)
    | _ => rfl

/-- What the primary sees of a step. -/
def primaryLabel (n : Process) : Process.Action → Option Primary.Action
  | .primary a => some a
  | .header => n.nextHeader.map .ownHeader
  | .collect => n.nextFeedback.bind fun certificate =>
      if n.primary.consensusRound < certificate.round then some (.committed certificate.round)
      else none
  | _ => none

/-- What the consensus task sees of a step. -/
def consensusLabel (n : Process) : Process.Action → Option Mrv.Action
  | .certificate => n.nextCertificate.map .receive
  | .commit => some .commit
  | _ => none

/-- What the executor sees of a step. -/
def executorLabel (n : Process) : Process.Action → Option MrvExecutor.Delivery
  | .batch orders => n.nextBatch.map fun batch => ⟨batch, orders⟩
  | _ => none

omit [Crypto] in
/-- The steps of the proposer are its own. -/
theorem labels_of_proposing {a : Process.Action} {b : Proposing.Action}
    (h : a.proposing = some b) :
    primaryLabel n a = none ∧ consensusLabel n a = none ∧ executorLabel n a = none := by
  cases a <;> simp_all [Process.Action.proposing, primaryLabel, consensusLabel, executorLabel]

omit [Crypto] in
theorem primaryLabel_collect {certificate : Certificate}
    (h : n.nextFeedback = some certificate) :
    primaryLabel n .collect = if n.primary.consensusRound < certificate.round then
      some (.committed certificate.round) else none := by
  show n.nextFeedback.bind _ = _
  rw [h, Option.bind_some]

omit [Crypto] in
/-- Messages come from outside. -/
theorem eq_of_label_message {a : Process.Action} {message : PrimaryMessage}
    (h : primaryLabel n a = some (.message message)) : a = .primary (.message message) := by
  cases a with
  | primary b => rw [Option.some.inj h]
  | header =>
      obtain ⟨header, _, heq⟩ := Option.map_eq_some_iff.mp h
      cases heq
  | collect =>
      obtain ⟨certificate, _, heq⟩ := Option.bind_eq_some_iff.mp h
      split at heq
      · cases Option.some.inj heq
      · cases heq
  | _ => cases h

/-- The primary of a process. -/
def primaryView (self : ProcessConfig) : View self.system self.core.system where
  state n := n.primary
  label := primaryLabel
  init := rfl
  step n a n' hstep k hk := by
    cases steps_of_next hstep with
    | primary a primary _ hnext =>
        rw [← Option.some.inj hk]
        exact hnext
    | proposer _ b m hkind _ =>
        rw [(labels_of_proposing hkind).1] at hk
        cases hk
    | header header primary hheader hnext =>
        unfold primaryLabel at hk
        rw [hheader] at hk
        rw [← Option.some.inj hk]
        exact hnext
    | certificate certificate consensus _ _ => cases hk
    | commit consensus _ => cases hk
    | collect certificate hcertificate =>
        rw [primaryLabel_collect hcertificate] at hk
        split at hk
        · next hlt =>
          rw [← Option.some.inj hk, next_committed, if_pos hlt]
          exact (next_committed self.core n.primary certificate.round).trans (if_pos hlt)
        · exact absurd hk.symm (Option.some_ne_none _)
    | batch orders batch executor _ _ => cases hk
  silent n a n' hstep hnone := by
    cases steps_of_next hstep with
    | primary a primary _ _ => cases hnone
    | header header primary hheader _ =>
        unfold primaryLabel at hnone
        rw [hheader] at hnone
        cases hnone
    | collect certificate hcertificate =>
        rw [primaryLabel_collect hcertificate] at hnone
        split at hnone
        · cases hnone
        · next hlt =>
          rw [next_committed, if_neg hlt]
          rfl
    | _ => rfl

/-- The consensus task of a process. -/
def consensusView (self : ProcessConfig) : View self.system self.consensus.system where
  state n := n.consensus
  label := consensusLabel
  init := rfl
  step n a n' hstep k hk := by
    cases steps_of_next hstep with
    | proposer _ b m hkind _ =>
        rw [(labels_of_proposing hkind).2.1] at hk
        cases hk
    | certificate certificate consensus hcertificate hnext =>
        unfold consensusLabel at hk
        rw [hcertificate] at hk
        rw [← Option.some.inj hk]
        exact hnext
    | commit consensus hnext =>
        rw [← Option.some.inj hk]
        exact hnext
    | _ => cases hk
  silent n a n' hstep hnone := by
    cases steps_of_next hstep with
    | certificate certificate consensus hcertificate _ =>
        unfold consensusLabel at hnone
        rw [hcertificate] at hnone
        cases hnone
    | commit consensus _ => cases hnone
    | _ => rfl

/-- The executor of a process. -/
def executorView (self : ProcessConfig) : View self.system self.executor.system where
  state n := n.executor
  label := executorLabel
  init := rfl
  step n a n' hstep k hk := by
    cases steps_of_next hstep with
    | proposer _ b m hkind _ =>
        rw [(labels_of_proposing hkind).2.2] at hk
        cases hk
    | batch orders batch executor hbatch hnext =>
        unfold executorLabel at hk
        rw [hbatch] at hk
        rw [← Option.some.inj hk]
        exact hnext
    | _ => cases hk
  silent n a n' hstep hnone := by
    cases steps_of_next hstep with
    | batch orders batch executor hbatch _ =>
        unfold executorLabel at hnone
        rw [hbatch] at hnone
        cases hnone
    | _ => rfl

/-! ## §3. The headers of the proposer. -/

open Mrv.Core (Incoming ownHeaders Proposes Proposed)

variable {X : Set Header}

/-- The history of the primary of a process. -/
abbrev primaryHistory (self : ProcessConfig) (es : History) : Core.History :=
  self.primaryView.history es

/-- What a step of the proposer adds to its headers. -/
theorem created_of_propose {a : Process.Action} {b : Proposing.Action} {m : Proposing}
    (hkind : a.proposing = some b) (h : Proposing.next self.core self.proposer n.proposing b = some m) :
    m.core = n.primary.core ∧ (created m.log = created n.log ∨
      created m.log = created n.log ++ [self.proposer.makeHeader n.proposer]) := by
  have hpropose : created (Proposing.propose self.proposer n.proposing).log = created n.log ∨
      created (Proposing.propose self.proposer n.proposing).log
        = created n.log ++ [self.proposer.makeHeader n.proposer] := by
    unfold Proposing.propose
    split
    · exact Or.inr (created_created _)
    · exact Or.inl rfl
  have hcore := core_propose self.proposer n.proposing
  cases a with
  | elapse =>
      rw [← Option.some.inj hkind] at h
      rw [← Option.some.inj h]
      exact ⟨rfl, Or.inl rfl⟩
  | parents =>
      rw [← Option.some.inj hkind] at h
      unfold Proposing.next at h
      cases hmessage : n.proposing.core.txProposer[n.proposing.taken]? with
      | none =>
          rw [hmessage] at h
          exact absurd h.symm (Option.some_ne_none _)
      | some message =>
          rw [hmessage] at h
          rw [← Option.some.inj h]
          exact ⟨hcore, hpropose⟩
  | digest d workerId =>
      rw [← Option.some.inj hkind] at h
      rw [← Option.some.inj h]
      refine ⟨hcore, ?_⟩
      dsimp only
      rw [created_received]
      exact hpropose
  | timer =>
      rw [← Option.some.inj hkind] at h
      rw [← Option.some.inj h]
      exact ⟨hcore, hpropose⟩
  | _ => exact absurd hkind.symm (Option.some_ne_none _)

/-- The headers of the proposer are ours. -/
theorem Run.made (hrun : self.Run es n) : ∀ h ∈ created n.log, ∃ payload parents,
    h = Header.new self.core.name h.round payload parents := by
  refine System.Run.invariant (P := fun _ n => ∀ h ∈ created n.log, ∃ payload parents,
    h = Header.new self.core.name h.round payload parents) ?_ ?_ hrun
  · exact fun h hh => absurd hh List.not_mem_nil
  · intro es n a n' _ ih hstep
    cases steps_of_next hstep with
    | proposer _ b m hkind hnext =>
        intro h hh
        change h ∈ created m.log at hh
        obtain hsame | hmore := (created_of_propose hkind hnext).2
        · exact ih h (hsame ▸ hh)
        · obtain hold | hlast := List.mem_append.mp (hmore ▸ hh)
          · exact ih h hold
          · rw [List.mem_singleton.mp hlast]
            exact ⟨_, _, rfl⟩
    | _ => exact ih

/-- The worker ids of the digests that wait in the proposer. -/
theorem digests_of_propose {a : Process.Action} {b : Proposing.Action} {m : Proposing}
    (hkind : a.proposing = some b) (h : Proposing.next self.core self.proposer n.proposing b = some m) :
    ∀ e ∈ m.proposer.digests, e ∈ n.proposer.digests ∨ a = .digest e.1 e.2 := by
  have hpropose : ∀ e ∈ (Proposing.propose self.proposer n.proposing).proposer.digests,
      e ∈ n.proposer.digests := by
    unfold Proposing.propose
    split
    · exact fun e he => absurd he List.not_mem_nil
    · exact fun e he => he
  cases a with
  | elapse =>
      rw [← Option.some.inj hkind] at h
      rw [← Option.some.inj h]
      exact fun e he => Or.inl he
  | parents =>
      rw [← Option.some.inj hkind] at h
      unfold Proposing.next at h
      cases hmessage : n.proposing.core.txProposer[n.proposing.taken]? with
      | none =>
          rw [hmessage] at h
          exact absurd h.symm (Option.some_ne_none _)
      | some message =>
          rw [hmessage] at h
          rw [← Option.some.inj h]
          intro e he
          dsimp only [Proposer.receiveParents] at he
          split at he <;> exact Or.inl (hpropose e he)
  | digest d workerId =>
      rw [← Option.some.inj hkind] at h
      rw [← Option.some.inj h]
      intro e he
      obtain hold | hlast := List.mem_append.mp he
      · exact Or.inl (hpropose e hold)
      · rw [List.mem_singleton.mp hlast]
        exact Or.inr rfl
  | timer =>
      rw [← Option.some.inj hkind] at h
      rw [← Option.some.inj h]
      exact fun e he => Or.inl (hpropose e he)
  | _ => exact absurd hkind.symm (Option.some_ne_none _)

/-- **The batches of our headers were sent by our workers.** -/
theorem Run.loads (hrun : self.Run es n) {B : Digest × WorkerId → Prop}
    (hdigest : ∀ m d workerId, (m, Process.Action.digest d workerId) ∈ es → B (d, workerId)) :
    (∀ e ∈ n.proposer.digests, B e) ∧ ∀ h ∈ created n.log, ∀ e ∈ h.payload.entries, B e := by
  refine System.Run.invariant (P := fun es n =>
    (∀ m d workerId, (m, Process.Action.digest d workerId) ∈ es → B (d, workerId)) →
      (∀ e ∈ n.proposer.digests, B e) ∧ ∀ h ∈ created n.log, ∀ e ∈ h.payload.entries, B e)
    ?_ ?_ hrun hdigest
  · exact fun _ => ⟨fun e he => absurd he List.not_mem_nil, fun h hh => absurd hh List.not_mem_nil⟩
  · intro es n a n' _ ih hstep hdigest
    obtain ⟨hwaiting, hmade⟩ := ih fun m d workerId hmem =>
      hdigest m d workerId (List.mem_cons_of_mem _ hmem)
    cases steps_of_next hstep with
    | proposer _ b m hkind hnext =>
        refine ⟨fun e he => ?_, fun h hh e he => ?_⟩
        · obtain hold | rfl := digests_of_propose hkind hnext e he
          · exact hwaiting e hold
          · exact hdigest n e.1 e.2 List.mem_cons_self
        · change h ∈ created m.log at hh
          obtain hsame | hmore := (created_of_propose hkind hnext).2
          · exact hmade h (hsame ▸ hh) e he
          · obtain hold | hlast := List.mem_append.mp (hmore ▸ hh)
            · exact hmade h hold e he
            · rw [List.mem_singleton.mp hlast] at he
              exact hwaiting e (BTreeMap.mem_of_mem_collect he)
    | _ => exact ⟨hwaiting, hmade⟩

/-- A header of ours passes the check of the others. -/
theorem verify_new {payload : BTreeMap Digest WorkerId} {parents : BTreeSet Digest} {round : ℕ}
    (hpositive : 0 < self.core.committee.weight self.core.name) (hsigns : self.core.SignsWell)
    (hworkers : ∀ e ∈ payload.entries, (self.core.committee.worker self.core.name e.2).toBool = true) :
    (Header.new self.core.name round payload parents).verify self.core.committee = .ok () := by
  unfold Header.verify
  rw [ensure_bind_eq_ok, ensure_bind_eq_ok]
  refine ⟨decide_eq_true (Header.digest_new _ _ _ _),
    decide_eq_true (UInt32.lt_iff_toNat_lt.mpr hpositive), bind_eq_ok.mpr ⟨(), ?_, ?_⟩⟩
  · refine forM_eq_ok.mpr fun workerId hmem => ?_
    obtain ⟨e, he, rfl⟩ := List.mem_map.mp hmem
    have hworker := hworkers e he
    dsimp only [Header.new]
    cases hcommittee : self.core.committee.worker self.core.name e.2 with
    | ok _ => rfl
    | error _ =>
        rw [hcommittee] at hworker
        exact absurd hworker Bool.false_ne_true
  · exact ensure_eq_ok.mpr (hsigns _)

/-- What the proposer made, and what the core took of it. -/
structure Promised (config : ProcessConfig) (es : History) (n : Process) : Prop where
  wellFormed : WellFormed config.core n.proposing
  taken : ownHeaders (config.primaryHistory es) = ((created n.log).take n.headers).reverse
  le : n.headers ≤ (created n.log).length

/-- A header made by the proposer is what the core expects. -/
theorem Promised.proposed (h : Promised self es n) (hrun : self.Run es n) {header : Header}
    (hheader : n.nextHeader = some header) :
    Proposed self.core n.primary.core (ownHeaders (self.primaryHistory es)) header := by
  have hmem : header ∈ created n.log := List.mem_of_getElem? hheader
  obtain ⟨payload, parents, hmade⟩ := Run.made hrun header hmem
  obtain ⟨digests, hdigests, hparents⟩ := h.wellFormed.parents header hmem
  refine ⟨⟨payload, digests, ?_, hparents⟩, fun x hx => ?_⟩
  · have heq : parents = BTreeSet.ofList digests := by
      rw [← hdigests, hmade]
      rfl
    rw [← heq]
    exact hmade
  · -- the headers are taken in the order of their rounds
    rw [h.taken, List.mem_reverse] at hx
    obtain ⟨i, hi, rfl⟩ := List.mem_iff_getElem.mp hx
    obtain ⟨hi', hlen⟩ := Nat.lt_min.mp (List.length_take ▸ hi)
    obtain ⟨hlt, rfl⟩ := List.getElem?_eq_some_iff.mp hheader
    have hincreasing := List.pairwise_iff_getElem.mp h.wellFormed.increasing i n.headers
      (by rw [List.length_map]; exact hlen) (by rw [List.length_map]; exact hlt) hi'
    rw [List.getElem_map, List.getElem_map] at hincreasing
    rw [List.getElem_take]
    exact hincreasing

theorem primaryHistory_header {header : Header} (hheader : n.nextHeader = some header) :
    self.primaryHistory ((n, .header) :: es)
      = (n.primary, .ownHeader header) :: self.primaryHistory es :=
  self.primaryView.history_cons_some (by
    show n.nextHeader.map _ = _
    rw [hheader]
    rfl)

/-- What came in earlier, as any view shows it, came in. -/
theorem incoming_earlier {σ ι : Type*} {S : System σ ι} {core : Core} (V : S.View core.system)
    {e : σ × ι} {fs : List (σ × ι)} (h : Incoming core X (V.history (e :: fs))) :
    Incoming core X (V.history fs) := by
  obtain ⟨s, i⟩ := e
  cases hlabel : V.label s i with
  | none => exact V.history_cons_none hlabel ▸ h
  | some k =>
      rw [V.history_cons_some hlabel] at h
      exact h.tail

/-- A step that the primary does not see, or that brings it no header of ours. -/
theorem proposes_aside (n : Process) (a : Process.Action) {b : Primary.Action} (hb : ∀ x, b ≠ .ownHeader x)
    (hlabel : primaryLabel n a = none ∨ primaryLabel n a = some b)
    (h : Proposes self.core (self.primaryHistory es)) :
    ownHeaders (self.primaryHistory ((n, a) :: es)) = ownHeaders (self.primaryHistory es) ∧
      Proposes self.core (self.primaryHistory ((n, a) :: es)) := by
  obtain hnone | hsome := hlabel
  · rw [show self.primaryHistory ((n, a) :: es) = _ from
      self.primaryView.history_cons_none hnone]
    exact ⟨rfl, h⟩
  · rw [show self.primaryHistory ((n, a) :: es) = _ from
      self.primaryView.history_cons_some hsome]
    refine ⟨?_, h, fun x hx => absurd hx (hb x)⟩
    cases b <;> first | rfl | exact absurd rfl (hb _)

/-- The proposer moves: what the core took was made before. -/
theorem Promised.propose (h : Promised self es n) {a : Process.Action} {b : Proposing.Action}
    {m : Proposing} (hfit : 2 * self.core.committee.totalStake < 2 ^ 32)
    (hkind : a.proposing = some b)
    (hnext : Proposing.next self.core self.proposer n.proposing b = some m)
    (hown : ownHeaders (self.primaryHistory ((n, a) :: es)) = ownHeaders (self.primaryHistory es)) :
    Promised self ((n, a) :: es) (n.proposed m) := by
  obtain ⟨hcore, hcreated⟩ := created_of_propose hkind hnext
  have hwell := h.wellFormed.next hfit hnext
  have heq : (n.proposed m).proposing = m := by
    unfold Process.proposing Process.proposed
    rw [← hcore]
  refine ⟨heq.symm ▸ hwell, hown.trans (h.taken.trans (congrArg List.reverse ?_)), ?_⟩
  · obtain hsame | hmore := hcreated
    · exact congrArg (List.take n.headers) hsame.symm
    · rw [show created (n.proposed m).log = _ from hmore]
      exact (List.take_append_of_le_length h.le).symm
  · have hle := h.le
    show n.headers ≤ (created m.log).length
    obtain hsame | hmore := hcreated
    · rw [hsame]
      exact hle
    · rw [hmore, List.length_append]
      omega

/-- The core takes the next header. -/
theorem Promised.header (h : Promised self es n) {header : Header} {primary : Primary}
    (hheader : n.nextHeader = some header)
    (hnext : self.core.next n.primary (.ownHeader header) = some primary)
    (hsupplies : Supplies self.core primary.core) :
    Promised self ((n, .header) :: es) { n with primary, headers := n.headers + 1 } := by
  obtain ⟨hlt, hget⟩ := List.getElem?_eq_some_iff.mp hheader
  refine ⟨h.wellFormed.setCore hsupplies (Core.extends_of_next hnext).txConsensus.subset, ?_, hlt⟩
  rw [primaryHistory_header hheader, Core.ownHeaders_cons, h.taken]
  show _ = ((created n.log).take (n.headers + 1)).reverse
  rw [← List.take_concat_get' _ _ hlt, List.reverse_append, hget]
  rfl

/-- **The promise of the proposer is kept** in every run of a process. -/
theorem Run.promised (hfit : 2 * self.core.committee.totalStake < 2 ^ 32)
    (hhash : Separated self.core.committee X) (hrun : self.Run es n)
    (hin : Incoming self.core X (self.primaryHistory es)) :
    Promised self es n ∧ Proposes self.core (self.primaryHistory es) := by
  refine System.Run.invariant (P := fun es n => Incoming self.core X (self.primaryHistory es) →
    Promised self es n ∧ Proposes self.core (self.primaryHistory es)) ?_ ?_ hrun hin
  · exact fun _ => ⟨⟨WellFormed.new, rfl, Nat.le_refl 0⟩, trivial⟩
  · intro es n a n' hrun ih hstep hin
    have hview := self.primaryView.run (.step hrun hstep)
    have hsupplies := (Core.Run.supplied hfit hhash hview hin).2.supplies
    obtain ⟨h, hproposes⟩ := ih (incoming_earlier self.primaryView hin)
    cases steps_of_next hstep with
    | primary b primary hinside hnext =>
        have hb : ∀ x, b ≠ .ownHeader x := by
          rintro x rfl
          cases hinside
        obtain ⟨hown, hproposes'⟩ := proposes_aside n (.primary b) hb (Or.inr rfl) hproposes
        refine ⟨⟨h.wellFormed.setCore hsupplies ?_, hown.trans h.taken, h.le⟩, hproposes'⟩
        exact (Core.extends_of_next hnext).txConsensus.subset
    | proposer a b m hkind hnext =>
        obtain ⟨hown, hproposes'⟩ := proposes_aside n a (b := .headerTimer) (fun _ => by simp)
          (Or.inl (labels_of_proposing hkind).1) hproposes
        exact ⟨h.propose hfit hkind hnext hown, hproposes'⟩
    | header header primary hheader hnext =>
        refine ⟨h.header hheader hnext hsupplies, ?_⟩
        rw [primaryHistory_header hheader]
        refine ⟨hproposes, fun x hx => ?_⟩
        rw [← Primary.Action.ownHeader.inj hx]
        exact h.proposed hrun hheader
    | certificate certificate consensus _ _ =>
        obtain ⟨hown, hproposes'⟩ := proposes_aside n .certificate (b := .headerTimer)
          (fun _ => by simp) (Or.inl rfl) hproposes
        exact ⟨⟨h.wellFormed, hown.trans h.taken, h.le⟩, hproposes'⟩
    | commit consensus _ =>
        obtain ⟨hown, hproposes'⟩ := proposes_aside n .commit (b := .headerTimer)
          (fun _ => by simp) (Or.inl rfl) hproposes
        exact ⟨⟨h.wellFormed, hown.trans h.taken, h.le⟩, hproposes'⟩
    | collect certificate hcertificate =>
        obtain ⟨hown, hproposes'⟩ := proposes_aside n .collect
          (b := .committed certificate.round) (fun _ => by simp) (by
            rw [primaryLabel_collect hcertificate]
            split
            · exact Or.inr rfl
            · exact Or.inl rfl) hproposes
        refine ⟨⟨h.wellFormed.setCore hsupplies ?_, hown.trans h.taken, h.le⟩, hproposes'⟩
        rw [core_committed]
        exact List.Subset.refl _
    | batch orders batch executor _ _ =>
        obtain ⟨hown, hproposes'⟩ := proposes_aside n (.batch orders) (b := .headerTimer)
          (fun _ => by simp) (Or.inl rfl) hproposes
        exact ⟨⟨h.wellFormed, hown.trans h.taken, h.le⟩, hproposes'⟩

/-! ## §4. The channels. -/

open Consensus (delivered emitted)
open MrvExecutor (received)

/-- The history of the consensus task of a process. -/
abbrev consensusHistory (self : ProcessConfig) (es : History) : Consensus.History :=
  self.consensusView.history es

/-- The history of the executor of a process. -/
abbrev executorHistory (self : ProcessConfig) (es : History) : MrvExecutor.History :=
  self.executorView.history es

theorem consensusHistory_quiet {a : Process.Action} (h : consensusLabel n a = none) :
    self.consensusHistory ((n, a) :: es) = self.consensusHistory es :=
  self.consensusView.history_cons_none h

theorem executorHistory_idle {a : Process.Action} (h : executorLabel n a = none) :
    self.executorHistory ((n, a) :: es) = self.executorHistory es :=
  self.executorView.history_cons_none h

/-- The highest round of a list of certificates. -/
def highest (certificates : List Certificate) : ℕ := (certificates.map Certificate.round).foldr max 0

/-- What was taken from the channels is what was put there, in order. -/
structure Channels (config : ProcessConfig) (es : History) (n : Process) : Prop where
  certificates : n.certificates ≤ n.primary.core.txConsensus.length
  delivered : delivered (config.consensusHistory es)
    = (n.primary.core.txConsensus.take n.certificates).reverse
  batches : n.batches ≤ n.consensus.output.length
  received : received (config.executorHistory es) = n.consensus.output.take n.batches
  feedback : n.consensus.feedback = emitted n.consensus
  collected : n.feedback ≤ n.consensus.feedback.length
  /-- The garbage collector passes the highest committed round on. -/
  consensusRound : n.primary.consensusRound
    = highest (n.consensus.feedback.take n.feedback)

omit [Crypto] in
/-- More in a channel does not change what was taken. -/
theorem take_of_prefix {α : Type} {l l' : List α} {k : ℕ} (h : l <+: l') (hle : k ≤ l.length) :
    l'.take k = l.take k ∧ k ≤ l'.length := by
  obtain ⟨t, rfl⟩ := h
  refine ⟨List.take_append_of_le_length hle, ?_⟩
  rw [List.length_append]
  omega

omit [Crypto] in
/-- One more is taken. -/
theorem take_succ_of_getElem? {α : Type} {l : List α} {k : ℕ} {x : α} (h : l[k]? = some x) :
    l.take (k + 1) = l.take k ++ [x] ∧ k + 1 ≤ l.length := by
  obtain ⟨hlt, rfl⟩ := List.getElem?_eq_some_iff.mp h
  exact ⟨(List.take_concat_get' _ _ hlt).symm, hlt⟩

omit [Crypto] in
theorem highest_concat (l : List Certificate) (c : Certificate) :
    highest (l ++ [c]) = max (highest l) c.round := by
  unfold highest
  induction l with
  | nil => simp
  | cons x l ih =>
      rw [List.cons_append, List.map_cons, List.foldr_cons, ih, List.map_cons, List.foldr_cons,
        max_assoc]

/-- Consensus takes nothing back. -/
theorem output_prefix_of_next {task : Consensus} {m m' : Node} {a : Mrv.Action}
    (h : task.next m a = some m') (hfeedback : m.feedback = emitted m) :
    m.output <+: m'.output ∧ m.feedback <+: m'.feedback ∧ m'.feedback = emitted m' := by
  cases a with
  | receive c =>
      obtain ⟨_, _, rfl⟩ := Consensus.next_receive h
      have houtput : (task.receive m c).output = m.output := Consensus.output_receive m c
      have hsame : (task.receive m c).feedback = m.feedback := by
        unfold Consensus.receive
        dsimp only
        split <;> rfl
      unfold emitted at hfeedback ⊢
      rw [houtput, hsame]
      exact ⟨List.prefix_refl _, List.prefix_refl _, hfeedback⟩
  | commit =>
      obtain ⟨leader, rest, _, _, rfl⟩ := Consensus.next_commit h
      unfold Consensus.commit
      split
      · exact ⟨List.prefix_refl _, List.prefix_refl _, hfeedback⟩
      · next batch _ =>
        split
        · exact ⟨List.prefix_refl _, List.prefix_refl _, hfeedback⟩
        · refine ⟨List.prefix_append _ _, List.prefix_append _ _, ?_⟩
          rw [Consensus.emitted_emit]
          exact congrArg (· ++ batch) hfeedback

/-- The core moves. -/
theorem Channels.core (h : Channels self es n) {a : Process.Action} {b : Primary.Action}
    {primary : Primary} (k : ℕ) (hnext : self.core.next n.primary b = some primary)
    (hb : ∀ round, b ≠ .committed round) (hquiet : consensusLabel n a = none)
    (hidle : executorLabel n a = none) :
    Channels self ((n, a) :: es) { n with primary, headers := k } := by
  obtain ⟨htake, hle⟩ := take_of_prefix (Core.extends_of_next hnext).txConsensus h.certificates
  refine ⟨hle, ?_, h.batches, ?_, h.feedback, h.collected, ?_⟩
  · rw [consensusHistory_quiet hquiet, htake]
    exact h.delivered
  · rw [executorHistory_idle hidle]
    exact h.received
  · exact (consensusRound_of_next hnext hb).trans h.consensusRound

/-- Consensus moves. -/
theorem Channels.consensus (h : Channels self es n) {a : Process.Action} {b : Mrv.Action}
    {consensus : Node} {k : ℕ} (hnext : self.consensus.next n.consensus b = some consensus)
    (hidle : executorLabel n a = none) (hle : k ≤ n.primary.core.txConsensus.length)
    (hdelivered : Consensus.delivered (self.consensusHistory ((n, a) :: es))
      = (n.primary.core.txConsensus.take k).reverse) :
    Channels self ((n, a) :: es) { n with consensus, certificates := k } := by
  obtain ⟨houtput, hmore, hfeedback⟩ := output_prefix_of_next hnext h.feedback
  obtain ⟨htake, hbatches⟩ := take_of_prefix houtput h.batches
  obtain ⟨hback, hcollected⟩ := take_of_prefix hmore h.collected
  refine ⟨hle, hdelivered, hbatches, ?_, hfeedback, hcollected, ?_⟩
  · rw [executorHistory_idle hidle, htake]
    exact h.received
  · rw [hback]
    exact h.consensusRound

/-- **The channels of a process are queues.** -/
theorem Run.channels (hrun : self.Run es n) : Channels self es n := by
  refine System.Run.invariant (P := fun es n => Channels self es n) ?_ ?_ hrun
  · exact ⟨Nat.le_refl 0, rfl, Nat.le_refl 0, rfl, rfl, Nat.le_refl 0, rfl⟩
  · intro es n a n' _ h hstep
    cases steps_of_next hstep with
    | primary b primary hinside hnext =>
        refine h.core n.headers hnext ?_ rfl rfl
        rintro round rfl
        cases hinside
    | proposer _ b m hkind hnext =>
        obtain ⟨_, hc, he⟩ := labels_of_proposing hkind
        refine ⟨h.certificates, ?_, h.batches, ?_, h.feedback, h.collected, h.consensusRound⟩
        · rw [consensusHistory_quiet hc]
          exact h.delivered
        · rw [executorHistory_idle he]
          exact h.received
    | header header primary hheader hnext =>
        exact h.core (n.headers + 1) hnext (fun _ => by simp) rfl rfl
    | certificate certificate consensus hcertificate hnext =>
        have hlabel : consensusLabel n .certificate = some (.receive certificate) := by
          show n.nextCertificate.map _ = _
          rw [hcertificate]
          rfl
        have hhistory : self.consensusHistory ((n, .certificate) :: es)
            = (n.consensus, .receive certificate) :: self.consensusHistory es :=
          self.consensusView.history_cons_some hlabel
        obtain ⟨hone, hle⟩ := take_succ_of_getElem? hcertificate
        refine h.consensus hnext rfl hle ?_
        rw [hhistory, Consensus.delivered_receive, h.delivered, hone, List.reverse_append]
        rfl
    | commit consensus hnext =>
        have hhistory : self.consensusHistory ((n, .commit) :: es)
            = (n.consensus, .commit) :: self.consensusHistory es :=
          self.consensusView.history_cons_some rfl
        refine h.consensus hnext rfl h.certificates ?_
        rw [hhistory, Consensus.delivered_commit]
        exact h.delivered
    | collect certificate hcertificate =>
        obtain ⟨hone, hle⟩ := take_succ_of_getElem? hcertificate
        refine ⟨?_, ?_, h.batches, ?_, h.feedback, hle, ?_⟩
        · rw [core_committed]
          exact h.certificates
        · rw [consensusHistory_quiet rfl, core_committed]
          exact h.delivered
        · rw [executorHistory_idle rfl]
          exact h.received
        · rw [consensusRound_committed, hone, highest_concat, h.consensusRound]
    | batch orders batch executor hbatch hnext =>
        have hlabel : executorLabel n (.batch orders) = some ⟨batch, orders⟩ := by
          show n.nextBatch.map _ = _
          rw [hbatch]
          rfl
        have hhistory : self.executorHistory ((n, .batch orders) :: es)
            = (n.executor, ⟨batch, orders⟩) :: self.executorHistory es :=
          self.executorView.history_cons_some hlabel
        obtain ⟨hone, hle⟩ := take_succ_of_getElem? hbatch
        refine ⟨h.certificates, ?_, hle, ?_, h.feedback, h.collected, h.consensusRound⟩
        · rw [consensusHistory_quiet rfl]
          exact h.delivered
        · rw [hhistory, MrvExecutor.received_cons, h.received, hone]

end ProcessConfig

end Mrv
