/-
  Mrv.Consensus.Run — runs of the consensus task (`Consensus::run`).

  The task receives a certificate, adds it to its DAG and computes the leaders
  to commit; it then flattens them one by one, oldest first, and receives the
  next certificate only when none is left.  Receiving and flattening one leader
  are the two steps of the system below.  The receivers of the two output
  channels are alive: what is sent is recorded in `feedback` (to the primary)
  and `output` (to the application).
-/
import Mrv.Consensus.Update
import Mrv.Lib.System

namespace Mrv

variable [Crypto]

/-! ## §1. The steps. -/

/-- The consensus task between two steps. -/
structure Node where
  state : State
  nextBatchIndex : ℕ
  /-- The leaders still to be flattened, oldest first. -/
  pending : List Certificate
  /-- What was sent to the primary. -/
  feedback : List Certificate
  /-- What was sent to the application layer. -/
  output : List CommittedSubDag
  /-- Why the task stopped, if it did. -/
  panic : Option Panic

/-- What the task does next. -/
inductive Action where
  /-- Process the next certificate of `rx_primary`. -/
  | receive (certificate : Certificate)
  /-- Flatten the oldest leader of the list returned by `order_leaders`. -/
  | commit

namespace Consensus

variable (self : Consensus)

/-- The task before its first certificate. -/
def start : Node :=
  { state := State.new (Certificate.genesis self.committee), nextBatchIndex := 0, pending := [],
    feedback := [], output := [], panic := none }

/-- Add the new certificate to the local storage and look for leaders to commit. -/
def receive (n : Node) (certificate : Certificate) : Node :=
  let state := { n.state with
    dag := n.state.dag.add certificate.round certificate.origin (certificate.digest, certificate) }
  match self.leadersToCommit state certificate.round with
  | .error e => { n with state, panic := some e }
  | .ok leaders => { n with state, pending := leaders }

/-- The batch of a leader, as it is sent. -/
def subDag (n : Node) (leader : Certificate) (batch : List Certificate) : CommittedSubDag :=
  { batchIndex := n.nextBatchIndex + 1
    leaderRound := leader.round
    leaderDigest := leader.digest
    certificates := batch }

/-- Update the state with every certificate of a batch and output the batch. -/
def emit (n : Node) (leader : Certificate) (rest batch : List Certificate) : Node :=
  { n with
    state := n.state.updateAll batch self.gcDepth
    pending := rest
    nextBatchIndex := n.nextBatchIndex + 1
    feedback := n.feedback ++ batch
    output := n.output ++ [subDag n leader batch] }

/-- Flatten the sub-dag referenced by a leader and output it, if there is anything in
it. -/
def commit (n : Node) (leader : Certificate) (rest : List Certificate) : Node :=
  match self.orderDag leader n.state with
  | .error e => { n with panic := some e }
  | .ok batch => if batch = [] then { n with pending := rest } else self.emit n leader rest batch

/-- A task that panicked does nothing more; a pending leader comes before the next
certificate. -/
def next (n : Node) : Action → Option Node
  | .receive certificate =>
      if n.panic = none ∧ n.pending = [] then some (self.receive n certificate) else none
  | .commit =>
      match n.panic, n.pending with
      | none, leader :: rest => some (self.commit n leader rest)
      | _, _ => none

/-- The consensus task as a transition system. -/
def system : System Node Action := { init := self.start, next := self.next }

/-- A history of the task, latest step first. -/
abbrev History := List (Node × Action)

/-- Runs of the task. -/
abbrev Run (es : History) (n : Node) : Prop := self.system.Run es n

/-! ## §2. What each step can do. -/

variable {self}

theorem next_receive {n n' : Node} {c : Certificate} (h : self.next n (.receive c) = some n') :
    n.panic = none ∧ n.pending = [] ∧ n' = self.receive n c := by
  simp only [next] at h
  by_cases hcond : n.panic = none ∧ n.pending = []
  · rw [if_pos hcond] at h
    exact ⟨hcond.1, hcond.2, (Option.some.inj h).symm⟩
  · rw [if_neg hcond] at h
    exact absurd h.symm (Option.some_ne_none n')

theorem next_commit {n n' : Node} (h : self.next n .commit = some n') :
    ∃ leader rest, n.panic = none ∧ n.pending = leader :: rest ∧
      n' = self.commit n leader rest := by
  cases hpanic : n.panic with
  | some e => simp [next, hpanic] at h
  | none =>
      cases hpending : n.pending with
      | nil => simp [next, hpanic, hpending] at h
      | cons leader rest =>
          simp only [next, hpanic, hpending, Option.some.injEq] at h
          exact ⟨leader, rest, rfl, rfl, h.symm⟩

/-- The state after the insertion of a certificate. -/
def inserted (s : State) (c : Certificate) : State :=
  { s with dag := s.dag.add c.round c.origin (c.digest, c) }

theorem state_receive (n : Node) (c : Certificate) :
    (self.receive n c).state = inserted n.state c := by
  unfold receive
  simp only []
  split <;> rfl

theorem output_receive (n : Node) (c : Certificate) : (self.receive n c).output = n.output := by
  unfold receive
  simp only []
  split <;> rfl

/-- The leaders a reception leaves pending are those of `leadersToCommit`. -/
theorem pending_receive {n : Node} {c : Certificate} (hp : n.pending = []) :
    (self.receive n c).pending = [] ∨
      self.leadersToCommit (inserted n.state c) c.round = .ok (self.receive n c).pending := by
  unfold receive inserted
  simp only []
  split
  · exact Or.inl hp
  · next leaders h => exact Or.inr h

theorem panic_receive {n : Node} {c : Certificate} (h : (self.receive n c).panic = none) :
    0 < c.round := by
  by_contra h0
  have hround : c.round = 0 := by omega
  have herror : self.leadersToCommit (inserted n.state c) c.round = .error .underflow := by
    unfold leadersToCommit
    rw [if_pos hround]
  unfold inserted at herror
  unfold receive at h
  simp only [herror] at h
  exact absurd h (Option.some_ne_none _)

theorem commit_eq_emit {n : Node} {leader : Certificate} {rest batch : List Certificate}
    (horder : self.orderDag leader n.state = .ok batch) (hne : batch ≠ []) :
    self.commit n leader rest = self.emit n leader rest batch := by
  unfold commit
  rw [horder]
  exact if_neg hne

/-! ## §3. What a history delivers and emits. -/

/-- The certificates a history received, latest first. -/
def delivered : History → List Certificate
  | [] => []
  | (_, .receive c) :: es => c :: delivered es
  | (_, .commit) :: es => delivered es

omit [Crypto] in
@[simp] theorem delivered_receive (n : Node) (c : Certificate) (es : History) :
    delivered ((n, .receive c) :: es) = c :: delivered es := rfl

omit [Crypto] in
@[simp] theorem delivered_commit (n : Node) (es : History) :
    delivered ((n, .commit) :: es) = delivered es := rfl

omit [Crypto] in
theorem delivered_append (es es' : History) :
    delivered (es ++ es') = delivered es ++ delivered es' := by
  induction es with
  | nil => rfl
  | cons e es ih =>
      obtain ⟨n, a⟩ := e
      cases a with
      | receive c => simp [ih]
      | commit => simpa using ih

/-- The certificates of all batches sent so far, in order. -/
def emitted (n : Node) : List Certificate := n.output.flatMap CommittedSubDag.certificates

@[simp] theorem emitted_emit (n : Node) (leader : Certificate) (rest batch : List Certificate) :
    emitted (self.emit n leader rest batch) = emitted n ++ batch := by
  simp [emitted, emit, subDag]

/-- Every certificate comes after its parents, genesis certificates apart
(latest first). -/
def CausalDelivery (committee : Committee) : List Certificate → Prop
  | [] => True
  | c :: cs => CausalDelivery committee cs ∧
      ∀ p ∈ c.header.parents,
        (∃ g ∈ Certificate.genesis committee, g.digest = p) ∨ ∃ x ∈ cs, x.digest = p

instance decidableCausalDelivery (committee : Committee) :
    ∀ cs, Decidable (CausalDelivery committee cs)
  | [] => isTrue trivial
  | c :: cs =>
      have := decidableCausalDelivery committee cs
      inferInstanceAs (Decidable (CausalDelivery committee cs ∧
        ∀ p ∈ c.header.parents.toList,
          (∃ g ∈ Certificate.genesis committee, g.digest = p) ∨ ∃ x ∈ cs, x.digest = p))

/-- At most one certificate per author and round. -/
def UniquePerSlot (cs : List Certificate) : Prop :=
  ∀ x ∈ cs, ∀ y ∈ cs, x.round = y.round → x.origin = y.origin → x = y

instance (cs : List Certificate) : Decidable (UniquePerSlot cs) :=
  inferInstanceAs (Decidable (∀ x ∈ cs, ∀ y ∈ cs, x.round = y.round → x.origin = y.origin → x = y))

end Consensus

end Mrv
