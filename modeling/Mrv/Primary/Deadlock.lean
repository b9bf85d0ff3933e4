/-
  Mrv.Primary.Deadlock — two tasks that send to each other (`primary/src/primary.rs`,
  `primary/src/core.rs`, `primary/src/header_waiter.rs`).

  Between the core and the `HeaderWaiter` there is a channel in each direction, and both
  hold `capacity` items.  Each task sends from inside its only loop, so while it waits
  for room it takes nothing from the other.  The system of `Mrv.Primary.Run` is refined
  here: the two sends may have to wait.

    * `Deadlocked.next`        — two tasks that wait for each other do so for ever,
    * `Deadlocked.le_suspended` — this takes `2 * capacity + 2` suspended headers,
    * `no_deadlock`            — so it does not happen while fewer are suspended,
    * `core_deadlocks`         — but it does happen, already with four headers.
-/
import Mrv.Primary.Awaiting

namespace Mrv

/-! ## §1. The system. -/

/-- A primary whose core and `HeaderWaiter` may be in the middle of a send. -/
structure BoundedPrimary where
  primary : Primary
  /-- The command the core holds in front of the full channel, and how it goes on. -/
  coreSends :
    Option (WaiterMessage × (Core.State → Course Core.State Fault WaiterMessage Unit))
  /-- The header the `HeaderWaiter` holds in front of the full channel. -/
  headerWaiterSends : Option Header

namespace BoundedPrimary

def new : BoundedPrimary :=
  { primary := Primary.new, coreSends := none, headerWaiterSends := none }

inductive Action where
  /-- A task takes its next step. -/
  | task (action : Primary.Action)
  /-- The channel to the `HeaderWaiter` takes the command the core holds. -/
  | commandSent
  /-- The channel to the core takes the header the `HeaderWaiter` holds. -/
  | headerSent

/-- The steps of the loop of the `HeaderWaiter`. -/
def isHeaderWaiter : Primary.Action → Bool
  | .syncHeader => true
  | .headerReady _ => true
  | .headerCanceled _ => true
  | .headerTimer => true
  | _ => false

/-- `tx_core.send(header).await`, and what the loop does before it. -/
def loopBack (gcDepth capacity : ℕ) (n : BoundedPrimary) (i : ℕ) : Option BoundedPrimary :=
  if n.primary.rxHeaderWaiter.length < capacity then
    (n.primary.background gcDepth (.headerReady i)).map (fun p => { n with primary := p })
  else
    match n.primary.headerWaiter.waiting[i]? with
    | none => none
    | some w =>
        if n.primary.core.store.hasAll w.missing = true then
          some { n with
            primary := { n.primary with
              headerWaiter := { n.primary.headerWaiter with
                pending := n.primary.headerWaiter.pending.erase w.deliver.id
                waiting := n.primary.headerWaiter.waiting.eraseIdx i } }
            headerWaiterSends := some w.deliver }
        else none

/-- The steps of the tasks around the core. -/
def background (gcDepth capacity : ℕ) (n : BoundedPrimary) (a : Primary.Action) :
    Option BoundedPrimary :=
  if isHeaderWaiter a = true ∧ n.headerWaiterSends.isSome = true then none
  else
    match a with
    | .headerReady i => n.loopBack gcDepth capacity i
    | a => (n.primary.background gcDepth a).map (fun p => { n with primary := p })

/-- There is room in the channel to the core: the loop of the `HeaderWaiter` goes on. -/
def headerSent (gcDepth capacity : ℕ) (n : BoundedPrimary) : Option BoundedPrimary :=
  match n.headerWaiterSends with
  | none => none
  | some header =>
      if n.primary.rxHeaderWaiter.length < capacity then
        some { n with
          primary := { n.primary with
            headerWaiter := n.primary.headerWaiter.cleanup gcDepth n.primary.consensusRound
            rxHeaderWaiter := n.primary.rxHeaderWaiter ++ [header] }
          headerWaiterSends := none }
      else none

end BoundedPrimary

namespace Core

variable [Crypto] (self : Core)

/-- The channel to the `HeaderWaiter` has no room. -/
def full (capacity : ℕ) (s : State) : Bool := decide (capacity ≤ s.txHeaderWaiter.length)

/-- The core is done with an input, or waits in the middle of it. -/
def stop (n : BoundedPrimary) : Course State Fault WaiterMessage Unit → BoundedPrimary
  | .done (.error (.panic p)) s =>
      { n with primary := { n.primary with core := s, panic := some p }, coreSends := none }
  | .done _ s =>
      { n with
        primary := { n.primary with core := self.cleanup n.primary.consensusRound s }
        coreSends := none }
  | .send message s resume =>
      { n with
        primary := { n.primary with core := s }
        coreSends := some (message, resume) }

/-- The core handles an input, as far as it gets. -/
def boundedTurn (capacity : ℕ) (n : BoundedPrimary) (input : Input) : BoundedPrimary :=
  self.stop n (((Awaiting.handle self input).run n.primary.core).advance (full capacity) push)

/-- There is room in the channel to the `HeaderWaiter`: the core goes on. -/
def commandSent (capacity : ℕ) (n : BoundedPrimary) : Option BoundedPrimary :=
  match n.coreSends with
  | none => none
  | some (message, resume) =>
      if n.primary.core.txHeaderWaiter.length < capacity then
        some (self.stop n
          ((resume (push n.primary.core message)).advance (full capacity) push))
      else none

/-- A core that waits takes nothing more, and neither does one that panicked. -/
def boundedNext (capacity : ℕ) (n : BoundedPrimary) : BoundedPrimary.Action → Option BoundedPrimary
  | .task a =>
      match n.primary.input a with
      | some (input, n₀) =>
          if n.primary.panic = none ∧ n.coreSends.isNone = true then
            some (self.boundedTurn capacity { n with primary := n₀ } input)
          else none
      | none => n.background self.gcDepth capacity a
  | .commandSent => self.commandSent capacity n
  | .headerSent => n.headerSent self.gcDepth capacity

/-- A primary with channels that hold `capacity` items. -/
def boundedSystem (capacity : ℕ) : System BoundedPrimary BoundedPrimary.Action :=
  { init := BoundedPrimary.new, next := self.boundedNext capacity }

end Core

/-! ## §2. Tasks that wait for each other. -/

namespace BoundedPrimary

/-- The core holds a command for the full channel to the `HeaderWaiter`, which holds a
header for the full channel to the core. -/
structure Deadlocked (capacity : ℕ) (n : BoundedPrimary) : Prop where
  coreSends : n.coreSends.isSome = true
  commands : capacity ≤ n.primary.core.txHeaderWaiter.length
  headerWaiterSends : n.headerWaiterSends.isSome = true
  headers : capacity ≤ n.primary.rxHeaderWaiter.length

/-- The headers that are suspended: in the channels, with the `HeaderWaiter`, and in the
hands of the two tasks. -/
def suspended (n : BoundedPrimary) : ℕ :=
  n.primary.core.txHeaderWaiter.length + n.coreSends.toList.length +
    n.primary.headerWaiter.waiting.length + n.headerWaiterSends.toList.length +
    n.primary.rxHeaderWaiter.length

theorem length_toList_of_isSome {α : Type} {o : Option α} (h : o.isSome = true) :
    o.toList.length = 1 := by
  cases o with
  | none => cases h
  | some a => rfl

/-- **A deadlock takes more headers than fit into the channels.** -/
theorem Deadlocked.le_suspended {capacity : ℕ} {n : BoundedPrimary} (h : n.Deadlocked capacity) :
    2 * capacity + 2 ≤ n.suspended := by
  have hcore := length_toList_of_isSome h.coreSends
  have hwaiter := length_toList_of_isSome h.headerWaiterSends
  have hcommands := h.commands
  have hheaders := h.headers
  unfold suspended
  omega

/-! ## §3. What each step can do. -/

section

variable {gcDepth capacity : ℕ} {n n' : BoundedPrimary} {a : Primary.Action}

/-- A step of a task around the core is one of `Mrv.Primary.Run`, or the `HeaderWaiter` comes
to hold a header. -/
theorem background_cases (h : n.background gcDepth capacity a = some n') :
    (isHeaderWaiter a = true → n.headerWaiterSends = none) ∧
      ((∃ p, n.primary.background gcDepth a = some p ∧ n' = { n with primary := p }) ∨
        ∃ i w, a = .headerReady i ∧ n.primary.headerWaiter.waiting[i]? = some w ∧
          n' = { n with
            primary := { n.primary with
              headerWaiter := { n.primary.headerWaiter with
                pending := n.primary.headerWaiter.pending.erase w.deliver.id
                waiting := n.primary.headerWaiter.waiting.eraseIdx i } }
            headerWaiterSends := some w.deliver }) := by
  unfold background at h
  split at h
  · cases h
  · next hfree =>
    refine ⟨fun hwaiter => ?_, ?_⟩
    · cases hsends : n.headerWaiterSends with
      | none => rfl
      | some header =>
          rw [hsends] at hfree
          exact absurd ⟨hwaiter, rfl⟩ hfree
    · split at h
      · next i =>
        unfold loopBack at h
        split at h
        · obtain ⟨p, hp, heq⟩ := Option.map_eq_some_iff.mp h
          exact Or.inl ⟨p, hp, heq.symm⟩
        · split at h
          · cases h
          · next w hget =>
            split at h
            · exact Or.inr ⟨i, w, rfl, hget, (Option.some.inj h).symm⟩
            · cases h
      · obtain ⟨p, hp, heq⟩ := Option.map_eq_some_iff.mp h
        exact Or.inl ⟨p, hp, heq.symm⟩

theorem headerSent_cases (h : n.headerSent gcDepth capacity = some n') :
    n.primary.rxHeaderWaiter.length < capacity ∧ ∃ header,
      n.headerWaiterSends = some header ∧
      n' = { n with
        primary := { n.primary with
          headerWaiter := n.primary.headerWaiter.cleanup gcDepth n.primary.consensusRound
          rxHeaderWaiter := n.primary.rxHeaderWaiter ++ [header] }
        headerWaiterSends := none } := by
  unfold headerSent at h
  split at h
  · cases h
  · next header hsends =>
    split at h
    · next hroom => exact ⟨hroom, header, hsends, (Option.some.inj h).symm⟩
    · cases h

/-- The headers with the `HeaderWaiter` and in the two channels. -/
def moving (p : Primary) : ℕ :=
  p.core.txHeaderWaiter.length + p.headerWaiter.waiting.length + p.rxHeaderWaiter.length

/-- The tasks around the core only pass headers on, or drop them. -/
theorem moving_background {p p' : Primary} (h : p.background gcDepth a = some p') :
    moving p' ≤ moving p := by
  unfold moving
  -- only the four steps of the `HeaderWaiter` touch what is counted
  cases Primary.works_of_background h with
  | syncHeader message rest htx =>
      have hwaiting : (p.headerWaiter.receive gcDepth p.consensusRound message).waiting.length ≤
          p.headerWaiter.waiting.length + 1 := by
        unfold HeaderWaiter.receive
        split
        · omega
        · rw [HeaderWaiter.waiting_cleanup, List.length_append]
          exact Nat.le_refl _
      rw [htx, List.length_cons]
      show rest.length + (p.headerWaiter.receive gcDepth p.consensusRound message).waiting.length +
        p.rxHeaderWaiter.length ≤ _
      omega
  | headerReady i w hget hstored =>
      obtain ⟨hi, -⟩ := List.getElem?_eq_some_iff.mp hget
      rw [HeaderWaiter.waiting_cleanup, List.length_append, List.length_singleton]
      show p.core.txHeaderWaiter.length + (p.headerWaiter.waiting.eraseIdx i).length +
        (p.rxHeaderWaiter.length + 1) ≤ _
      rw [List.length_eraseIdx_of_lt hi]
      omega
  | headerCanceled i w hget hcanceled =>
      obtain ⟨hi, -⟩ := List.getElem?_eq_some_iff.mp hget
      rw [HeaderWaiter.waiting_cleanup]
      show p.core.txHeaderWaiter.length + (p.headerWaiter.waiting.eraseIdx i).length +
        p.rxHeaderWaiter.length ≤ _
      rw [List.length_eraseIdx_of_lt hi]
      omega
  | headerTimer =>
      rw [HeaderWaiter.waiting_cleanup]
  | syncCertificate certificate rest htx => exact Nat.le_refl _
  | certificateReady i w hget hstored => exact Nat.le_refl _
  | othersBatch digest workerId => exact Nat.le_refl _
  | committed round hlt => exact Nat.le_refl _

/-- The other tasks leave the two channels alone. -/
theorem channels_background {p p' : Primary} (h : p.background gcDepth a = some p')
    (hother : isHeaderWaiter a = false) :
    p'.core.txHeaderWaiter = p.core.txHeaderWaiter ∧ p'.rxHeaderWaiter = p.rxHeaderWaiter := by
  cases Primary.works_of_background h with
  | syncHeader message rest htx => cases hother
  | headerReady i w hget hstored => cases hother
  | headerCanceled i w hget hcanceled => cases hother
  | headerTimer => cases hother
  | syncCertificate certificate rest htx => exact ⟨rfl, rfl⟩
  | certificateReady i w hget hstored => exact ⟨rfl, rfl⟩
  | othersBatch digest workerId => exact ⟨rfl, rfl⟩
  | committed round hlt => exact ⟨rfl, rfl⟩

theorem suspended_eq (n : BoundedPrimary) :
    n.suspended = moving n.primary + n.coreSends.toList.length +
      n.headerWaiterSends.toList.length := by
  unfold suspended moving
  omega

/-- The tasks around the core suspend nothing. -/
theorem suspended_background (h : n.background gcDepth capacity a = some n') :
    n'.suspended ≤ n.suspended := by
  obtain ⟨hfree, ⟨p, hp, rfl⟩ | ⟨i, w, rfl, hget, rfl⟩⟩ := background_cases h
  · have hmoving := moving_background hp
    rw [suspended_eq, suspended_eq]
    show moving p + n.coreSends.toList.length + n.headerWaiterSends.toList.length ≤ _
    omega
  · obtain ⟨hi, -⟩ := List.getElem?_eq_some_iff.mp hget
    unfold suspended
    rw [hfree rfl]
    show n.primary.core.txHeaderWaiter.length + n.coreSends.toList.length +
      (n.primary.headerWaiter.waiting.eraseIdx i).length + 1 + n.primary.rxHeaderWaiter.length ≤
        n.primary.core.txHeaderWaiter.length + n.coreSends.toList.length +
          n.primary.headerWaiter.waiting.length + 0 + n.primary.rxHeaderWaiter.length
    rw [List.length_eraseIdx_of_lt hi]
    omega

theorem suspended_headerSent (h : n.headerSent gcDepth capacity = some n') :
    n'.suspended ≤ n.suspended := by
  obtain ⟨-, header, hsends, rfl⟩ := headerSent_cases h
  unfold suspended
  rw [hsends]
  rw [HeaderWaiter.waiting_cleanup, List.length_append, List.length_singleton]
  show n.primary.core.txHeaderWaiter.length + n.coreSends.toList.length +
    n.primary.headerWaiter.waiting.length + 0 + (n.primary.rxHeaderWaiter.length + 1) ≤
      n.primary.core.txHeaderWaiter.length + n.coreSends.toList.length +
        n.primary.headerWaiter.waiting.length + 1 + n.primary.rxHeaderWaiter.length
  omega

end

end BoundedPrimary

namespace Core

open BoundedPrimary (Deadlocked)

variable [Crypto] {self : Core} {capacity : ℕ} {n n' : BoundedPrimary}

omit [Crypto] in
theorem txHeaderWaiter_cleanup (consensusRound : ℕ) (s : State) :
    (self.cleanup consensusRound s).txHeaderWaiter = s.txHeaderWaiter := by
  unfold cleanup
  split <;> rfl

/-- Once the core goes on from where it waits, it suspends no further header. -/
def Resumes (n : BoundedPrimary) : Prop :=
  ∀ message resume, n.coreSends = some (message, resume) →
    ∀ s, (resume s).Sends Awaiting.size Awaiting.Any 0 (Awaiting.size s)

/-- The commands the core has sent or holds. -/
def commands (n : BoundedPrimary) : ℕ :=
  n.primary.core.txHeaderWaiter.length + n.coreSends.toList.length

omit [Crypto] in
/-- **Where the core stops**, it has suspended as many headers as it may, or fewer. -/
theorem stop_spec (self : Core) (capacity : ℕ) (n : BoundedPrimary)
    {c : Course State Fault WaiterMessage Unit} {j k : ℕ}
    (hc : c.Sends Awaiting.size Awaiting.Any j k) (hj : j ≤ 1) :
    commands (self.stop n (c.advance (full capacity) push)) ≤ k + j ∧
      Resumes (self.stop n (c.advance (full capacity) push)) := by
  have hadvance := hc.advance (full capacity) Awaiting.size_push
  cases hcourse : c.advance (full capacity) push with
  | done result s =>
      rw [hcourse] at hadvance
      have hsize : s.txHeaderWaiter.length ≤ k + j := hadvance
      have hdone : commands (self.stop n (.done result s)) = s.txHeaderWaiter.length ∧
          (self.stop n (.done result s)).coreSends = none := by
        unfold commands
        cases result with
        | ok u =>
            refine ⟨?_, rfl⟩
            show (self.cleanup n.primary.consensusRound s).txHeaderWaiter.length = _
            rw [txHeaderWaiter_cleanup]
        | error fault =>
            cases fault with
            | error e =>
                refine ⟨?_, rfl⟩
                show (self.cleanup n.primary.consensusRound s).txHeaderWaiter.length = _
                rw [txHeaderWaiter_cleanup]
            | panic p => exact ⟨rfl, rfl⟩
      refine ⟨by omega, ?_⟩
      intro message resume hsends
      rw [hdone.2] at hsends
      cases hsends
  | send message s resume =>
      rw [hcourse] at hadvance
      obtain ⟨-, hlow, hhigh, hrest⟩ := hadvance
      refine ⟨hhigh, ?_⟩
      intro message' resume' hsends
      obtain ⟨rfl, rfl⟩ := Prod.mk.inj (Option.some.inj hsends)
      -- the command it holds was the only one it had left
      have hzero : k + j - (Awaiting.size s + 1) = 0 := by omega
      rw [hzero] at hrest
      exact hrest

omit [Crypto] in
/-- The core leaves the `HeaderWaiter` and what it loops back alone. -/
theorem suspended_stop (n : BoundedPrimary) (c : Course State Fault WaiterMessage Unit) :
    (self.stop n c).suspended = commands (self.stop n c) +
      n.primary.headerWaiter.waiting.length + n.headerWaiterSends.toList.length +
      n.primary.rxHeaderWaiter.length := by
  cases c with
  | done result s =>
      cases result with
      | ok u => rfl
      | error fault => cases fault <;> rfl
  | send message s resume => rfl

/-- An input suspends at most one header more. -/
theorem suspended_boundedTurn (self : Core) (capacity : ℕ) (hidle : n.coreSends = none) (input : Input) :
    (self.boundedTurn capacity n input).suspended ≤ n.suspended + 1 ∧
      Resumes (self.boundedTurn capacity n input) := by
  have hsends : ((Awaiting.handle self input).run n.primary.core).Sends Awaiting.size
      Awaiting.Any 1 (Awaiting.size n.primary.core) := Awaiting.sends_handle input n.primary.core
  obtain ⟨hcommands, hresumes⟩ := stop_spec self capacity n hsends (Nat.le_refl 1)
  refine ⟨?_, hresumes⟩
  have hbefore : n.suspended = n.primary.core.txHeaderWaiter.length + 0 +
      n.primary.headerWaiter.waiting.length + n.headerWaiterSends.toList.length +
      n.primary.rxHeaderWaiter.length := by
    unfold BoundedPrimary.suspended
    rw [hidle]
    rfl
  unfold boundedTurn
  rw [suspended_stop]
  unfold Awaiting.size at hcommands
  omega

omit [Crypto] in
/-- Going on after a send suspends no header more. -/
theorem suspended_commandSent (hn : Resumes n) (h : self.commandSent capacity n = some n') :
    n.primary.core.txHeaderWaiter.length < capacity ∧ n'.suspended ≤ n.suspended ∧
      Resumes n' := by
  unfold commandSent at h
  split at h
  · cases h
  · next message resume hsends =>
    split at h
    · next hroom =>
      obtain rfl := Option.some.inj h
      have hrest := hn message resume hsends (push n.primary.core message)
      obtain ⟨hcommands, hresumes⟩ := stop_spec self capacity n hrest (Nat.zero_le 1)
      refine ⟨hroom, ?_, hresumes⟩
      have hbefore : n.suspended = n.primary.core.txHeaderWaiter.length + 1 +
          n.primary.headerWaiter.waiting.length + n.headerWaiterSends.toList.length +
          n.primary.rxHeaderWaiter.length := by
        unfold BoundedPrimary.suspended
        rw [hsends]
        rfl
      rw [Awaiting.size_push] at hcommands
      rw [suspended_stop]
      unfold Awaiting.size at hcommands
      omega
    · cases h

/-- The core takes a message that may be the first about its header. -/
def takes : BoundedPrimary.Action → Bool
  | .task (.message _) => true
  | .task .loopbackCertificate => true
  | .task (.ownHeader _) => true
  | _ => false

omit [Crypto] in
/-- What the core takes from its channels; a header that was looped back is no longer
suspended. -/
theorem suspended_input {a : Primary.Action} {input : Input} {n₀ : Primary}
    (h : n.primary.input a = some (input, n₀)) :
    BoundedPrimary.suspended { n with primary := n₀ } ≤ n.suspended ∧
      (takes (.task a) = false →
        BoundedPrimary.suspended { n with primary := n₀ } + 1 = n.suspended) := by
  cases Primary.feeds_of_input h with
  | message message => exact ⟨Nat.le_refl _, fun hfalse => by cases hfalse⟩
  -- the header leaves the channel before the core handles it
  | loopbackHeader header rest hrx =>
      have hback : BoundedPrimary.suspended
          { n with primary := { n.primary with rxHeaderWaiter := rest } } + 1 = n.suspended := by
        unfold BoundedPrimary.suspended
        rw [hrx]
        rfl
      exact ⟨hback ▸ Nat.le_succ _, fun _ => hback⟩
  | loopbackCertificate certificate rest hrx =>
      exact ⟨Nat.le_refl _, fun hfalse => by cases hfalse⟩
  | ownHeader header => exact ⟨Nat.le_refl _, fun hfalse => by cases hfalse⟩

/-- **The steps of the tasks**: the core handles an input, or another task moves. -/
theorem task_cases {a : Primary.Action} (h : self.boundedNext capacity n (.task a) = some n') :
    (∃ input n₀, n.primary.input a = some (input, n₀) ∧ n.coreSends = none ∧
      n' = self.boundedTurn capacity { n with primary := n₀ } input) ∨
      n.background self.gcDepth capacity a = some n' := by
  change (match n.primary.input a with
    | some (input, n₀) =>
        if n.primary.panic = none ∧ n.coreSends.isNone = true then
          some (self.boundedTurn capacity { n with primary := n₀ } input)
        else none
    | none => n.background self.gcDepth capacity a) = some n' at h
  cases hinput : n.primary.input a with
  | none =>
      rw [hinput] at h
      exact Or.inr h
  | some r =>
      obtain ⟨input, n₀⟩ := r
      rw [hinput] at h
      change (if n.primary.panic = none ∧ n.coreSends.isNone = true then _ else none) = some n' at h
      split at h
      · next hfree =>
        refine Or.inl ⟨input, n₀, rfl, Option.isNone_iff_eq_none.mp hfree.2, ?_⟩
        exact (Option.some.inj h).symm
      · cases h

/-! ## §4. Deadlocks. -/

/-- **Tasks that wait for each other do so for ever**, whatever the other tasks do. -/
theorem Deadlocked.next (h : n.Deadlocked capacity) {a : BoundedPrimary.Action}
    (hnext : self.boundedNext capacity n a = some n') : n'.Deadlocked capacity := by
  cases a with
  | task a =>
      obtain ⟨input, n₀, -, hidle, -⟩ | hback := task_cases hnext
      · -- the core takes nothing
        have hsends := h.coreSends
        rw [hidle] at hsends
        cases hsends
      · obtain ⟨hfree, ⟨p, hp, rfl⟩ | ⟨i, w, rfl, -, -⟩⟩ := BoundedPrimary.background_cases hback
        · have hother : BoundedPrimary.isHeaderWaiter a = false := by
            cases hwaiter : BoundedPrimary.isHeaderWaiter a with
            | false => rfl
            | true =>
                have hsends := h.headerWaiterSends
                rw [hfree hwaiter] at hsends
                cases hsends
          -- no one else takes from the two channels
          obtain ⟨hcommands, hheaders⟩ := BoundedPrimary.channels_background hp hother
          refine ⟨h.coreSends, ?_, h.headerWaiterSends, ?_⟩
          · show capacity ≤ p.core.txHeaderWaiter.length
            rw [hcommands]
            exact h.commands
          · show capacity ≤ p.rxHeaderWaiter.length
            rw [hheaders]
            exact h.headers
        · have hsends := h.headerWaiterSends
          rw [hfree rfl] at hsends
          cases hsends
  | commandSent =>
      have hcommands := h.commands
      change self.commandSent capacity n = some n' at hnext
      unfold commandSent at hnext
      split at hnext
      · cases hnext
      · split at hnext
        · omega
        · cases hnext
  | headerSent =>
      have hheaders := h.headers
      obtain ⟨hroom, -⟩ := BoundedPrimary.headerSent_cases hnext
      omega

/-- Whenever the core takes a message that may be the first about its header, at most
`2 * capacity` headers are suspended. -/
def MeetsBound (capacity : ℕ) (n : BoundedPrimary) (a : BoundedPrimary.Action) : Prop :=
  takes a = true → n.suspended ≤ 2 * capacity

/-- The bound that holds throughout such a run. -/
structure WithinBound (capacity : ℕ) (n : BoundedPrimary) : Prop where
  suspended : n.suspended ≤ 2 * capacity + 1
  resumes : Resumes n

theorem WithinBound.next (h : WithinBound capacity n) {a : BoundedPrimary.Action}
    (hbound : MeetsBound capacity n a) (hnext : self.boundedNext capacity n a = some n') :
    WithinBound capacity n' := by
  have hsuspended := h.suspended
  cases a with
  | task a =>
      obtain ⟨input, n₀, hinput, hidle, rfl⟩ | hback := task_cases hnext
      · obtain ⟨hle, hlooped⟩ := suspended_input hinput
        have hidle' : BoundedPrimary.coreSends { n with primary := n₀ } = none := hidle
        obtain ⟨hturn, hresumes⟩ := suspended_boundedTurn self capacity hidle' input
        refine ⟨?_, hresumes⟩
        -- the new header is paid for by the bound, or by the one that was looped back
        cases htakes : takes (.task a) with
        | true =>
            have hfew := hbound htakes
            omega
        | false =>
            have hsame := hlooped htakes
            omega
      · have hle := BoundedPrimary.suspended_background hback
        refine ⟨by omega, ?_⟩
        intro message resume hsends
        refine h.resumes message resume ?_
        obtain ⟨_, ⟨p, hp, rfl⟩ | ⟨i, w, rfl, _, rfl⟩⟩ := BoundedPrimary.background_cases hback
        · exact hsends
        · exact hsends
  | commandSent =>
      obtain ⟨-, hle, hresumes⟩ := suspended_commandSent h.resumes hnext
      exact ⟨by omega, hresumes⟩
  | headerSent =>
      have hle := BoundedPrimary.suspended_headerSent hnext
      refine ⟨by omega, ?_⟩
      obtain ⟨-, header, hsends, rfl⟩ := BoundedPrimary.headerSent_cases hnext
      exact h.resumes

/-- **No deadlock while few headers are suspended.** -/
theorem no_deadlock (capacity : ℕ) {es : List (BoundedPrimary × BoundedPrimary.Action)}
    {n : BoundedPrimary} (hrun : (self.boundedSystem capacity).Run es n)
    (hbound : ∀ t a, (t, a) ∈ es → MeetsBound capacity t a) : ¬ n.Deadlocked capacity := by
  have hwithin : WithinBound capacity n := by
    induction hrun with
    | init => exact ⟨Nat.zero_le _, fun message resume hsends => by cases hsends⟩
    | @step es s s' i hrun hnext ih =>
        have hearlier := ih fun t a hmem => hbound t a (List.mem_cons_of_mem _ hmem)
        exact hearlier.next (hbound s i List.mem_cons_self) hnext
  -- two headers more than the channels hold would be suspended
  intro hdeadlocked
  have hmany := hdeadlocked.le_suspended
  have hfew := hwithin.suspended
  omega

/-! ## §5. Examples. -/

/-- A header of the first round that lacks a batch. -/
def sampleIncoming (batch : ℕ) : BoundedPrimary.Action :=
  .task (.message (.header (sampleHeader 1 1 batch [1, 2, 3])))

/-- Two headers are suspended; their batches arrive, and a third header is suspended. -/
def sampleLoopback : List BoundedPrimary.Action :=
  [sampleIncoming 101, .task .syncHeader, sampleIncoming 102, .task .syncHeader,
    .task (.othersBatch (sampleBatch 101) 0), .task (.othersBatch (sampleBatch 102) 0),
    .task (.headerReady 0), .task (.headerReady 0), sampleIncoming 103]

omit [Crypto] in
set_option maxRecDepth 10000 in
/-- The `HeaderWaiter` waits for room in the channel to the core, and the other one is full. -/
theorem no_deadlock_sample :
    letI := sampleCrypto
    ∃ es n, (sampleCore.boundedSystem 1).Run es n ∧
      (∀ t a, (t, a) ∈ es → MeetsBound 1 t a) ∧
      n.headerWaiterSends.isSome = true ∧ n.primary.core.txHeaderWaiter.length = 1 ∧
      ¬ n.Deadlocked 1 := by
  let _ := sampleCrypto
  obtain ⟨es, n, hrun, hcheck⟩ := System.exec_check (sampleCore.boundedSystem 1) sampleLoopback
    (fun es n => es.all (fun e => !takes e.2 || decide (e.1.suspended ≤ 2 * 1)) &&
      n.headerWaiterSends.isSome && decide (n.primary.core.txHeaderWaiter.length = 1))
    (by decide +kernel)
  simp only [Bool.and_eq_true, decide_eq_true_eq] at hcheck
  obtain ⟨⟨hfew, hwaiter⟩, hcommands⟩ := hcheck
  have hbound : ∀ t a, (t, a) ∈ es → MeetsBound 1 t a := by
    intro t a hmem htakes
    have hstep := List.all_eq_true.mp hfew (t, a) hmem
    simpa [htakes] using hstep
  exact ⟨es, n, hrun, hbound, hwaiter, hcommands, no_deadlock 1 hrun hbound⟩

omit [Crypto] in
set_option maxRecDepth 10000 in
/-- With a fourth header the core waits as well. -/
theorem exists_deadlockedRun :
    letI := sampleCrypto
    ∃ es n, (sampleCore.boundedSystem 1).Run es n ∧ n.Deadlocked 1 := by
  let _ := sampleCrypto
  obtain ⟨es, n, hrun, hcheck⟩ := System.exec_check (sampleCore.boundedSystem 1)
    (sampleLoopback ++ [sampleIncoming 104])
    (fun _ n => n.coreSends.isSome && decide (1 ≤ n.primary.core.txHeaderWaiter.length) &&
      n.headerWaiterSends.isSome && decide (1 ≤ n.primary.rxHeaderWaiter.length))
    (by decide +kernel)
  simp only [Bool.and_eq_true, decide_eq_true_eq] at hcheck
  obtain ⟨⟨⟨hcore, hcommands⟩, hwaiter⟩, hheaders⟩ := hcheck
  exact ⟨es, n, hrun, hcore, hcommands, hwaiter, hheaders⟩

omit [Crypto] in
/-- **The core and the `HeaderWaiter` can wait for each other.** -/
theorem core_deadlocks :
    letI := sampleCrypto
    ¬ ∀ (self : Core) (capacity : ℕ), 1 ≤ capacity →
      ∀ es n, (self.boundedSystem capacity).Run es n → ¬ n.Deadlocked capacity := by
  let _ := sampleCrypto
  intro hnever
  obtain ⟨es, n, hrun, hdeadlocked⟩ := exists_deadlockedRun
  exact hnever sampleCore 1 (Nat.le_refl 1) es n hrun hdeadlocked

end Core

end Mrv
