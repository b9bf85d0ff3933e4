/-
  Mrv.Primary.Run — runs of a primary (`primary/src/header_waiter.rs`,
  `certificate_waiter.rs`, `payload_receiver.rs`, `garbage_collector.rs`).

  Around the core run the two waiters, which hold what the core suspended until
  its dependencies are in the store and then loop it back, the receiver that notes
  the batches of our workers, and the collector that raises the consensus round.
  Each step of the system is one iteration of the loop of one of these tasks; the
  channels between them are queues.  Messages from the network and headers from
  the proposer may come at any time.

  The sync requests of the waiters, with the maps and the timestamps that decide
  when they are sent, are left out: what they bring back comes from the network
  or from our workers like everything else.
-/
import Mrv.Primary.Handlers
import Mrv.Lib.System

namespace Mrv

/-! ## §1. The waiters. -/

/-- What is in a list is at a given place, or elsewhere. -/
theorem mem_iff_mem_eraseIdx {α : Type*} {l : List α} {i : ℕ} {x y : α} (hget : l[i]? = some y) :
    x ∈ l ↔ x = y ∨ x ∈ l.eraseIdx i := by
  obtain ⟨hi, rfl⟩ := List.getElem?_eq_some_iff.mp hget
  rw [← (List.getElem_cons_eraseIdx_perm hi).mem_iff, List.mem_cons]

/-- A header that waits for keys to appear in the store. -/
structure Waiting where
  /-- Identifies the channel that cancels the wait. -/
  handle : ℕ
  missing : List Key
  deliver : Header

/-- Waits for missing parent certificates and batches' digests. -/
structure HeaderWaiter where
  /-- The round and the cancel channel of each header that is waiting. -/
  pending : HashMap Digest (ℕ × ℕ)
  waiting : List Waiting
  nextHandle : ℕ

namespace HeaderWaiter

def new : HeaderWaiter := { pending := ∅, waiting := [], nextHandle := 0 }

/-- The keys a command asks to wait for. -/
def waitFor : WaiterMessage → List Key
  | .syncBatches missing _ => missing.map (fun e => batchKey e.1 e.2)
  | .syncParents missing _ => missing.map Digest.toVec

/-- Cleanup of the internal state: dropping an entry cancels its wait. -/
def cleanup (w : HeaderWaiter) (gcDepth consensusRound : ℕ) : HeaderWaiter :=
  if gcDepth < consensusRound then
    let gcRound := consensusRound - gcDepth
    { w with pending := w.pending.retain (fun _ e => if gcRound < e.1 then some e else none) }
  else w

/-- Take a command of the synchronizer; a header is waited for once. -/
def receive (w : HeaderWaiter) (gcDepth consensusRound : ℕ) (message : WaiterMessage) :
    HeaderWaiter :=
  -- `if self.pending.contains_key(&header_id) { continue; }`
  if (w.pending.lookup message.header.id).isSome then w
  else
    cleanup { pending := w.pending.insert message.header.id (message.header.round, w.nextHandle)
              waiting := w.waiting ++ [⟨w.nextHandle, waitFor message, message.header⟩]
              nextHandle := w.nextHandle + 1 } gcDepth consensusRound

@[simp] theorem waiting_cleanup (w : HeaderWaiter) (gcDepth consensusRound : ℕ) :
    (w.cleanup gcDepth consensusRound).waiting = w.waiting := by
  unfold cleanup
  split <;> rfl

theorem mem_waiting_receive {w : HeaderWaiter} {gcDepth consensusRound : ℕ}
    {message : WaiterMessage} {x : Waiting}
    (h : x ∈ (w.receive gcDepth consensusRound message).waiting) :
    x ∈ w.waiting ∨ x.deliver = message.header := by
  unfold receive at h
  split at h
  · exact Or.inl h
  · rw [waiting_cleanup] at h
    obtain hold | hnew := List.mem_append.mp h
    · exact Or.inl hold
    · rw [List.mem_singleton.mp hnew]
      exact Or.inr rfl

/-- Whether the cancel channel of a wait was closed or used. -/
def canceled (w : HeaderWaiter) (handle : ℕ) : Bool :=
  decide (∀ e ∈ w.pending.values, e.2 ≠ handle)

end HeaderWaiter

/-- Whether all keys of a list are in the store: `try_join_all` of `notify_read`. -/
def Store.hasAll (store : Store) (keys : List Key) : Bool :=
  keys.all (fun key => (store.lookup key).isSome)

/-- The certificates that wait for their parents, each with the keys of these. -/
abbrev CertificateWaiter := List (List Key × Certificate)

/-- A certificate waits for all its parents to be in the store. -/
def CertificateWaiter.receive (w : CertificateWaiter) (certificate : Certificate) :
    CertificateWaiter :=
  w ++ [(certificate.header.parents.toList.map Digest.toVec, certificate)]

/-! ## §2. The system. -/

/-- A primary: its core, its waiters and the channels between them. -/
structure Primary where
  core : Core.State
  headerWaiter : HeaderWaiter
  certificateWaiter : CertificateWaiter
  /-- Headers looped back to the core. -/
  rxHeaderWaiter : List Header
  /-- Certificates looped back to the core. -/
  rxCertificateWaiter : List Certificate
  /-- The latest consensus round. -/
  consensusRound : ℕ
  /-- Why the core stopped, if it did. -/
  panic : Option CorePanic

namespace Primary

def new : Primary :=
  { core := Core.State.new, headerWaiter := HeaderWaiter.new, certificateWaiter := [],
    rxHeaderWaiter := [], rxCertificateWaiter := [], consensusRound := 0, panic := none }

/-- What one of the tasks does next. -/
inductive Action where
  /-- The core takes a message of another primary. -/
  | message (message : PrimaryMessage)
  /-- The core takes a header that was looped back. -/
  | loopbackHeader
  /-- The core takes a certificate that was looped back. -/
  | loopbackCertificate
  /-- The core takes a header of the proposer. -/
  | ownHeader (header : Header)
  /-- The `HeaderWaiter` takes a command. -/
  | syncHeader
  /-- The `HeaderWaiter` loops a header back. -/
  | headerReady (i : ℕ)
  /-- The `HeaderWaiter` gives up on a header. -/
  | headerCanceled (i : ℕ)
  /-- The timer of the `HeaderWaiter` fires. -/
  | headerTimer
  /-- The `CertificateWaiter` takes a certificate. -/
  | syncCertificate
  /-- The `CertificateWaiter` loops a certificate back. -/
  | certificateReady (i : ℕ)
  /-- A worker reports a batch of another authority. -/
  | othersBatch (digest : Digest) (workerId : WorkerId)
  /-- Consensus committed a certificate of a higher round. -/
  | committed (round : ℕ)
  deriving DecidableEq

/-- The input the core gets, and the primary without it. -/
def input (n : Primary) : Action → Option (Core.Input × Primary)
  | .message message => some (.message message, n)
  | .loopbackHeader =>
      match n.rxHeaderWaiter with
      | [] => none
      | header :: rest => some (.loopbackHeader header, { n with rxHeaderWaiter := rest })
  | .loopbackCertificate =>
      match n.rxCertificateWaiter with
      | [] => none
      | certificate :: rest =>
          some (.loopbackCertificate certificate, { n with rxCertificateWaiter := rest })
  | .ownHeader header => some (.ownHeader header, n)
  | _ => none

/-- The steps of the other tasks. -/
def background (gcDepth : ℕ) (n : Primary) : Action → Option Primary
  | .syncHeader =>
      match n.core.txHeaderWaiter with
      | [] => none
      | message :: rest =>
          some { n with
            core := { n.core with txHeaderWaiter := rest }
            headerWaiter := n.headerWaiter.receive gcDepth n.consensusRound message }
  | .headerReady i =>
      match n.headerWaiter.waiting[i]? with
      | none => none
      | some w =>
          -- the future of the wait is ready, in whatever order the others become ready
          if n.core.store.hasAll w.missing = true then
            some { n with
              headerWaiter := HeaderWaiter.cleanup { n.headerWaiter with
                pending := n.headerWaiter.pending.erase w.deliver.id
                waiting := n.headerWaiter.waiting.eraseIdx i } gcDepth n.consensusRound
              rxHeaderWaiter := n.rxHeaderWaiter ++ [w.deliver] }
          else none
  | .headerCanceled i =>
      match n.headerWaiter.waiting[i]? with
      | none => none
      | some w =>
          -- `Ok(None)`: the header is dropped
          if n.headerWaiter.canceled w.handle = true then
            some { n with
              headerWaiter := HeaderWaiter.cleanup { n.headerWaiter with
                waiting := n.headerWaiter.waiting.eraseIdx i } gcDepth n.consensusRound }
          else none
  | .headerTimer =>
      some { n with headerWaiter := n.headerWaiter.cleanup gcDepth n.consensusRound }
  | .syncCertificate =>
      match n.core.txCertificateWaiter with
      | [] => none
      | certificate :: rest =>
          some { n with
            core := { n.core with txCertificateWaiter := rest }
            certificateWaiter := n.certificateWaiter.receive certificate }
  | .certificateReady i =>
      match n.certificateWaiter[i]? with
      | none => none
      | some w =>
          -- nothing cancels the wait of a certificate
          if n.core.store.hasAll w.1 = true then
            some { n with
              certificateWaiter := n.certificateWaiter.eraseIdx i
              rxCertificateWaiter := n.rxCertificateWaiter ++ [w.2] }
          else none
  | .othersBatch digest workerId =>
      some { n with
        -- the value is empty: only the presence of the key counts
        core := { n.core with store := n.core.store.insert (batchKey digest workerId) .batch } }
  | .committed round =>
      if n.consensusRound < round then some { n with consensusRound := round } else none
  | _ => none

end Primary

namespace Core

variable [Crypto] (self : Core)

/-- The core handles an input. -/
def turn (n : Primary) (input : Input) : Primary :=
  { n with
    core := (self.iterate n.consensusRound input n.core).1
    panic := (self.iterate n.consensusRound input n.core).2 }

/-- A core that panicked takes nothing more; the other tasks go on. -/
def next (n : Primary) (a : Primary.Action) : Option Primary :=
  match n.input a with
  | some (input, n₀) => if n.panic = none then some (self.turn n₀ input) else none
  | none => n.background self.gcDepth a

/-- A primary as a transition system. -/
def system : System Primary Primary.Action := { init := Primary.new, next := self.next }

/-- A history of a primary, latest step first. -/
abbrev History := List (Primary × Primary.Action)

/-- Runs of a primary. -/
abbrev Run (es : History) (n : Primary) : Prop := self.system.Run es n

end Core

/-! ## §3. What each step can do. -/

namespace Core

variable [Crypto] {self : Core}

/-- **The steps of a primary**: the core handles an input, or another task moves. -/
theorem next_cases {n n' : Primary} {a : Primary.Action} (h : self.next n a = some n') :
    (∃ input n₀, n.input a = some (input, n₀) ∧ n.panic = none ∧ n' = self.turn n₀ input) ∨
      n.background self.gcDepth a = some n' := by
  unfold next at h
  cases hinput : n.input a with
  | none =>
      rw [hinput] at h
      exact Or.inr h
  | some r =>
      obtain ⟨input, n₀⟩ := r
      rw [hinput] at h
      by_cases hpanic : n.panic = none
      · have heq : some (self.turn n₀ input) = some n' := by simpa [hpanic] using h
        exact Or.inl ⟨input, n₀, rfl, hpanic, (Option.some.inj heq).symm⟩
      · simp [hpanic] at h

end Core

namespace Primary

variable {n n' n₀ : Primary} {a : Action} {gcDepth : ℕ}

/-- The inputs of the core, one constructor for each channel. -/
inductive Feeds (n : Primary) : Action → Core.Input → Primary → Prop
  | message (message : PrimaryMessage) : Feeds n (.message message) (.message message) n
  | loopbackHeader (header : Header) (rest : List Header)
      (hrx : n.rxHeaderWaiter = header :: rest) :
      Feeds n .loopbackHeader (.loopbackHeader header) { n with rxHeaderWaiter := rest }
  | loopbackCertificate (certificate : Certificate) (rest : List Certificate)
      (hrx : n.rxCertificateWaiter = certificate :: rest) :
      Feeds n .loopbackCertificate (.loopbackCertificate certificate)
        { n with rxCertificateWaiter := rest }
  | ownHeader (header : Header) : Feeds n (.ownHeader header) (.ownHeader header) n

theorem feeds_of_input {input : Core.Input} (h : n.input a = some (input, n₀)) :
    Feeds n a input n₀ := by
  cases a <;> simp only [Primary.input, reduceCtorEq, Option.some.injEq, Prod.mk.injEq] at h
  case message message =>
      rw [← h.1, ← h.2]
      exact .message message
  case loopbackHeader =>
      split at h
      · simp at h
      · next header rest hrx =>
        simp only [Option.some.injEq, Prod.mk.injEq] at h
        rw [← h.1, ← h.2]
        exact .loopbackHeader header rest hrx
  case loopbackCertificate =>
      split at h
      · simp at h
      · next certificate rest hrx =>
        simp only [Option.some.injEq, Prod.mk.injEq] at h
        rw [← h.1, ← h.2]
        exact .loopbackCertificate certificate rest hrx
  case ownHeader header =>
      rw [← h.1, ← h.2]
      exact .ownHeader header

/-- The steps of the other tasks, one constructor for each. -/
inductive Works (gcDepth : ℕ) (n : Primary) : Action → Primary → Prop
  | syncHeader (message : WaiterMessage) (rest : List WaiterMessage)
      (htx : n.core.txHeaderWaiter = message :: rest) :
      Works gcDepth n .syncHeader { n with
        core := { n.core with txHeaderWaiter := rest }
        headerWaiter := n.headerWaiter.receive gcDepth n.consensusRound message }
  | headerReady (i : ℕ) (w : Waiting) (hget : n.headerWaiter.waiting[i]? = some w)
      (hstored : n.core.store.hasAll w.missing = true) :
      Works gcDepth n (.headerReady i) { n with
        headerWaiter := HeaderWaiter.cleanup { n.headerWaiter with
          pending := n.headerWaiter.pending.erase w.deliver.id
          waiting := n.headerWaiter.waiting.eraseIdx i } gcDepth n.consensusRound
        rxHeaderWaiter := n.rxHeaderWaiter ++ [w.deliver] }
  | headerCanceled (i : ℕ) (w : Waiting) (hget : n.headerWaiter.waiting[i]? = some w)
      (hcanceled : n.headerWaiter.canceled w.handle = true) :
      Works gcDepth n (.headerCanceled i) { n with
        headerWaiter := HeaderWaiter.cleanup { n.headerWaiter with
          waiting := n.headerWaiter.waiting.eraseIdx i } gcDepth n.consensusRound }
  | headerTimer :
      Works gcDepth n .headerTimer { n with
        headerWaiter := n.headerWaiter.cleanup gcDepth n.consensusRound }
  | syncCertificate (certificate : Certificate) (rest : List Certificate)
      (htx : n.core.txCertificateWaiter = certificate :: rest) :
      Works gcDepth n .syncCertificate { n with
        core := { n.core with txCertificateWaiter := rest }
        certificateWaiter := n.certificateWaiter.receive certificate }
  | certificateReady (i : ℕ) (w : List Key × Certificate)
      (hget : n.certificateWaiter[i]? = some w) (hstored : n.core.store.hasAll w.1 = true) :
      Works gcDepth n (.certificateReady i) { n with
        certificateWaiter := n.certificateWaiter.eraseIdx i
        rxCertificateWaiter := n.rxCertificateWaiter ++ [w.2] }
  | othersBatch (digest : Digest) (workerId : WorkerId) :
      Works gcDepth n (.othersBatch digest workerId) { n with
        core := { n.core with store := n.core.store.insert (batchKey digest workerId) .batch } }
  | committed (round : ℕ) (hlt : n.consensusRound < round) :
      Works gcDepth n (.committed round) { n with consensusRound := round }

theorem works_of_background (h : n.background gcDepth a = some n') : Works gcDepth n a n' := by
  cases a <;> simp only [background, reduceCtorEq, Option.some.injEq] at h
  case syncHeader =>
      split at h
      · simp at h
      · next message rest htx =>
        rw [← Option.some.inj h]
        exact .syncHeader message rest htx
  case headerReady i =>
      split at h
      · simp at h
      · next w hget =>
        split at h
        · next hstored =>
          rw [← Option.some.inj h]
          exact .headerReady i w hget hstored
        · simp at h
  case headerCanceled i =>
      split at h
      · simp at h
      · next w hget =>
        split at h
        · next hcanceled =>
          rw [← Option.some.inj h]
          exact .headerCanceled i w hget hcanceled
        · simp at h
  case headerTimer =>
      rw [← h]
      exact .headerTimer
  case syncCertificate =>
      split at h
      · simp at h
      · next certificate rest htx =>
        rw [← Option.some.inj h]
        exact .syncCertificate certificate rest htx
  case certificateReady i =>
      split at h
      · simp at h
      · next w hget =>
        split at h
        · next hstored =>
          rw [← Option.some.inj h]
          exact .certificateReady i w hget hstored
        · simp at h
  case othersBatch digest workerId =>
      rw [← h]
      exact .othersBatch digest workerId
  case committed round =>
      split at h
      · next hlt =>
        rw [← Option.some.inj h]
        exact .committed round hlt
      · simp at h

/-- Taking an input from a queue leaves the core and the consensus round as they are. -/
theorem of_input {input : Core.Input} (h : n.input a = some (input, n₀)) :
    n₀.core = n.core ∧ n₀.consensusRound = n.consensusRound := by
  cases feeds_of_input h <;> exact ⟨rfl, rfl⟩

/-- What the tasks around the core leave alone: all of the core but its queues, which
are taken from, and its store, to which batches are added. -/
structure SameCore (s s' : Core.State) : Prop where
  cast : s'.cast = s.cast
  lastVoted : s'.lastVoted = s.lastVoted
  gcRound : s'.gcRound = s.gcRound
  txConsensus : s'.txConsensus = s.txConsensus
  store : ∀ key record, s'.store.lookup key = some record →
    s.store.lookup key = some record ∨
      record = .batch ∧ ∃ digest workerId, key = batchKey digest workerId
  keys : ∀ key, (s.store.lookup key).isSome → (s'.store.lookup key).isSome

theorem SameCore.refl (s : Core.State) : SameCore s s :=
  ⟨rfl, rfl, rfl, rfl, fun _ _ => Or.inl, fun _ => id⟩

/-! ## §4. Headers on their way. -/

/-- The headers a core keeps or passes on are in a set. -/
structure Holds (H : Set Header) (s : Core.State) : Prop where
  currentHeader : s.currentHeader ∈ H
  txHeaderWaiter : ∀ m ∈ s.txHeaderWaiter, m.header ∈ H
  txCertificateWaiter : ∀ c ∈ s.txCertificateWaiter, c.header ∈ H

/-- The headers on their way through a primary are in a set. -/
structure InFlight (H : Set Header) (n : Primary) : Prop where
  core : Holds H n.core
  headerWaiter : ∀ w ∈ n.headerWaiter.waiting, w.deliver ∈ H
  certificateWaiter : ∀ w ∈ n.certificateWaiter, w.2.header ∈ H
  rxHeaderWaiter : ∀ h ∈ n.rxHeaderWaiter, h ∈ H
  rxCertificateWaiter : ∀ c ∈ n.rxCertificateWaiter, c.header ∈ H

/-- The headers a step brings in from outside. -/
def Action.headers : Action → List Header
  | .message (.header header) => [header]
  | .message (.certificate certificate) => [certificate.header]
  | .ownHeader header => [header]
  | _ => []

/-- The headers that came in during a history, and the one the core starts with. -/
def headers (es : List (Primary × Action)) : List Header :=
  Header.default :: es.flatMap (fun e => e.2.headers)

variable {H : Set Header}

theorem InFlight.input {input : Core.Input} (h : InFlight H n)
    (hinput : n.input a = some (input, n₀)) : InFlight H n₀ ∧ Core.LoopedBack H input := by
  cases feeds_of_input hinput with
  | message message => exact ⟨h, trivial⟩
  | loopbackHeader header rest hrx =>
      have hall := h.rxHeaderWaiter
      rw [hrx, List.forall_mem_cons] at hall
      exact ⟨⟨h.core, h.headerWaiter, h.certificateWaiter, hall.2, h.rxCertificateWaiter⟩,
        hall.1⟩
  | loopbackCertificate certificate rest hrx =>
      have hall := h.rxCertificateWaiter
      rw [hrx, List.forall_mem_cons] at hall
      exact ⟨⟨h.core, h.headerWaiter, h.certificateWaiter, h.rxHeaderWaiter, hall.2⟩, hall.1⟩
  | ownHeader header => exact ⟨h, trivial⟩

/-- An own header comes from the proposer. -/
theorem action_of_own {input : Core.Input} {h : Header} (hinput : n.input a = some (input, n₀))
    (hh : input = .ownHeader h) : a = .ownHeader h := by
  cases feeds_of_input hinput with
  | ownHeader header => rw [Core.Input.ownHeader.inj hh]
  | _ => exact Core.Input.noConfusion hh

/-- The header of an input from outside came in with it. -/
theorem mem_headers_of_input {input : Core.Input} {es : List (Primary × Action)}
    (hmem : (n, a) ∈ es) (hinput : n.input a = some (input, n₀)) (h : Header)
    (hh : input = .message (.header h) ∨
      (∃ c, input = .message (.certificate c) ∧ c.header = h) ∨ input = .ownHeader h) :
    h ∈ headers es := by
  refine List.mem_cons_of_mem _ (List.mem_flatMap.mpr ⟨(n, a), hmem, ?_⟩)
  show h ∈ a.headers
  obtain rfl | ⟨c, rfl, rfl⟩ | rfl := hh <;> cases feeds_of_input hinput <;>
    exact List.mem_singleton_self _

/-- The tasks around the core do not touch its own data. -/
theorem sameCore_of_background (h : n.background gcDepth a = some n') :
    SameCore n.core n'.core := by
  cases works_of_background h with
  | syncHeader message rest htx => exact ⟨rfl, rfl, rfl, rfl, fun _ _ => Or.inl, fun _ => id⟩
  | syncCertificate certificate rest htx =>
      exact ⟨rfl, rfl, rfl, rfl, fun _ _ => Or.inl, fun _ => id⟩
  | othersBatch digest workerId =>
      refine ⟨rfl, rfl, rfl, rfl, fun key record hlookup => ?_, fun key => AList.isSome_lookup_insert⟩
      change (n.core.store.insert (batchKey digest workerId) Record.batch).lookup key
        = some record at hlookup
      rw [AList.lookup_insert_eq_ite] at hlookup
      by_cases hkey : key = batchKey digest workerId
      · rw [if_pos hkey, Option.some.injEq] at hlookup
        exact Or.inr ⟨hlookup.symm, digest, workerId, hkey⟩
      · rw [if_neg hkey] at hlookup
        exact Or.inl hlookup
  | _ => exact SameCore.refl _

/-- The consensus round only grows. -/
theorem consensusRound_le_of_background (h : n.background gcDepth a = some n') :
    n.consensusRound ≤ n'.consensusRound := by
  cases works_of_background h with
  | committed round hlt => exact Nat.le_of_lt hlt
  | _ => exact Nat.le_refl _

/-- The tasks around the core only pass headers on. -/
theorem InFlight.background (hn : InFlight H n) (h : n.background gcDepth a = some n') :
    InFlight H n' := by
  obtain ⟨⟨hcurrent, hsync, hdeliver⟩, hheaders, hcertificates, hrxh, hrxc⟩ := hn
  cases works_of_background h with
  | syncHeader message rest htx =>
      rw [htx, List.forall_mem_cons] at hsync
      refine ⟨⟨hcurrent, hsync.2, hdeliver⟩, fun w hw => ?_, hcertificates, hrxh, hrxc⟩
      obtain hold | hnew := HeaderWaiter.mem_waiting_receive hw
      · exact hheaders w hold
      · rw [hnew]
        exact hsync.1
  | headerReady i w hget hstored =>
      refine ⟨⟨hcurrent, hsync, hdeliver⟩, fun x hx => ?_, hcertificates, fun x hx => ?_, hrxc⟩
      · rw [HeaderWaiter.waiting_cleanup] at hx
        exact hheaders x (List.mem_of_mem_eraseIdx hx)
      · obtain hold | hnew := List.mem_append.mp hx
        · exact hrxh x hold
        · rw [List.mem_singleton.mp hnew]
          exact hheaders w (List.mem_of_getElem? hget)
  | headerCanceled i w hget hcanceled =>
      refine ⟨⟨hcurrent, hsync, hdeliver⟩, fun x hx => ?_, hcertificates, hrxh, hrxc⟩
      rw [HeaderWaiter.waiting_cleanup] at hx
      exact hheaders x (List.mem_of_mem_eraseIdx hx)
  | headerTimer =>
      refine ⟨⟨hcurrent, hsync, hdeliver⟩, fun x hx => ?_, hcertificates, hrxh, hrxc⟩
      rw [HeaderWaiter.waiting_cleanup] at hx
      exact hheaders x hx
  | syncCertificate certificate rest htx =>
      rw [htx, List.forall_mem_cons] at hdeliver
      refine ⟨⟨hcurrent, hsync, hdeliver.2⟩, hheaders, fun w hw => ?_, hrxh, hrxc⟩
      obtain hold | hnew := List.mem_append.mp hw
      · exact hcertificates w hold
      · rw [List.mem_singleton.mp hnew]
        exact hdeliver.1
  | certificateReady i w hget hstored =>
      refine ⟨⟨hcurrent, hsync, hdeliver⟩, hheaders, fun x hx => ?_, hrxh, fun x hx => ?_⟩
      · exact hcertificates x (List.mem_of_mem_eraseIdx hx)
      · obtain hold | hnew := List.mem_append.mp hx
        · exact hrxc x hold
        · rw [List.mem_singleton.mp hnew]
          exact hcertificates w (List.mem_of_getElem? hget)
  | othersBatch digest workerId =>
      exact ⟨⟨hcurrent, hsync, hdeliver⟩, hheaders, hcertificates, hrxh, hrxc⟩
  | committed round hlt =>
      exact ⟨⟨hcurrent, hsync, hdeliver⟩, hheaders, hcertificates, hrxh, hrxc⟩

end Primary

/-! ## §5. A primary for examples. -/

namespace Core

/-- The fourth of four authorities. -/
def sampleCore : Core :=
  { name := sampleKey 3, committee := Committee.sampleFour, gcDepth := 50 }

/-- The digest of a batch for examples. -/
def sampleBatch (batch : ℕ) : Digest := ⟨BitVec.ofNat 256 batch⟩

/-- A header with parents by the given authors in the round below, and one batch, which
together with the round gives its id. -/
def sampleHeader (round author batch : ℕ) (parents : List ℕ) : Header :=
  { author := sampleKey author
    round := round
    payload := ⟨[(⟨BitVec.ofNat 256 batch⟩, 0)], List.pairwise_singleton _ _⟩
    parents := BTreeSet.ofList (parents.map (sampleDigest (round - 1)))
    id := sampleDigest round batch
    signature := Signature.default }

/-- The certificate of such a header, with the votes of three authorities. -/
def sampleCertificate (round author : ℕ) (parents : List ℕ) : Certificate :=
  { header := sampleHeader round author (100 + author) parents
    votes := [0, 1, 2].map (fun a => (sampleKey a, Signature.default)) }

end Core

end Mrv
