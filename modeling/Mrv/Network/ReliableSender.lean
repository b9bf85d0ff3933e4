/-
  Mrv.Network.ReliableSender — the task of one connection (`network/src/reliable_sender.rs`).

  A message waits in the input channel, in the buffer, or, once written, among the
  replies that are pending; on a failure what is pending goes back in front of the
  buffer.  A step of `next` is what the task does between two points where it may be
  suspended, or what a caller, the network or the peer does; so a message can be
  cancelled at any moment, also while it is being written.

    * `Delivery`   — the queues hold exactly what is neither cancelled nor acknowledged,
    * `Transcript` — what happened on the current TCP connection,
    * `reliable`   — both, in every reachable state.
-/
import Mrv.Lib.System

namespace Mrv

/-! ## §1. The task. -/

/-- A message and its handler, which the number of its submission stands for. -/
structure InnerMessage where
  data : List UInt8
  cancelHandler : ℕ
  deriving DecidableEq

/-- Where the task is suspended. -/
inductive Connection.Phase where
  /-- `TcpStream::connect`. -/
  | connecting
  /-- `'waiter`: for the timer, draining the channel. -/
  | waiting
  /-- `Try to send all messages of the buffer.` -/
  | flushing
  /-- `writer.send`; the message is in no queue. -/
  | writing (message : InnerMessage)
  /-- The `select!` on new messages and replies. -/
  | selecting
  deriving DecidableEq

/-- A connection, its handlers, and the record of its runs. -/
structure Connection where
  phase : Connection.Phase
  delay : ℕ
  retry : UInt16
  /-- The messages in the channel `receiver`. -/
  receiver : List InnerMessage
  buffer : List InnerMessage
  /-- The messages written on this TCP connection that await a reply. -/
  pendingReplies : List InnerMessage
  /-- All messages ever sent into the channel. -/
  submitted : List InnerMessage
  /-- The handlers whose receivers were dropped. -/
  cancelled : List ℕ
  /-- The handlers that were given an acknowledgement. -/
  acknowledged : List ℕ
  /-- The messages written on this TCP connection, oldest first. -/
  written : List InnerMessage
  /-- The frames received on this TCP connection. -/
  acks : List (List UInt8)
  /-- The handlers resolved on this TCP connection, and what with. -/
  resolved : List (InnerMessage × List UInt8)
  deriving DecidableEq

namespace Connection

/-- `The initial delay to wait before re-attempting a connection (in ms).` -/
def retryDelay : ℕ := 200

/-- `channel(1_000)` -/
def channelCapacity : ℕ := 1000

def spawn : Connection :=
  { phase := .connecting
    delay := retryDelay
    retry := 0
    receiver := []
    buffer := []
    pendingReplies := []
    submitted := []
    cancelled := []
    acknowledged := []
    written := []
    acks := []
    resolved := [] }

/-- `handler.is_closed()` -/
def isClosed (s : Connection) (message : InnerMessage) : Bool :=
  decide (message.cancelHandler ∈ s.cancelled)

/-- `while let Some(message) = pending_replies.pop_back() { buffer.push_front(message) }` -/
def putBack (pendingReplies buffer : List InnerMessage) : List InnerMessage :=
  pendingReplies.reverse.foldl (fun buffer message => message :: buffer) buffer

/-- `keep_alive` returns, and the task connects again. -/
def disconnect (s : Connection) : Connection :=
  { s with
    buffer := putBack s.pendingReplies s.buffer
    pendingReplies := []
    phase := .connecting }

/-- What may happen to a connection. -/
inductive Action where
  /-- A caller sends a message into the channel. -/
  | submit (data : List UInt8)
  /-- A caller drops the receiver of a handler. -/
  | cancel (handler : ℕ)
  | connected
  | failedToConnect
  | timer
  /-- A message is taken from the channel. -/
  | receive
  /-- The first message is taken from the buffer. -/
  | pop
  | sent
  | failedToSend
  /-- A frame is read, or reading fails. -/
  | response (frame : Option (List UInt8))
  deriving DecidableEq

/-- A message is taken from the channel into the buffer. -/
def receiveInto (s : Connection) (message : InnerMessage) (rest : List InnerMessage) :
    Connection :=
  if s.phase = .waiting then
    { s with
      receiver := rest
      buffer := (s.buffer ++ [message]).filter (fun message => !s.isClosed message) }
  else { s with receiver := rest, buffer := s.buffer ++ [message], phase := .flushing }

/-- One turn of the loop that empties the buffer. -/
def pop (s : Connection) : Connection :=
  match s.buffer with
  | [] => { s with phase := .selecting }
  | message :: rest =>
      -- `Skip messages that have been cancelled.`
      if s.isClosed message then { s with buffer := rest }
      else { s with buffer := rest, phase := .writing message }

/-- A frame is the reply to the first pending message. -/
def acknowledge (s : Connection) (frame : List UInt8) : Connection :=
  match s.pendingReplies with
  -- `NetworkError::UnexpectedAck`
  | [] => disconnect { s with acks := s.acks ++ [frame] }
  | message :: rest =>
      { s with
        pendingReplies := rest
        acknowledged := message.cancelHandler :: s.acknowledged
        acks := s.acks ++ [frame]
        resolved := s.resolved ++ [(message, frame)]
        phase := .flushing }

/-- `response = reader.next()` -/
def respond (s : Connection) : Option (List UInt8) → Connection
  | some frame => s.acknowledge frame
  | none => s.disconnect

/-- What may happen next. -/
def next (s : Connection) : Action → Option Connection
  | .submit data =>
      if s.receiver.length < channelCapacity then
        let message : InnerMessage := ⟨data, s.submitted.length⟩
        some { s with
          receiver := s.receiver ++ [message]
          submitted := s.submitted ++ [message] }
      else none
  | .cancel handler =>
      if handler < s.submitted.length then some { s with cancelled := handler :: s.cancelled }
      else none
  | .connected =>
      if s.phase = .connecting then
        some { s with
          phase := .flushing
          delay := retryDelay
          retry := 0
          pendingReplies := []
          written := []
          acks := []
          resolved := [] }
      else none
  | .failedToConnect =>
      if s.phase = .connecting then some { s with phase := .waiting } else none
  | .timer =>
      if s.phase = .waiting then
        some { s with
          phase := .connecting
          delay := min (2 * s.delay) 60000
          retry := s.retry + 1 }
      else none
  | .receive =>
      if s.phase = .waiting ∨ s.phase = .selecting then
        match s.receiver with
        | [] => none
        | message :: rest => some (s.receiveInto message rest)
      else none
  | .pop => if s.phase = .flushing then some s.pop else none
  | .sent =>
      match s.phase with
      | .writing message =>
          some { s with
            pendingReplies := s.pendingReplies ++ [message]
            written := s.written ++ [message]
            phase := .flushing }
      | _ => none
  | .failedToSend =>
      match s.phase with
      | .writing message => some (disconnect { s with buffer := message :: s.buffer })
      | _ => none
  | .response frame => if s.phase = .selecting then some (s.respond frame) else none

/-- One connection, with its callers, the network and the peer. -/
def system : System Connection Action := ⟨spawn, next⟩

/-! ## §2. What a connection is for. -/

/-- The message that is being written. -/
def writing (s : Connection) : List InnerMessage :=
  match s.phase with
  | .writing message => [message]
  | _ => []

/-- What is still to be delivered, the message that is being written ahead of the buffer it
was taken from. -/
def queue (s : Connection) : List InnerMessage :=
  s.pendingReplies ++ (s.writing ++ (s.buffer ++ s.receiver))

def isAcknowledged (s : Connection) (message : InnerMessage) : Bool :=
  decide (message.cancelHandler ∈ s.acknowledged)

/-- Nothing is lost, duplicated or reordered. -/
structure Delivery (s : Connection) : Prop where
  /-- Handlers are numbered in the order of submission. -/
  numbered : s.submitted.map InnerMessage.cancelHandler = List.range s.submitted.length
  queue : s.queue.filter (fun m => !s.isClosed m) =
    s.submitted.filter (fun m => !s.isClosed m && !s.isAcknowledged m)

/-- On one TCP connection messages are written in the order of submission, and the `k`-th
frame received resolves the `k`-th message written. -/
structure Transcript (s : Connection) : Prop where
  inOrder : s.written.Sublist s.submitted
  resolved : s.resolved = s.written.zip s.acks

/-! ## §3. The invariant. -/

def IsConnected (s : Connection) : Prop := s.phase ≠ .connecting ∧ s.phase ≠ .waiting

/-- What the two promises rest on. -/
structure Invariant (s : Connection) : Prop extends Delivery s, Transcript s where
  cancelled_lt : ∀ handler ∈ s.cancelled, handler < s.submitted.length
  acknowledged_lt : ∀ handler ∈ s.acknowledged, handler < s.submitted.length
  /-- Off line nothing is pending, and what is queued is in order. -/
  offline : ¬ s.IsConnected → s.pendingReplies = [] ∧ s.queue.Sublist s.submitted
  /-- On a connection the written messages are those resolved, then those pending. -/
  pending : s.IsConnected → s.written = s.resolved.map Prod.fst ++ s.pendingReplies
  acks : s.IsConnected → s.acks = s.resolved.map Prod.snd
  /-- What was written comes before what will be. -/
  line : s.IsConnected →
    (s.written ++ (s.writing ++ (s.buffer ++ s.receiver))).Sublist s.submitted

section

variable {s s' : Connection}

theorem writing_eq_nil {phase : Phase} (h : s.phase = phase)
    (hne : ∀ message, phase ≠ .writing message) : s.writing = [] := by
  unfold writing
  split
  · next message hphase => exact absurd (h.symm.trans hphase) (hne message)
  · rfl

theorem isConnected_of_phase {phase : Phase} (h : s.phase = phase)
    (hne : phase ≠ .connecting ∧ phase ≠ .waiting) : s.IsConnected := by
  unfold IsConnected
  rw [h]
  exact hne

/-- Nothing is being written off line. -/
theorem writing_of_offline (h : ¬ s.IsConnected) : s.writing = [] := by
  unfold writing
  split
  · next message hphase => exact absurd (isConnected_of_phase hphase ⟨nofun, nofun⟩) h
  · rfl

theorem putBack_eq (pendingReplies buffer : List InnerMessage) :
    putBack pendingReplies buffer = pendingReplies ++ buffer := by
  have hfold : ∀ l buffer : List InnerMessage,
      l.foldl (fun buffer message => message :: buffer) buffer = l.reverse ++ buffer := by
    intro l
    induction l with
    | nil => intro buffer; rfl
    | cons message l ih =>
        intro buffer
        rw [List.foldl_cons, ih, List.reverse_cons, List.append_assoc]
        rfl
  unfold putBack
  rw [hfold, List.reverse_reverse]

/-- Messages and frames that were matched stay matched. -/
theorem zip_append_resolved (resolved : List (InnerMessage × List UInt8))
    (messages : List InnerMessage) (frames : List (List UInt8)) :
    (resolved.map Prod.fst ++ messages).zip (resolved.map Prod.snd ++ frames) =
      resolved ++ messages.zip frames := by
  rw [List.zip_append (by rw [List.length_map, List.length_map])]
  refine congrArg (· ++ messages.zip frames) ?_
  exact (List.zip_of_prod rfl rfl).symm

/-- Messages that await a frame stay unmatched. -/
theorem zip_resolved (resolved : List (InnerMessage × List UInt8)) (pending : List InnerMessage) :
    (resolved.map Prod.fst ++ pending).zip (resolved.map Prod.snd) = resolved := by
  have hzip := zip_append_resolved resolved pending []
  rw [List.append_nil, List.zip_nil_right, List.append_nil] at hzip
  exact hzip

theorem invariant_spawn : Invariant spawn :=
  { numbered := rfl
    queue := rfl
    inOrder := List.Sublist.slnil
    resolved := rfl
    cancelled_lt := by simp [spawn]
    acknowledged_lt := by simp [spawn]
    offline := fun _ => ⟨rfl, List.Sublist.slnil⟩
    pending := fun h => absurd rfl h.1
    acks := fun h => absurd rfl h.1
    line := fun h => absurd rfl h.1 }

/-- The queue is in the order of submission. -/
theorem Invariant.queue_sublist (hs : Invariant s) : s.queue.Sublist s.submitted := by
  by_cases h : s.IsConnected
  · refine List.Sublist.trans ?_ (hs.line h)
    rw [hs.pending h, List.append_assoc]
    exact List.sublist_append_right _ _
  · exact (hs.offline h).2

/-- No two queued messages share a handler. -/
theorem Invariant.nodup_queue (hs : Invariant s) :
    (s.queue.map InnerMessage.cancelHandler).Nodup := by
  refine (hs.queue_sublist.map InnerMessage.cancelHandler).nodup ?_
  rw [hs.numbered]
  exact List.nodup_range

/-- No other queued message has the handler of the first one. -/
theorem Invariant.handler_ne (hs : Invariant s) {message : InnerMessage}
    {rest : List InnerMessage} (hqueue : s.queue = message :: rest) {m : InnerMessage}
    (hm : m ∈ rest) : m.cancelHandler ≠ message.cancelHandler := by
  have hnodup := hs.nodup_queue
  rw [hqueue, List.map_cons, List.nodup_cons] at hnodup
  intro heq
  have hmap : m.cancelHandler ∈ rest.map InnerMessage.cancelHandler := List.mem_map_of_mem hm
  rw [heq] at hmap
  exact hnodup.1 hmap

theorem Invariant.handler_lt (hs : Invariant s) {message : InnerMessage}
    (hmem : message ∈ s.queue) : message.cancelHandler < s.submitted.length := by
  have hrange : message.cancelHandler ∈ s.submitted.map InnerMessage.cancelHandler :=
    List.mem_map_of_mem (hs.queue_sublist.subset hmem)
  rw [hs.numbered] at hrange
  exact List.mem_range.mp hrange

/-- Nothing is submitted, cancelled or acknowledged. -/
structure Internal (s s' : Connection) : Prop where
  submitted : s'.submitted = s.submitted
  cancelled : s'.cancelled = s.cancelled
  acknowledged : s'.acknowledged = s.acknowledged

theorem Internal.cancelled_lt (h : Internal s s') (hs : Invariant s) :
    ∀ handler ∈ s'.cancelled, handler < s'.submitted.length := by
  rw [h.cancelled, h.submitted]
  exact hs.cancelled_lt

theorem Internal.acknowledged_lt (h : Internal s s') (hs : Invariant s) :
    ∀ handler ∈ s'.acknowledged, handler < s'.submitted.length := by
  rw [h.acknowledged, h.submitted]
  exact hs.acknowledged_lt

/-- Moving messages, and dropping some that were cancelled, keeps the deliveries. -/
theorem Delivery.of_queue (hs : Delivery s) (hinternal : Internal s s')
    (hqueue : s'.queue.filter (fun m => !s.isClosed m) = s.queue.filter (fun m => !s.isClosed m)) :
    Delivery s' := by
  have hclosed : s'.isClosed = s.isClosed := by
    unfold isClosed
    rw [hinternal.cancelled]
  have hack : s'.isAcknowledged = s.isAcknowledged := by
    unfold isAcknowledged
    rw [hinternal.acknowledged]
  constructor
  · rw [hinternal.submitted]
    exact hs.numbered
  · rw [hclosed, hack, hinternal.submitted, hqueue]
    exact hs.queue

/-! ## §4. What each step keeps. -/

theorem Invariant.submit (hs : Invariant s) (data : List UInt8) :
    Invariant { s with
      receiver := s.receiver ++ [⟨data, s.submitted.length⟩]
      submitted := s.submitted ++ [⟨data, s.submitted.length⟩] } := by
  -- the number is fresh, so nobody has cancelled or acknowledged it yet
  have hnew : s.isClosed ⟨data, s.submitted.length⟩ = false := by
    refine decide_eq_false fun hmem => ?_
    exact Nat.lt_irrefl _ (hs.cancelled_lt _ hmem)
  have hnew' : s.isAcknowledged ⟨data, s.submitted.length⟩ = false := by
    refine decide_eq_false fun hmem => ?_
    exact Nat.lt_irrefl _ (hs.acknowledged_lt _ hmem)
  have hgrows : ∀ n, n < s.submitted.length →
      n < (s.submitted ++ [(⟨data, s.submitted.length⟩ : InnerMessage)]).length := by
    intro n hn
    rw [List.length_append]
    omega
  have hqueue : ∀ l : List InnerMessage, ∀ message : InnerMessage,
      l ++ (s.writing ++ (s.buffer ++ (s.receiver ++ [message]))) =
        l ++ (s.writing ++ (s.buffer ++ s.receiver)) ++ [message] := by
    intro l message
    simp only [List.append_assoc]
  refine ⟨⟨?_, ?_⟩, ⟨?_, hs.resolved⟩, ?_, ?_, ?_, hs.pending, hs.acks, ?_⟩
  · show (s.submitted ++ [_]).map InnerMessage.cancelHandler = List.range (s.submitted ++ [_]).length
    rw [List.map_append, hs.numbered, List.length_append]
    exact List.range_succ.symm
  · show (s.pendingReplies ++ (s.writing ++ (s.buffer ++ (s.receiver ++ [_])))).filter
      (fun m => !s.isClosed m) =
        (s.submitted ++ [_]).filter (fun m => !s.isClosed m && !s.isAcknowledged m)
    rw [hqueue]
    show (s.queue ++ [_]).filter _ = _
    rw [List.filter_append, List.filter_append, hs.queue]
    simp [hnew, hnew']
  · exact hs.inOrder.trans (List.sublist_append_left _ _)
  · exact fun handler hmem => hgrows _ (hs.cancelled_lt handler hmem)
  · exact fun handler hmem => hgrows _ (hs.acknowledged_lt handler hmem)
  · intro h
    obtain ⟨hpending, hsublist⟩ := hs.offline h
    refine ⟨hpending, ?_⟩
    show (s.pendingReplies ++ (s.writing ++ (s.buffer ++ (s.receiver ++ [_])))).Sublist _
    rw [hqueue]
    exact hsublist.append (List.Sublist.refl _)
  · intro h
    show (s.written ++ (s.writing ++ (s.buffer ++ (s.receiver ++ [_])))).Sublist _
    rw [hqueue]
    exact (hs.line h).append (List.Sublist.refl _)

theorem Invariant.cancel (hs : Invariant s) {handler : ℕ} (hlt : handler < s.submitted.length) :
    Invariant { s with cancelled := handler :: s.cancelled } := by
  -- the receiver that is dropped makes the same messages leave on both sides
  have hclosed : ∀ m : InnerMessage,
      (!isClosed { s with cancelled := handler :: s.cancelled } m) =
        (!decide (m.cancelHandler = handler) && !s.isClosed m) := by
    intro m
    show (!decide (m.cancelHandler ∈ handler :: s.cancelled)) = _
    unfold isClosed
    simp [List.mem_cons]
  refine ⟨⟨hs.numbered, ?_⟩, ⟨hs.inOrder, hs.resolved⟩, ?_, hs.acknowledged_lt, hs.offline, hs.pending,
    hs.acks, hs.line⟩
  · show s.queue.filter (fun m => !isClosed { s with cancelled := handler :: s.cancelled } m) =
      s.submitted.filter (fun m =>
        !isClosed { s with cancelled := handler :: s.cancelled } m && !s.isAcknowledged m)
    simp only [hclosed, Bool.and_assoc]
    rw [← List.filter_filter, ← List.filter_filter, hs.queue]
  · intro h hmem
    obtain rfl | hmem := List.mem_cons.mp hmem
    · exact hlt
    · exact hs.cancelled_lt h hmem

theorem Invariant.connected (hs : Invariant s) (hphase : s.phase = .connecting) :
    Invariant { s with
      phase := .flushing
      delay := retryDelay
      retry := 0
      pendingReplies := []
      written := []
      acks := []
      resolved := [] } := by
  have hwriting : s.writing = [] := writing_eq_nil hphase nofun
  obtain ⟨hpending, hsublist⟩ := hs.offline (fun h => h.1 hphase)
  -- a new connection starts a new transcript, with the whole queue in front of it
  have hqueue : s.queue = s.buffer ++ s.receiver := by
    unfold Connection.queue
    rw [hpending, hwriting]
    rfl
  rw [hqueue] at hsublist
  refine ⟨hs.toDelivery.of_queue ⟨rfl, rfl, rfl⟩ ?_, ⟨List.nil_sublist _, rfl⟩, hs.cancelled_lt,
    hs.acknowledged_lt, fun h => absurd ⟨by simp, by simp⟩ h, fun _ => rfl, fun _ => rfl,
    fun _ => hsublist⟩
  rw [hqueue]
  rfl

/-- Off line only the buffer and the channel matter. -/
theorem Invariant.of_offline (hs : Invariant s) (h : ¬ s.IsConnected) (h' : ¬ s'.IsConnected)
    (hinternal : Internal s s') (hpending : s'.pendingReplies = [])
    (htranscript : s'.written = s.written ∧ s'.acks = s.acks ∧ s'.resolved = s.resolved)
    (hqueue : s'.queue.filter (fun m => !s.isClosed m) = s.queue.filter (fun m => !s.isClosed m))
    (hsublist : s'.queue.Sublist s.queue) : Invariant s' := by
  obtain ⟨hwritten, hacks, hresolved⟩ := htranscript
  refine ⟨hs.toDelivery.of_queue hinternal hqueue, ⟨?_, ?_⟩, hinternal.cancelled_lt hs,
    hinternal.acknowledged_lt hs, ?_, fun hc => absurd hc h', fun hc => absurd hc h',
    fun hc => absurd hc h'⟩
  · rw [hwritten, hinternal.submitted]
    exact hs.inOrder
  · rw [hwritten, hacks, hresolved]
    exact hs.resolved
  · intro _
    rw [hinternal.submitted]
    exact ⟨hpending, hsublist.trans (hs.offline h).2⟩

/-- On a connection: messages move from the line to the pending ones, and some that were
cancelled are dropped. -/
theorem Invariant.of_online (hs : Invariant s) (h : s.IsConnected) (h' : s'.IsConnected)
    (hinternal : Internal s s') (htranscript : s'.acks = s.acks ∧ s'.resolved = s.resolved)
    {moved : List InnerMessage}
    (hwritten : s'.written = s.written ++ moved)
    (hpending : s'.pendingReplies = s.pendingReplies ++ moved)
    (hqueue : s'.queue.filter (fun m => !s.isClosed m) = s.queue.filter (fun m => !s.isClosed m))
    (hline : (moved ++ (s'.writing ++ (s'.buffer ++ s'.receiver))).Sublist
      (s.writing ++ (s.buffer ++ s.receiver))) : Invariant s' := by
  obtain ⟨hacks, hresolved⟩ := htranscript
  have hline' : (s'.written ++ (s'.writing ++ (s'.buffer ++ s'.receiver))).Sublist
      s.submitted := by
    rw [hwritten, List.append_assoc]
    exact ((List.Sublist.refl s.written).append hline).trans (hs.line h)
  have hzip : s'.resolved = s'.written.zip s'.acks := by
    rw [hresolved, hwritten, hacks, hs.acks h, hs.pending h, List.append_assoc, zip_resolved]
  refine ⟨hs.toDelivery.of_queue hinternal hqueue, ⟨?_, hzip⟩, hinternal.cancelled_lt hs,
    hinternal.acknowledged_lt hs, fun hc => absurd h' hc, ?_, ?_, ?_⟩
  · rw [hinternal.submitted]
    exact (List.sublist_append_left _ _).trans hline'
  · intro _
    rw [hwritten, hpending, hresolved, hs.pending h, List.append_assoc]
  · intro _
    rw [hacks, hresolved]
    exact hs.acks h
  · intro _
    rw [hinternal.submitted]
    exact hline'

/-- The connection ends: what is pending and what was being written goes back. -/
theorem Invariant.disconnect (hs : Invariant s) {acks : List (List UInt8)}
    (hresolved : s.resolved = s.written.zip acks)
    (hbuffer : s'.buffer = s.pendingReplies ++ (s.writing ++ s.buffer))
    (hreceiver : s'.receiver = s.receiver) (hphase : s'.phase = .connecting)
    (hpending : s'.pendingReplies = []) (hinternal : Internal s s')
    (htranscript : s'.written = s.written ∧ s'.acks = acks ∧ s'.resolved = s.resolved) :
    Invariant s' := by
  obtain ⟨hwritten, hacks, hresolved'⟩ := htranscript
  have hwriting : s'.writing = [] := writing_eq_nil hphase nofun
  have hqueue : s'.queue = s.queue := by
    unfold Connection.queue
    rw [hpending, hwriting, hbuffer, hreceiver]
    simp only [List.nil_append, List.append_assoc]
  refine ⟨hs.toDelivery.of_queue hinternal (by rw [hqueue]), ⟨?_, ?_⟩, hinternal.cancelled_lt hs,
    hinternal.acknowledged_lt hs, ?_, fun hc => absurd hphase hc.1, fun hc => absurd hphase hc.1,
    fun hc => absurd hphase hc.1⟩
  · rw [hwritten, hinternal.submitted]
    exact hs.inOrder
  · rw [hwritten, hacks, hresolved']
    exact hresolved
  · intro _
    rw [hqueue, hinternal.submitted]
    exact ⟨hpending, hs.queue_sublist⟩

theorem Invariant.receive (hs : Invariant s)
    (hphase : s.phase = .waiting ∨ s.phase = .selecting) {message : InnerMessage}
    {rest : List InnerMessage} (hreceiver : s.receiver = message :: rest) :
    Invariant (s.receiveInto message rest) := by
  have hwriting : s.writing = [] := by
    obtain hphase | hphase := hphase
    · exact writing_eq_nil hphase nofun
    · exact writing_eq_nil hphase nofun
  have hsplit : s.buffer ++ s.receiver = s.buffer ++ [message] ++ rest := by
    rw [hreceiver, List.append_assoc]
    rfl
  unfold receiveInto
  -- off line the buffer is cleaned at each message; on a connection it is only appended to
  by_cases hwaiting : s.phase = .waiting
  · have hoff : ¬ s.IsConnected := fun h => h.2 hwaiting
    have hqueue : s.queue = s.buffer ++ [message] ++ rest := by
      unfold Connection.queue
      rw [(hs.offline hoff).1, hwriting, hsplit]
      rfl
    rw [if_pos hwaiting]
    refine hs.of_offline hoff hoff ⟨rfl, rfl, rfl⟩ (hs.offline hoff).1 ⟨rfl, rfl, rfl⟩ ?_ ?_
    · show (s.pendingReplies ++ (s.writing ++ ((s.buffer ++ [message]).filter
        (fun m => !s.isClosed m) ++ rest))).filter (fun m => !s.isClosed m) = _
      rw [hqueue, (hs.offline hoff).1, hwriting]
      simp only [List.nil_append, List.filter_append, List.filter_filter, Bool.and_self]
    · show (s.pendingReplies ++ (s.writing ++ ((s.buffer ++ [message]).filter
        (fun m => !s.isClosed m) ++ rest))).Sublist s.queue
      rw [hqueue, (hs.offline hoff).1, hwriting]
      exact List.filter_sublist.append (List.Sublist.refl rest)
  · have hselecting : s.phase = .selecting := hphase.resolve_left hwaiting
    have hon : s.IsConnected := isConnected_of_phase hselecting ⟨nofun, nofun⟩
    rw [if_neg hwaiting]
    refine hs.of_online hon ⟨nofun, nofun⟩ ⟨rfl, rfl, rfl⟩ ⟨rfl, rfl⟩ (List.append_nil _).symm
      (List.append_nil _).symm ?_ ?_
    · show (s.pendingReplies ++ ([] ++ (s.buffer ++ [message] ++ rest))).filter _ = _
      unfold Connection.queue
      rw [hwriting, hsplit]
    · show ([] ++ ([] ++ (s.buffer ++ [message] ++ rest))).Sublist _
      rw [hwriting, hsplit]
      exact List.Sublist.refl _

theorem Invariant.pop (hs : Invariant s) (hphase : s.phase = .flushing) : Invariant s.pop := by
  have hon : s.IsConnected := isConnected_of_phase hphase ⟨nofun, nofun⟩
  have hwriting : s.writing = [] := writing_eq_nil hphase nofun
  unfold Connection.pop
  cases hbuffer : s.buffer with
  | nil =>
      refine hs.of_online hon ⟨nofun, nofun⟩ ⟨rfl, rfl, rfl⟩ ⟨rfl, rfl⟩ (List.append_nil _).symm
        (List.append_nil _).symm ?_ ?_
      · show (s.pendingReplies ++ ([] ++ ([] ++ s.receiver))).filter _ = _
        unfold Connection.queue
        rw [hwriting, hbuffer]
      · show ([] ++ ([] ++ ([] ++ s.receiver))).Sublist _
        rw [hwriting, hbuffer]
        exact List.Sublist.refl _
  | cons message rest =>
      have hqueue : s.queue = s.pendingReplies ++ (message :: (rest ++ s.receiver)) := by
        unfold Connection.queue
        rw [hwriting, hbuffer]
        rfl
      by_cases hclosed : s.isClosed message = true
      · simp only [if_pos hclosed]
        refine hs.of_online hon hon ⟨rfl, rfl, rfl⟩ ⟨rfl, rfl⟩ (List.append_nil _).symm
          (List.append_nil _).symm ?_ ?_
        · show (s.pendingReplies ++ (s.writing ++ (rest ++ s.receiver))).filter _ = _
          have hskip : (message :: (rest ++ s.receiver)).filter (fun m => !s.isClosed m) =
              (rest ++ s.receiver).filter (fun m => !s.isClosed m) := by
            rw [List.filter_cons, hclosed]
            rfl
          rw [hqueue, hwriting, List.nil_append, List.filter_append s.pendingReplies,
            List.filter_append s.pendingReplies, hskip]
        · show ([] ++ (s.writing ++ (rest ++ s.receiver))).Sublist _
          rw [hwriting, hbuffer]
          exact List.sublist_cons_self _ _
      · simp only [if_neg hclosed]
        refine hs.of_online hon ⟨nofun, nofun⟩ ⟨rfl, rfl, rfl⟩ ⟨rfl, rfl⟩ (List.append_nil _).symm
          (List.append_nil _).symm ?_ ?_
        · show (s.pendingReplies ++ ([message] ++ (rest ++ s.receiver))).filter _ = _
          rw [hqueue]
          rfl
        · show ([] ++ ([message] ++ (rest ++ s.receiver))).Sublist _
          rw [hwriting, hbuffer]
          exact List.Sublist.refl _

theorem Invariant.sent (hs : Invariant s) {message : InnerMessage}
    (hphase : s.phase = .writing message) :
    Invariant { s with
      pendingReplies := s.pendingReplies ++ [message]
      written := s.written ++ [message]
      phase := .flushing } := by
  have hon : s.IsConnected := isConnected_of_phase hphase ⟨nofun, nofun⟩
  have hwriting : s.writing = [message] := by
    unfold writing
    rw [hphase]
  refine hs.of_online hon ⟨nofun, nofun⟩ ⟨rfl, rfl, rfl⟩ ⟨rfl, rfl⟩ rfl rfl ?_ ?_
  · show (s.pendingReplies ++ [message] ++ ([] ++ (s.buffer ++ s.receiver))).filter _ = _
    unfold Connection.queue
    rw [hwriting, List.append_assoc]
    rfl
  · show ([message] ++ ([] ++ (s.buffer ++ s.receiver))).Sublist _
    rw [hwriting]
    exact List.Sublist.refl _

/-- An acknowledgement takes the first pending message off the queue. -/
theorem Invariant.acknowledge (hs : Invariant s) (hphase : s.phase = .selecting)
    {message : InnerMessage} {rest : List InnerMessage} (frame : List UInt8)
    (hpending : s.pendingReplies = message :: rest) :
    Invariant { s with
      pendingReplies := rest
      acknowledged := message.cancelHandler :: s.acknowledged
      acks := s.acks ++ [frame]
      resolved := s.resolved ++ [(message, frame)]
      phase := .flushing } := by
  have hon : s.IsConnected := isConnected_of_phase hphase ⟨nofun, nofun⟩
  have hwriting : s.writing = [] := writing_eq_nil hphase nofun
  have hqueue : s.queue = message :: (rest ++ (s.buffer ++ s.receiver)) := by
    unfold Connection.queue
    rw [hpending, hwriting]
    rfl
  have hwritten : s.written = (s.resolved ++ [(message, frame)]).map Prod.fst ++ rest := by
    rw [hs.pending hon, hpending, List.map_append, List.append_assoc]
    rfl
  have hacks : s.acks ++ [frame] = (s.resolved ++ [(message, frame)]).map Prod.snd := by
    rw [hs.acks hon, List.map_append]
    rfl
  have hack : ∀ m : InnerMessage,
      (!decide (m.cancelHandler ∈ message.cancelHandler :: s.acknowledged)) =
        (!decide (m.cancelHandler = message.cancelHandler) && !s.isAcknowledged m) := by
    intro m
    unfold isAcknowledged
    simp [List.mem_cons]
  refine ⟨⟨hs.numbered, ?_⟩, ⟨hs.inOrder, ?_⟩, hs.cancelled_lt, ?_,
    fun h => absurd ⟨nofun, nofun⟩ h, fun _ => hwritten, fun _ => hacks, ?_⟩
  · show (rest ++ ([] ++ (s.buffer ++ s.receiver))).filter (fun m => !s.isClosed m) =
      s.submitted.filter (fun m => !s.isClosed m &&
        !decide (m.cancelHandler ∈ message.cancelHandler :: s.acknowledged))
    -- handlers are distinct, so the acknowledged message alone leaves the list
    have hsplit : s.submitted.filter (fun m => !s.isClosed m &&
        !decide (m.cancelHandler ∈ message.cancelHandler :: s.acknowledged)) =
        (s.queue.filter (fun m => !s.isClosed m)).filter
          (fun m => !decide (m.cancelHandler = message.cancelHandler)) := by
      rw [hs.queue, List.filter_filter]
      refine List.filter_congr fun m _ => ?_
      rw [hack]
      exact Bool.and_left_comm _ _ _
    rw [hsplit, List.filter_filter, hqueue, List.filter_cons_of_neg (by simp)]
    refine List.filter_congr fun m hm => ?_
    simp [hs.handler_ne hqueue hm]
  · show s.resolved ++ [(message, frame)] = s.written.zip (s.acks ++ [frame])
    rw [hwritten, hacks, zip_resolved]
  · intro handler hmem
    obtain rfl | hmem := List.mem_cons.mp hmem
    · refine hs.handler_lt ?_
      rw [hqueue]
      exact List.mem_cons_self
    · exact hs.acknowledged_lt handler hmem
  · intro _
    have hline := hs.line hon
    rw [hwriting] at hline
    exact hline

theorem acknowledge_unexpected (frame : List UInt8) (h : s.pendingReplies = []) :
    s.acknowledge frame = Connection.disconnect { s with acks := s.acks ++ [frame] } := by
  unfold acknowledge
  split
  · rfl
  · next hcons =>
    rw [h] at hcons
    cases hcons

theorem acknowledge_expected (frame : List UInt8) {message : InnerMessage}
    {rest : List InnerMessage} (h : s.pendingReplies = message :: rest) :
    s.acknowledge frame = { s with
      pendingReplies := rest
      acknowledged := message.cancelHandler :: s.acknowledged
      acks := s.acks ++ [frame]
      resolved := s.resolved ++ [(message, frame)]
      phase := .flushing } := by
  unfold acknowledge
  split
  · next hnil =>
    rw [h] at hnil
    cases hnil
  · next message' rest' hcons =>
    rw [h] at hcons
    obtain ⟨rfl, rfl⟩ := List.cons.inj hcons
    rfl

/-- Off line the task waits, or tries again. -/
theorem Invariant.offline_phase (hs : Invariant s) (h : ¬ s.IsConnected) {phase : Phase}
    (hphase : phase = .connecting ∨ phase = .waiting) (delay : ℕ) (retry : UInt16) :
    Invariant { s with phase := phase, delay := delay, retry := retry } := by
  have h' : ¬ IsConnected { s with phase := phase, delay := delay, retry := retry } := by
    intro hc
    obtain hphase | hphase := hphase
    · exact hc.1 hphase
    · exact hc.2 hphase
  have hqueue : Connection.queue { s with phase := phase, delay := delay, retry := retry } =
      s.queue := by
    unfold Connection.queue
    rw [writing_of_offline h, writing_of_offline h']
  exact hs.of_offline h h' ⟨rfl, rfl, rfl⟩ (hs.offline h).1 ⟨rfl, rfl, rfl⟩ (by rw [hqueue])
    (by rw [hqueue])

theorem Invariant.failedToSend (hs : Invariant s) {message : InnerMessage}
    (hphase : s.phase = .writing message) :
    Invariant (Connection.disconnect { s with buffer := message :: s.buffer }) := by
  have hwriting : s.writing = [message] := by
    unfold writing
    rw [hphase]
  refine hs.disconnect hs.resolved ?_ rfl rfl rfl ⟨rfl, rfl, rfl⟩ ⟨rfl, rfl, rfl⟩
  show putBack s.pendingReplies (message :: s.buffer) = _
  rw [putBack_eq, hwriting]
  rfl

theorem Invariant.respond (hs : Invariant s) (hphase : s.phase = .selecting)
    (frame : Option (List UInt8)) : Invariant (s.respond frame) := by
  have hon : s.IsConnected := isConnected_of_phase hphase ⟨nofun, nofun⟩
  have hwriting : s.writing = [] := writing_eq_nil hphase nofun
  have hbuffer : putBack s.pendingReplies s.buffer =
      s.pendingReplies ++ (s.writing ++ s.buffer) := by
    rw [putBack_eq, hwriting]
    rfl
  cases frame with
  | none => exact hs.disconnect hs.resolved hbuffer rfl rfl rfl ⟨rfl, rfl, rfl⟩ ⟨rfl, rfl, rfl⟩
  | some frame =>
      show Invariant (s.acknowledge frame)
      cases hpending : s.pendingReplies with
      | nil =>
          -- every message was resolved, so the frame resolves none
          have hresolved : s.resolved = s.written.zip (s.acks ++ [frame]) := by
            have hzip := zip_append_resolved s.resolved [] [frame]
            rw [List.zip_nil_left, List.append_nil s.resolved] at hzip
            rw [hs.pending hon, hpending, hs.acks hon, hzip]
          rw [acknowledge_unexpected frame hpending]
          exact hs.disconnect hresolved hbuffer rfl rfl rfl ⟨rfl, rfl, rfl⟩ ⟨rfl, rfl, rfl⟩
      | cons message rest =>
          rw [acknowledge_expected frame hpending]
          exact hs.acknowledge hphase frame hpending

/-- **Every step keeps the invariant.** -/
theorem Invariant.next (hs : Invariant s) {action : Action} (h : s.next action = some s') :
    Invariant s' := by
  cases action with
  | submit data =>
      simp only [Connection.next] at h
      split at h
      · rw [← Option.some.inj h]
        exact hs.submit data
      · cases h
  | cancel handler =>
      simp only [Connection.next] at h
      split at h
      · next hlt =>
        rw [← Option.some.inj h]
        exact hs.cancel hlt
      · cases h
  | connected =>
      simp only [Connection.next] at h
      split at h
      · next hphase =>
        rw [← Option.some.inj h]
        exact hs.connected hphase
      · cases h
  | failedToConnect =>
      simp only [Connection.next] at h
      split at h
      · next hphase =>
        rw [← Option.some.inj h]
        exact hs.offline_phase (fun h => h.1 hphase) (Or.inr rfl) s.delay s.retry
      · cases h
  | timer =>
      simp only [Connection.next] at h
      split at h
      · next hphase =>
        rw [← Option.some.inj h]
        exact hs.offline_phase (fun h => h.2 hphase) (Or.inl rfl) _ _
      · cases h
  | receive =>
      simp only [Connection.next] at h
      split at h
      · next hphase =>
        split at h
        · cases h
        · next message rest hreceiver =>
          rw [← Option.some.inj h]
          exact hs.receive hphase hreceiver
      · cases h
  | pop =>
      simp only [Connection.next] at h
      split at h
      · next hphase =>
        rw [← Option.some.inj h]
        exact hs.pop hphase
      · cases h
  | sent =>
      simp only [Connection.next] at h
      split at h
      · next message hphase =>
        rw [← Option.some.inj h]
        exact hs.sent hphase
      · cases h
  | failedToSend =>
      simp only [Connection.next] at h
      split at h
      · next message hphase =>
        rw [← Option.some.inj h]
        exact hs.failedToSend hphase
      · cases h
  | response frame =>
      simp only [Connection.next] at h
      split at h
      · next hphase =>
        rw [← Option.some.inj h]
        exact hs.respond hphase frame
      · cases h

end

/-- **Reliable delivery**: in every reachable state the queues hold exactly the messages
that are neither cancelled nor acknowledged, in order and once, and on the TCP connection
replies have been matched to messages. -/
theorem reliable {es : List (Connection × Action)} {s : Connection} (h : system.Run es s) :
    Delivery s ∧ Transcript s := by
  have hinv : Invariant s := by
    induction h with
    | init => exact invariant_spawn
    | step _ hnext ih => exact ih.next hnext
  exact ⟨hinv.toDelivery, hinv.toTranscript⟩

/-- Two messages; the first write fails, and only the second message is acknowledged before
the peer goes away: the first was cancelled. -/
def sampleActions : List Action :=
  [.submit [1], .failedToConnect, .receive, .submit [2], .timer, .connected, .pop, .failedToSend,
    .cancel 0, .connected, .pop, .pop, .receive, .pop, .sent, .pop, .response (some [6]), .pop,
    .response none]

theorem reliable_sample : ∃ es s, system.Run es s ∧ s.acknowledged = [1] ∧
    Delivery s ∧ Transcript s := by
  have hrun : ∃ es s, system.Run es s ∧ decide (s.acknowledged = [1]) = true :=
    System.exec_check system sampleActions (fun _ s => decide (s.acknowledged = [1])) (by decide)
  obtain ⟨es, s, hrun, hcheck⟩ := hrun
  exact ⟨es, s, hrun, of_decide_eq_true hcheck, reliable hrun⟩

end Connection

end Mrv
