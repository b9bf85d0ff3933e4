/-
  Mrv.Store.Task — the task behind the store (`store/src/lib.rs`).

  Handles send commands over one channel to a task that owns the database.  A
  `NotifyRead` of a key that is not there leaves an obligation, which the next `Write`
  of the key fulfils.  The database itself is a parameter, `RocksDb`; its `put` and
  `get` are assumed to succeed (`Reliable`).

  An obligation waits only as long as its key is missing (`Tracks.waiting`), so no
  wakeup is lost: `store_serves` says when each command is answered, with what, and in
  which order.
-/
import Mrv.Lib.HashMap

namespace Mrv.StoreTask

abbrev Key := List UInt8

abbrev Value := List UInt8

abbrev StoreResult (ε α : Type) := Except ε α

/-- The sending end of a one-shot channel. -/
structure Sender where
  id : ℕ
  deriving DecidableEq

inductive StoreCommand where
  | write (key : Key) (value : Value)
  | read (key : Key) (sender : Sender)
  | notifyRead (key : Key) (sender : Sender)
  deriving DecidableEq

/-- What is sent through a one-shot channel. -/
inductive Response (ε : Type) where
  | read (response : StoreResult ε (Option Value))
  | notifyRead (response : StoreResult ε Value)
  deriving DecidableEq

/-- What the code takes from `rocksdb`. -/
structure RocksDb (δ ε : Type) where
  put : δ → Key → Value → StoreResult ε Unit × δ
  get : δ → Key → StoreResult ε (Option Value)

/-- A `get` succeeds and returns what the last `put` of the key stored. -/
structure RocksDb.Reliable {δ ε : Type} (rocksdb : RocksDb δ ε) : Prop where
  get_ok : ∀ db key, ∃ value, rocksdb.get db key = .ok value
  get_put : ∀ db key value key', rocksdb.get (rocksdb.put db key value).2 key' =
    if key' = key then .ok (some value) else rocksdb.get db key'

end Mrv.StoreTask

namespace Mrv

open StoreTask

/-- What the task owns. -/
structure StoreTask (δ : Type) where
  db : δ
  /-- The senders that wait for a key, in the order in which they came. -/
  obligations : AList (fun _ : StoreTask.Key => List Sender)

namespace StoreTask

variable {δ ε : Type}

/-! ## §1. The task. -/

/-- `obligations.entry(key).or_insert_with(VecDeque::new).push_back(sender)` -/
def oblige (s : StoreTask δ) (key : Key) (sender : Sender) : StoreTask δ :=
  { s with
    obligations := s.obligations.insert key ((s.obligations.lookup key).getD [] ++ [sender]) }

/-- One turn of the command loop: the new state and what is sent, in order. -/
def step (rocksdb : RocksDb δ ε) (s : StoreTask δ) :
    StoreCommand → StoreTask δ × List (Sender × Response ε)
  | .write key value =>
      -- the result of `put` is dropped: `let _ = db.put(&key, &value)`
      let s := { s with db := (rocksdb.put s.db key value).2 }
      match s.obligations.lookup key with
      | some senders =>
          -- `while let Some(s) = senders.pop_front()`
          ({ s with obligations := s.obligations.erase key },
            senders.map (fun sender => (sender, .notifyRead (.ok value))))
      | none => (s, [])
  | .read key sender => (s, [(sender, .read (rocksdb.get s.db key))])
  | .notifyRead key sender =>
      match rocksdb.get s.db key with
      -- the next write of the key answers
      | .ok none => (s.oblige key sender, [])
      | .ok (some value) => (s, [(sender, .notifyRead (.ok value))])
      | .error e => (s, [(sender, .notifyRead (.error e))])

/-- The state of a new task on a database. -/
def spawn (db : δ) : StoreTask δ := ⟨db, ∅⟩

/-- The command loop. -/
def run (rocksdb : RocksDb δ ε) :
    StoreTask δ → List StoreCommand → StoreTask δ × List (Sender × Response ε)
  | s, [] => (s, [])
  | s, command :: commands =>
      let (s, sent) := s.step rocksdb command
      let (s, rest) := run rocksdb s commands
      (s, sent ++ rest)

/-! ## §2. What the task is for. -/

/-- The sender that a command brings along. -/
def StoreCommand.sender : StoreCommand → Option Sender
  | .write _ _ => none
  | .read _ sender => some sender
  | .notifyRead _ sender => some sender

/-- The senders of commands; every call of `read` and of `notify_read` opens its own channel. -/
def senders (commands : List StoreCommand) : List Sender := commands.filterMap StoreCommand.sender

/-- The last value written to a key, if it was not in the database before. -/
def written (before : Option Value) (key : Key) (commands : List StoreCommand) : Option Value :=
  commands.foldl (fun last command =>
    match command with
    | .write key' value => if key' = key then some value else last
    | _ => last) before

/-- The senders that asked to be notified of a key, in order. -/
def registered (key : Key) (commands : List StoreCommand) : List Sender :=
  commands.filterMap (fun command =>
    match command with
    | .notifyRead key' sender => if key' = key then some sender else none
    | _ => none)

/-- The responses to one sender. -/
def responsesTo (sender : Sender) (sent : List (Sender × Response ε)) : List (Response ε) :=
  (sent.filter (fun e => decide (e.1 = sender))).map Prod.snd

section

variable (rocksdb : RocksDb δ ε) (db : δ)

/-- The value of a key in the database at the start. -/
def initially (key : Key) : Option Value :=
  match rocksdb.get db key with
  | .ok value => value
  | .error _ => none

/-- The last value of a key after some commands. -/
def current (commands : List StoreCommand) (key : Key) : Option Value :=
  written (initially rocksdb db key) key commands

/-- The task after some commands. -/
def after (commands : List StoreCommand) : StoreTask δ := ((spawn db).run rocksdb commands).1

/-- Of three stretches of a run, a sender is answered in the middle one, by one command, and
neither before nor later. -/
structure AnsweredAt (before : List StoreCommand) (command : StoreCommand)
    (rest : List StoreCommand) (sender : Sender) (response : Response ε) : Prop where
  notBefore : responsesTo sender ((spawn db).run rocksdb before).2 = []
  now : responsesTo sender ((after rocksdb db before).step rocksdb command).2 = [response]
  notLater : responsesTo sender
    (((after rocksdb db before).step rocksdb command).1.run rocksdb rest).2 = []

/-- **What every client may rely on**, over a whole run. -/
structure Serves (commands : List StoreCommand) : Prop where
  /-- Nobody waits for a key that is there. -/
  waiting : ∀ before rest, commands = before ++ rest →
    ∀ key, key ∈ (after rocksdb db before).obligations →
      rocksdb.get (after rocksdb db before).db key = .ok none
  /-- A read returns the last value written. -/
  read : ∀ before key sender rest, commands = before ++ .read key sender :: rest →
    AnsweredAt rocksdb db before (.read key sender) rest sender
      (.read (.ok (current rocksdb db before key)))
  /-- A notification of a key that was written is sent at once. -/
  immediately : ∀ before key sender rest value,
    commands = before ++ .notifyRead key sender :: rest →
    current rocksdb db before key = some value →
    AnsweredAt rocksdb db before (.notifyRead key sender) rest sender (.notifyRead (.ok value))
  /-- Any other is sent at the first write that comes later. -/
  deferred : ∀ before key sender meanwhile value rest,
    commands = (before ++ .notifyRead key sender :: meanwhile) ++ .write key value :: rest →
    current rocksdb db before key = none → (∀ value', .write key value' ∉ meanwhile) →
    AnsweredAt rocksdb db (before ++ .notifyRead key sender :: meanwhile) (.write key value) rest
      sender (.notifyRead (.ok value))
  /-- Until then nothing is sent. -/
  pending : ∀ before key sender meanwhile,
    commands = before ++ .notifyRead key sender :: meanwhile →
    current rocksdb db before key = none → (∀ value, .write key value ∉ meanwhile) →
    responsesTo sender ((spawn db).run rocksdb commands).2 = []
  /-- The first write of a key answers all who asked for it, in the order in which they
  asked; a later one answers nobody. -/
  inOrder : ∀ before key value rest, commands = before ++ .write key value :: rest →
    ((after rocksdb db before).step rocksdb (.write key value)).2 =
      (if current rocksdb db before key = none then registered key before else []).map
        (fun sender => (sender, .notifyRead (.ok value)))

end

/-! ## §3. One command. -/

/-- The senders that wait for a key. -/
def waiters (s : StoreTask δ) (key : Key) : List Sender := (s.obligations.lookup key).getD []

theorem waiters_oblige (s : StoreTask δ) (key key' : Key) (sender : Sender) :
    (s.oblige key sender).waiters key' =
      if key' = key then s.waiters key ++ [sender] else s.waiters key' := by
  show ((s.obligations.insert key _).lookup key').getD [] = _
  rw [AList.lookup_insert_eq_ite]
  split <;> rfl

theorem waiters_erase (s : StoreTask δ) (key key' : Key) (db : δ) :
    waiters ⟨db, s.obligations.erase key⟩ key' = if key' = key then [] else s.waiters key' := by
  show ((s.obligations.erase key).lookup key').getD [] = _
  split
  · next h =>
    rw [h, AList.lookup_erase]
    rfl
  · next h =>
    rw [AList.lookup_erase_ne h]
    rfl

section

variable {rocksdb : RocksDb δ ε} {s : StoreTask δ} {key : Key} {value : Value} {sender : Sender}

/-- A write answers all who wait for the key. -/
theorem step_write : s.step rocksdb (.write key value) =
    (⟨(rocksdb.put s.db key value).2, s.obligations.erase key⟩,
      (s.waiters key).map (fun sender => (sender, .notifyRead (.ok value)))) := by
  unfold step waiters
  cases hlookup : s.obligations.lookup key with
  | some senders =>
      simp only [hlookup]
      rfl
  | none =>
      have herase : s.obligations.erase key = s.obligations :=
        AList.ext (List.kerase_of_notMem_keys (AList.lookup_eq_none.mp hlookup))
      simp only [hlookup, herase]
      rfl

theorem step_notifyRead_none (h : rocksdb.get s.db key = .ok none) :
    s.step rocksdb (.notifyRead key sender) = (s.oblige key sender, []) := by
  unfold step
  simp only [h]

theorem step_notifyRead_some (h : rocksdb.get s.db key = .ok (some value)) :
    s.step rocksdb (.notifyRead key sender) = (s, [(sender, .notifyRead (.ok value))]) := by
  unfold step
  simp only [h]

/-- A notification is put off or sent at once. -/
theorem step_notifyRead (s : StoreTask δ) (rocksdb : RocksDb δ ε) (key : Key) (sender : Sender) :
    s.step rocksdb (.notifyRead key sender) = (s.oblige key sender, []) ∨
      ∃ response, s.step rocksdb (.notifyRead key sender) = (s, [(sender, response)]) := by
  cases hget : rocksdb.get s.db key with
  | error e =>
      refine Or.inr ⟨.notifyRead (.error e), ?_⟩
      unfold step
      simp only [hget]
  | ok value =>
      cases value with
      | none => exact Or.inl (step_notifyRead_none hget)
      | some value => exact Or.inr ⟨_, step_notifyRead_some hget⟩

end

/-! ## §4. The state after a run. -/

theorem run_cons (rocksdb : RocksDb δ ε) (s : StoreTask δ) (command : StoreCommand)
    (commands : List StoreCommand) :
    s.run rocksdb (command :: commands) =
      (((s.step rocksdb command).1.run rocksdb commands).1,
        (s.step rocksdb command).2 ++ ((s.step rocksdb command).1.run rocksdb commands).2) :=
  rfl

theorem run_append (rocksdb : RocksDb δ ε) (s : StoreTask δ) (a b : List StoreCommand) :
    s.run rocksdb (a ++ b) =
      (((s.run rocksdb a).1.run rocksdb b).1,
        (s.run rocksdb a).2 ++ ((s.run rocksdb a).1.run rocksdb b).2) := by
  induction a generalizing s with
  | nil => rfl
  | cons command a ih =>
      rw [List.cons_append, run_cons, run_cons, ih, ← List.append_assoc]

/-- What the state knows of the commands that led to it. -/
structure Tracks (rocksdb : RocksDb δ ε) (db : δ) (before : List StoreCommand)
    (s : StoreTask δ) : Prop where
  get : ∀ key, rocksdb.get s.db key = .ok (current rocksdb db before key)
  waiters : ∀ key, s.waiters key =
    if current rocksdb db before key = none then registered key before else []
  waiting : ∀ key, key ∈ s.obligations → current rocksdb db before key = none

section

variable {rocksdb : RocksDb δ ε} {db : δ} {before : List StoreCommand} {s : StoreTask δ}

theorem current_write (rocksdb : RocksDb δ ε) (db : δ) (before : List StoreCommand)
    (key key' : Key) (value : Value) :
    current rocksdb db (before ++ [.write key value]) key' =
      if key' = key then some value else current rocksdb db before key' := by
  unfold current written
  rw [List.foldl_append]
  show (if key = key' then some value else _) = _
  exact if_congr eq_comm rfl rfl

theorem current_of_sender {command : StoreCommand} {sender : Sender}
    (h : command.sender = some sender) (key : Key) :
    current rocksdb db (before ++ [command]) key = current rocksdb db before key := by
  unfold current written
  rw [List.foldl_append]
  cases command with
  | write key' value => cases h
  | read key' sender' => rfl
  | notifyRead key' sender' => rfl

theorem registered_append (key : Key) (a b : List StoreCommand) :
    registered key (a ++ b) = registered key a ++ registered key b :=
  List.filterMap_append

theorem registered_notifyRead (before : List StoreCommand) (key key' : Key) (sender : Sender) :
    registered key' (before ++ [.notifyRead key sender]) =
      if key' = key then registered key' before ++ [sender] else registered key' before := by
  rw [registered_append]
  by_cases h : key' = key
  · subst h
    simp [registered]
  · have hne : key ≠ key' := fun heq => h heq.symm
    simp [registered, h, hne]

theorem Tracks.spawn (hdb : rocksdb.Reliable) : Tracks rocksdb db [] (spawn db) := by
  refine ⟨?_, ?_, ?_⟩
  · intro key
    obtain ⟨value, hvalue⟩ := hdb.get_ok db key
    show rocksdb.get db key = .ok (initially rocksdb db key)
    unfold initially
    rw [hvalue]
  · intro key
    show [] = if _ then [] else []
    rw [ite_self]
  · intro key hkey
    exact absurd hkey (AList.notMem_empty key)

theorem Tracks.write (hdb : rocksdb.Reliable) (hs : Tracks rocksdb db before s) (key : Key)
    (value : Value) :
    Tracks rocksdb db (before ++ [.write key value]) (s.step rocksdb (.write key value)).1 := by
  rw [step_write]
  refine ⟨?_, ?_, ?_⟩
  · intro key'
    show rocksdb.get (rocksdb.put s.db key value).2 key' = _
    rw [hdb.get_put, current_write, hs.get]
    split <;> rfl
  · intro key'
    rw [waiters_erase, current_write, registered_append]
    by_cases h : key' = key
    · rw [if_pos h, if_pos h, if_neg (Option.some_ne_none value)]
    · rw [if_neg h, if_neg h, hs.waiters]
      show _ = if _ then registered key' before ++ [] else []
      rw [List.append_nil]
  · intro key' hkey'
    obtain ⟨hne, hmem⟩ := AList.mem_erase.mp hkey'
    rw [current_write, if_neg hne]
    exact hs.waiting key' hmem

/-- A command that is answered at once leaves the state as it is. -/
theorem Tracks.answered (hs : Tracks rocksdb db before s) {command : StoreCommand}
    {sender : Sender} (hsender : command.sender = some sender)
    (hregistered : ∀ key, current rocksdb db before key = none →
      registered key (before ++ [command]) = registered key before) :
    Tracks rocksdb db (before ++ [command]) s := by
  have hcurrent : ∀ key, current rocksdb db (before ++ [command]) key =
      current rocksdb db before key := current_of_sender hsender
  refine ⟨?_, ?_, ?_⟩
  · intro key
    rw [hcurrent]
    exact hs.get key
  · intro key
    rw [hcurrent, hs.waiters]
    by_cases h : current rocksdb db before key = none
    · rw [if_pos h, if_pos h, hregistered key h]
    · rw [if_neg h, if_neg h]
  · intro key hkey
    rw [hcurrent]
    exact hs.waiting key hkey

/-- A notification is put off as long as its key is missing. -/
theorem Tracks.oblige (hs : Tracks rocksdb db before s) {key : Key} (sender : Sender)
    (hkey : current rocksdb db before key = none) :
    Tracks rocksdb db (before ++ [.notifyRead key sender]) (s.oblige key sender) := by
  have hcurrent : ∀ key', current rocksdb db (before ++ [.notifyRead key sender]) key' =
      current rocksdb db before key' := current_of_sender rfl
  refine ⟨?_, ?_, ?_⟩
  · intro key'
    rw [hcurrent]
    exact hs.get key'
  · intro key'
    rw [waiters_oblige, hcurrent, registered_notifyRead]
    by_cases h : key' = key
    · rw [if_pos h, if_pos h, h, if_pos hkey, hs.waiters, if_pos hkey]
    · rw [if_neg h, if_neg h]
      exact hs.waiters key'
  · intro key' hkey'
    rw [hcurrent]
    obtain rfl | hmem := (AList.mem_insert _).mp hkey'
    · exact hkey
    · exact hs.waiting key' hmem

/-- **One command keeps track.** -/
theorem Tracks.step (hdb : rocksdb.Reliable) (hs : Tracks rocksdb db before s)
    (command : StoreCommand) :
    Tracks rocksdb db (before ++ [command]) (s.step rocksdb command).1 := by
  cases command with
  | write key value => exact hs.write hdb key value
  | read key sender =>
      refine hs.answered rfl fun key' _ => ?_
      rw [registered_append]
      exact List.append_nil _
  | notifyRead key sender =>
      have hget := hs.get key
      cases hkey : current rocksdb db before key with
      | none =>
          rw [hkey] at hget
          rw [step_notifyRead_none hget]
          exact hs.oblige sender hkey
      | some value =>
          rw [hkey] at hget
          rw [step_notifyRead_some hget]
          refine hs.answered rfl fun key' hmissing => ?_
          rw [registered_notifyRead, if_neg]
          rintro rfl
          rw [hkey] at hmissing
          cases hmissing

theorem Tracks.run (hdb : rocksdb.Reliable) (hs : Tracks rocksdb db before s)
    (commands : List StoreCommand) :
    Tracks rocksdb db (before ++ commands) (s.run rocksdb commands).1 := by
  induction commands generalizing before s with
  | nil =>
      rw [List.append_nil]
      exact hs
  | cons command commands ih =>
      have hrest := ih (hs.step hdb command)
      rw [List.append_assoc] at hrest
      exact hrest

/-- **A run keeps track of its commands.** -/
theorem Tracks.after (hdb : rocksdb.Reliable) (before : List StoreCommand) :
    Tracks rocksdb db before (after rocksdb db before) :=
  (Tracks.spawn hdb).run hdb before

end

/-! ## §5. One sender. -/

/-- A sender that waits for nothing. -/
def Idle (s : StoreTask δ) (sender : Sender) : Prop := ∀ key, sender ∉ s.waiters key

/-- A sender that waits once, for one key. -/
structure Awaits (s : StoreTask δ) (key : Key) (sender : Sender) : Prop where
  once : (s.waiters key).filter (fun x => decide (x = sender)) = [sender]
  only : ∀ key', key' ≠ key → sender ∉ s.waiters key'

theorem responsesTo_append (sender : Sender) (a b : List (Sender × Response ε)) :
    responsesTo sender (a ++ b) = responsesTo sender a ++ responsesTo sender b := by
  unfold responsesTo
  rw [List.filter_append, List.map_append]

theorem responsesTo_singleton_ne {sender sender' : Sender} (h : sender' ≠ sender)
    (response : Response ε) : responsesTo sender [(sender', response)] = [] := by
  simp [responsesTo, h]

theorem responsesTo_singleton_self (sender : Sender) (response : Response ε) :
    responsesTo sender [(sender, response)] = [response] := by
  simp [responsesTo]

theorem filter_of_notMem {sender : Sender} {senders : List Sender} (h : sender ∉ senders) :
    senders.filter (fun x => decide (x = sender)) = [] := by
  rw [List.filter_eq_nil_iff]
  intro x hx heq
  rw [of_decide_eq_true heq] at hx
  exact h hx

theorem notMem_senders_cons {sender : Sender} {command : StoreCommand}
    {commands : List StoreCommand} (h : sender ∉ senders (command :: commands)) :
    command.sender ≠ some sender ∧ sender ∉ senders commands := by
  constructor
  · intro heq
    exact h (List.mem_filterMap.mpr ⟨command, List.mem_cons_self, heq⟩)
  · intro hmem
    obtain ⟨c, hc, heq⟩ := List.mem_filterMap.mp hmem
    exact h (List.mem_filterMap.mpr ⟨c, List.mem_cons_of_mem _ hc, heq⟩)

/-- What a write sends to one of those who wait. -/
theorem responsesTo_map (sender : Sender) (senders : List Sender) (response : Response ε) :
    responsesTo sender (senders.map (fun x => (x, response))) =
      (senders.filter (fun x => decide (x = sender))).map (fun _ => response) := by
  unfold responsesTo
  rw [List.filter_map, List.map_map]
  rfl

section

variable (rocksdb : RocksDb δ ε) {s : StoreTask δ} {key : Key} {sender : Sender}

/-- Commands of others do not concern a sender that waits for nothing. -/
theorem Idle.step (hs : s.Idle sender) {command : StoreCommand}
    (hne : command.sender ≠ some sender) :
    responsesTo sender (s.step rocksdb command).2 = [] ∧
      (s.step rocksdb command).1.Idle sender := by
  cases command with
  | write key value =>
      rw [step_write]
      constructor
      · show responsesTo sender ((s.waiters key).map (fun x => (x, _))) = []
        rw [responsesTo_map, filter_of_notMem (hs key)]
        rfl
      · intro key' hmem
        rw [waiters_erase] at hmem
        split at hmem
        · cases hmem
        · exact hs key' hmem
  | read key sender' =>
      -- the answer goes to the sender of the command
      have hsender : sender' ≠ sender := fun heq => hne (congrArg some heq)
      exact ⟨responsesTo_singleton_ne hsender _, hs⟩
  | notifyRead key sender' =>
      have hsender : sender' ≠ sender := fun heq => hne (congrArg some heq)
      obtain hstep | ⟨response, hstep⟩ := s.step_notifyRead rocksdb key sender'
      · rw [hstep]
        refine ⟨rfl, ?_⟩
        intro key' hmem
        rw [waiters_oblige] at hmem
        split at hmem
        · obtain hmem | hmem := List.mem_append.mp hmem
          · exact hs key hmem
          · exact hsender (List.mem_singleton.mp hmem).symm
        · exact hs key' hmem
      · rw [hstep]
        exact ⟨responsesTo_singleton_ne hsender _, hs⟩

theorem Idle.run (hs : s.Idle sender) {commands : List StoreCommand}
    (hne : sender ∉ senders commands) :
    responsesTo sender (s.run rocksdb commands).2 = [] ∧
      (s.run rocksdb commands).1.Idle sender := by
  induction commands generalizing s with
  | nil => exact ⟨rfl, hs⟩
  | cons command commands ih =>
      obtain ⟨hcommand, hcommands⟩ := notMem_senders_cons hne
      obtain ⟨hnow, hnext⟩ := hs.step rocksdb hcommand
      obtain ⟨hlater, hend⟩ := ih hnext hcommands
      rw [run_cons]
      refine ⟨?_, hend⟩
      rw [responsesTo_append, hnow, hlater, List.append_nil]

/-- A sender that is put off waits. -/
theorem Idle.oblige (hs : s.Idle sender) (key : Key) : (s.oblige key sender).Awaits key sender := by
  constructor
  · rw [waiters_oblige, if_pos rfl, List.filter_append, filter_of_notMem (hs key)]
    simp
  · intro key' hne
    rw [waiters_oblige, if_neg hne]
    exact hs key'

/-- Until its key is written, commands of others leave a waiting sender waiting. -/
theorem Awaits.step (hs : s.Awaits key sender) {command : StoreCommand}
    (hne : command.sender ≠ some sender) (hwrite : ∀ value, command ≠ .write key value) :
    responsesTo sender (s.step rocksdb command).2 = [] ∧
      (s.step rocksdb command).1.Awaits key sender := by
  cases command with
  | write key' value =>
      -- a write of another key wakes others only
      have hkey : key' ≠ key := fun heq => hwrite value (by rw [heq])
      rw [step_write]
      refine ⟨?_, ?_, ?_⟩
      · show responsesTo sender ((s.waiters key').map (fun x => (x, _))) = []
        rw [responsesTo_map, filter_of_notMem (hs.only key' hkey)]
        rfl
      · rw [waiters_erase, if_neg hkey.symm]
        exact hs.once
      · intro key'' hne'' hmem
        rw [waiters_erase] at hmem
        split at hmem
        · cases hmem
        · exact hs.only key'' hne'' hmem
  | read key' sender' =>
      have hsender : sender' ≠ sender := fun heq => hne (congrArg some heq)
      exact ⟨responsesTo_singleton_ne hsender _, hs⟩
  | notifyRead key' sender' =>
      have hsender : sender' ≠ sender := fun heq => hne (congrArg some heq)
      obtain hstep | ⟨response, hstep⟩ := s.step_notifyRead rocksdb key' sender'
      · rw [hstep]
        refine ⟨rfl, ?_, ?_⟩
        · rw [waiters_oblige]
          split
          · next heq =>
            rw [← heq, List.filter_append, hs.once]
            simp [hsender]
          · exact hs.once
        · intro key'' hne'' hmem
          rw [waiters_oblige] at hmem
          split at hmem
          · next heq =>
            obtain hmem | hmem := List.mem_append.mp hmem
            · rw [← heq] at hmem
              exact hs.only key'' hne'' hmem
            · exact hsender (List.mem_singleton.mp hmem).symm
          · exact hs.only key'' hne'' hmem
      · rw [hstep]
        exact ⟨responsesTo_singleton_ne hsender _, hs⟩

theorem Awaits.run (hs : s.Awaits key sender) {commands : List StoreCommand}
    (hne : sender ∉ senders commands) (hwrite : ∀ value, .write key value ∉ commands) :
    responsesTo sender (s.run rocksdb commands).2 = [] ∧
      (s.run rocksdb commands).1.Awaits key sender := by
  induction commands generalizing s with
  | nil => exact ⟨rfl, hs⟩
  | cons command commands ih =>
      obtain ⟨hcommand, hcommands⟩ := notMem_senders_cons hne
      have hother : ∀ value, command ≠ .write key value := by
        intro value heq
        exact hwrite value (heq ▸ List.mem_cons_self)
      obtain ⟨hnow, hnext⟩ := hs.step rocksdb hcommand hother
      obtain ⟨hlater, hend⟩ := ih hnext hcommands
        (fun value hmem => hwrite value (List.mem_cons_of_mem _ hmem))
      rw [run_cons]
      refine ⟨?_, hend⟩
      rw [responsesTo_append, hnow, hlater, List.append_nil]

/-- The write of its key answers a waiting sender once. -/
theorem Awaits.write (hs : s.Awaits key sender) (value : Value) :
    responsesTo sender (s.step rocksdb (.write key value)).2 = [.notifyRead (.ok value)] ∧
      (s.step rocksdb (.write key value)).1.Idle sender := by
  rw [step_write]
  constructor
  · show responsesTo sender ((s.waiters key).map (fun x => (x, _))) = _
    rw [responsesTo_map, hs.once]
    rfl
  · intro key' hmem
    rw [waiters_erase] at hmem
    split at hmem
    · cases hmem
    · next hne => exact hs.only key' hne hmem

end

/-! ## §6. No lost wakeup. -/

section

variable {rocksdb : RocksDb δ ε} {db : δ}

theorem idle_spawn (db : δ) (sender : Sender) : (spawn db).Idle sender :=
  fun _ => List.not_mem_nil

/-- The senders on the two sides of a command, if channels are not shared. -/
theorem fresh_split {before rest : List StoreCommand} {command : StoreCommand} {sender : Sender}
    (hfresh : (senders (before ++ command :: rest)).Nodup) (h : command.sender = some sender) :
    sender ∉ senders before ∧ sender ∉ senders rest := by
  unfold senders at hfresh
  rw [List.filterMap_append, List.filterMap_cons_some h] at hfresh
  obtain ⟨_, hrest, hdisjoint⟩ := List.nodup_append.mp hfresh
  refine ⟨?_, (List.nodup_cons.mp hrest).1⟩
  intro hmem
  exact hdisjoint sender hmem sender List.mem_cons_self rfl

theorem after_append (before commands : List StoreCommand) :
    after rocksdb db (before ++ commands) =
      ((after rocksdb db before).run rocksdb commands).1 := by
  unfold after
  rw [run_append]

/-- A command that answers its own sender, and does not change who waits. -/
theorem answeredAt_of_step {before rest : List StoreCommand} {command : StoreCommand}
    {sender : Sender} {response : Response ε}
    (hfresh : (senders (before ++ command :: rest)).Nodup) (h : command.sender = some sender)
    (hstep : (after rocksdb db before).step rocksdb command =
      (after rocksdb db before, [(sender, response)])) :
    AnsweredAt rocksdb db before command rest sender response := by
  obtain ⟨hbefore, hrest⟩ := fresh_split hfresh h
  obtain ⟨hnone, hidle⟩ := (idle_spawn db sender).run rocksdb hbefore
  refine ⟨hnone, ?_, ?_⟩
  · rw [hstep]
    exact responsesTo_singleton_self sender response
  · rw [hstep]
    exact (Idle.run rocksdb hidle hrest).1

/-- A notification that is put off: nothing is sent, and the sender waits. -/
theorem awaits_of_notifyRead (hdb : rocksdb.Reliable) {before meanwhile : List StoreCommand}
    {key : Key} {sender : Sender}
    (hfresh : (senders (before ++ .notifyRead key sender :: meanwhile)).Nodup)
    (hnone : current rocksdb db before key = none)
    (hwrite : ∀ value, .write key value ∉ meanwhile) :
    responsesTo sender ((spawn db).run rocksdb (before ++ .notifyRead key sender :: meanwhile)).2 =
        [] ∧
      (after rocksdb db (before ++ .notifyRead key sender :: meanwhile)).Awaits key sender := by
  obtain ⟨hbefore, hmeanwhile⟩ := fresh_split hfresh rfl
  obtain ⟨hquiet, hidle⟩ := (idle_spawn db sender).run rocksdb hbefore
  have hget : rocksdb.get (after rocksdb db before).db key = .ok none := by
    rw [(Tracks.after hdb before).get, hnone]
  have hstep : (after rocksdb db before).step rocksdb (.notifyRead key sender) =
      ((after rocksdb db before).oblige key sender, []) := step_notifyRead_none hget
  have hawaits : ((after rocksdb db before).oblige key sender).Awaits key sender :=
    Idle.oblige hidle key
  obtain ⟨hlater, hend⟩ := hawaits.run rocksdb hmeanwhile hwrite
  have hrun : (after rocksdb db before).run rocksdb (.notifyRead key sender :: meanwhile) =
      (((after rocksdb db before).oblige key sender).run rocksdb meanwhile) := by
    rw [run_cons, hstep]
    rfl
  constructor
  · rw [run_append, responsesTo_append, hquiet, List.nil_append]
    change responsesTo sender ((after rocksdb db before).run rocksdb _).2 = []
    rw [hrun]
    exact hlater
  · rw [after_append, hrun]
    exact hend

/-- **No lost wakeup.**  Whatever commands the clones of a handle send, and in whatever
order, each is answered once, when it should be, and with the right value. -/
theorem store_serves (rocksdb : RocksDb δ ε) (hdb : rocksdb.Reliable) (db : δ)
    (commands : List StoreCommand) (hfresh : (senders commands).Nodup) :
    Serves rocksdb db commands where
  waiting := by
    intro before rest _ key hkey
    have htracks : Tracks rocksdb db before (after rocksdb db before) := Tracks.after hdb before
    rw [htracks.get, htracks.waiting key hkey]
  read := by
    intro before key sender rest hsplit
    rw [hsplit] at hfresh
    refine answeredAt_of_step hfresh rfl ?_
    show (after rocksdb db before, [(sender, Response.read (rocksdb.get _ key))]) = _
    rw [(Tracks.after hdb before).get]
  immediately := by
    intro before key sender rest value hsplit hvalue
    rw [hsplit] at hfresh
    refine answeredAt_of_step hfresh rfl (step_notifyRead_some ?_)
    rw [(Tracks.after hdb before).get, hvalue]
  deferred := by
    intro before key sender meanwhile value rest hsplit hnone hwrite
    rw [hsplit] at hfresh
    have hfresh' : (senders (before ++ .notifyRead key sender :: meanwhile)).Nodup := by
      unfold senders at hfresh
      rw [List.filterMap_append] at hfresh
      exact (List.nodup_append.mp hfresh).1
    have hrest : sender ∉ senders rest := by
      rw [List.append_assoc] at hfresh
      intro hmem
      refine (fresh_split hfresh rfl).2 ?_
      obtain ⟨c, hc, heq⟩ := List.mem_filterMap.mp hmem
      exact List.mem_filterMap.mpr
        ⟨c, List.mem_append_right _ (List.mem_cons_of_mem _ hc), heq⟩
    obtain ⟨hquiet, hawaits⟩ := awaits_of_notifyRead hdb hfresh' hnone hwrite
    obtain ⟨hnow, hidle⟩ := hawaits.write rocksdb value
    exact ⟨hquiet, hnow, (hidle.run rocksdb hrest).1⟩
  pending := by
    intro before key sender meanwhile hsplit hnone hwrite
    rw [hsplit] at hfresh ⊢
    exact (awaits_of_notifyRead hdb hfresh hnone hwrite).1
  inOrder := by
    intro before key value rest _
    rw [step_write, (Tracks.after hdb before).waiters]

end

/-- A database in memory, none of whose operations fails. -/
def inMemory : RocksDb (AList (fun _ : Key => Value)) Empty :=
  { put := fun db key value => (.ok (), db.insert key value)
    get := fun db key => .ok (db.lookup key) }

theorem reliable_inMemory : inMemory.Reliable := by
  constructor
  · intro db key
    exact ⟨_, rfl⟩
  · intro db key value key'
    show Except.ok ((db.insert key value).lookup key') = if key' = key then _ else _
    rw [AList.lookup_insert_eq_ite]
    split <;> rfl

/-- Two readers wait for a key, which is written twice; a third comes later. -/
def sampleCommands : List StoreCommand :=
  [.notifyRead [0] ⟨1⟩, .notifyRead [0] ⟨2⟩, .write [0] [4], .write [0] [5], .notifyRead [0] ⟨3⟩]

theorem store_serves_sample : Serves inMemory ∅ sampleCommands :=
  store_serves inMemory reliable_inMemory ∅ sampleCommands (by decide)

end StoreTask

end Mrv
