/-
  Mrv.Worker.Synchronizer — batches that a worker lacks (`worker/src/synchronizer.rs`).

  The primary asks for batches and tells the round it is in.  For each batch that it was
  asked for the synchronizer keeps a wait, which ends when the batch is in the store or
  when its round is collected.  What it lacks it requests from the target at once, and,
  while the wait lasts, from a few other workers whenever the timer finds that it has
  lasted too long.

  The waits are those of the library; that the map and the futures agree is `Tidy`, which
  every operation keeps.  What is pending after an operation is said by one lemma for each.
-/
import Mrv.Lib.Waits
import Mrv.Wire
import Mrv.Worker.QuorumWaiter

namespace Mrv

/-- The address of a worker for other workers: whose it is, and its id. -/
abbrev WorkerAddress := PublicKey × WorkerId

/-- The batches of a worker, as they were received. -/
abbrev BatchStore := HashMap Key SerializedBatchMessage

/-- The addresses of all workers with a specific id except the one of `myself`. -/
def Committee.othersWorkers (c : Committee) (myself : PublicKey) (id : WorkerId) :
    List (PublicKey × WorkerAddress) :=
  (c.authorities.entries.filter (fun e => decide (e.1 ≠ myself))).filterMap (fun e =>
    if id ∈ e.2.workers then some (e.1, (e.1, id)) else none)

/-- The key, the committee and the parameters of a synchronizer. -/
structure Synchronizer where
  name : PublicKey
  id : WorkerId
  committee : Committee
  gcDepth : ℕ
  syncRetryDelay : ℕ
  syncRetryNodes : ℕ

namespace Synchronizer

/-! ## §1. The task. -/

/-- What is noted about a batch that is waited for. -/
structure Asked where
  /-- The round of the primary when it asked. -/
  round : ℕ
  /-- When it asked, in milliseconds. -/
  timestamp : ℕ
  deriving DecidableEq

structure State where
  /-- The primary's round number (only used for cleanup). -/
  round : ℕ
  waits : Waits Digest Asked
  /-- All requests sent, with the addresses they were sent to. -/
  network : List (List WorkerAddress × WorkerMessage)

def State.new : State := { round := 0, waits := .new, network := [] }

/-- A batch is waited for. -/
def State.Pending (s : State) (d : Digest) : Prop := (s.waits.pending.lookup d).isSome = true

/-- The loop over the digests of a command: the waits it adds, and what is missing. -/
def ask (store : BatchStore) (asked : Asked) :
    List Digest → Waits Digest Asked → List Digest → Waits Digest Asked × List Digest
  | [], waits, missing => (waits, missing)
  | digest :: digests, waits, missing =>
      -- Ensure we do not send twice the same sync request.
      if (waits.pending.lookup digest).isSome then ask store asked digests waits missing
      else
        -- Check if we received the batch in the meantime.
        ask store asked digests (waits.start digest asked)
          (if (store.lookup digest.toVec).isSome then missing else missing ++ [digest])

variable (self : Synchronizer)

/-- `PrimaryWorkerMessage::Synchronize` -/
def synchronize (store : BatchStore) (now : ℕ) (digests : List Digest) (target : PublicKey)
    (s : State) : State :=
  let asked := ask store ⟨s.round, now⟩ digests s.waits []
  { s with
    waits := asked.1
    -- Send sync request to a single node.
    network := s.network ++ match self.committee.worker target self.id with
      | .ok id => [([(target, id)], .batchRequest asked.2 self.name)]
      | .error _ => [] }

/-- `PrimaryWorkerMessage::Cleanup` -/
def cleanup (round : ℕ) (s : State) : State :=
  if round < self.gcDepth then { s with round }
  else { s with
    round
    waits := s.waits.retain (fun asked => decide (round - self.gcDepth < asked.round)) }

/-- Handle a message of the primary. -/
def handle (store : BatchStore) (now : ℕ) (s : State) : PrimaryWorkerMessage → State
  | .synchronize digests target => self.synchronize store now digests target s
  | .cleanup round => self.cleanup round s

/-- The batches that are waited for too long. -/
def overdue (now : ℕ) (s : State) : List Digest :=
  (s.waits.pending.entries.filter
    (fun e => decide (e.2.2.timestamp + self.syncRetryDelay < now))).map Sigma.fst

/-- The addresses for retrials. -/
def others : List WorkerAddress := (self.committee.othersWorkers self.name self.id).map Prod.snd

/-- The timer expires: what is overdue is requested, in whatever order the map lists it, from
the first of the others, shuffled at random. -/
def timer (now : ℕ) (retry : List Digest) (shuffled : List WorkerAddress) (s : State) :
    Option State :=
  if retry.isPerm (self.overdue now s) && shuffled.isPerm self.others then
    some { s with
      network := s.network ++ if retry = [] then []
        else [(shuffled.take self.syncRetryNodes, .batchRequest retry self.name)] }
  else none

/-- A wait ends since the batch is in the store. -/
def ready (store : BatchStore) (i : ℕ) (s : State) : Option State :=
  match s.waits.waiting[i]? with
  | none => none
  | some x =>
      if (store.lookup x.key.toVec).isSome then some { s with waits := s.waits.finish i x } else none

/-- A wait ends since it was cancelled. -/
def canceled (i : ℕ) (s : State) : Option State :=
  match s.waits.waiting[i]? with
  | none => none
  | some x =>
      if s.waits.canceled x.handle then some { s with waits := s.waits.discard i } else none

variable {self} {store : BatchStore} {asked : Asked} {digests missing retry : List Digest}
  {waits : Waits Digest Asked} {s s' : State} {now i round : ℕ} {d : Digest} {target : PublicKey}
  {shuffled : List WorkerAddress} {message : PrimaryWorkerMessage}

theorem ready_eq_some (h : ready store i s = some s') :
    ∃ x, s.waits.waiting[i]? = some x ∧ (store.lookup x.key.toVec).isSome = true ∧
      s' = { s with waits := s.waits.finish i x } := by
  unfold ready at h
  split at h
  · cases h
  · next x hget =>
    split at h
    · next hstored => exact ⟨x, hget, hstored, (Option.some.inj h).symm⟩
    · cases h

theorem canceled_eq_some (h : canceled i s = some s') :
    ∃ x, s.waits.waiting[i]? = some x ∧ s.waits.canceled x.handle = true ∧
      s' = { s with waits := s.waits.discard i } := by
  unfold canceled at h
  split at h
  · cases h
  · next x hget =>
    split at h
    · next hcanceled => exact ⟨x, hget, hcanceled, (Option.some.inj h).symm⟩
    · cases h

theorem timer_eq_some (h : self.timer now retry shuffled s = some s') :
    retry.Perm (self.overdue now s) ∧ shuffled.Perm self.others ∧
      s' = { s with
        network := s.network ++ if retry = [] then []
          else [(shuffled.take self.syncRetryNodes, .batchRequest retry self.name)] } := by
  unfold timer at h
  split at h
  · next hperm =>
    rw [Bool.and_eq_true, List.isPerm_iff, List.isPerm_iff] at hperm
    exact ⟨hperm.1, hperm.2, (Option.some.inj h).symm⟩
  · cases h

/-! ## §2. The waits. -/

theorem tidy_ask (h : waits.Tidy) : (ask store asked digests waits missing).1.Tidy := by
  induction digests generalizing waits missing with
  | nil => exact h
  | cons digest digests ih =>
      unfold ask
      split
      · exact ih h
      · exact ih (h.start digest asked)

theorem tidy_handle (h : s.waits.Tidy) : (self.handle store now s message).waits.Tidy := by
  cases message with
  | synchronize digests target => exact tidy_ask h
  | cleanup round =>
      show (self.cleanup round s).waits.Tidy
      unfold cleanup
      split
      · exact h
      · exact h.retain (fun asked => decide (round - self.gcDepth < asked.round))

theorem tidy_timer (h : s.waits.Tidy) (htimer : self.timer now retry shuffled s = some s') :
    s'.waits.Tidy := by
  obtain ⟨_, _, rfl⟩ := timer_eq_some htimer
  exact h

theorem tidy_ready (h : s.waits.Tidy) (hready : ready store i s = some s') : s'.waits.Tidy := by
  obtain ⟨x, hget, _, rfl⟩ := ready_eq_some hready
  exact h.finish hget

theorem tidy_canceled (h : s.waits.Tidy) (hcanceled : canceled i s = some s') :
    s'.waits.Tidy := by
  obtain ⟨x, hget, hhandle, rfl⟩ := canceled_eq_some hcanceled
  exact h.discard hget hhandle

/-! ## §3. What is pending. -/

theorem lookup_start (d : Digest) : ((waits.start d asked).pending.lookup d).isSome = true := by
  show ((waits.pending.insert d _).lookup d).isSome = true
  rw [AList.lookup_insert]
  rfl

theorem lookup_start_of_ne {digest : Digest} (h : d ≠ digest) :
    (waits.start digest asked).pending.lookup d = waits.pending.lookup d :=
  AList.lookup_insert_ne h

/-- What is asked for is pending, and so is what was pending before. -/
theorem pending_ask : ((ask store asked digests waits missing).1.pending.lookup d).isSome = true ↔
    d ∈ digests ∨ (waits.pending.lookup d).isSome = true := by
  induction digests generalizing waits missing with
  | nil => exact (or_iff_right List.not_mem_nil).symm
  | cons digest digests ih =>
      rw [List.mem_cons, or_assoc, or_left_comm]
      unfold ask
      split
      · next hpending =>
        rw [ih]
        refine or_congr_right ⟨Or.inr, ?_⟩
        rintro (rfl | h)
        · exact hpending
        · exact h
      · rw [ih]
        refine or_congr_right ?_
        obtain rfl | hne := eq_or_ne d digest
        · exact iff_of_true (lookup_start d) (Or.inl rfl)
        · rw [lookup_start_of_ne hne, or_iff_right hne]

/-- What is missing is asked for, not pending, not in the store, and listed once. -/
theorem missing_ask (store : BatchStore) (asked : Asked) (digests : List Digest)
    (waits : Waits Digest Asked) (missing : List Digest) : ∃ new, (ask store asked digests waits missing).2 = missing ++ new ∧
    new.Nodup ∧
      ∀ d ∈ new, d ∈ digests ∧ waits.pending.lookup d = none ∧ store.lookup d.toVec = none := by
  induction digests generalizing waits missing with
  | nil => exact ⟨[], (List.append_nil _).symm, List.nodup_nil, List.forall_mem_nil _⟩
  | cons digest digests ih =>
      unfold ask
      split
      · obtain ⟨new, heq, hnodup, hnew⟩ := ih waits missing
        exact ⟨new, heq, hnodup, fun d hd => ⟨List.mem_cons_of_mem _ (hnew d hd).1, (hnew d hd).2⟩⟩
      · next hpending =>
        have hnone := Option.not_isSome_iff_eq_none.mp hpending
        have hother : ∀ d, (waits.start digest asked).pending.lookup d = none →
            d ≠ digest ∧ waits.pending.lookup d = none := by
          intro d hd
          have hne : d ≠ digest := by
            rintro rfl
            exact absurd (lookup_start d) (Option.not_isSome_iff_eq_none.mpr hd)
          exact ⟨hne, lookup_start_of_ne hne ▸ hd⟩
        split
        · obtain ⟨new, heq, hnodup, hnew⟩ := ih (waits.start digest asked) missing
          refine ⟨new, heq, hnodup, fun d hd => ?_⟩
          obtain ⟨hmem, hstart, hstore⟩ := hnew d hd
          exact ⟨List.mem_cons_of_mem _ hmem, (hother d hstart).2, hstore⟩
        · next hstored =>
          obtain ⟨new, heq, hnodup, hnew⟩ := ih (waits.start digest asked) (missing ++ [digest])
          refine ⟨digest :: new, by rw [heq, List.append_assoc]; rfl,
            List.nodup_cons.mpr ⟨fun hmem => (hother digest (hnew digest hmem).2.1).1 rfl, hnodup⟩,
            List.forall_mem_cons.mpr ⟨⟨List.mem_cons_self, hnone,
              Option.not_isSome_iff_eq_none.mp hstored⟩, fun d hd => ?_⟩⟩
          obtain ⟨hmem, hstart, hstore⟩ := hnew d hd
          exact ⟨List.mem_cons_of_mem _ hmem, (hother d hstart).2, hstore⟩

theorem pending_synchronize : (self.synchronize store now digests target s).Pending d ↔
    d ∈ digests ∨ s.Pending d := pending_ask

/-- A cleanup drops the wait for a batch: the round in which it was asked for is collected. -/
def Drops (self : Synchronizer) (s : State) (message : PrimaryWorkerMessage) (d : Digest) : Prop :=
  ∃ round handle asked, message = .cleanup round ∧
    s.waits.pending.lookup d = some (handle, asked) ∧ asked.round + self.gcDepth ≤ round

theorem pending_cleanup : (self.cleanup round s).Pending d ↔
    s.Pending d ∧ ¬ self.Drops s (.cleanup round) d := by
  have hdrops : ∀ handle asked, s.waits.pending.lookup d = some (handle, asked) →
      (self.Drops s (.cleanup round) d ↔ asked.round + self.gcDepth ≤ round) := by
    intro handle asked hlookup
    constructor
    · rintro ⟨_, _, _, heq, hlookup', hle⟩
      rw [hlookup] at hlookup'
      obtain ⟨-, rfl⟩ := Prod.mk.inj (Option.some.inj hlookup')
      obtain rfl := PrimaryWorkerMessage.cleanup.inj heq
      exact hle
    · exact fun hle => ⟨round, handle, asked, rfl, hlookup, hle⟩
  unfold cleanup State.Pending
  cases hlookup : s.waits.pending.lookup d with
  | none =>
      refine iff_of_false (fun h => ?_) (fun h => Bool.false_ne_true h.1)
      split at h
      · rw [hlookup] at h
        cases h
      · change ((s.waits.pending.retain _).lookup d).isSome = true at h
        rw [AList.lookup_retain, hlookup] at h
        cases h
  | some e =>
      rw [hdrops e.1 e.2 hlookup]
      split
      · rw [hlookup]
        exact iff_of_true rfl ⟨rfl, by omega⟩
      · show ((s.waits.pending.retain _).lookup d).isSome = true ↔ _
        rw [AList.lookup_retain, hlookup, Option.bind_some]
        split
        · next hkeep =>
          rw [decide_eq_true_eq] at hkeep
          exact iff_of_true rfl ⟨rfl, by omega⟩
        · next hkeep =>
          rw [decide_eq_true_eq] at hkeep
          exact iff_of_false Bool.false_ne_true fun h => h.2 (by omega)

/-- **What a message of the primary leaves pending.** -/
theorem pending_handle (h : s.Pending d) :
    (self.handle store now s message).Pending d ∨ self.Drops s message d := by
  cases message with
  | synchronize digests target => exact Or.inl (pending_synchronize.mpr (Or.inr h))
  | cleanup round =>
      by_cases hdrops : self.Drops s (.cleanup round) d
      · exact Or.inr hdrops
      · exact Or.inl (pending_cleanup.mpr ⟨h, hdrops⟩)

/-- A wait that ends with its batch leaves the others. -/
theorem pending_ready (hready : ready store i s = some s') (h : s.Pending d) :
    s'.Pending d ∨ (store.lookup d.toVec).isSome = true := by
  obtain ⟨x, _, hstored, rfl⟩ := ready_eq_some hready
  obtain rfl | hne := eq_or_ne d x.key
  · exact Or.inr hstored
  · refine Or.inl ?_
    show ((s.waits.pending.erase x.key).lookup d).isSome = true
    rw [AList.lookup_erase_ne hne]
    exact h

/-- **A wait for a stored batch can end**, and then its batch is not pending. -/
theorem exists_ready (htidy : s.waits.Tidy) (h : s.Pending d)
    (hstored : (store.lookup d.toVec).isSome = true) :
    ∃ i s', ready store i s = some s' ∧ ¬ s'.Pending d := by
  obtain ⟨e, hlookup⟩ := Option.isSome_iff_exists.mp h
  obtain ⟨i, x, hget, rfl, _⟩ := htidy.exists_live hlookup
  refine ⟨i, { s with waits := s.waits.finish i x }, ?_, ?_⟩
  · simp only [ready, hget, hstored, if_true]
  · show ¬ ((s.waits.pending.erase x.key).lookup x.key).isSome = true
    rw [AList.lookup_erase]
    exact Bool.false_ne_true

theorem mem_overdue : d ∈ self.overdue now s ↔ ∃ handle asked,
    s.waits.pending.lookup d = some (handle, asked) ∧
      asked.timestamp + self.syncRetryDelay < now := by
  unfold overdue
  rw [List.mem_map]
  constructor
  · rintro ⟨⟨_, handle, asked⟩, hmem, rfl⟩
    obtain ⟨hmem, hlate⟩ := List.mem_filter.mp hmem
    exact ⟨handle, asked, AList.lookup_eq_some_iff.mpr hmem, of_decide_eq_true hlate⟩
  · rintro ⟨handle, asked, hlookup, hlate⟩
    exact ⟨⟨d, handle, asked⟩, List.mem_filter.mpr
      ⟨AList.lookup_eq_some_iff.mp hlookup, decide_eq_true hlate⟩, rfl⟩

theorem nodup_overdue : (self.overdue now s).Nodup :=
  (s.waits.pending.nodupKeys.sublist List.filter_sublist)

end Synchronizer

end Mrv
