/-
  Mrv.Worker.Worker — a worker and its store (`worker/src/worker.rs`, `processor.rs`, `helper.rs`).

  A worker stores each batch under its digest and reports the digest to the primary; it
  answers requests of other workers from its store; and it asks other workers for what the
  primary lacks.  Its tasks share the store and nothing else, so a step of the worker is a
  step of one of them, in any order; what other workers and the primary send is arbitrary.

    * `stored_under_digest` — what is stored, reported and answered is what its digest says,
    * `asked_accounted`     — what the primary asked for is stored or waited for, unless
                              its round was collected since it was asked for last.
-/
import Mrv.Lib.System
import Mrv.Worker.Synchronizer

namespace Mrv

/-- The key, the committee and the parameters of a worker. -/
structure Worker where
  name : PublicKey
  id : WorkerId
  committee : Committee
  gcDepth : ℕ
  syncRetryDelay : ℕ
  syncRetryNodes : ℕ

namespace Worker

/-! ## §1. The worker. -/

structure State where
  /-- The persistent storage. -/
  store : BatchStore
  synchronizer : Synchronizer.State
  /-- All messages sent to the primary. -/
  txPrimary : List WorkerPrimaryMessage
  /-- All replies of the helper, with the address they were sent to. -/
  replies : List (WorkerAddress × SerializedBatchMessage)

inductive Action where
  /-- A processor takes a batch, of our own or of another worker. -/
  | process (own : Bool) (batch : SerializedBatchMessage)
  /-- The helper takes a request. -/
  | request (digests : List Digest) (origin : PublicKey)
  /-- The synchronizer takes a message of the primary. -/
  | command (now : ℕ) (message : PrimaryWorkerMessage)
  | timer (now : ℕ) (retry : List Digest) (shuffled : List WorkerAddress)
  | ready (i : ℕ)
  | canceled (i : ℕ)
  deriving DecidableEq

def State.new : State := { store := ∅, synchronizer := .new, txPrimary := [], replies := [] }

variable [Crypto] (self : Worker)

def synchronizer : Synchronizer :=
  { name := self.name, id := self.id, committee := self.committee, gcDepth := self.gcDepth
    syncRetryDelay := self.syncRetryDelay, syncRetryNodes := self.syncRetryNodes }

/-- `Processor` -/
def process (own : Bool) (batch : SerializedBatchMessage) (s : State) : State :=
  -- Hash the batch.
  let digest := Crypto.sha512 batch
  { s with
    -- Store the batch.
    store := s.store.insert digest.toVec batch
    -- Deliver the batch's digest.
    txPrimary := s.txPrimary ++
      [if own then .ourBatch digest self.id else .othersBatch digest self.id] }

/-- `Helper::run`: reply to the request (the best we can). -/
def reply (digests : List Digest) (origin : PublicKey) (s : State) : State :=
  { s with
    replies := s.replies ++ match self.committee.worker origin self.id with
      | .error _ => []
      | .ok id => digests.filterMap fun digest =>
          (s.store.lookup digest.toVec).map fun data => ((origin, id), data) }

def next (s : State) : Action → Option State
  | .process own batch => some (self.process own batch s)
  | .request digests origin => some (self.reply digests origin s)
  | .command now message =>
      some { s with synchronizer := self.synchronizer.handle s.store now s.synchronizer message }
  | .timer now retry shuffled =>
      (self.synchronizer.timer now retry shuffled s.synchronizer).map
        fun synchronizer => { s with synchronizer }
  | .ready i =>
      (Synchronizer.ready s.store i s.synchronizer).map fun synchronizer => { s with synchronizer }
  | .canceled i =>
      (Synchronizer.canceled i s.synchronizer).map fun synchronizer => { s with synchronizer }

def system : System State Action := ⟨.new, self.next⟩

abbrev History := List (State × Action)

abbrev Run (es : History) (s : State) : Prop := self.system.Run es s

/-- The batch with this digest is in the store. -/
def State.Has (s : State) (d : Digest) : Prop :=
  ∃ batch, s.store.lookup d.toVec = some batch ∧ Crypto.sha512 batch = d

omit [Crypto] in
/-- The primary asked for this batch. -/
def Requested (es : History) (d : Digest) : Prop :=
  ∃ m now digests target, (m, Action.command now (.synchronize digests target)) ∈ es ∧ d ∈ digests

/-- A message reports a batch to the primary. -/
def Reports (m : WorkerPrimaryMessage) (d : Digest) : Prop :=
  m = .ourBatch d self.id ∨ m = .othersBatch d self.id

variable {self} {es : History} {s s' : State} {a : Action} {d : Digest} {own : Bool}
  {batch : SerializedBatchMessage}

/-! ## §2. The store. -/

theorem has_process : (self.process own batch s).Has (Crypto.sha512 batch) :=
  ⟨batch, AList.lookup_insert _, rfl⟩

theorem has_process_of_has (h : s.Has d) : (self.process own batch s).Has d := by
  by_cases hd : d = Crypto.sha512 batch
  · rw [hd]
    exact has_process
  · obtain ⟨stored, hlookup, hdigest⟩ := h
    have hkey : d.toVec ≠ (Crypto.sha512 batch).toVec := fun heq => hd (Digest.toVec_injective heq)
    exact ⟨stored, (AList.lookup_insert_ne hkey).trans hlookup, hdigest⟩

/-- Only a processor writes to the store. -/
theorem store_next (h : self.next s a = some s') :
    s'.store = s.store ∨ ∃ own batch, a = .process own batch ∧ s' = self.process own batch s := by
  cases a with
  | process own batch => exact Or.inr ⟨own, batch, rfl, (Option.some.inj h).symm⟩
  | request digests origin =>
      obtain rfl := Option.some.inj h
      exact Or.inl rfl
  | command now message =>
      obtain rfl := Option.some.inj h
      exact Or.inl rfl
  | timer now retry shuffled =>
      obtain ⟨_, _, rfl⟩ := Option.map_eq_some_iff.mp h
      exact Or.inl rfl
  | ready i =>
      obtain ⟨_, _, rfl⟩ := Option.map_eq_some_iff.mp h
      exact Or.inl rfl
  | canceled i =>
      obtain ⟨_, _, rfl⟩ := Option.map_eq_some_iff.mp h
      exact Or.inl rfl

/-- Batches stay in the store. -/
theorem has_next (h : self.next s a = some s') (hhas : s.Has d) : s'.Has d := by
  obtain hstore | ⟨own, batch, _, rfl⟩ := store_next h
  · unfold State.Has
    rw [hstore]
    exact hhas
  · exact has_process_of_has hhas

/-- What is stored, reported and answered. -/
structure Addressed (worker : Worker) (es : History) (s : State) : Prop where
  stored : ∀ key batch, s.store.lookup key = some batch → key = (Crypto.sha512 batch).toVec
  reported : ∀ m ∈ s.txPrimary, ∃ d, worker.Reports m d ∧ s.Has d
  replied : ∀ r ∈ s.replies, ∃ m digests, (m, Action.request digests r.1.1) ∈ es ∧
    Crypto.sha512 r.2 ∈ digests ∧ worker.committee.worker r.1.1 worker.id = .ok r.1.2

theorem Addressed.has_iff (h : Addressed self es s) :
    s.Has d ↔ (s.store.lookup d.toVec).isSome = true := by
  rw [Option.isSome_iff_exists]
  refine exists_congr fun batch => and_iff_left_of_imp fun hlookup => ?_
  exact (Digest.toVec_injective (h.stored _ _ hlookup)).symm

theorem Addressed.process (h : Addressed self es s) :
    Addressed self ((s, .process own batch) :: es) (self.process own batch s) where
  stored key data hlookup := by
    change (AList.insert (Crypto.sha512 batch).toVec batch s.store).lookup key = some data at hlookup
    rw [AList.lookup_insert_eq_ite] at hlookup
    split at hlookup
    · next hkey =>
      rw [hkey, ← Option.some.inj hlookup]
    · exact h.stored key data hlookup
  reported m hm := by
    obtain hm | hm := List.mem_append.mp hm
    · obtain ⟨d, hreports, hhas⟩ := h.reported m hm
      exact ⟨d, hreports, has_process_of_has hhas⟩
    · refine ⟨Crypto.sha512 batch, ?_, has_process⟩
      rw [List.mem_singleton.mp hm]
      cases own with
      | true => exact Or.inl rfl
      | false => exact Or.inr rfl
  replied r hr := by
    obtain ⟨m, digests, hmem, hrest⟩ := h.replied r hr
    exact ⟨m, digests, List.mem_cons_of_mem _ hmem, hrest⟩

theorem Addressed.reply (h : Addressed self es s) {digests : List Digest} {origin : PublicKey} :
    Addressed self ((s, .request digests origin) :: es) (self.reply digests origin s) where
  stored := h.stored
  reported := h.reported
  replied r hr := by
    obtain hr | hr := List.mem_append.mp hr
    · obtain ⟨m, digests', hmem, hrest⟩ := h.replied r hr
      exact ⟨m, digests', List.mem_cons_of_mem _ hmem, hrest⟩
    · split at hr
      · exact absurd hr List.not_mem_nil
      · next id hworker =>
        obtain ⟨digest, hdigest, hr⟩ := List.mem_filterMap.mp hr
        obtain ⟨data, hlookup, rfl⟩ := Option.map_eq_some_iff.mp hr
        refine ⟨s, digests, List.mem_cons_self, ?_, hworker⟩
        rw [← Digest.toVec_injective (h.stored _ _ hlookup)]
        exact hdigest

/-- The synchronizer only reads the store. -/
theorem Addressed.of_eq (h : Addressed self es s) (e : State × Action) (hstore : s'.store = s.store)
    (hreports : s'.txPrimary = s.txPrimary) (hreplies : s'.replies = s.replies) :
    Addressed self (e :: es) s' where
  stored := hstore ▸ h.stored
  reported m hm := by
    obtain ⟨d, hd, hhas⟩ := h.reported m (hreports ▸ hm)
    refine ⟨d, hd, ?_⟩
    unfold State.Has
    rw [hstore]
    exact hhas
  replied r hr := by
    obtain ⟨m, digests, hmem, hrest⟩ := h.replied r (hreplies ▸ hr)
    exact ⟨m, digests, List.mem_cons_of_mem _ hmem, hrest⟩

theorem addressed_new : Addressed self [] .new where
  stored key batch h := by
    change (∅ : BatchStore).lookup key = some batch at h
    rw [AList.lookup_empty] at h
    cases h
  reported := List.forall_mem_nil _
  replied := List.forall_mem_nil _

theorem Run.addressed (hrun : self.Run es s) : Addressed self es s := by
  refine System.Run.invariant (P := Addressed self) addressed_new ?_ hrun
  intro es s a s' _ ih hnext
  cases a with
  | process own batch =>
      obtain rfl := Option.some.inj hnext
      exact ih.process
  | request digests origin =>
      obtain rfl := Option.some.inj hnext
      exact ih.reply
  | command now message =>
      obtain rfl := Option.some.inj hnext
      exact ih.of_eq _ rfl rfl rfl
  | timer now retry shuffled =>
      obtain ⟨_, _, rfl⟩ := Option.map_eq_some_iff.mp hnext
      exact ih.of_eq _ rfl rfl rfl
  | ready i =>
      obtain ⟨_, _, rfl⟩ := Option.map_eq_some_iff.mp hnext
      exact ih.of_eq _ rfl rfl rfl
  | canceled i =>
      obtain ⟨_, _, rfl⟩ := Option.map_eq_some_iff.mp hnext
      exact ih.of_eq _ rfl rfl rfl

/-- **Batches are known by their digests**: whatever other workers and the primary send, each
batch is stored under its own digest, each digest reported to the primary is of a batch in
the store, and each reply has a digest that was requested and goes to the worker with our id
of the authority that requested it. -/
theorem stored_under_digest (hrun : self.Run es s) :
    (∀ key batch, s.store.lookup key = some batch → key = (Crypto.sha512 batch).toVec) ∧
      (∀ m ∈ s.txPrimary, ∃ d, self.Reports m d ∧ s.Has d) ∧
      (∀ r ∈ s.replies, ∃ m digests, (m, Action.request digests r.1.1) ∈ es ∧
        Crypto.sha512 r.2 ∈ digests ∧ self.committee.worker r.1.1 self.id = .ok r.1.2) :=
  ⟨hrun.addressed.stored, hrun.addressed.reported, hrun.addressed.replied⟩

/-! ## §3. What was asked for. -/

/-- A step that collects the round in which a batch was asked for. -/
def Collects (self : Worker) (e : State × Action) (d : Digest) : Prop :=
  ∃ now message, e.2 = .command now message ∧
    self.synchronizer.Drops e.1.synchronizer message d

/-- The round in which a batch was asked for was collected, and the batch was not asked for
again since. -/
def Collected (self : Worker) (es : History) (d : Digest) : Prop :=
  ∃ later e earlier, es = later ++ e :: earlier ∧ self.Collects e d ∧ ¬ Requested later d

/-- What the synchronizer owes the primary, and what it sent. -/
structure Accounts (worker : Worker) (es : History) (s : State) : Prop where
  tidy : s.synchronizer.waits.Tidy
  pending : ∀ d, s.synchronizer.Pending d → Requested es d
  requested : ∀ d, Requested es d →
    s.Has d ∨ s.synchronizer.Pending d ∨ worker.Collected es d
  sent : ∀ r ∈ s.synchronizer.network, ∃ digests, r.2 = .batchRequest digests worker.name ∧
    digests.Nodup ∧ ∀ d ∈ digests, Requested es d

omit [Crypto] in
theorem not_requested_nil : ¬ Requested [] d :=
  fun ⟨_, _, _, _, hmem, _⟩ => absurd hmem List.not_mem_nil

omit [Crypto] in
theorem Requested.cons (h : Requested es d) (e : State × Action) : Requested (e :: es) d := by
  obtain ⟨m, now, digests, target, hmem, hd⟩ := h
  exact ⟨m, now, digests, target, List.mem_cons_of_mem _ hmem, hd⟩

omit [Crypto] in
theorem requested_cons : Requested ((s, a) :: es) d ↔
    (∃ now digests target, a = .command now (.synchronize digests target) ∧ d ∈ digests) ∨
      Requested es d := by
  constructor
  · rintro ⟨m, now, digests, target, hmem, hd⟩
    obtain heq | hmem := List.mem_cons.mp hmem
    · exact Or.inl ⟨now, digests, target, (Prod.mk.inj heq).2.symm, hd⟩
    · exact Or.inr ⟨m, now, digests, target, hmem, hd⟩
  · rintro (⟨now, digests, target, rfl, hd⟩ | h)
    · exact ⟨s, now, digests, target, List.mem_cons_self, hd⟩
    · exact h.cons _

/-- What is requested stays accounted for by a step that keeps waits unless it finds or drops
their batches. -/
theorem Accounts.step (h : Accounts self es s) (hnext : self.next s a = some s')
    (htidy : s'.synchronizer.waits.Tidy)
    (hasks : ∀ now digests target, a = .command now (.synchronize digests target) →
      ∀ d ∈ digests, s'.synchronizer.Pending d)
    (hkeeps : ∀ d, s.synchronizer.Pending d →
      s'.synchronizer.Pending d ∨ s'.Has d ∨ self.Collects (s, a) d)
    (hpending : ∀ d, s'.synchronizer.Pending d → Requested ((s, a) :: es) d)
    (hsent : ∀ r ∈ s'.synchronizer.network, r ∈ s.synchronizer.network ∨
      ∃ digests, r.2 = .batchRequest digests self.name ∧ digests.Nodup ∧
        ∀ d ∈ digests, Requested ((s, a) :: es) d) : Accounts self ((s, a) :: es) s' where
  tidy := htidy
  pending := hpending
  requested d hd := by
    by_cases hnow : ∃ now digests target,
        a = .command now (.synchronize digests target) ∧ d ∈ digests
    · obtain ⟨now, digests, target, heq, hd⟩ := hnow
      exact Or.inr (Or.inl (hasks now digests target heq d hd))
    · obtain hhas | hwaits | ⟨later, e, earlier, rfl, hcollects, hnone⟩ :=
        h.requested d ((requested_cons.mp hd).resolve_left hnow)
      · exact Or.inl (has_next hnext hhas)
      · obtain hwaits | hhas | hcollects := hkeeps d hwaits
        · exact Or.inr (Or.inl hwaits)
        · exact Or.inl hhas
        · exact Or.inr (Or.inr ⟨[], _, es, rfl, hcollects, not_requested_nil⟩)
      · exact Or.inr (Or.inr ⟨(s, a) :: later, e, earlier, rfl, hcollects,
          fun hagain => (requested_cons.mp hagain).elim hnow hnone⟩)
  sent r hr := by
    obtain hold | hnew := hsent r hr
    · obtain ⟨digests, heq, hnodup, hall⟩ := h.sent r hold
      exact ⟨digests, heq, hnodup, fun d hd => (hall d hd).cons _⟩
    · exact hnew

/-- The other tasks leave the synchronizer alone. -/
theorem Accounts.aside (h : Accounts self es s) (hnext : self.next s a = some s')
    (hsame : s'.synchronizer = s.synchronizer)
    (hnot : ∀ now message, a ≠ .command now message) : Accounts self ((s, a) :: es) s' := by
  refine h.step hnext (hsame ▸ h.tidy) (fun now _ _ heq => absurd heq (hnot now _))
    (fun d hd => Or.inl (hsame ▸ hd)) (fun d hd => (h.pending d (hsame ▸ hd)).cons _)
    (fun r hr => Or.inl (hsame ▸ hr))

theorem Accounts.command (h : Accounts self es s) {now : ℕ} {message : PrimaryWorkerMessage} :
    Accounts self ((s, .command now message) :: es)
      { s with synchronizer := self.synchronizer.handle s.store now s.synchronizer message } := by
  refine h.step rfl (Synchronizer.tidy_handle h.tidy) ?_ (fun d hd => ?_) (fun d hd => ?_)
    (fun r hr => ?_)
  · intro _ digests target heq d hd
    obtain ⟨rfl, rfl⟩ := Action.command.inj heq
    exact Synchronizer.pending_synchronize.mpr (Or.inl hd)
  · obtain hwaits | hdrops := Synchronizer.pending_handle hd
    · exact Or.inl hwaits
    · exact Or.inr (Or.inr ⟨now, message, rfl, hdrops⟩)
  · cases message with
    | synchronize digests target =>
        obtain hmem | hold := Synchronizer.pending_synchronize.mp hd
        · exact requested_cons.mpr (Or.inl ⟨now, digests, target, rfl, hmem⟩)
        · exact (h.pending d hold).cons _
    | cleanup round => exact (h.pending d (Synchronizer.pending_cleanup.mp hd).1).cons _
  · cases message with
    | synchronize digests target =>
        obtain hold | hnew := List.mem_append.mp hr
        · exact Or.inl hold
        · split at hnew
          · obtain ⟨new, heq, hnodup, hall⟩ := Synchronizer.missing_ask s.store
              ⟨s.synchronizer.round, now⟩ digests s.synchronizer.waits []
            rw [List.mem_singleton.mp hnew, heq]
            exact Or.inr ⟨new, rfl, hnodup, fun d hd =>
              requested_cons.mpr (Or.inl ⟨now, digests, target, rfl, (hall d hd).1⟩)⟩
          · exact absurd hnew List.not_mem_nil
    | cleanup round =>
        refine Or.inl ?_
        change r ∈ (self.synchronizer.cleanup round s.synchronizer).network at hr
        unfold Synchronizer.cleanup at hr
        split at hr
        · exact hr
        · exact hr

theorem Accounts.timer (h : Accounts self es s) {now : ℕ} {retry : List Digest}
    {shuffled : List WorkerAddress} {t : Synchronizer.State}
    (htimer : self.synchronizer.timer now retry shuffled s.synchronizer = some t) :
    Accounts self ((s, .timer now retry shuffled) :: es) { s with synchronizer := t } := by
  have hnext : self.next s (.timer now retry shuffled) = some { s with synchronizer := t } :=
    congrArg (Option.map _) htimer
  have htidy := Synchronizer.tidy_timer h.tidy htimer
  obtain ⟨hretry, _, rfl⟩ := Synchronizer.timer_eq_some htimer
  refine h.step hnext htidy (fun _ _ _ heq => by cases heq) (fun d hd => Or.inl hd)
    (fun d hd => (h.pending d hd).cons _) (fun r hr => ?_)
  obtain hold | hnew := List.mem_append.mp hr
  · exact Or.inl hold
  · split at hnew
    · exact absurd hnew List.not_mem_nil
    · rw [List.mem_singleton.mp hnew]
      refine Or.inr ⟨retry, rfl, hretry.nodup_iff.mpr Synchronizer.nodup_overdue, fun d hd => ?_⟩
      -- what is overdue is pending
      obtain ⟨handle, asked, hlookup, _⟩ := Synchronizer.mem_overdue.mp (hretry.mem_iff.mp hd)
      exact (h.pending d (by unfold Synchronizer.State.Pending; rw [hlookup]; rfl)).cons _

theorem Accounts.ready (h : Accounts self es s) (haddressed : Addressed self es s) {i : ℕ}
    {t : Synchronizer.State} (hready : Synchronizer.ready s.store i s.synchronizer = some t) :
    Accounts self ((s, .ready i) :: es) { s with synchronizer := t } := by
  have hnext : self.next s (.ready i) = some { s with synchronizer := t } :=
    congrArg (Option.map _) hready
  have hkeeps : ∀ d, s.synchronizer.Pending d → t.Pending d ∨ s.Has d := fun d hd =>
    (Synchronizer.pending_ready hready hd).imp_right haddressed.has_iff.mpr
  have htidy := Synchronizer.tidy_ready h.tidy hready
  obtain ⟨x, _, _, rfl⟩ := Synchronizer.ready_eq_some hready
  refine h.step hnext htidy (fun _ _ _ heq => by cases heq)
    (fun d hd => (hkeeps d hd).imp_right Or.inl) (fun d hd => ?_) (fun r hr => Or.inl hr)
  change ((s.synchronizer.waits.pending.erase x.key).lookup d).isSome = true at hd
  refine (h.pending d ?_).cons _
  obtain rfl | hne := eq_or_ne d x.key
  · rw [AList.lookup_erase] at hd
    cases hd
  · rwa [AList.lookup_erase_ne hne] at hd

theorem Accounts.canceled (h : Accounts self es s) {i : ℕ} {t : Synchronizer.State}
    (hcanceled : Synchronizer.canceled i s.synchronizer = some t) :
    Accounts self ((s, .canceled i) :: es) { s with synchronizer := t } := by
  have hnext : self.next s (.canceled i) = some { s with synchronizer := t } :=
    congrArg (Option.map _) hcanceled
  have htidy := Synchronizer.tidy_canceled h.tidy hcanceled
  obtain ⟨x, _, _, rfl⟩ := Synchronizer.canceled_eq_some hcanceled
  exact h.step hnext htidy (fun _ _ _ heq => by cases heq) (fun d hd => Or.inl hd)
    (fun d hd => (h.pending d hd).cons _) (fun r hr => Or.inl hr)

theorem accounts_new : Accounts self [] .new where
  tidy := Waits.Tidy.new
  pending d h := by
    change ((∅ : HashMap Digest (ℕ × Synchronizer.Asked)).lookup d).isSome = true at h
    rw [AList.lookup_empty] at h
    cases h
  requested _ h := absurd h not_requested_nil
  sent := List.forall_mem_nil _

theorem Run.accounts (hrun : self.Run es s) : Accounts self es s := by
  refine System.Run.invariant (P := Accounts self) accounts_new ?_ hrun
  intro es s a s' hrun ih hnext
  cases a with
  | process own batch =>
      obtain rfl := Option.some.inj hnext
      exact ih.aside rfl rfl fun _ _ heq => by cases heq
  | request digests origin =>
      obtain rfl := Option.some.inj hnext
      exact ih.aside rfl rfl fun _ _ heq => by cases heq
  | command now message =>
      obtain rfl := Option.some.inj hnext
      exact ih.command
  | timer now retry shuffled =>
      obtain ⟨t, htimer, rfl⟩ := Option.map_eq_some_iff.mp hnext
      exact ih.timer htimer
  | ready i =>
      obtain ⟨t, hready, rfl⟩ := Option.map_eq_some_iff.mp hnext
      exact ih.ready (Run.addressed hrun) hready
  | canceled i =>
      obtain ⟨t, hcanceled, rfl⟩ := Option.map_eq_some_iff.mp hnext
      exact ih.canceled hcanceled

/-- **What the primary asked for is accounted for**: in every run, each batch that the primary
asked for is in the store or is waited for, unless its round was collected since it was asked
for last; there is one live wait for each batch that is waited for, and it can end as soon as
the batch is in the store; and other workers are asked for no batch that the primary did not
ask for, and for none twice in one request. -/
theorem asked_accounted (hrun : self.Run es s) :
    (∀ d, Requested es d →
      s.Has d ∨ s.synchronizer.Pending d ∨ self.Collected es d) ∧
    (s.synchronizer.waits.live.map Wait.key).Perm s.synchronizer.waits.pending.keys ∧
    (∀ d, s.synchronizer.Pending d → s.Has d →
      ∃ i s', self.next s (.ready i) = some s' ∧ ¬ s'.synchronizer.Pending d) ∧
    ∀ r ∈ s.synchronizer.network, ∃ digests, r.2 = .batchRequest digests self.name ∧
      digests.Nodup ∧ ∀ d ∈ digests, Requested es d := by
  have haccounts := Run.accounts hrun
  refine ⟨haccounts.requested, haccounts.tidy.live_perm, fun d hd hhas => ?_, haccounts.sent⟩
  obtain ⟨i, t, hready, hnot⟩ := Synchronizer.exists_ready haccounts.tidy hd
    ((Run.addressed hrun).has_iff.mp hhas)
  exact ⟨i, { s with synchronizer := t }, congrArg (Option.map _) hready, hnot⟩

/-! ## §4. A worker that synchronizes. -/

def sampleWorker : Worker :=
  { name := sampleKey 0, id := 0, committee := Committee.sampleFour, gcDepth := 5
    syncRetryDelay := 1000, syncRetryNodes := 2 }

/-- A batch that `sampleCrypto` gives the digest of a round. -/
def sampleSerialized (round : ℕ) : SerializedBatchMessage :=
  List.replicate 32 0 ++ [UInt8.ofNat round]

/-- The primary asks for three batches, of which the first arrives; the others are requested
again, then the waits for them are dropped, and the primary asks for the third once more. -/
def sampleSynchronized : List Action :=
  [.command 0 (.cleanup 3),
    .command 10 (.synchronize [sampleDigest 1 0, sampleDigest 2 0, sampleDigest 3 0] (sampleKey 1)),
    .process false (sampleSerialized 1), .ready 0,
    .timer 1011 [sampleDigest 3 0, sampleDigest 2 0]
      [(sampleKey 1, 0), (sampleKey 2, 0), (sampleKey 3, 0)],
    .command 1020 (.cleanup 8), .canceled 0, .request [sampleDigest 1 0] (sampleKey 2),
    .command 1030 (.synchronize [sampleDigest 3 0] (sampleKey 1))]

/-- What the run leaves. -/
def sampleDone (s : State) : Prop :=
  s.replies = [((sampleKey 2, 0), sampleSerialized 1)] ∧
    s.store.lookup (sampleDigest 2 0).toVec = none ∧
    s.synchronizer.waits.pending.keys = [sampleDigest 3 0] ∧
    s.synchronizer.network = [([(sampleKey 1, 0)],
        .batchRequest [sampleDigest 1 0, sampleDigest 2 0, sampleDigest 3 0] (sampleKey 0)),
      ([(sampleKey 1, 0), (sampleKey 2, 0)],
        .batchRequest [sampleDigest 3 0, sampleDigest 2 0] (sampleKey 0)),
      ([(sampleKey 1, 0)], .batchRequest [sampleDigest 3 0] (sampleKey 0))]

instance : DecidablePred sampleDone := fun _ => inferInstanceAs (Decidable (_ ∧ _))

omit [Crypto] in
set_option maxRecDepth 10000 in
theorem exists_synchronized :
    letI := sampleCrypto
    ∃ es s, sampleWorker.Run es s ∧ es.map Prod.snd = sampleSynchronized.reverse ∧
      sampleDone s := by
  let _ := sampleCrypto
  obtain ⟨es, s, hrun, hlabels, hcheck⟩ := System.exec_check_labels sampleWorker.system
    sampleSynchronized (fun s => decide (sampleDone s)) (by decide +kernel)
  exact ⟨es, s, hrun, hlabels, of_decide_eq_true hcheck⟩

omit [Crypto] in
/-- The batch that was answered has a digest that was requested. -/
theorem stored_under_digest_sample :
    letI := sampleCrypto
    ∃ es s, sampleWorker.Run es s ∧ s.replies = [((sampleKey 2, 0), sampleSerialized 1)] ∧
      ∃ m digests, (m, Action.request digests (sampleKey 2)) ∈ es ∧
        Crypto.sha512 (sampleSerialized 1) ∈ digests := by
  let _ := sampleCrypto
  obtain ⟨es, s, hrun, _, hreplies, _⟩ := exists_synchronized
  obtain ⟨m, digests, hmem, hdigest, _⟩ :=
    (stored_under_digest hrun).2.2 ((sampleKey 2, 0), sampleSerialized 1)
      (by rw [hreplies]; exact List.mem_cons_self)
  exact ⟨es, s, hrun, hreplies, m, digests, hmem, hdigest⟩

omit [Crypto] in
/-- The second batch is neither in the store nor waited for, so its round was collected. -/
theorem asked_accounted_sample :
    letI := sampleCrypto
    ∃ es s, sampleWorker.Run es s ∧ sampleWorker.Collected es (sampleDigest 2 0) := by
  let _ := sampleCrypto
  obtain ⟨es, s, hrun, hlabels, _, hstore, hpending, _⟩ := exists_synchronized
  have hrequested : Requested es (sampleDigest 2 0) := by
    have hmem : Action.command 10
        (.synchronize [sampleDigest 1 0, sampleDigest 2 0, sampleDigest 3 0] (sampleKey 1))
        ∈ es.map Prod.snd := by
      rw [hlabels]
      decide
    obtain ⟨⟨m, a⟩, hmem, rfl⟩ := List.mem_map.mp hmem
    exact ⟨m, 10, _, _, hmem, by decide⟩
  obtain ⟨_, hlookup, _⟩ | hwaits | hcollects := (asked_accounted hrun).1 _ hrequested
  · rw [hstore] at hlookup
    cases hlookup
  · have hkey := AList.lookup_isSome.mp hwaits
    rw [AList.mem_keys, hpending] at hkey
    exact absurd hkey (by decide)
  · exact ⟨es, s, hrun, hcollects⟩

end Worker

end Mrv
