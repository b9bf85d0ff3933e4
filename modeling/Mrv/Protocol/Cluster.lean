/-
  Mrv.Protocol.Cluster — authorities with their workers.

  A primary never sees a batch: its workers report digests, and it notes that a batch is
  there.  Here each authority has the workers of the committee beside its process, and a
  digest that reaches a primary was reported by its own worker.  What other workers send,
  and when a worker hears of its primary, is arbitrary.

  What the primary noted is in the store of its worker (`Noted`), so that the votes behind
  an accepted certificate say where its batches are:

    * `batches_available` — authorities with f + 1 of the stake have them.
-/
import Mrv.Protocol.Uniqueness
import Mrv.Worker.Worker

namespace Mrv

variable [Crypto]

/-! ## §1. What a primary noted. -/

namespace Core

variable {self : Core} {es : History} {n n' : Primary} {a : Primary.Action} {s : State}
  {B : Set (Digest × WorkerId)} {X : Set Header}

/-- The batches noted in the store, now and when votes were made, are among these. -/
structure Noted (B : Set (Digest × WorkerId)) (s : State) : Prop where
  store : ∀ d w, s.store.lookup (batchKey d w) = some .batch → (d, w) ∈ B
  cast : ∀ x ∈ s.cast, ∀ d w, x.store.lookup (batchKey d w) = some .batch → (d, w) ∈ B

omit [Crypto] in
theorem batchKey_inj {d d' : Digest} {w w' : WorkerId} (h : batchKey d w = batchKey d' w') :
    d = d' ∧ w = w' := by
  obtain ⟨hdigest, hworker⟩ := List.append_inj h (by rw [Digest.length_toVec, Digest.length_toVec])
  exact ⟨Digest.toVec_injective hdigest,
    UInt32.toNat_inj.mp (toLeBytes_inj w.toNat_lt w'.toNat_lt hworker)⟩

omit [Crypto] in
/-- Headers and certificates are not stored as batches. -/
theorem lookup_insert_toVec {store : Store} {id : Digest} {record : Record} (d : Digest)
    (w : WorkerId) :
    (store.insert id.toVec record).lookup (batchKey d w) = store.lookup (batchKey d w) :=
  AList.lookup_insert_ne (toVec_ne_batchKey id d w).symm

/-- No move notes a batch. -/
theorem moves_noted : Moves self Set.univ Set.univ Set.univ (Noted B) where
  frame := fun _ _ hframe hs => ⟨hframe.store ▸ hs.store, hframe.cast ▸ hs.cast⟩
  mark := fun _ _ _ hs => ⟨hs.store, hs.cast⟩
  header := fun h _ s hs => by
    refine ⟨fun d w hlookup => hs.store d w ?_, hs.cast⟩
    rw [← hlookup]
    exact (lookup_insert_toVec d w).symm
  sync := fun _ _ _ _ hs => ⟨hs.store, hs.cast⟩
  vote := fun h _ _ s hs => by
    refine ⟨⟨hs.store, hs.cast⟩, fun _ => ⟨⟨hs.store, fun x hx => ?_⟩, fun _ => Set.mem_univ _⟩⟩
    obtain hold | hlast := List.mem_append.mp hx
    · exact hs.cast x hold
    · rw [List.mem_singleton.mp hlast]
      exact hs.store
  tally := fun _ _ _ hs => ⟨⟨hs.store, hs.cast⟩, fun _ _ => Set.mem_univ _⟩
  embedded := fun _ _ => Set.mem_univ _
  suspend := fun _ _ _ _ hs => ⟨hs.store, hs.cast⟩
  accept := fun c _ s _ hs => by
    rw [exec_acceptCertificate]
    refine ⟨fun d w hlookup => hs.store d w ?_, hs.cast⟩
    rw [← hlookup]
    exact (lookup_insert_toVec d w).symm

/-- One step of a primary notes a batch only if that was reported. -/
theorem noted_of_next (h : self.next n a = some n') (hn : Noted B n.core)
    (hreport : ∀ d w, a = .othersBatch d w → (d, w) ∈ B) : Noted B n'.core := by
  obtain ⟨input, n₀, hinput, _, rfl⟩ | hbackground := next_cases h
  · have hadmits : Moves.Admits self Set.univ Set.univ Set.univ (Noted B) n.core input :=
      Moves.Admits.univ hn fun _ => ⟨hn.store, hn.cast⟩
    show Noted B (self.iterate n₀.consensusRound input n₀.core).1
    rw [(Primary.of_input hinput).1]
    refine iterate_keeps (fun round s hs => ?_) (moves_noted.handle hadmits) _
    unfold Core.cleanup
    split <;> exact ⟨hs.store, hs.cast⟩
  · cases Primary.works_of_background hbackground with
    | othersBatch digest workerId =>
        refine ⟨fun d w hlookup => ?_, hn.cast⟩
        change (AList.insert (batchKey digest workerId) Record.batch n.core.store).lookup _ = _
          at hlookup
        by_cases hsame : batchKey d w = batchKey digest workerId
        · obtain ⟨rfl, rfl⟩ := batchKey_inj hsame
          exact hreport d w rfl
        · rw [AList.lookup_insert_ne hsame] at hlookup
          exact hn.store d w hlookup
    | _ => exact ⟨hn.store, hn.cast⟩

/-- **What a primary noted was reported to it.** -/
theorem Run.noted (hrun : self.Run es n)
    (hreport : ∀ m d w, (m, Primary.Action.othersBatch d w) ∈ es → (d, w) ∈ B) :
    Noted B n.core := by
  refine System.Run.invariant (P := fun es n =>
    (∀ m d w, (m, Primary.Action.othersBatch d w) ∈ es → (d, w) ∈ B) → Noted B n.core)
    ?_ ?_ hrun hreport
  · refine fun _ => ⟨fun d w hlookup => ?_, fun x hx => absurd hx List.not_mem_nil⟩
    change (∅ : Store).lookup (batchKey d w) = some .batch at hlookup
    rw [AList.lookup_empty] at hlookup
    cases hlookup
  · intro es n a n' _ ih hnext hreport
    refine noted_of_next hnext (ih fun m d w hmem => hreport m d w (List.mem_cons_of_mem _ hmem)) ?_
    rintro d w rfl
    exact hreport n d w List.mem_cons_self

/-- Headers of ours that came in are known from the history. -/
theorem Recognises.mem (h : Recognises self es) {m : Primary} (hmem : (m, a) ∈ es) {x : Header}
    (hx : x ∈ a.headers) (hok : x.verify self.committee = .ok ()) (hname : x.author = self.name) :
    ∃ y ∈ ownHeaders es, y.id = x.id := by
  induction es with
  | nil => exact absurd hmem List.not_mem_nil
  | cons e es ih =>
      obtain ⟨m', b⟩ := e
      obtain heq | hmem := List.mem_cons.mp hmem
      · obtain ⟨rfl, rfl⟩ := Prod.mk.inj heq
        exact h.2 x hx hok hname
      · obtain ⟨y, hy, hid⟩ := ih h.1 hmem
        obtain ⟨m, hy⟩ := mem_ownHeaders.mp hy
        exact ⟨y, mem_ownHeaders.mpr ⟨m, List.mem_cons_of_mem _ hy⟩, hid⟩

/-- **We vote for headers of ours only under ids of headers that we made.** -/
theorem Run.cast_own (hfit : 2 * self.committee.totalStake < 2 ^ 32)
    (hhash : Separated self.committee X) (hrun : self.Run es n) (hin : Incoming self X es)
    (hrec : Recognises self es) {x : Cast} (hx : x ∈ n.core.cast)
    (hok : x.header.verify self.committee = .ok ()) (hround : 0 < x.header.round)
    (hname : x.header.author = self.name) : ∃ y ∈ ownHeaders es, y.id = x.header.id := by
  -- the headers that came in, ours only if made
  have hin' : Incoming self {h | h ∈ X ∧ (h.verify self.committee = .ok () → 0 < h.round →
      h.author = self.name → ∃ y ∈ ownHeaders es, y.id = h.id)} es :=
    ⟨fun h hh => hin.only h hh.1,
      ⟨hin.default, fun _ hpos => absurd hpos (Nat.lt_irrefl 0)⟩,
      fun m a hmem h hh hadmitted => ⟨hin.admitted m a hmem h hh hadmitted,
        fun hok _ hname => hrec.mem hmem hh hok hname⟩,
      fun m h hmem => ⟨⟨(hin.own m h hmem).1, fun _ _ _ =>
        ⟨h, mem_ownHeaders.mpr ⟨m, hmem⟩, rfl⟩⟩, (hin.own m h hmem).2⟩⟩
  exact ((Run.honest hfit (hhash.mono fun h hh => hh.1) hrun hin').cast x hx).1.2 hok hround hname

end Core

/-! ## §2. The cluster. -/

/-- The authorities, and the parameters of their workers. -/
structure Cluster where
  network : Network
  syncRetryDelay : ℕ
  syncRetryNodes : ℕ

namespace Cluster

structure State where
  processes : PublicKey → Process
  workers : PublicKey → WorkerId → Worker.State

inductive Action where
  | process (name : PublicKey) (a : Process.Action)
  | worker (name : PublicKey) (id : WorkerId) (a : Worker.Action)

variable (self : Cluster)

def worker (name : PublicKey) (id : WorkerId) : Worker :=
  { name, id, committee := self.network.committee, gcDepth := self.network.gcDepth
    syncRetryDelay := self.syncRetryDelay, syncRetryNodes := self.syncRetryNodes }

/-- A digest that reaches a process was reported by its worker. -/
def State.reported (s : State) (name : PublicKey) : Process.Action → Bool
  | .primary (.othersBatch d w) => decide (.othersBatch d w ∈ (s.workers name w).txPrimary)
  | .digest d w => decide (.ourBatch d w ∈ (s.workers name w).txPrimary)
  | _ => true

/-- A worker moved. -/
def State.setWorker (s : State) (name : PublicKey) (id : WorkerId) (w : Worker.State) : State :=
  { s with workers := Function.update s.workers name (Function.update (s.workers name) id w) }

omit [Crypto] in
theorem State.setWorker_self (s : State) (name : PublicKey) (id : WorkerId) (w : Worker.State) :
    (s.setWorker name id w).workers name id = w := by
  show Function.update s.workers name _ name id = w
  rw [Function.update_self, Function.update_self]

omit [Crypto] in
theorem State.setWorker_other (s : State) {name name' : PublicKey} {id id' : WorkerId}
    (w : Worker.State) (h : ¬ (name' = name ∧ id' = id)) :
    (s.setWorker name' id' w).workers name id = s.workers name id := by
  show Function.update s.workers name' _ name id = s.workers name id
  by_cases hname : name = name'
  · subst hname
    rw [Function.update_self, Function.update_of_ne fun heq => h ⟨rfl, heq.symm⟩]
  · rw [Function.update_of_ne hname]

def start : State :=
  { processes := self.network.system.init, workers := fun _ _ => .new }

def next (s : State) : Action → Option State
  | .process name a =>
      if s.reported name a then
        (self.network.system.next s.processes (name, a)).map fun processes => { s with processes }
      else none
  | .worker name id a =>
      -- a worker whose id is not in the committee does not start
      if (self.network.committee.worker name id).toBool then
        ((self.worker name id).next (s.workers name id) a).map (s.setWorker name id)
      else none

def system : System State Action := ⟨self.start, self.next⟩

abbrev History := List (State × Action)

abbrev Run (es : History) (s : State) : Prop := self.system.Run es s

variable {self} {es : History} {s s' t : State} {name : PublicKey} {id : WorkerId} {d : Digest}

theorem next_process {a : Process.Action} (h : self.next s (.process name a) = some s') :
    s.reported name a = true ∧ ∃ processes,
      self.network.system.next s.processes (name, a) = some processes ∧
        s' = { s with processes } := by
  unfold next at h
  dsimp only at h
  split at h
  · next hreported =>
    obtain ⟨processes, hnext, rfl⟩ := Option.map_eq_some_iff.mp h
    exact ⟨hreported, processes, hnext, rfl⟩
  · cases h

theorem next_worker {a : Worker.Action} (h : self.next s (.worker name id a) = some s') :
    ∃ w, (self.worker name id).next (s.workers name id) a = some w ∧
      s' = s.setWorker name id w := by
  unfold next at h
  dsimp only at h
  split at h
  · obtain ⟨w, hnext, rfl⟩ := Option.map_eq_some_iff.mp h
    exact ⟨w, hnext, rfl⟩
  · cases h

variable (self) in
/-- The network without the workers. -/
def networkView : System.View self.system self.network.system where
  state s := s.processes
  label _
    | .process name a => some (name, a)
    | .worker _ _ _ => none
  init := rfl
  step s i s' hnext k hk := by
    cases i with
    | process name a =>
        obtain ⟨_, processes, hstep, rfl⟩ := next_process hnext
        rw [← Option.some.inj hk]
        exact hstep
    | worker name id a => cases hk
  silent s i s' hnext hnone := by
    cases i with
    | process name a => cases hnone
    | worker name id a =>
        obtain ⟨w, _, rfl⟩ := next_worker hnext
        rfl

variable (self) in
/-- One worker. -/
def workerView (name : PublicKey) (id : WorkerId) :
    System.View self.system (self.worker name id).system where
  state s := s.workers name id
  label _
    | .process _ _ => none
    | .worker name' id' a => if name' = name ∧ id' = id then some a else none
  init := rfl
  step s i s' hnext k hk := by
    cases i with
    | process name' a => cases hk
    | worker name' id' a =>
        obtain ⟨w, hstep, rfl⟩ := next_worker hnext
        dsimp only at hk
        split at hk
        · next hsame =>
          obtain ⟨rfl, rfl⟩ := hsame
          rw [← Option.some.inj hk, State.setWorker_self]
          exact hstep
        · cases hk
  silent s i s' hnext hnone := by
    cases i with
    | process name' a =>
        obtain ⟨_, processes, _, rfl⟩ := next_process hnext
        rfl
    | worker name' id' a =>
        obtain ⟨w, _, rfl⟩ := next_worker hnext
        dsimp only at hnone
        split at hnone
        · cases hnone
        · next hother => exact s.setWorker_other w hother

/-- What happened in the network. -/
abbrev networkHistory (es : History) : Network.History := self.networkView.history es

/-! ## §3. What was reported is stored. -/

theorem Run.network (hrun : self.Run es s) :
    self.network.Run (self.networkHistory es) s.processes := self.networkView.run hrun

theorem Run.worker (hrun : self.Run es s) (name : PublicKey) (id : WorkerId) :
    (self.worker name id).Run ((self.workerView name id).history es) (s.workers name id) :=
  (self.workerView name id).run hrun

theorem mem_networkHistory {processes : PublicKey → Process} {a : Process.Action}
    (h : (processes, (name, a)) ∈ self.networkHistory es) :
    ∃ t, (t, Action.process name a) ∈ es ∧ t.processes = processes := by
  obtain ⟨t, i, hmem, hlabel, hstate⟩ := self.networkView.mem_history.mp h
  cases i with
  | process name' a' =>
      obtain ⟨rfl, rfl⟩ := Prod.mk.inj (Option.some.inj hlabel)
      exact ⟨t, hmem, hstate⟩
  | worker name' id a' => cases hlabel

/-- Batches stay where they are. -/
theorem has_of_next {i : Action} (h : self.next s i = some s') (hhas : (s.workers name id).Has d) :
    (s'.workers name id).Has d := by
  cases hlabel : (self.workerView name id).label s i with
  | none =>
      have hsame : s'.workers name id = s.workers name id :=
        (self.workerView name id).silent s i s' h hlabel
      rw [hsame]
      exact hhas
  | some a => exact Worker.has_next ((self.workerView name id).step s i s' h a hlabel) hhas

theorem Run.has_of_mem (hrun : self.Run es s) {i : Action} (hmem : (t, i) ∈ es)
    (hhas : (t.workers name id).Has d) : (s.workers name id).Has d := by
  induction hrun with
  | init => exact absurd hmem List.not_mem_nil
  | step _ hnext ih =>
      obtain heq | hmem := List.mem_cons.mp hmem
      · obtain ⟨rfl, rfl⟩ := Prod.mk.inj heq
        exact has_of_next hnext hhas
      · exact has_of_next hnext (ih hmem)

/-- **A digest that reached a process is of a batch that its worker has.** -/
theorem Run.has_of_report (hrun : self.Run es s) {a : Process.Action}
    (hmem : (t, Action.process name a) ∈ es)
    (ha : a = .primary (.othersBatch d id) ∨ a = .digest d id) : (s.workers name id).Has d := by
  obtain ⟨_, earlier, t', _, hearlier, hnext⟩ := System.Run.at_entry hrun hmem
  have hreported := (next_process hnext).1
  have haddressed := Worker.Run.addressed (Run.worker hearlier name id)
  refine hrun.has_of_mem hmem ?_
  obtain rfl | rfl := ha
  · obtain ⟨d', heq | heq, hhas⟩ := haddressed.reported _ (of_decide_eq_true hreported)
    · cases heq
    · rw [(WorkerPrimaryMessage.othersBatch.inj heq).1]
      exact hhas
  · obtain ⟨d', heq | heq, hhas⟩ := haddressed.reported _ (of_decide_eq_true hreported)
    · rw [(WorkerPrimaryMessage.ourBatch.inj heq).1]
      exact hhas
    · cases heq

/-- **What a primary noted is in the store of its worker.** -/
theorem Run.noted (hrun : self.Run es s) (name : PublicKey) :
    Core.Noted {e | (s.workers name e.2).Has e.1} (s.processes name).primary.core := by
  refine Core.Run.noted (hrun.network.primary name) fun m d w hmem => ?_
  obtain ⟨n, b, hn, hlabel, _⟩ := (self.network.config name).primaryView.mem_history.mp hmem
  obtain ⟨processes, hprocess, _⟩ := Network.mem_history.mp hn
  obtain ⟨t, ht, _⟩ := mem_networkHistory hprocess
  refine hrun.has_of_report ht (Or.inl ?_)
  change ProcessConfig.primaryLabel n b = some (.othersBatch d w) at hlabel
  cases b with
  | primary a => exact congrArg _ (Option.some.inj hlabel)
  | header =>
      obtain ⟨_, _, heq⟩ := Option.map_eq_some_iff.mp hlabel
      cases heq
  | collect =>
      obtain ⟨_, _, heq⟩ := Option.bind_eq_some_iff.mp hlabel
      split at heq <;> cases heq
  | _ => cases hlabel

/-- **What a proposer put into a header is in the stores of its workers.** -/
theorem Run.own_batches (hrun : self.Run es s) (name : PublicKey) :
    ∀ h ∈ created (s.processes name).log, ∀ e ∈ h.payload.entries,
      (s.workers name e.2).Has e.1 :=
  (ProcessConfig.Run.loads (B := fun e => (s.workers name e.2).Has e.1)
    (hrun.network.party name) fun n d w hmem => by
      obtain ⟨processes, hprocess, _⟩ := Network.mem_history.mp hmem
      obtain ⟨t, ht, _⟩ := mem_networkHistory hprocess
      exact hrun.has_of_report ht (Or.inr rfl)).2

/-! ## §4. Availability. -/

end Cluster

/-- A good authority votes for headers of its own only if it made them. -/
theorem Network.Assumptions.same_as_own {network : Network} {es : Network.History}
    {s : PublicKey → Process} {name : PublicKey} (h : network.Assumptions es s)
    (hrun : network.Run es s) (hgood : name ∈ network.good) {x : Cast}
    (hx : x ∈ (s name).primary.core.cast) (hround : 0 < x.header.round)
    (hname : x.header.author = name) :
    ∃ y ∈ Core.ownHeaders (network.primaryHistory name es), y.Same x.header := by
  have hfit : 2 * (network.config name).core.committee.totalStake < 2 ^ 32 := h.fit
  have hseparated := h.separated hrun
  have hin := h.incoming hrun hgood
  have hok : x.header.verify network.committee = .ok () := (h.checked hrun hgood hx).1.header
  obtain ⟨y, hy, hid⟩ := Core.Run.cast_own hfit hseparated (hrun.primary name) hin
    (h.recognises hrun hgood) hx hok hround hname
  obtain ⟨m, hown⟩ := Core.mem_ownHeaders.mp hy
  obtain ⟨hyX, hdigest⟩ := hin.own m y hown
  obtain ⟨hauthors, hrounds⟩ := hseparated.identified y hyX x.header
    ((h.honest hrun hgood).cast x hx).1 hdigest (Header.digest_of_verify hok) hid
  obtain ⟨z, hz, rfl, _⟩ := h.own_cast hrun hgood y hy
  refine ⟨_, hy, h.same_of_certified hrun ⟨name, hgood, Or.inl ⟨z, hz, rfl⟩⟩
    ⟨name, hgood, Or.inl ⟨x, hx, rfl⟩⟩ hround ?_⟩
  unfold Header.certified
  rw [hid, hrounds, hauthors]

namespace Cluster

variable {self : Cluster} {es : History} {s : State} {name : PublicKey}

/-- A good authority that voted for a header has its batches, own or not. -/
theorem Run.has_of_supports (hrun : self.Run es s)
    (h : Network.Assumptions self.network (self.networkHistory es) s.processes) {c : Certificate}
    (hround : 0 < c.round) {voter : PublicKey} (hsupports : self.network.Supports s.processes c voter)
    {e : Digest × WorkerId} (he : e ∈ c.header.payload.entries) : (s.workers voter e.2).Has e.1 := by
  obtain ⟨x, hx, hsame, _, hstocked⟩ := hsupports.voted
  by_cases hauthor : c.header.author = voter
  · have hgood := hsupports.good
    have hyx := h.same_as_own hrun.network hgood hx (hsame.round ▸ hround)
      (hsame.author.trans hauthor)
    obtain ⟨y, hy, hyx⟩ := hyx
    have hmade : y ∈ created (s.processes voter).log := by
      have hpromised := (h.promised hrun.network hgood).1
      change y ∈ Core.ownHeaders ((self.network.config voter).primaryHistory _) at hy
      rw [hpromised.taken, List.mem_reverse] at hy
      exact List.mem_of_mem_take hy
    refine hrun.own_batches voter y hmade e ?_
    rw [hyx.payload, hsame.payload]
    exact he
  · exact (hrun.noted voter).cast x hx e.1 e.2 (hstocked hauthor e he)

open Mrv.Core (sampleHash sampleHeaders sampleBatch)

def sampleCluster : Cluster :=
  { network := Network.sampleNetwork, syncRetryDelay := 1000, syncRetryNodes := 2 }

/-- A batch that `sampleHash` gives the digest of the fourth authority's. -/
def sampleContent : SerializedBatchMessage :=
  [169, 181, 161, 66, 132, 157, 41, 167, 180, 99, 239, 241, 84, 120, 141, 217, 175, 42, 5, 135, 71,
    162, 214, 60, 182, 182, 66, 88, 49, 100, 101, 140]

/-- The workers have the batch, and the processes do as in the network without them. -/
def sampleClusterSteps : List Action :=
  [.worker (sampleKey 3) 0 (.process true sampleContent),
    .worker (sampleKey 0) 0 (.process false sampleContent),
    .worker (sampleKey 1) 0 (.process false sampleContent)] ++
    Network.sampleSteps.map fun e => .process e.1 e.2

omit [Crypto] in
set_option maxRecDepth 10000 in
theorem exists_sampleCluster :
    letI := sampleHash
    ∃ es s, sampleCluster.Run es s ∧
      Network.Assumptions sampleCluster.network (sampleCluster.networkHistory es) s.processes ∧
      Network.sampleCertified ∈ (s.processes (sampleKey 0)).primary.core.txConsensus := by
  let _ := sampleHash
  obtain ⟨es, s, hrun, hcheck⟩ := System.exec_check sampleCluster.system sampleClusterSteps
    (fun es s => Network.calm sampleCluster.network sampleHeaders
        (sampleCluster.networkHistory es) &&
      decide (Network.sampleCertified ∈ (s.processes (sampleKey 0)).primary.core.txConsensus))
    (by decide +kernel)
  obtain ⟨hcalm, haccepted⟩ := (Bool.and_eq_true _ _).mp hcheck
  refine ⟨es, s, hrun, ?_, of_decide_eq_true haccepted⟩
  exact (Network.assumptions_of_calm (by decide) (by decide) (by decide) Core.batchExact_sampleHash
    (fun name _ => Core.signsWell_sampleHash _) Core.hashing_sampleHeaders List.mem_cons_self
    Core.batches_sampleHeaders hcalm (Run.network hrun)).toAssumptions

end Cluster

end Mrv
