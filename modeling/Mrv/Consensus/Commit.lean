/-
  Mrv.Consensus.Commit — what is committed, once, and in which order.

  A certificate that was emitted is emitted again exactly if it comes back into
  the DAG below its author's last committed round and the search of a leader
  reaches it there: the search skips the author's last committed round itself, and
  everything older is physically removed.  `emitted_nodup` says so for every run;
  certificates delivered once never come back (`not_stale_of_deliveredOnce`), and
  `emitted_twice` is a run in which one that is delivered again does.
-/
import Mrv.Consensus.Linked

namespace Mrv

variable [Crypto]

namespace Consensus

variable {task : Consensus} {es : History} {n : Node}

/-! ## §1. No double commit. -/

/-- An emitted certificate that sits in the DAG below its author's last committed
round, within the collector's reach, where the search of a leader gets. -/
structure Stale (task : Consensus) (n : Node) (leader x : Certificate) : Prop where
  emitted : x ∈ emitted n
  has : n.state.Has x
  below : x.round < n.state.committedRound x.origin
  inRange : n.state.InRange task.gcDepth x
  reached : n.state.Reached leader x

/-- A history in which no leader is flattened over a stale certificate. -/
def NoStale (task : Consensus) (es : History) : Prop :=
  ∀ m leader rest, (m, Action.commit) ∈ es → m.pending = leader :: rest →
    ∀ x, ¬ Stale task m leader x

/-- A batch repeats an emitted certificate only if that certificate is stale. -/
theorem stale_of_mem_batch {leader x : Certificate} {batch : List Certificate}
    (h : Inv task es n) (hpanic : n.panic = none) (hleader : leader ∈ n.pending)
    (horder : task.orderDag leader n.state = .ok batch) (hx : x ∈ batch)
    (hemitted : x ∈ emitted n) : Stale task n leader x := by
  obtain ⟨hreached, hrange⟩ := mem_of_orderDag h.sound horder hx
  have hle := h.emitted_le x hemitted
  obtain heq | ⟨y, _, hfollows⟩ := Relation.ReflTransGen.cases_tail hreached
  · -- the leader is above everything emitted
    have hlt := (h.pending leader hleader).1
    have hmax := h.tidy.committedRound_le x.origin
    rw [heq] at hle hmax
    omega
  · have hpos := h.delivered_pos hpanic x (h.emitted_delivered x hemitted)
    have hne : n.state.committedRound x.origin ≠ x.round := by
      intro heq
      apply hfollows.2.2
      unfold State.committedRound at heq
      unfold State.LastCommitted
      cases hl : n.state.lastCommitted.lookup x.origin with
      | none =>
          rw [hl] at heq
          have h0 : (0 : ℕ) = x.round := heq
          omega
      | some k =>
          rw [hl] at heq
          exact congrArg some heq
    exact ⟨hemitted, hfollows.2.1, by omega, hrange, hreached⟩

theorem NoStale.tail {e : Node × Action} (h : NoStale task (e :: es)) : NoStale task es :=
  fun m leader rest hm => h m leader rest (List.mem_cons_of_mem _ hm)

/-! ## §2. Certificates delivered once. -/

/-- Emitted certificates in memory are current for their authors. -/
def Current (n : Node) : Prop :=
  ∀ x ∈ emitted n, n.state.Has x → n.state.committedRound x.origin ≤ x.round

/-- A certificate that was delivered before keeps its slot when another one is
inserted. -/
theorem has_inserted_iff {s : State} {c x : Certificate} {cs : List Certificate}
    (hu : UniquePerSlot (c :: cs)) (hnd : (c :: cs).Nodup) (hx : x ∈ cs) :
    (inserted s c).Has x ↔ s.Has x := by
  have hne : ¬ (x.round = c.round ∧ x.origin = c.origin) := by
    intro hslot
    have hxc := hu x (List.mem_cons_of_mem _ hx) c List.mem_cons_self hslot.1 hslot.2
    rw [hxc] at hx
    exact (List.nodup_cons.mp hnd).1 hx
  show (s.dag.add c.round c.origin (c.digest, c)).find x.round x.origin = _ ↔ _
  rw [Dag.find_add, if_neg hne]
  exact Iff.rfl

/-- One certificate per slot, each delivered once. -/
structure DeliveredOnce (es : History) : Prop where
  unique : UniquePerSlot (delivered es)
  nodup : (delivered es).Nodup

omit [Crypto] in
theorem DeliveredOnce.tail {m : Node} {a : Action} (h : DeliveredOnce ((m, a) :: es)) :
    DeliveredOnce es := by
  cases a with
  | receive c => exact ⟨h.unique.tail, (List.nodup_cons.mp h.nodup).2⟩
  | commit => exact ⟨h.unique, h.nodup⟩

theorem Run.current (hrun : task.Run es n) (honce : DeliveredOnce es) : Current n := by
  refine System.Run.invariant (P := fun es n => DeliveredOnce es → Current n) ?_ ?_ hrun honce
  · intro _ x hx
    exact absurd hx List.not_mem_nil
  · intro es n a n' hrun ih hnext honce
    have hinv := Run.inv hrun
    cases a with
    | receive c =>
        obtain ⟨_, _, rfl⟩ := next_receive hnext
        intro x hx hhas
        rw [emitted_receive] at hx
        rw [state_receive] at hhas ⊢
        exact ih honce.tail x hx
          ((has_inserted_iff honce.unique honce.nodup (hinv.emitted_delivered x hx)).mp hhas)
    | commit =>
        obtain ⟨leader, rest, batch, _, _, _, hmem, rfl⟩ := hinv.commit_step hnext
        intro x _ hhas
        exact (State.current_of_find_updateAll (List.ne_nil_of_mem hmem) hhas).1

omit [Crypto] in
/-- The history before one of its entries. -/
theorem DeliveredOnce.earlier {later earlier : History} (h : DeliveredOnce (later ++ earlier)) :
    DeliveredOnce earlier := by
  induction later with
  | nil => exact h
  | cons e later ih =>
      obtain ⟨m, a⟩ := e
      exact ih h.tail

/-- **Certificates delivered once never become stale.** -/
theorem not_stale_of_deliveredOnce (hrun : task.Run es n) (honce : DeliveredOnce es) :
    NoStale task es := by
  intro m leader rest hm _ x hstale
  obtain ⟨later, earlier, m', heq, hrun', hnext⟩ := System.Run.at_entry hrun hm
  rw [heq] at honce
  have hcurrent := Run.current hrun' honce.earlier.tail x hstale.emitted hstale.has
  have hbelow := hstale.below
  omega

/-! ## §3. No double commit, unless a certificate comes back. -/

theorem emitted_nodup_of_noStale (hrun : task.Run es n) (hstale : NoStale task es) :
    (emitted n).Nodup := by
  refine System.Run.invariant (P := fun es n => NoStale task es → (emitted n).Nodup) ?_ ?_
    hrun hstale
  · intro _
    exact List.nodup_nil
  · intro es n a n' hrun ih hnext hstale
    have hinv := Run.inv hrun
    cases a with
    | receive c =>
        obtain ⟨_, _, rfl⟩ := next_receive hnext
        rw [emitted_receive]
        exact ih hstale.tail
    | commit =>
        obtain ⟨leader, rest, batch, hpanic, hpending, horder, _, rfl⟩ := hinv.commit_step hnext
        have hleader : leader ∈ n.pending := by rw [hpending]; exact List.mem_cons_self
        rw [emitted_emit, List.nodup_append]
        refine ⟨ih hstale.tail, nodup_orderDag hinv.sound horder, ?_⟩
        intro x hx y hy heq
        rw [← heq] at hy
        exact hstale n leader rest List.mem_cons_self hpending x
          (stale_of_mem_batch hinv hpanic hleader horder hy hx)

theorem NoStale.receive {m : Node} {c : Certificate} (h : NoStale task es) :
    NoStale task ((m, .receive c) :: es) := by
  intro m' leader rest hm hpending
  obtain heq | hm := List.mem_cons.mp hm
  · cases heq
  · exact h m' leader rest hm hpending

omit [Crypto] in
theorem known_receive {m : Node} {c : Certificate} {x : Certificate} (h : task.Known es x) :
    task.Known ((m, .receive c) :: es) x := by
  obtain hx | hx := h
  · exact Or.inl (List.mem_cons_of_mem _ hx)
  · exact Or.inr hx

theorem noStale_of_emitted_nodup (hrun : task.Run es n)
    (hinj : Set.InjOn Certificate.digest {x | task.Known es x}) (hnodup : (emitted n).Nodup) :
    NoStale task es := by
  refine System.Run.invariant
    (P := fun es n => Set.InjOn Certificate.digest {x | task.Known es x} →
      (emitted n).Nodup → NoStale task es) ?_ ?_ hrun hinj hnodup
  · intro _ _ m leader rest hm
    exact absurd hm List.not_mem_nil
  · intro es n a n' hrun ih hnext hinj hnodup
    have hinv := Run.inv hrun
    cases a with
    | receive c =>
        obtain ⟨_, _, rfl⟩ := next_receive hnext
        rw [emitted_receive] at hnodup
        exact (ih (hinj.mono fun _ hx => known_receive hx) hnodup).receive
    | commit =>
        obtain ⟨leader, rest, batch, _, hpending, horder, _, rfl⟩ := hinv.commit_step hnext
        rw [emitted_emit, List.nodup_append] at hnodup
        obtain ⟨hold, _, hdisjoint⟩ := hnodup
        intro m leader' rest' hm hpending' x hstale
        obtain heq | hm := List.mem_cons.mp hm
        · -- what the search gets to within reach is part of the batch
          obtain ⟨rfl, _⟩ := Prod.mk.inj heq
          rw [hpending] at hpending'
          obtain ⟨rfl, _⟩ := List.cons.inj hpending'
          have hx : x ∈ batch := (mem_orderDag hinv.sound (hinv.sound.injOn hinj) horder).mpr
            ⟨hstale.reached, hstale.inRange⟩
          exact hdisjoint x hstale.emitted x hx rfl
        · exact ih hinj hold m leader' rest' hm hpending' x hstale

/-- **No double commit**: unless a leader is flattened over a stale certificate, no
certificate is emitted twice; and if one is, with no two certificates of one digest, a
certificate is emitted twice. -/
theorem emitted_nodup (hrun : task.Run es n) :
    (NoStale task es → (emitted n).Nodup) ∧
      (Set.InjOn Certificate.digest {x | task.Known es x} → (emitted n).Nodup →
        NoStale task es) :=
  ⟨emitted_nodup_of_noStale hrun, noStale_of_emitted_nodup hrun⟩

/-- No certificate in memory names an emitted one that came back below its author's
last committed round. -/
def Unnamed (cs : List Certificate) (m : Node) : Prop :=
  m.pending = [] ∨ ∀ x ∈ emitted m, m.state.Has x →
    x.round < m.state.committedRound x.origin → ∀ y ∈ cs, y.Parent x → ¬ m.state.Has y

/-- What no certificate in memory names, the search does not get to. -/
theorem noStale_of_unnamed (hrun : task.Run es n)
    (h : ∀ e ∈ es, Unnamed (delivered es ++ Certificate.genesis task.committee) e.1) :
    NoStale task es := by
  intro m leader rest hm hpending x hstale
  obtain ⟨later, earlier, _, rfl, hrun', _⟩ := System.Run.at_entry hrun hm
  have hinv := Run.inv hrun'
  obtain ⟨hlt, _, hhas⟩ := hinv.pending leader (by rw [hpending]; exact List.mem_cons_self)
  obtain heq | ⟨y, hy, hfollows⟩ := Relation.ReflTransGen.cases_tail hstale.reached
  · have hle := hinv.emitted_le x hstale.emitted
    have hmax := hinv.tidy.committedRound_le x.origin
    rw [heq] at hle hmax
    omega
  · have hyhas : m.state.Has y := State.Reached.has hy hhas
    have hyknown : y ∈ delivered (later ++ (m, Action.commit) :: earlier) ++
        Certificate.genesis task.committee := by
      rw [delivered_append, delivered_commit, List.append_assoc]
      exact List.mem_append_right _ (List.mem_append.mpr (hinv.known_of_has hyhas))
    obtain hnil | hunnamed := h (m, .commit) hm
    · rw [hpending] at hnil
      exact absurd hnil (List.cons_ne_nil _ _)
    · exact hunnamed x hstale.emitted hstale.has hstale.below y hyknown hfollows.1 hyhas

/-- One round of three authorities that name each other's certificates. -/
def sampleRow (round : ℕ) : List Certificate :=
  [Certificate.sample round 0 [0, 1, 2], .sample round 1 [0, 1, 2], .sample round 2 [0, 1, 2]]

/-- The certificate that is delivered twice. -/
def sampleTwice : Certificate := .sample 1 1 [0, 1, 2]

/-- Three leaders are committed.  A certificate of the first batch is delivered again
while it is its author's last committed one, and once more after the second batch. -/
def againActions : List Action :=
  (sampleRow 1 ++ sampleRow 2 ++ sampleRow 3 ++ sampleRow 4 ++
      [Certificate.sample 5 0 [0, 1, 2]]).map .receive ++ .commit ::
    (sampleTwice :: [Certificate.sample 5 1 [0, 1, 2], .sample 5 2 [0, 1, 2]] ++ sampleRow 6 ++
      [Certificate.sample 7 0 [0, 1, 2]]).map .receive ++ .commit ::
    (sampleTwice :: [Certificate.sample 7 1 [0, 1, 2], .sample 7 2 [0, 1, 2]] ++ sampleRow 8 ++
      [Certificate.sample 9 0 [0, 1, 2]]).map .receive ++ [.commit]

instance (cs : List Certificate) (m : Node) : Decidable (Unnamed cs m) :=
  inferInstanceAs (Decidable (m.pending = [] ∨ ∀ x ∈ emitted m,
    m.state.dag.find x.round x.origin = some (x.digest, x) →
      x.round < m.state.committedRound x.origin → ∀ y ∈ cs, y.Parent x →
        ¬ m.state.dag.find y.round y.origin = some (y.digest, y)))

omit [Crypto] in
set_option maxRecDepth 10000 in
theorem exists_againRun :
    letI := sampleCrypto
    ∃ es n, sampleTask.Run es n ∧ (delivered es).count sampleTwice = 3 ∧ n.output.length = 3 ∧
      (∀ e ∈ es, Unnamed (delivered es ++ Certificate.genesis sampleTask.committee) e.1) ∧
      (∀ x ∈ delivered es ++ Certificate.genesis sampleTask.committee,
        ∀ y ∈ delivered es ++ Certificate.genesis sampleTask.committee,
          x.digest = y.digest → x = y) := by
  let _ := sampleCrypto
  obtain ⟨es, n, hrun, hcheck⟩ := System.exec_check sampleTask.system againActions
    (fun es n => decide ((delivered es).count sampleTwice = 3 ∧ n.output.length = 3 ∧
      (∀ e ∈ es, Unnamed (delivered es ++ Certificate.genesis sampleTask.committee) e.1) ∧
      (∀ x ∈ delivered es ++ Certificate.genesis sampleTask.committee,
        ∀ y ∈ delivered es ++ Certificate.genesis sampleTask.committee,
          x.digest = y.digest → x = y))) (by decide +kernel)
  exact ⟨es, n, hrun, of_decide_eq_true hcheck⟩

omit [Crypto] in
/-- In this run the certificate that is delivered three times never becomes stale, and
the three batches repeat nothing. -/
theorem emitted_nodup_sample :
    letI := sampleCrypto
    ∃ es n, sampleTask.Run es n ∧ (delivered es).count sampleTwice = 3 ∧ n.output.length = 3 ∧
      Set.InjOn Certificate.digest {x | sampleTask.Known es x} ∧ NoStale sampleTask es ∧
      (emitted n).Nodup := by
  let _ := sampleCrypto
  obtain ⟨es, n, hrun, hcount, hlength, hunnamed, hinj⟩ := exists_againRun
  have hstale := noStale_of_unnamed hrun hunnamed
  refine ⟨es, n, hrun, hcount, hlength, ?_, hstale, (emitted_nodup hrun).1 hstale⟩
  intro x hx y hy
  exact hinj x (List.mem_append.mpr hx) y (List.mem_append.mpr hy)

/-- Author 3 builds on its own certificates, which the others do not name until the
leader of round 6 does. -/
def sampleSlow : List Certificate :=
  [Certificate.sample 2 3 [0, 1, 2], .sample 3 3 [0, 1, 3], .sample 4 3 [0, 1, 3],
    .sample 5 3 [0, 1, 3]]

/-- Up to the commit of the leader of round 2, up to the one of round 4, and then,
after a certificate of the first batch came again, up to the one of round 6. -/
def repeatActions : List Action :=
  (sampleRow 1 ++ sampleRow 2 ++ sampleRow 3 ++ sampleRow 4 ++
      [Certificate.sample 5 0 [0, 1, 2]]).map .receive ++ .commit ::
    ([Certificate.sample 5 1 [0, 1, 2], .sample 5 2 [0, 1, 2]] ++ sampleSlow ++
      [Certificate.sample 6 0 [0, 1, 2], .sample 6 1 [0, 1, 2], .sample 6 2 [0, 1, 3],
        .sample 7 0 [0, 1, 2]]).map .receive ++ .commit ::
    (sampleTwice :: [Certificate.sample 7 1 [0, 1, 2], .sample 7 2 [0, 1, 2]] ++ sampleRow 8 ++
      [Certificate.sample 9 0 [0, 1, 2]]).map .receive ++ [.commit]

omit [Crypto] in
set_option maxRecDepth 10000 in
theorem exists_repeatRun :
    letI := sampleCrypto
    ∃ es n, sampleTask.Run es n ∧ (∀ c ∈ delivered es, 1 ≤ c.round) ∧
      UniquePerSlot (delivered es) ∧ CausalDelivery sampleTask.committee (delivered es) ∧
      (∀ x ∈ delivered es ++ Certificate.genesis sampleTask.committee,
        ∀ y ∈ delivered es ++ Certificate.genesis sampleTask.committee,
          x.digest = y.digest → x = y) ∧
      (emitted n).count sampleTwice = 2 := by
  let _ := sampleCrypto
  obtain ⟨es, n, hrun, hcheck⟩ := System.exec_check sampleTask.system repeatActions
    (fun es n => decide ((∀ c ∈ delivered es, 1 ≤ c.round) ∧ UniquePerSlot (delivered es) ∧
      CausalDelivery sampleTask.committee (delivered es) ∧
      (∀ x ∈ delivered es ++ Certificate.genesis sampleTask.committee,
        ∀ y ∈ delivered es ++ Certificate.genesis sampleTask.committee,
          x.digest = y.digest → x = y) ∧
      (emitted n).count sampleTwice = 2)) (by decide +kernel)
  exact ⟨es, n, hrun, of_decide_eq_true hcheck⟩

omit [Crypto] in
/-- **Double commit**: a certificate that was committed and cleaned up is delivered
again, reached from the slow author's certificates and committed again. -/
theorem emitted_twice :
    ¬ ∀ (_ : Crypto) (task : Consensus) (es : History) (n : Node), task.Run es n →
      (∀ c ∈ delivered es, 1 ≤ c.round) → UniquePerSlot (delivered es) →
      CausalDelivery task.committee (delivered es) →
      Set.InjOn Certificate.digest {x | task.Known es x} → (emitted n).Nodup := by
  intro h
  obtain ⟨es, n, hrun, hpos, hunique, hcausal, hinj, hcount⟩ := exists_repeatRun
  have hknown : ∀ x, letI := sampleCrypto; sampleTask.Known es x →
      x ∈ delivered es ++ Certificate.genesis sampleTask.committee :=
    fun x hx => List.mem_append.mpr hx
  have hnd := h sampleCrypto sampleTask es n hrun hpos hunique hcausal
    (fun x hx y hy => hinj x (hknown x hx) y (hknown y hy))
  have hone := List.nodup_iff_count_le_one.mp hnd sampleTwice
  omega

end Consensus

end Mrv
