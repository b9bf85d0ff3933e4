/-
  Mrv.Executor.Invariant — rules for runs of the executor, and what always holds.

  `Inductive` collects what has to be shown of a property of states for it to hold in
  every state a run reaches: one obligation for each operation.  The property may refer
  to the batches recorded so far and to the certificates of the batch being recorded.

  `Sane` holds in every run, whatever is received: members of pending batches are in
  store, and a mature state has a horizon.
-/
import Mrv.Executor.Update

namespace Mrv

/-! ## §1. Single states. -/

/-- The author is new in the round and completes the first quorum. -/
def AufState.Hits (st : AufState) (reachThreshold round : ℕ) (author : PublicKey) : Prop :=
  author ∉ (st.seenByRound.get round).getD ∅ ∧ st.horizon = none ∧
    reachThreshold ≤ (insert author ((st.seenByRound.get round).getD ∅)).card

instance (st : AufState) (reachThreshold round : ℕ) (author : PublicKey) :
    Decidable (st.Hits reachThreshold round author) := by
  unfold AufState.Hits
  exact inferInstance

theorem AufState.see_eq (st : AufState) (reachThreshold round : ℕ) (a : PublicKey) :
    st.see reachThreshold round a =
      { st with
        seenByRound := st.seenByRound.insert round (insert a ((st.seenByRound.get round).getD ∅))
        horizon := if st.Hits reachThreshold round a then some round else st.horizon
        mature := if st.Hits reachThreshold round a then true else st.mature } := by
  unfold AufState.see
  dsimp only
  split
  · next h =>
    have hhits : st.Hits reachThreshold round a := h
    rw [if_pos hhits, if_pos hhits]
  · next h =>
    have hmisses : ¬ st.Hits reachThreshold round a := h
    rw [if_neg hmisses, if_neg hmisses]

@[simp] theorem AufState.round_see (st : AufState) (reachThreshold round : ℕ) (author : PublicKey) :
    (st.see reachThreshold round author).round = st.round := by
  unfold AufState.see
  dsimp only
  split
  · rfl
  · rfl

theorem AufState.get_see (st : AufState) (reachThreshold round : ℕ) (author : PublicKey) (r : ℕ) :
    (((st.see reachThreshold round author).seenByRound.get r).getD ∅ : Finset PublicKey) =
      if r = round then insert author ((st.seenByRound.get r).getD ∅)
      else (st.seenByRound.get r).getD ∅ := by
  have hseen : (st.see reachThreshold round author).seenByRound =
      st.seenByRound.insert round (insert author ((st.seenByRound.get round).getD ∅)) := by
    unfold AufState.see
    dsimp only
    split
    · rfl
    · rfl
  rw [hseen, BTreeMap.get_insert]
  split
  · next heq => rw [heq, Option.getD_some]
  · rfl

@[simp] theorem MrvExecutor.round_capState (core : MrvExecutor) (frontierRound : ℕ) (st : AufState) :
    (core.capState frontierRound st).round = st.round := by
  unfold MrvExecutor.capState
  dsimp only
  split
  · rfl
  · split
    · rfl
    · rfl

@[simp] theorem MrvExecutor.seenByRound_capState (core : MrvExecutor) (frontierRound : ℕ) (st : AufState) :
    (core.capState frontierRound st).seenByRound = st.seenByRound := by
  unfold MrvExecutor.capState
  dsimp only
  split
  · rfl
  · split
    · rfl
    · rfl

/-- A mature state has a horizon. -/
def AufState.Frozen (st : AufState) : Prop := st.mature = true → st.horizon ≠ none

theorem AufState.Frozen.see {st : AufState} (h : Frozen st) (reachThreshold round : ℕ)
    (author : PublicKey) : Frozen (st.see reachThreshold round author) := by
  unfold AufState.see
  dsimp only
  split
  · exact fun _ => Option.some_ne_none round
  · exact h

theorem AufState.Frozen.cap {st : AufState} (h : Frozen st) (core : MrvExecutor)
    (frontierRound : ℕ) : Frozen (core.capState frontierRound st) := by
  unfold MrvExecutor.capState
  dsimp only
  split
  · exact h
  · split
    · exact fun hmature => Bool.noConfusion hmature
    · exact h

namespace MrvExecutor

variable [Crypto] {core : MrvExecutor} {s s' : State} {orders : ℕ → HashOrder}

/-! ## §2. The output loop. -/

/-- One round of the output loop: the batch of lowest index is sent and released. -/
structure Finalizes (core : MrvExecutor) (σ : HashOrder) (s : State) (k : ℕ)
    (ms sorted : List Digest) (s' : State) : Prop where
  head : ∃ es, s.batches.entries = (k, ⟨ms⟩) :: es
  ready : ∃ h, s.batchHorizon ms = some h ∧ h ≤ s.frontierRound
  sorts : core.sortBatch s σ ms = some sorted
  result : s' = (s.sent sorted).releaseBatch σ k ms

/-- The batch of lowest index is not ready. -/
def Settled (s : State) : Prop :=
  ∀ k ms es, s.batches.entries = (k, ⟨ms⟩) :: es →
    ∀ h, s.batchHorizon ms = some h → s.frontierRound < h

/-- A release of a batch: the state before it, the index and the members. -/
structure Release where
  state : State
  index : ℕ
  members : List Digest

/-- The releases of the output loop. -/
def releases (core : MrvExecutor) (orders : ℕ → HashOrder) : ℕ → State → List Release
  | 0, _ => []
  | fuel + 1, s =>
      match s.batches.entries with
      | [] => []
      | (k, batch) :: _ =>
          if batch.members = [] then
            releases core orders fuel { s with batches := s.batches.erase k }
          else
            match s.batchHorizon batch.members with
            | none => []
            | some batchHorizon =>
                if s.frontierRound < batchHorizon then []
                else
                  match core.finalize (orders k) s k batch.members with
                  | .error _ => []
                  | .ok s' => ⟨s, k, batch.members⟩ :: releases core orders fuel s'

/-- The releases while a delivery is processed. -/
def releasesOf (core : MrvExecutor) (s : State) (d : Delivery) : List Release :=
  match core.record (d.orders d.batch.batchIndex) s d.batch with
  | none => []
  | some s' => core.releases d.orders (s'.batches.entries.length + 1) s'

/-- The batch of lowest index has members and is ready. -/
structure Ready (s : State) (k : ℕ) (ms : List Digest) : Prop where
  head : ∃ es, s.batches.entries = (k, ⟨ms⟩) :: es
  members : ms ≠ []
  horizon : ∃ h, s.batchHorizon ms = some h ∧ h ≤ s.frontierRound

section

variable {fuel k : ℕ} {ms : List Digest} {es : List (ℕ × BatchState)}

omit [Crypto] in
/-- A batch without members is never waited for. -/
theorem Settled.members_ne_nil (h : Settled s) (hentries : s.batches.entries = (k, ⟨ms⟩) :: es) :
    ms ≠ [] := by
  rintro rfl
  exact Nat.not_lt_zero _ (h k [] es hentries 0 rfl)

omit [Crypto] in
/-- **What the output loop can find in front of it.** -/
theorem front_cases (s : State) :
    Settled s ∨ (∃ k es, s.batches.entries = (k, ⟨[]⟩) :: es) ∨ ∃ k ms, Ready s k ms := by
  rcases hentries : s.batches.entries with _ | ⟨⟨k, ⟨ms⟩⟩, es⟩
  · refine Or.inl fun k ms es hcons => ?_
    rw [hentries] at hcons
    cases hcons
  · by_cases hempty : ms = []
    · subst hempty
      exact Or.inr (Or.inl ⟨k, es, rfl⟩)
    · by_cases hready : ∃ h, s.batchHorizon ms = some h ∧ h ≤ s.frontierRound
      · exact Or.inr (Or.inr ⟨k, ms, ⟨es, hentries⟩, hempty, hready⟩)
      · refine Or.inl fun k' ms' es' hcons h hh => ?_
        rw [hentries] at hcons
        cases hcons
        exact not_le.mp fun hle => hready ⟨h, hh, hle⟩

omit [Crypto] in
theorem tryFinalize_settled (core : MrvExecutor) (orders : ℕ → HashOrder) (fuel : ℕ)
    (h : Settled s) :
    core.tryFinalizeBatches orders (fuel + 1) s = .ok s ∧
      core.releases orders (fuel + 1) s = [] := by
  unfold tryFinalizeBatches releases
  rcases hentries : s.batches.entries with _ | ⟨⟨k, ⟨ms⟩⟩, es⟩
  · exact ⟨rfl, rfl⟩
  · have hne : ms ≠ [] := h.members_ne_nil hentries
    dsimp only
    rw [if_neg hne, if_neg hne]
    cases hr : s.batchHorizon ms with
    | none => exact ⟨rfl, rfl⟩
    | some r =>
        have hlt := h k ms es hentries r hr
        exact ⟨if_pos hlt, if_pos hlt⟩

omit [Crypto] in
theorem tryFinalize_drop (core : MrvExecutor) (orders : ℕ → HashOrder) (fuel : ℕ)
    (hentries : s.batches.entries = (k, ⟨[]⟩) :: es) :
    core.tryFinalizeBatches orders (fuel + 1) s =
        core.tryFinalizeBatches orders fuel { s with batches := s.batches.erase k } ∧
      core.releases orders (fuel + 1) s =
        core.releases orders fuel { s with batches := s.batches.erase k } := by
  rw [tryFinalizeBatches, releases, hentries]
  exact ⟨if_pos rfl, if_pos rfl⟩

omit [Crypto] in
theorem Ready.tryFinalize (core : MrvExecutor) (orders : ℕ → HashOrder) (fuel : ℕ)
    (h : Ready s k ms) :
    core.tryFinalizeBatches orders (fuel + 1) s =
        (core.finalize (orders k) s k ms).bind (core.tryFinalizeBatches orders fuel) ∧
      ∀ t, core.finalize (orders k) s k ms = .ok t →
        core.releases orders (fuel + 1) s = ⟨s, k, ms⟩ :: core.releases orders fuel t := by
  obtain ⟨es, hentries⟩ := h.head
  obtain ⟨r, hr, hle⟩ := h.horizon
  rw [tryFinalizeBatches, releases, hentries]
  dsimp only
  rw [if_neg h.members, if_neg h.members, hr]
  dsimp only
  rw [if_neg (not_lt.mpr hle), if_neg (not_lt.mpr hle)]
  constructor
  · cases core.finalize (orders k) s k ms with
    | error stop => rfl
    | ok t => rfl
  · intro t ht
    rw [ht]

omit [Crypto] in
/-- A batch that is ready is output, and the loop goes on. -/
theorem Ready.of_ok (h : Ready s k ms)
    (hloop : core.tryFinalizeBatches orders (fuel + 1) s = .ok s') :
    ∃ sorted t, Finalizes core (orders k) s k ms sorted t ∧
      core.finalize (orders k) s k ms = .ok t ∧ core.tryFinalizeBatches orders fuel t = .ok s' ∧
      core.releases orders (fuel + 1) s = ⟨s, k, ms⟩ :: core.releases orders fuel t := by
  obtain ⟨hturn, hreleases⟩ := h.tryFinalize core orders fuel
  rw [hturn] at hloop
  cases ht : core.finalize (orders k) s k ms with
  | error stop =>
      rw [ht] at hloop
      cases hloop
  | ok t =>
      rw [ht] at hloop
      obtain ⟨sorted, hsorted, heq⟩ := finalize_eq_ok ht
      exact ⟨sorted, t, ⟨h.head, h.horizon, hsorted, heq⟩, rfl, hloop, hreleases t ht⟩

end

omit [Crypto] in
/-- **The rule for the output loop**: `I` is kept, and `P` is kept exactly by the releases
that meet `C`. -/
theorem tryFinalize_iff {I P : State → Prop} {C : Release → Prop}
    (hdrop : ∀ s k es, s.batches.entries = (k, ⟨[]⟩) :: es → I s →
      I { s with batches := s.batches.erase k } ∧
        (P { s with batches := s.batches.erase k } ↔ P s))
    (hfinal : ∀ s k ms sorted s', Finalizes core (orders k) s k ms sorted s' → I s →
      I s' ∧ (P s' ↔ P s ∧ C ⟨s, k, ms⟩))
    {fuel : ℕ} (hI : I s) (h : core.tryFinalizeBatches orders fuel s = .ok s') :
    (I s' ∧ Settled s') ∧ (P s' ↔ P s ∧ ∀ r ∈ core.releases orders fuel s, C r) := by
  induction fuel generalizing s with
  | zero => cases h
  | succ fuel ih =>
      obtain hsettled | ⟨k, es, hentries⟩ | ⟨k, ms, hready⟩ := front_cases s
      · obtain ⟨hstop, hnone⟩ := tryFinalize_settled core orders fuel hsettled
        rw [hstop] at h
        rw [← Except.ok.inj h, hnone]
        exact ⟨⟨hI, hsettled⟩, by simp⟩
      · obtain ⟨hnext, hsame⟩ := tryFinalize_drop core orders fuel hentries
        rw [hnext] at h
        obtain ⟨hI', hP⟩ := hdrop s k es hentries hI
        rw [hsame, ← hP]
        exact ih hI' h
      · obtain ⟨sorted, t, hstep, _, hnext, hreleases⟩ := hready.of_ok h
        obtain ⟨hI', hP⟩ := hfinal s k ms sorted t hstep hI
        obtain ⟨hout, hiff⟩ := ih hI' hnext
        refine ⟨hout, hiff.trans ?_⟩
        rw [hP, hreleases, List.forall_mem_cons, and_assoc]

omit [Crypto] in
/-- What every round of the output loop keeps. -/
theorem tryFinalize_rule {P : State → Prop}
    (hdrop : ∀ s k es, s.batches.entries = (k, ⟨[]⟩) :: es → P s →
      P { s with batches := s.batches.erase k })
    (hfinal : ∀ s k ms sorted s', Finalizes core (orders k) s k ms sorted s' → P s → P s')
    {fuel : ℕ} (hP : P s) (h : core.tryFinalizeBatches orders fuel s = .ok s') :
    P s' ∧ Settled s' :=
  (tryFinalize_iff (I := P) (P := fun _ => True) (C := fun _ => True)
    (fun s k es hentries hs => ⟨hdrop s k es hentries hs, Iff.rfl⟩)
    (fun s k ms sorted s' hstep hs => ⟨hfinal s k ms sorted s' hstep hs, by simp⟩) hP h).1

/-! ## §3. The rule for runs. -/

/-- What preserves a property through every operation.  It may refer to the batches
recorded before, and to the certificates recorded of the current one. -/
structure Inductive (core : MrvExecutor)
    (P : List CommittedSubDag → List Certificate → State → Prop) : Prop where
  new : P [] [] State.new
  register : ∀ bs cs c s s', P bs cs s → Registers core s c s' → P bs (cs ++ [c]) s'
  record : ∀ bs b σ s, P bs b.certificates s →
    P (bs ++ [b]) [] (core.applyWindowCap σ (s.enqueue b))
  drop : ∀ bs s k es, s.batches.entries = (k, ⟨[]⟩) :: es → P bs [] s →
    P bs [] { s with batches := s.batches.erase k }
  final : ∀ bs σ s k ms sorted s', Finalizes core σ s k ms sorted s' → P bs [] s → P bs [] s'

/-- The steps of `on_committed_batch`. -/
theorem next_eq_some {d : Delivery} (h : core.next s d = some s') :
    ∃ t, d.batch.certificates.foldlM (State.register core) s = some t ∧
      core.tryFinalizeBatches d.orders
        ((core.applyWindowCap (d.orders d.batch.batchIndex) (t.enqueue d.batch)).batches.entries.length
          + 1)
        (core.applyWindowCap (d.orders d.batch.batchIndex) (t.enqueue d.batch)) = .ok s' := by
  obtain ⟨t, ht⟩ := registerAll_total core d.batch.certificates s
  refine ⟨t, ht, ?_⟩
  unfold next onCommittedBatch record at h
  rw [ht] at h
  dsimp only [Option.map_some] at h
  generalize core.tryFinalizeBatches _ _ _ = result at h ⊢
  cases result with
  | error e => cases h
  | ok u => rw [Option.some.inj h]

variable {P : List CommittedSubDag → List Certificate → State → Prop}

theorem Inductive.recorded (hP : Inductive core P) (bs : List CommittedSubDag)
    {b : CommittedSubDag} {t : State} (h : P bs [] s)
    (hrun : b.certificates.foldlM (State.register core) s = some t) (σ : HashOrder) :
    P (bs ++ [b]) [] (core.applyWindowCap σ (t.enqueue b)) := by
  apply hP.record
  refine registerAll_rule (P := fun cs s => P bs cs s) ?_ h hrun
  intro pre c _ s s' _ hs hregisters
  exact hP.register bs pre c s s' hs hregisters

theorem Inductive.step (hP : Inductive core P) {bs : List CommittedSubDag} {d : Delivery}
    (h : P bs [] s) (hnext : core.next s d = some s') :
    P (bs ++ [d.batch]) [] s' ∧ Settled s' := by
  obtain ⟨r, hr, hloop⟩ := next_eq_some hnext
  exact tryFinalize_rule (P := P (bs ++ [d.batch]) []) (hP.drop _)
    (fun s k => hP.final _ (d.orders k) s k) (hP.recorded bs h hr _) hloop

/-- **The rule for runs.** -/
theorem Inductive.run (hP : Inductive core P) {es : History} (h : core.Run es s) :
    P (received es) [] s := by
  have hnew : P (received []) [] core.system.init := hP.new
  refine System.Run.invariant (P := fun es s => P (received es) [] s) hnew ?_ h
  intro es s d s' _ hs hnext
  exact (hP.step hs hnext).1

/-- Between two steps the batch of lowest index is not ready. -/
theorem Inductive.settled (hP : Inductive core P) {es : History} (h : core.Run es s) :
    Settled s := by
  cases h with
  | init => exact fun k ms es hcons => absurd hcons (List.cons_ne_nil _ _).symm
  | step h hnext => exact (hP.step (hP.run h) hnext).2

/-! ## §4. Recorded certificates. -/

/-- A state after a certificate was recorded. -/
theorem Registers.lookup_eq_some {c : Certificate} (h : Registers core s c s') {d : Digest}
    {st' : AufState} (hd : s'.aufStates.lookup d = some st') :
    ∃ st, (s.activate c.digest c.round).aufStates.lookup d = some st ∧
      (st' = st.see core.reachThreshold c.round c.origin ∨ st' = st) := by
  by_cases hsees : Sees s'.store (s'.activeFloorRound.getD c.round) c.digest d
  · rw [h.seen d hsees] at hd
    obtain ⟨st, hst, rfl⟩ := Option.map_eq_some_iff.mp hd
    exact ⟨st, hst, Or.inl rfl⟩
  · rw [h.unseen d hsees] at hd
    exact ⟨st', hd, Or.inr rfl⟩

/-- Recording a certificate preserves what new states have and seeing preserves. -/
theorem Registers.forall_states {c : Certificate} {Q : Digest → AufState → Prop}
    (h : Registers core s c s') (hnew : Q c.digest (AufState.new c.round))
    (hsee : ∀ d st, Q d st → Q d (st.see core.reachThreshold c.round c.origin))
    (hQ : ∀ d st, s.aufStates.lookup d = some st → Q d st) :
    ∀ d st, s'.aufStates.lookup d = some st → Q d st := by
  have hactive : ∀ d st, (s.activate c.digest c.round).aufStates.lookup d = some st → Q d st := by
    intro d st hst
    rw [lookup_activate] at hst
    split at hst
    · next hd =>
      rw [hd.1, ← Option.some.inj hst]
      exact hnew
    · exact hQ d st hst
  intro d st' hd
  obtain ⟨st, hst, rfl | rfl⟩ := h.lookup_eq_some hd
  · exact hsee d st (hactive d st hst)
  · exact hactive d st' hst

/-- A digest is active after a certificate was recorded: the certificate's and those that
were. -/
theorem Registers.active_iff {c : Certificate} (h : Registers core s c s') (d : Digest) :
    s'.aufStates.lookup d ≠ none ↔ d = c.digest ∨ s.aufStates.lookup d ≠ none := by
  have hbase : s'.aufStates.lookup d ≠ none ↔
      (s.activate c.digest c.round).aufStates.lookup d ≠ none := by
    by_cases hsees : Sees s'.store (s'.activeFloorRound.getD c.round) c.digest d
    · rw [h.seen d hsees, Ne, Option.map_eq_none_iff]
    · rw [h.unseen d hsees]
  rw [hbase, lookup_activate]
  by_cases hd : d = c.digest
  · subst hd
    by_cases hnone : s.aufStates.lookup c.digest = none
    · simp [hnone]
    · simp [hnone]
  · simp [hd]

omit [Crypto] in
theorem Finalizes.frame {σ : HashOrder} {k : ℕ} {ms sorted : List Digest}
    (h : Finalizes core σ s k ms sorted s') :
    s'.store = s.store ∧ s'.batches = s.batches.erase k ∧ s'.frontierRound = s.frontierRound ∧
      s'.txOutput = s.txOutput ++ sorted.filterMap s.store.lookup := by
  rw [h.result]
  exact releaseBatch_frame (s.sent sorted) σ k ms

omit [Crypto] in
theorem Finalizes.lookup {σ : HashOrder} {k : ℕ} {ms sorted : List Digest}
    (h : Finalizes core σ s k ms sorted s') (d : Digest) :
    s'.aufStates.lookup d = if d ∈ ms then none else s.aufStates.lookup d := by
  rw [h.result]
  exact lookup_releaseBatch (s.sent sorted) σ k ms d

omit [Crypto] in
/-- The states after a batch was output are among those before. -/
theorem Finalizes.lookup_of_some {σ : HashOrder} {k : ℕ} {ms sorted : List Digest}
    (h : Finalizes core σ s k ms sorted s') {d : Digest} {st : AufState}
    (hst : s'.aufStates.lookup d = some st) : s.aufStates.lookup d = some st := by
  rw [h.lookup] at hst
  split at hst
  · cases hst
  · exact hst

/-- What recording the batch itself leaves alone. -/
theorem recorded_frame (core : MrvExecutor) (σ : HashOrder) (s : State) (b : CommittedSubDag) :
    (core.applyWindowCap σ (s.enqueue b)).store = s.store ∧
      (core.applyWindowCap σ (s.enqueue b)).frontierRound = s.frontierRound ∧
      (core.applyWindowCap σ (s.enqueue b)).activeFloorRound = s.activeFloorRound ∧
      (core.applyWindowCap σ (s.enqueue b)).txOutput = s.txOutput := by
  unfold State.enqueue
  split
  · exact ⟨rfl, rfl, rfl, rfl⟩
  · exact ⟨rfl, rfl, rfl, rfl⟩

theorem recorded_lookup (core : MrvExecutor) (σ : HashOrder) (s : State) (b : CommittedSubDag)
    (d : Digest) :
    (core.applyWindowCap σ (s.enqueue b)).aufStates.lookup d =
      (s.aufStates.lookup d).map (core.capState s.frontierRound) := by
  rw [lookup_applyWindowCap]
  unfold State.enqueue
  split
  · rfl
  · rfl

/-- The batches pending once a batch is recorded. -/
theorem recorded_batches (core : MrvExecutor) (σ : HashOrder) (s : State) (b : CommittedSubDag) :
    (core.applyWindowCap σ (s.enqueue b)).batches =
      if members b ≠ [] then s.batches.insert b.batchIndex ⟨members b⟩ else s.batches := by
  unfold State.enqueue
  split
  · rfl
  · rfl

/-- **The rule for single states**: what new states have and seeing and capping preserve. -/
theorem inductive_states {Q : AufState → Prop} (hnew : ∀ round, Q (AufState.new round))
    (hsee : ∀ st round author, Q st → Q (st.see core.reachThreshold round author))
    (hcap : ∀ st frontierRound, Q st → Q (core.capState frontierRound st)) :
    Inductive core (fun _ _ s => ∀ d st, s.aufStates.lookup d = some st → Q st) where
  new := fun d st hst => absurd hst (by simp [State.new])
  register := fun _ cs c s s' hs h =>
    h.forall_states (Q := fun _ st => Q st) (hnew c.round) (fun _ st => hsee st c.round c.origin) hs
  record := by
    intro _ b σ s hs d st hst
    rw [recorded_lookup] at hst
    obtain ⟨st', hst', rfl⟩ := Option.map_eq_some_iff.mp hst
    exact hcap st' _ (hs d st' hst')
  drop := fun _ _ _ _ _ hs => hs
  final := fun _ _ _ _ _ _ _ h hs d st hst => hs d st (h.lookup_of_some hst)

/-! ## §5. What always holds. -/

/-- What holds in every state. -/
structure Sane (s : State) : Prop where
  digest : ∀ d c, s.store.lookup d = some c → c.digest = d
  frozen : ∀ d st, s.aufStates.lookup d = some st → st.Frozen
  stored : ∀ d, s.aufStates.lookup d ≠ none → s.store.lookup d ≠ none
  members : ∀ k b, s.batches.get k = some b → ∀ d ∈ b.members, s.store.lookup d ≠ none

theorem Registers.lookup_store {c : Certificate} (h : Registers core s c s') (d : Digest) :
    s'.store.lookup d = if d = c.digest then some c else s.store.lookup d := by
  rw [h.store, AList.lookup_insert_eq_ite]

/-- The store holds the certificates recorded so far, and the next one. -/
theorem stored_insert {store : HashMap Digest Certificate} {cs : List Certificate} {c : Certificate}
    (h : ∀ d x, store.lookup d = some x ↔ x ∈ cs ∧ x.digest = d) (hfresh : Fresh (cs ++ [c])) :
    ∀ d x, (store.insert c.digest c).lookup d = some x ↔ x ∈ cs ++ [c] ∧ x.digest = d := by
  intro d x
  rw [AList.lookup_insert_eq_ite, List.mem_append, List.mem_singleton]
  split
  · next hd =>
    subst hd
    constructor
    · intro heq
      exact ⟨Or.inr (Option.some.inj heq).symm, by rw [Option.some.inj heq]⟩
    · rintro ⟨hx, hdigest⟩
      -- no other certificate has this digest
      have hmem : x ∈ cs ++ [c] := List.mem_append.mpr (hx.imp_right List.mem_singleton.mpr)
      have hc : c ∈ cs ++ [c] := List.mem_append_right _ (List.mem_singleton.mpr rfl)
      rw [hfresh.eq_of_digest hmem hc hdigest]
  · next hne =>
    rw [h]
    constructor
    · exact fun hx => ⟨Or.inl hx.1, hx.2⟩
    · rintro ⟨hx | rfl, hdigest⟩
      · exact ⟨hx, hdigest⟩
      · exact absurd hdigest.symm hne

theorem Registers.sane {c : Certificate} (h : Registers core s c s') (hs : Sane s) : Sane s' := by
  have hkeep : ∀ d, s.store.lookup d ≠ none → s'.store.lookup d ≠ none := by
    intro d hd
    rw [h.lookup_store]
    split
    · exact Option.some_ne_none c
    · exact hd
  refine ⟨fun d x hx => ?_, ?_, fun d hd => ?_, fun k b hb d hd => ?_⟩
  · rw [h.lookup_store] at hx
    split at hx
    · next heq =>
      rw [← Option.some.inj hx]
      exact heq.symm
    · exact hs.digest d x hx
  · exact h.forall_states (Q := fun _ st => st.Frozen) (fun hmature => Bool.noConfusion hmature)
      (fun _ _ hst => hst.see _ _ _) hs.frozen
  · obtain rfl | hd := (h.active_iff d).mp hd
    · rw [h.lookup_store, if_pos rfl]
      exact Option.some_ne_none c
    · exact hkeep d (hs.stored d hd)
  · rw [h.batches] at hb
    exact hkeep d (hs.members k b hb d hd)

/-- `Sane`, and the certificates of the current batch are in store. -/
theorem inductive_sane (core : MrvExecutor) :
    Inductive core (fun _ cs s => Sane s ∧ ∀ c ∈ cs, s.store.lookup c.digest ≠ none) where
  new := by
    refine ⟨⟨?_, ?_, ?_, ?_⟩, by simp⟩
    · exact fun d c hc => absurd hc (by simp [State.new])
    · exact fun d st hst => absurd hst (by simp [State.new])
    · exact fun d hd => absurd (AList.lookup_empty d) hd
    · exact fun k b hb => absurd hb (by simp [State.new, BTreeMap.get])
  register := by
    intro _ cs c s s' hs h
    refine ⟨h.sane hs.1, fun x hx => ?_⟩
    rw [h.lookup_store]
    split
    · exact Option.some_ne_none c
    · next hne =>
      obtain hx | hx := List.mem_append.mp hx
      · exact hs.2 x hx
      · rw [List.mem_singleton.mp hx] at hne
        exact absurd rfl hne
  record := by
    intro _ b σ s hs
    -- a new batch lists certificates that were just stored
    obtain ⟨hstore, _, _, _⟩ := recorded_frame core σ s b
    refine ⟨⟨fun d c hc => ?_, fun d st hst => ?_, fun d hd => ?_, fun k x hx d hd => ?_⟩, by simp⟩
    · rw [hstore] at hc
      exact hs.1.digest d c hc
    · rw [recorded_lookup] at hst
      obtain ⟨st', hst', rfl⟩ := Option.map_eq_some_iff.mp hst
      exact (hs.1.frozen d st' hst').cap core _
    · rw [recorded_lookup, Ne, Option.map_eq_none_iff] at hd
      rw [hstore]
      exact hs.1.stored d hd
    · rw [hstore]
      rw [recorded_batches] at hx
      split at hx
      · rw [BTreeMap.get_insert] at hx
        split at hx
        · rw [← Option.some.inj hx] at hd
          obtain ⟨c, hc, rfl⟩ := List.mem_map.mp hd
          exact hs.2 c hc
        · exact hs.1.members k x hx d hd
      · exact hs.1.members k x hx d hd
  drop := by
    intro _ s k es _ hs
    refine ⟨⟨hs.1.digest, hs.1.frozen, hs.1.stored, fun k' b hb => ?_⟩, by simp⟩
    have hb' : (s.batches.erase k).get k' = some b := hb
    exact hs.1.members k' b (BTreeMap.get_erase_eq_some_iff.mp hb').2
  final := by
    intro _ σ s k ms sorted s' h hs
    obtain ⟨hstore, hbatches, _, _⟩ := h.frame
    refine ⟨⟨?_, ?_, ?_, ?_⟩, by simp⟩
    · rw [hstore]
      exact hs.1.digest
    · exact fun d st hst => hs.1.frozen d st (h.lookup_of_some hst)
    · intro d hd
      obtain ⟨st, hst⟩ := Option.ne_none_iff_exists'.mp hd
      rw [hstore]
      exact hs.1.stored d (by rw [h.lookup_of_some hst]; exact Option.some_ne_none st)
    · intro k' b hb
      rw [hbatches] at hb
      rw [hstore]
      exact hs.1.members k' b (BTreeMap.get_erase_eq_some_iff.mp hb).2

theorem Run.sane {es : History} (h : core.Run es s) : Sane s := ((inductive_sane core).run h).1

/-- What is in store was received. -/
theorem inductive_stored (core : MrvExecutor) :
    Inductive core (fun bs cs s =>
      ∀ d c, s.store.lookup d = some c → c ∈ certificates bs ++ cs) where
  new := fun d c hc => absurd hc (by simp [State.new])
  register := by
    intro bs cs c s s' hs h d x hx
    rw [← List.append_assoc, List.mem_append, List.mem_singleton]
    rw [h.lookup_store] at hx
    split at hx
    · exact Or.inr (Option.some.inj hx).symm
    · exact Or.inl (hs d x hx)
  record := by
    intro bs b σ s hs d x hx
    rw [(recorded_frame core σ s b).1] at hx
    simpa using hs d x hx
  drop := fun _ _ _ _ _ hs => hs
  final := by
    intro bs σ s k ms sorted s' h hs d x hx
    rw [h.frame.1] at hx
    exact hs d x hx

end MrvExecutor

end Mrv
