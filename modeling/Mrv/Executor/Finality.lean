/-
  Mrv.Executor.Finality — when batches are output, and what blocks them.

  A horizon is never ahead of the frontier, and after each step a state without one was
  active for less than the window (`finalizable_is_output`).  So the batch of lowest
  index waits for a member without horizon, and no longer than the window.

  This needs the states of pending members to be there.  They are as long as no batch is
  released while another one lists one of its digests, and not otherwise
  (`pending_active_iff`).
-/
import Mrv.Executor.Output

namespace Mrv

/-! ## §1. Horizons of single states. -/

namespace AufState

/-- The horizon is not ahead of the frontier; without a horizon, too few authors see the
certificate in each round. -/
structure Timely (st : AufState) (core : MrvExecutor) (frontierRound : ℕ) : Prop where
  horizon : ∀ h, st.horizon = some h → h ≤ frontierRound
  seen : st.horizon = none → ∀ r, ((st.seenByRound.get r).getD ∅).card < core.reachThreshold

/-- Without a horizon, the window is not over. -/
def Capped (st : AufState) (core : MrvExecutor) (frontierRound : ℕ) : Prop :=
  st.horizon = none → frontierRound < st.round + core.windowCap

variable {st : AufState} {core : MrvExecutor} {frontierRound : ℕ}

theorem Timely.mono {frontierRound' : ℕ} (h : Timely st core frontierRound)
    (hle : frontierRound ≤ frontierRound') : Timely st core frontierRound' :=
  ⟨fun k hk => (h.horizon k hk).trans hle, h.seen⟩

theorem Timely.new (hreach : 0 < core.reachThreshold) (round : ℕ) :
    Timely (AufState.new round) core frontierRound :=
  ⟨fun k hk => absurd hk (Option.some_ne_none k).symm, fun _ _ => hreach⟩

theorem Timely.see (h : Timely st core frontierRound) {round : ℕ} (hround : round ≤ frontierRound)
    (author : PublicKey) : Timely (st.see core.reachThreshold round author) core frontierRound := by
  have hget := get_see st core.reachThreshold round author
  unfold AufState.see at hget ⊢
  dsimp only at hget ⊢
  split
  · refine ⟨fun k hk => ?_, fun hnone => absurd hnone (Option.some_ne_none round)⟩
    rw [← Option.some.inj hk]
    exact hround
  · next hcond =>
    rw [if_neg hcond] at hget
    refine ⟨h.horizon, fun hnone r => ?_⟩
    rw [hget r]
    by_cases hr : r = round
    · subst hr
      rw [if_pos rfl]
      by_cases hmem : author ∈ (st.seenByRound.get r).getD ∅
      · rw [Finset.insert_eq_of_mem hmem]
        exact h.seen hnone r
      · by_contra hge
        exact hcond ⟨hmem, hnone, not_lt.mp hge⟩
    · rw [if_neg hr]
      exact h.seen hnone r

theorem Timely.cap (h : Timely st core frontierRound) :
    Timely (core.capState frontierRound st) core frontierRound ∧
      Capped (core.capState frontierRound st) core frontierRound := by
  unfold MrvExecutor.capState
  dsimp only
  split
  · next hsome => exact ⟨h, fun hnone => absurd hnone hsome⟩
  · next hnone =>
    rw [not_not] at hnone
    split
    · next hcap =>
      refine ⟨⟨fun k hk => ?_, fun hnone => absurd hnone (Option.some_ne_none _)⟩,
        fun hnone => absurd hnone (Option.some_ne_none _)⟩
      rw [← Option.some.inj hk]
      exact hcap
    · next hcap =>
      refine ⟨h, fun _ => ?_⟩
      have hle : saturatingAdd st.round core.windowCap ≤ st.round + core.windowCap :=
        min_le_left _ _
      omega

end AufState

namespace MrvExecutor

variable [Crypto] {core : MrvExecutor} {s s' : State}

/-! ## §2. Bounded delay. -/

/-- Every state is timely, and capped between the steps. -/
theorem inductive_timely (hreach : 0 < core.reachThreshold) :
    Inductive core (fun _ cs s =>
      (∀ d st, s.aufStates.lookup d = some st → st.Timely core s.frontierRound) ∧
      (cs = [] → ∀ d st, s.aufStates.lookup d = some st → st.Capped core s.frontierRound)) where
  new := by
    have hnone : ∀ d st, State.new.aufStates.lookup d ≠ some st := by
      intro d st hst
      exact absurd hst (by simp [State.new])
    exact ⟨fun d st hst => absurd hst (hnone d st), fun _ d st hst => absurd hst (hnone d st)⟩
  register := by
    intro _ cs c s s' hs h
    refine ⟨?_, fun hnil => absurd hnil (List.append_ne_nil_of_right_ne_nil _ (List.cons_ne_nil _ _))⟩
    rw [h.frontier]
    -- the frontier rises with the certificate, and no state falls behind
    apply h.forall_states (Q := fun _ st => st.Timely core (max s.frontierRound c.round))
    · exact AufState.Timely.new hreach c.round
    · exact fun _ st hst => hst.see (le_max_right _ _) c.origin
    · exact fun d st hst => (hs.1 d st hst).mono (le_max_left _ _)
  record := by
    intro _ b σ s hs
    obtain ⟨_, hfrontier, _, _⟩ := recorded_frame core σ s b
    rw [hfrontier]
    have hcap : ∀ d st, (core.applyWindowCap σ (s.enqueue b)).aufStates.lookup d = some st →
        st.Timely core s.frontierRound ∧ st.Capped core s.frontierRound := by
      intro d st hst
      rw [recorded_lookup] at hst
      obtain ⟨st', hst', rfl⟩ := Option.map_eq_some_iff.mp hst
      exact (hs.1 d st' hst').cap
    exact ⟨fun d st hst => (hcap d st hst).1, fun _ d st hst => (hcap d st hst).2⟩
  drop := fun _ _ _ _ _ hs => hs
  final := by
    intro _ σ s k ms sorted s' h hs
    rw [h.frame.2.2.1]
    exact ⟨fun d st hst => hs.1 d st (h.lookup_of_some hst),
      fun hnil d st hst => hs.2 hnil d st (h.lookup_of_some hst)⟩

omit [Crypto] in
theorem reachThreshold_spawn (committeeSize windowCap : ℕ) (capacity : Option ℕ) :
    0 < (spawn committeeSize windowCap capacity).reachThreshold :=
  Nat.succ_pos _

/-- The batch of lowest index waits for a member. -/
theorem waits_for_member {es : History} (hreach : 0 < core.reachThreshold)
    (hrun : core.Run es s) {k : ℕ} {batch : BatchState} {es' : List (ℕ × BatchState)}
    (hentries : s.batches.entries = (k, batch) :: es') :
    ∃ d ∈ batch.members, (s.aufStates.lookup d).bind AufState.horizon = none := by
  obtain ⟨ms⟩ := batch
  have htimely := ((inductive_timely hreach).run hrun).1
  apply batchHorizon_eq_none
  by_contra hsome
  obtain ⟨h, hh⟩ := Option.ne_none_iff_exists'.mp hsome
  have hlt := (inductive_timely hreach).settled hrun k ms es' hentries h hh
  have hle := batchHorizon_le hh fun d st k hst => (htimely d st hst).horizon k
  omega

/-- With fresh certificates the state of that member is there. -/
theorem waits_for_state {es : History} (hreach : 0 < core.reachThreshold) (hrun : core.Run es s)
    {done rest : List CommittedSubDag} {outs : List (List Certificate)}
    (hledger : Ledger (received es) [] s done rest outs) {k : ℕ} {batch : BatchState}
    {es' : List (ℕ × BatchState)} (hentries : s.batches.entries = (k, batch) :: es') :
    ∃ b ∈ rest, b.batchIndex = k ∧ ∃ c ∈ b.certificates, c.digest ∈ batch.members ∧
      ∃ st, s.aufStates.lookup c.digest = some st ∧ st.horizon = none ∧ st.round = c.round := by
  obtain ⟨d, hd, hnone⟩ := waits_for_member hreach hrun hentries
  have hmem : (k, batch) ∈ s.batches.entries := by
    rw [hentries]
    exact List.mem_cons_self
  rw [hledger.pending, List.mem_map] at hmem
  obtain ⟨b, hb, heq⟩ := hmem
  obtain ⟨rfl, rfl⟩ := Prod.mk.inj heq
  have hbrest := (List.mem_filter.mp hb).1
  obtain ⟨c, hc, rfl⟩ := List.mem_map.mp hd
  have hcrest : c ∈ certificates rest ++ [] := by
    rw [List.append_nil]
    exact List.mem_flatMap.mpr ⟨b, hbrest, hc⟩
  obtain ⟨st, hst⟩ := Option.ne_none_iff_exists'.mp
    ((hledger.active c.digest).mpr ⟨c, hcrest, rfl⟩)
  rw [hst] at hnone
  exact ⟨b, hbrest, rfl, c, hc, hd, st, hst, hnone, hledger.rounds c hcrest st hst⟩

/-- When the frontier is a window past a batch and those before it, only later batches are
pending. -/
theorem pending_after {es : History} (hreach : 0 < core.reachThreshold) (hrun : core.Run es s)
    (hincreasing : Increasing (received es)) {done rest : List CommittedSubDag}
    {outs : List (List Certificate)} (hledger : Ledger (received es) [] s done rest outs)
    {pre post : List CommittedSubDag} {b : CommittedSubDag}
    (hreceived : received es = pre ++ b :: post)
    (hpast : ∀ c ∈ certificates (pre ++ [b]), c.round + core.windowCap ≤ s.frontierRound) :
    ∀ k ∈ s.batches.keys, b.batchIndex < k := by
  intro k hk
  unfold BTreeMap.keys at hk
  have hsorted := s.batches.sorted
  cases hentries : s.batches.entries with
  | nil =>
      rw [hentries] at hk
      exact absurd hk List.not_mem_nil
  | cons e es' =>
      obtain ⟨k₀, batch⟩ := e
      obtain ⟨b₀, hb₀, rfl, c, hc, _, st, hst, hnone, hround⟩ :=
        waits_for_state hreach hrun hledger hentries
      have hwindow := ((inductive_timely hreach).run hrun).2 rfl _ st hst hnone
      rw [hround] at hwindow
      -- the first pending batch waits for a state whose window is not over
      have hpost : b₀ ∈ post := by
        have hmem : b₀ ∈ (pre ++ [b]) ++ post := by
          rw [List.append_assoc]
          show b₀ ∈ pre ++ b :: post
          rw [← hreceived, hledger.received]
          exact List.mem_append_right _ hb₀
        obtain hearly | hlate := List.mem_append.mp hmem
        · have hle := hpast c (List.mem_flatMap.mpr ⟨b₀, hearly, hc⟩)
          omega
        · exact hlate
      have hlt : b.batchIndex < b₀.batchIndex := by
        unfold Increasing at hincreasing
        rw [hreceived, List.map_append, List.pairwise_append, List.map_cons,
          List.pairwise_cons] at hincreasing
        exact hincreasing.2.1.1 _ (List.mem_map_of_mem hpost)
      rw [hentries, List.map_cons] at hk hsorted
      obtain rfl | hk := List.mem_cons.mp hk
      · exact hlt
      · exact hlt.trans ((List.pairwise_cons.mp hsorted).1 k hk)

/-- **No finalizable batch is withheld**: after each step a state has a horizon that is not
ahead of the frontier, or is seen by too few authors in every round and for less than the
window; the batch of lowest index has a member without horizon; and a batch is output once
the frontier is a window past all members of it and of the batches before it. -/
theorem finalizable_is_output (committeeSize windowCap : ℕ) (capacity : Option ℕ) {es : History}
    {s : State} (hrun : (spawn committeeSize windowCap capacity).Run es s)
    (hfresh : Fresh (certificates (received es))) (hincreasing : Increasing (received es)) :
    let core := spawn committeeSize windowCap capacity
    (∀ d st, s.aufStates.lookup d = some st →
      (∃ h, st.horizon = some h ∧ h ≤ s.frontierRound) ∨
      st.horizon = none ∧
        (∀ r seen, st.seenByRound.get r = some seen → seen.card < core.reachThreshold) ∧
        s.frontierRound < st.round + core.windowCap) ∧
    (∀ k batch es', s.batches.entries = (k, batch) :: es' →
      ∃ d ∈ batch.members, ∃ st, s.aufStates.lookup d = some st ∧ st.horizon = none) ∧
    ∀ pre b post, received es = pre ++ b :: post →
      (∀ c ∈ certificates (pre ++ [b]), c.round + core.windowCap ≤ s.frontierRound) →
      (∀ c ∈ b.certificates, c ∈ s.txOutput) ∧ b.batchIndex ∉ s.batches.keys := by
  have hreach := reachThreshold_spawn committeeSize windowCap capacity
  have hdelta := deltaThreshold_spawn committeeSize windowCap capacity
  obtain ⟨htimely, hcapped⟩ := (inductive_timely hreach).run hrun
  obtain ⟨done, rest, outs, hledger⟩ := hrun.ledger hdelta hfresh hincreasing
  refine ⟨fun d st hst => ?_, fun k batch es' hentries => ?_, fun pre b post hreceived hpast => ?_⟩
  · cases hhorizon : st.horizon with
    | some h => exact Or.inl ⟨h, rfl, (htimely d st hst).horizon h hhorizon⟩
    | none =>
        refine Or.inr ⟨rfl, fun r seen hseen => ?_, hcapped rfl d st hst hhorizon⟩
        have hcard := (htimely d st hst).seen hhorizon r
        rw [hseen, Option.getD_some] at hcard
        exact hcard
  · obtain ⟨_, _, _, c, _, hd, st, hst, hnone, _⟩ :=
      waits_for_state hreach hrun hledger hentries
    exact ⟨c.digest, hd, st, hst, hnone⟩
  · have hkeys := pending_after hreach hrun hincreasing hledger hreceived hpast
    refine ⟨fun c hc => ?_, fun hmem => lt_irrefl _ (hkeys _ hmem)⟩
    rw [hledger.output_perm.mem_iff]
    have hb : b ∈ received es := by
      rw [hreceived]
      simp
    have hcreceived : c ∈ certificates done ++ certificates rest := by
      rw [← certificates_append, ← hledger.received]
      exact List.mem_flatMap.mpr ⟨b, hb, hc⟩
    obtain hdone | hrest := List.mem_append.mp hcreceived
    · exact hdone
    · -- otherwise the batch of the certificate, which is `b`, would be pending
      exfalso
      obtain ⟨b', hb', hc'⟩ := List.mem_flatMap.mp hrest
      have hmem : b' ∈ received es := by
        rw [hledger.received]
        exact List.mem_append_right _ hb'
      obtain rfl : b' = b := hfresh.batch_eq hb hmem hc hc'
      have hne : members b' ≠ [] := List.ne_nil_of_mem (List.mem_map_of_mem hc')
      apply lt_irrefl _ (hkeys b'.batchIndex _)
      unfold BTreeMap.keys
      rw [hledger.pending, List.map_map]
      exact List.mem_map.mpr ⟨b', List.mem_filter.mpr ⟨hb', decide_eq_true hne⟩, rfl⟩

omit [Crypto] in
/-- One batch is output, the other waits. -/
theorem finalizable_is_output_sample :
    letI := sampleCrypto
    let core := spawn 4 1 none
    ∃ es s, core.Run es s ∧
      s.txOutput = [Certificate.sample 1 0 [], Certificate.sample 1 1 []] ∧
      (∀ d st, s.aufStates.lookup d = some st →
        (∃ h, st.horizon = some h ∧ h ≤ s.frontierRound) ∨
        st.horizon = none ∧
          (∀ r seen, st.seenByRound.get r = some seen → seen.card < core.reachThreshold) ∧
          s.frontierRound < st.round + core.windowCap) ∧
      (∀ k batch es', s.batches.entries = (k, batch) :: es' →
        ∃ d ∈ batch.members, ∃ st, s.aufStates.lookup d = some st ∧ st.horizon = none) ∧
      ∀ pre b post, received es = pre ++ b :: post →
        (∀ c ∈ certificates (pre ++ [b]), c.round + core.windowCap ≤ s.frontierRound) →
        (∀ c ∈ b.certificates, c ∈ s.txOutput) ∧ b.batchIndex ∉ s.batches.keys := by
  let _ := sampleCrypto
  obtain ⟨es, s, hrun, hfresh, hincreasing, houtput⟩ := exists_twoBatchesRun
  exact ⟨es, s, hrun, houtput, finalizable_is_output 4 1 none hrun hfresh hincreasing⟩

/-! ## §3. Repeated certificates. -/

/-- Every digest listed in a pending batch has a state. -/
def PendingActive (s : State) : Prop :=
  ∀ k batch, s.batches.get k = some batch → ∀ d ∈ batch.members, s.aufStates.lookup d ≠ none

/-- No other pending batch lists a digest of the batch released. -/
def Release.Apart (r : Release) : Prop :=
  ∀ k batch, r.state.batches.get k = some batch → k ≠ r.index →
    ∀ d ∈ r.members, d ∉ batch.members

omit [Crypto] in
/-- **A release keeps the states of pending members exactly when it is apart from them.** -/
theorem pendingActive_iff_release {σ : HashOrder} {k : ℕ} {ms sorted : List Digest}
    (h : Finalizes core σ s k ms sorted s') :
    PendingActive s' ↔ PendingActive s ∧ Release.Apart ⟨s, k, ms⟩ := by
  obtain ⟨es, hentries⟩ := h.head
  obtain ⟨r, hready, _⟩ := h.ready
  have hhead : s.batches.get k = some ⟨ms⟩ := BTreeMap.get_head hentries
  have hget : ∀ k' batch, s'.batches.get k' = some batch ↔
      k' ≠ k ∧ s.batches.get k' = some batch := by
    intro k' batch
    rw [h.frame.2.1, BTreeMap.get_erase_eq_some_iff]
  constructor
  · intro hs'
    refine ⟨fun k' batch hbatch d hd => ?_, fun k' batch hbatch hk d hd hlisted => ?_⟩
    · by_cases hk : k' = k
      · -- a batch that is ready has all its states
        subst hk
        rw [← Option.some.inj (hhead.symm.trans hbatch)] at hd
        obtain ⟨st, _, hst, _⟩ := batchHorizon_eq_some hready d hd
        rw [hst]
        exact Option.some_ne_none st
      · have hactive := hs' k' batch ((hget k' batch).mpr ⟨hk, hbatch⟩) d hd
        rw [h.lookup] at hactive
        split at hactive
        · exact absurd rfl hactive
        · exact hactive
    · have hactive := hs' k' batch ((hget k' batch).mpr ⟨hk, hbatch⟩) d hlisted
      rw [h.lookup, if_pos hd] at hactive
      exact hactive rfl
  · rintro ⟨hs, hapart⟩ k' batch hbatch d hd
    -- the release removed only members of its own batch
    obtain ⟨hk, hbatch⟩ := (hget k' batch).mp hbatch
    rw [h.lookup, if_neg fun hms => hapart k' batch hbatch hk d hms hd]
    exact hs k' batch hbatch d hd

omit [Crypto] in
theorem pendingActive_drop {k : ℕ} {es : List (ℕ × BatchState)}
    (hentries : s.batches.entries = (k, ⟨[]⟩) :: es) :
    PendingActive { s with batches := s.batches.erase k } ↔ PendingActive s := by
  have hhead : s.batches.get k = some ⟨[]⟩ := BTreeMap.get_head hentries
  constructor
  · intro h k' batch hbatch d hd
    by_cases hk : k' = k
    · subst hk
      rw [← Option.some.inj (hhead.symm.trans hbatch)] at hd
      exact absurd hd List.not_mem_nil
    · exact h k' batch (BTreeMap.get_erase_eq_some_iff.mpr ⟨hk, hbatch⟩) d hd
  · intro h k' batch hbatch d hd
    exact h k' batch (BTreeMap.get_erase_eq_some_iff.mp hbatch).2 d hd

/-- Recording a batch keeps the states of pending members. -/
theorem PendingActive.record (hs : PendingActive s) {batch : CommittedSubDag} {t : State}
    (hrun : batch.certificates.foldlM (State.register core) s = some t) (σ : HashOrder) :
    PendingActive (core.applyWindowCap σ (t.enqueue batch)) := by
  have hloop : PendingActive t ∧ ∀ c ∈ batch.certificates, t.aufStates.lookup c.digest ≠ none := by
    refine registerAll_rule (P := fun cs t => PendingActive t ∧
      ∀ c ∈ cs, t.aufStates.lookup c.digest ≠ none) ?_ ⟨hs, by simp⟩ hrun
    intro pre c _ u u' _ hu hregisters
    refine ⟨fun k b hb d hd => ?_, fun x hx => ?_⟩
    · rw [hregisters.batches] at hb
      exact (hregisters.active_iff d).mpr (Or.inr (hu.1 k b hb d hd))
    · rw [hregisters.active_iff]
      obtain hx | hx := List.mem_append.mp hx
      · exact Or.inr (hu.2 x hx)
      · rw [List.mem_singleton.mp hx]
        exact Or.inl rfl
  intro k b hb d hd
  rw [recorded_lookup, Ne, Option.map_eq_none_iff]
  rw [recorded_batches] at hb
  split at hb
  · rw [BTreeMap.get_insert] at hb
    split at hb
    · rw [← Option.some.inj hb] at hd
      obtain ⟨c, hc, rfl⟩ := List.mem_map.mp hd
      exact hloop.2 c hc
    · exact hloop.1 k b hb d hd
  · exact hloop.1 k b hb d hd

theorem pendingActive_iff_step (hs : PendingActive s) {d : Delivery}
    (hnext : core.next s d = some s') :
    PendingActive s' ↔ ∀ r ∈ core.releasesOf s d, r.Apart := by
  obtain ⟨t, ht, hloop⟩ := next_eq_some hnext
  have hiff := (tryFinalize_iff (I := fun _ => True) (P := PendingActive) (C := Release.Apart)
    (fun s k es hentries _ => ⟨trivial, pendingActive_drop hentries⟩)
    (fun s k ms sorted s' hstep _ => ⟨trivial, pendingActive_iff_release hstep⟩) trivial hloop).2
  rw [hiff, and_iff_right (hs.record ht _)]
  unfold releasesOf MrvExecutor.record
  rw [ht]
  rfl

/-- **When pending batches stay finalizable**: every digest listed in a pending batch has a
state throughout a run exactly when no batch is released while another pending batch lists
one of its digests. -/
theorem pending_active_iff {es : History} (hrun : core.Run es s) :
    (PendingActive s ∧ ∀ t d, (t, d) ∈ es → PendingActive t) ↔
      ∀ t d, (t, d) ∈ es → ∀ r ∈ core.releasesOf t d, r.Apart := by
  have hinit : PendingActive core.system.init := by
    intro k b hb
    exact absurd hb (by simp [system, State.new, BTreeMap.get])
  exact System.Run.forall_iff (I := PendingActive)
    (C := fun t d => ∀ r ∈ core.releasesOf t d, r.Apart) (D := fun _ => True) hinit
    (fun _ _ _ _ _ => trivial) (fun _ _ _ _ _ hnext _ hs => pendingActive_iff_step hs hnext)
    hrun trivial

omit [Crypto] in
/-- Two batches are released apart. -/
theorem pending_active_iff_sample :
    letI := sampleCrypto
    ∃ es s, (spawn 4 1 none).Run es s ∧
      s.txOutput = [Certificate.sample 1 0 [], Certificate.sample 1 1 []] ∧
      ((PendingActive s ∧ ∀ t d, (t, d) ∈ es → PendingActive t) ↔
        ∀ t d, (t, d) ∈ es → ∀ r ∈ (spawn 4 1 none).releasesOf t d, r.Apart) := by
  let _ := sampleCrypto
  obtain ⟨es, s, hrun, _, _, houtput⟩ := exists_twoBatchesRun
  exact ⟨es, s, hrun, houtput, pending_active_iff hrun⟩

omit [Crypto] in
set_option maxRecDepth 10000 in
theorem exists_repeatedRun :
    letI := sampleCrypto
    ∃ es s, (spawn 4 1 none).Run es s ∧ Increasing (received es) ∧
      (∃ batch, s.batches.get 1 = some batch ∧ sampleDigest 1 0 ∈ batch.members) ∧
      s.aufStates.lookup (sampleDigest 1 0) = none :=
  let _ := sampleCrypto
  let ⟨es, s, hrun, hcheck⟩ := System.exec_check (spawn 4 1 none).system
    [sampleDelivery 0 [Certificate.sample 1 0 []],
      sampleDelivery 1 [Certificate.sample 1 0 [], Certificate.sample 2 1 [0]]]
    (fun es s => decide (Increasing (received es) ∧
      (s.batches.get 1).any (fun batch => decide (sampleDigest 1 0 ∈ batch.members)) = true ∧
      s.aufStates.lookup (sampleDigest 1 0) = none)) (by decide +kernel)
  have h := of_decide_eq_true hcheck
  let ⟨batch, hget, hmem⟩ := (Option.any_eq_true _ _).mp h.2.1
  ⟨es, s, hrun, h.1, ⟨batch, hget, of_decide_eq_true hmem⟩, h.2.2⟩

omit [Crypto] in
/-- A certificate comes again while it is pending; the release of its first batch takes the
state that its second batch waits for. -/
theorem pending_inactive :
    letI := sampleCrypto
    ¬ ∀ es s, (spawn 4 1 none).Run es s → Increasing (received es) → PendingActive s := by
  let _ := sampleCrypto
  intro hclaim
  obtain ⟨es, s, hrun, hincreasing, ⟨batch, hget, hmem⟩, hnone⟩ := exists_repeatedRun
  exact hclaim es s hrun hincreasing 1 batch hget _ hmem hnone

end MrvExecutor

end Mrv
