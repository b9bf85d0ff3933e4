/-
  Mrv.Executor.Output — every batch is output once and in order.

  `Ledger` describes a state by the batches received: those output so far are a prefix,
  what was sent is one permutation of each, the pending batches are the others, and
  exactly the certificates of the others are active.  It needs fresh certificates and
  increasing indices; that the executor never stops (`next_total`) needs neither.
-/
import Mrv.Executor.Linear

namespace Mrv

variable [Crypto]

namespace MrvExecutor

variable {core : MrvExecutor} {s s' : State}

/-! ## §1. The executor does not stop. -/

/-- A batch that is ready is output. -/
theorem finalize_ok (hdelta : 0 < core.deltaThreshold) (hcapacity : core.capacity = none)
    (hs : Sane s) (σ : HashOrder) {k : ℕ} {ms : List Digest} {es : List (ℕ × BatchState)}
    (hentries : s.batches.entries = (k, ⟨ms⟩) :: es) :
    ∃ s' sorted, core.finalize σ s k ms = .ok s' ∧ core.sortBatch s σ ms = some sorted ∧
      s' = (s.sent sorted).releaseBatch σ k ms := by
  have hget : s.batches.get k = some ⟨ms⟩ := BTreeMap.get_head hentries
  obtain ⟨blocks, hsort, _⟩ := sortBatch_spec hdelta hs.frozen σ (hs.members k ⟨ms⟩ hget)
  exact ⟨_, blocks.flatten, finalize_total hcapacity hsort, hsort, rfl⟩

/-- A batch that was output was linearised. -/
theorem Finalizes.linearises (hdelta : 0 < core.deltaThreshold) (hs : Sane s) {σ : HashOrder}
    {k : ℕ} {ms sorted : List Digest} (h : Finalizes core σ s k ms sorted s') :
    ∃ blocks, sorted = blocks.flatten ∧ core.Linearises s ms blocks := by
  obtain ⟨es, hentries⟩ := h.head
  have hget : s.batches.get k = some ⟨ms⟩ := BTreeMap.get_head hentries
  obtain ⟨blocks, hsort, hlin⟩ := sortBatch_spec hdelta hs.frozen σ (hs.members k ⟨ms⟩ hget)
  exact ⟨blocks, Option.some.inj (h.sorts.symm.trans hsort), hlin⟩

theorem tryFinalize_total (hdelta : 0 < core.deltaThreshold) (hcapacity : core.capacity = none)
    (orders : ℕ → HashOrder) (hs : Sane s) {fuel : ℕ}
    (hfuel : s.batches.entries.length < fuel) :
    ∃ s', core.tryFinalizeBatches orders fuel s = .ok s' := by
  induction fuel generalizing s with
  | zero => exact absurd hfuel (Nat.not_lt_zero _)
  | succ fuel ih =>
      obtain hsettled | ⟨k, es, hentries⟩ | ⟨k, ms, hready⟩ := front_cases s
      · exact ⟨s, (tryFinalize_settled core orders fuel hsettled).1⟩
      · rw [(tryFinalize_drop core orders fuel hentries).1]
        have hsane := ((inductive_sane core).drop [] s k es hentries ⟨hs, by simp⟩).1
        apply ih hsane
        show (s.batches.erase k).entries.length < fuel
        rw [BTreeMap.entries_erase_head hentries]
        rw [hentries, List.length_cons] at hfuel
        omega
      · obtain ⟨es, hentries⟩ := hready.head
        obtain ⟨t, sorted, hfinal, hsort, ht⟩ := finalize_ok hdelta hcapacity hs (orders k) hentries
        rw [(hready.tryFinalize core orders fuel).1, hfinal]
        have hstep : Finalizes core (orders k) s k ms sorted t :=
          ⟨hready.head, hready.horizon, hsort, ht⟩
        have hsane := ((inductive_sane core).final [] _ s k ms sorted t hstep ⟨hs, by simp⟩).1
        apply ih hsane
        rw [hstep.frame.2.1, BTreeMap.entries_erase_head hentries]
        rw [hentries, List.length_cons] at hfuel
        omega

/-- **A live receiver keeps the executor going**: every batch is processed. -/
theorem next_total (hdelta : 0 < core.deltaThreshold) (hcapacity : core.capacity = none)
    {es : History} (hrun : core.Run es s) (d : Delivery) : ∃ s', core.next s d = some s' := by
  obtain ⟨t, ht⟩ := registerAll_total core d.batch.certificates s
  have hsane :=
    ((inductive_sane core).recorded (received es) ((inductive_sane core).run hrun) ht (d.orders d.batch.batchIndex)).1
  obtain ⟨s', hs'⟩ := tryFinalize_total hdelta hcapacity d.orders hsane (Nat.lt_succ_self _)
  refine ⟨s', ?_⟩
  unfold next onCommittedBatch record
  rw [ht]
  show (core.tryFinalizeBatches d.orders _ _).toOption = _
  rw [hs']
  rfl

/-! ## §2. The ledger. -/

/-- A state, described by the batches that were output and those that were not. -/
structure Ledger (bs : List CommittedSubDag) (cs : List Certificate) (s : State)
    (done rest : List CommittedSubDag) (outs : List (List Certificate)) : Prop where
  received : bs = done ++ rest
  output : s.txOutput = outs.flatten
  permuted : List.Forall₂ (fun out b => out.Perm b.certificates) outs done
  pending : s.batches.entries =
    (rest.filter (fun b => decide (members b ≠ []))).map (fun b => (b.batchIndex, ⟨members b⟩))
  active : ∀ d, s.aufStates.lookup d ≠ none ↔ ∃ c ∈ certificates rest ++ cs, c.digest = d
  stored : ∀ d c, s.store.lookup d = some c ↔ c ∈ certificates bs ++ cs ∧ c.digest = d
  rounds : ∀ c ∈ certificates rest ++ cs, ∀ st, s.aufStates.lookup c.digest = some st →
    st.round = c.round

variable {bs done rest : List CommittedSubDag} {cs : List Certificate}
  {outs : List (List Certificate)} {b : CommittedSubDag}

theorem Ledger.register {c : Certificate} (h : Ledger bs cs s done rest outs)
    (hstep : Registers core s c s') (hfresh : Fresh (certificates bs ++ (cs ++ [c]))) :
    Ledger bs (cs ++ [c]) s' done rest outs := by
  have hnew : ∀ x ∈ certificates rest ++ cs, x.digest ≠ c.digest := by
    intro x hx
    rw [← List.append_assoc] at hfresh
    apply hfresh.ne_of_append
    rw [h.received, certificates_append]
    simp only [List.mem_append] at hx ⊢
    tauto
  -- the new digest has no state, so `activate` gives it one
  have hinactive : s.aufStates.lookup c.digest = none := by
    by_contra hactive
    obtain ⟨x, hx, heq⟩ := (h.active c.digest).mp hactive
    exact hnew x hx heq
  refine ⟨h.received, ?_, h.permuted, ?_, fun d => ?_, fun d x => ?_, fun x hx st hst => ?_⟩
  · rw [hstep.txOutput]
    exact h.output
  · rw [hstep.batches]
    exact h.pending
  · rw [hstep.active_iff, h.active, ← List.append_assoc]
    simp only [List.mem_append, List.mem_singleton, or_and_right, exists_or, exists_eq_left]
    rw [or_comm, eq_comm]
  · rw [← List.append_assoc] at hfresh ⊢
    rw [hstep.store]
    exact stored_insert h.stored hfresh d x
  · obtain ⟨st', hst', hsee⟩ := hstep.lookup_eq_some hst
    -- the traversal leaves the round of a state alone
    have hround : st.round = st'.round := by
      obtain rfl | rfl := hsee
      · exact AufState.round_see _ _ _ _
      · rfl
    rw [lookup_activate] at hst'
    rw [hround]
    split at hst'
    · next hd =>
      rw [← Option.some.inj hst']
      rw [← List.append_assoc, List.mem_append, List.mem_singleton] at hx
      obtain hx | rfl := hx
      · exact absurd hd.1 (hnew x hx)
      · rfl
    · next hd =>
      rw [← List.append_assoc, List.mem_append, List.mem_singleton] at hx
      obtain hx | rfl := hx
      · exact h.rounds x hx st' hst'
      · exact absurd ⟨rfl, hinactive⟩ hd

theorem Ledger.record (h : Ledger bs b.certificates s done rest outs)
    (hincreasing : Increasing (bs ++ [b])) (σ : HashOrder) :
    Ledger (bs ++ [b]) [] (core.applyWindowCap σ (s.enqueue b)) done (rest ++ [b]) outs := by
  obtain ⟨hstore, _, _, houtput⟩ := recorded_frame core σ s b
  refine ⟨?_, ?_, h.permuted, ?_, fun d => ?_, fun d x => ?_, fun x hx st hst => ?_⟩
  · rw [h.received, List.append_assoc]
  · rw [houtput]
    exact h.output
  · rw [recorded_batches, List.filter_append, List.map_append, ← h.pending]
    split
    · next hne =>
      rw [List.filter_cons_of_pos (by simpa using hne)]
      -- the index of the new batch is above all pending ones
      apply BTreeMap.entries_insert
      intro k hk
      unfold BTreeMap.keys at hk
      rw [h.pending, List.map_map, List.mem_map] at hk
      obtain ⟨b', hb', rfl⟩ := hk
      have hb'' : b' ∈ bs := by
        rw [h.received]
        exact List.mem_append_right _ (List.mem_filter.mp hb').1
      unfold Increasing at hincreasing
      rw [List.map_append, List.pairwise_append] at hincreasing
      exact hincreasing.2.2 b'.batchIndex (List.mem_map_of_mem hb'') b.batchIndex (by simp)
    · next hempty =>
      rw [List.filter_cons_of_neg (by simpa using hempty)]
      simp
  · rw [recorded_lookup, Ne, Option.map_eq_none_iff, ← Ne, h.active]
    simp
  · rw [hstore, h.stored]
    simp
  · rw [recorded_lookup] at hst
    obtain ⟨st', hst', rfl⟩ := Option.map_eq_some_iff.mp hst
    rw [round_capState]
    apply h.rounds x _ st' hst'
    simpa using hx

/-- The certificates of a batch, from its digests in store. -/
theorem filterMap_members {store : HashMap Digest Certificate}
    (h : ∀ c ∈ b.certificates, store.lookup c.digest = some c) :
    (members b).filterMap store.lookup = b.certificates := by
  have hmap : (members b).filterMap store.lookup =
      b.certificates.filterMap (fun c => store.lookup c.digest) := by
    unfold members
    rw [List.filterMap_map]
    rfl
  rw [hmap, List.filterMap_congr h, List.filterMap_some]

/-- The pending batch of lowest index is the first one with members of those not output. -/
theorem Ledger.head (h : Ledger bs cs s done rest outs) {k : ℕ} {ms : List Digest}
    {es : List (ℕ × BatchState)} (hentries : s.batches.entries = (k, ⟨ms⟩) :: es) :
    ∃ empties b rest', rest = empties ++ b :: rest' ∧ (∀ x ∈ empties, x.certificates = []) ∧
      members b = ms ∧ es = (rest'.filter (fun b => decide (members b ≠ []))).map
        (fun b => (b.batchIndex, ⟨members b⟩)) := by
  have hpending := h.pending
  rw [hentries, eq_comm, List.map_eq_cons_iff] at hpending
  obtain ⟨b, bs', hfilter, hb, hes⟩ := hpending
  obtain ⟨_, hms⟩ := Prod.mk.inj hb
  obtain ⟨empties, rest', hrest, hempties, _, hbs'⟩ := List.filter_eq_cons_iff.mp hfilter
  refine ⟨empties, b, rest', hrest, fun x hx => ?_, congrArg BatchState.members hms, ?_⟩
  · have hempty := hempties x hx
    simpa [members] using hempty
  · rw [hbs', hes]

section

variable {empties rest' : List CommittedSubDag}

omit [Crypto] in
/-- The certificates of the batches that wait, the first of which is output next. -/
theorem certificates_split (hrest : rest = empties ++ b :: rest')
    (hnone : ∀ x ∈ empties, x.certificates = []) :
    certificates rest = b.certificates ++ certificates rest' := by
  have hempty : certificates empties = [] := by
    unfold certificates
    rw [List.flatMap_eq_nil_iff]
    exact hnone
  rw [hrest, certificates_append, certificates_cons, hempty, List.nil_append]

theorem Ledger.certificates_front (h : Ledger bs cs s done rest outs)
    (hrest : rest = empties ++ b :: rest') (hnone : ∀ x ∈ empties, x.certificates = []) :
    certificates bs = (certificates done ++ b.certificates) ++ certificates rest' := by
  rw [h.received, certificates_append, certificates_split hrest hnone, List.append_assoc]

/-- What is sent for a batch are its certificates. -/
theorem Ledger.sends_perm (h : Ledger bs [] s done rest outs) (hdelta : 0 < core.deltaThreshold)
    (hsane : Sane s) (hb : b.certificates ⊆ certificates bs) (hnodup : (members b).Nodup)
    {σ : HashOrder} {k : ℕ} {sorted : List Digest}
    (hstep : Finalizes core σ s k (members b) sorted s') :
    (sorted.filterMap s.store.lookup).Perm b.certificates := by
  have hlookup : ∀ c ∈ b.certificates, s.store.lookup c.digest = some c := by
    intro c hc
    rw [h.stored, List.append_nil]
    exact ⟨hb hc, rfl⟩
  obtain ⟨blocks, rfl, hlin⟩ := hstep.linearises hdelta hsane
  rw [← filterMap_members hlookup]
  exact (hlin.perm hnodup).filterMap _

/-- After the release the certificates of the later batches are active. -/
theorem Ledger.active_release (h : Ledger bs [] s done rest outs)
    (hrest : certificates rest = b.certificates ++ certificates rest')
    (hfresh : Fresh (b.certificates ++ certificates rest')) (d : Digest) :
    (if d ∈ members b then none else s.aufStates.lookup d) ≠ none ↔
      ∃ c ∈ certificates rest', c.digest = d := by
  have hactive := h.active d
  rw [List.append_nil, hrest] at hactive
  split
  · next hd =>
    -- a digest of the batch is not one of the batches after it
    obtain ⟨x, hx, rfl⟩ := List.mem_map.mp hd
    refine iff_of_false (fun hne => hne rfl) ?_
    rintro ⟨y, hy, heq⟩
    exact hfresh.apart hx hy heq.symm
  · next hd =>
    rw [hactive]
    constructor
    · rintro ⟨x, hx, rfl⟩
      obtain hx | hx := List.mem_append.mp hx
      · exact absurd (List.mem_map_of_mem hx) hd
      · exact ⟨x, hx, rfl⟩
    · rintro ⟨x, hx, rfl⟩
      exact ⟨x, List.mem_append_right _ hx, rfl⟩

end

theorem Ledger.final (hdelta : 0 < core.deltaThreshold) (hsane : Sane s)
    (h : Ledger bs [] s done rest outs) (hfresh : Fresh (certificates bs)) {σ : HashOrder} {k : ℕ}
    {ms sorted : List Digest} (hstep : Finalizes core σ s k ms sorted s') :
    ∃ done' rest' outs', Ledger bs [] s' done' rest' outs' := by
  obtain ⟨es, hentries⟩ := hstep.head
  obtain ⟨hstore, hbatches, _, houtput⟩ := hstep.frame
  obtain ⟨empties, b, rest', hrest, hnone, rfl, hes⟩ := h.head hentries
  have hsplit : certificates rest = b.certificates ++ certificates rest' :=
    certificates_split hrest hnone
  have hfront := h.certificates_front hrest hnone
  rw [hfront] at hfresh
  have hbatch : Fresh (certificates done ++ b.certificates) := hfresh.of_append
  -- no certificate of the batch is in a later one
  have hlater : Fresh (b.certificates ++ certificates rest') := by
    rw [List.append_assoc] at hfresh
    unfold Fresh at hfresh
    rw [List.map_append] at hfresh
    exact hfresh.of_append_right
  have hnodup : (members b).Nodup := by
    unfold Fresh at hbatch
    rw [List.map_append] at hbatch
    exact hbatch.of_append_right
  have hmem : b.certificates ⊆ certificates bs := by
    intro c hc
    rw [hfront]
    simp [hc]
  refine ⟨done ++ empties ++ [b], rest', outs ++ empties.map (fun _ => []) ++
    [sorted.filterMap s.store.lookup], ?_, ?_, ?_, ?_, fun d => ?_, fun d x => ?_,
    fun x hx st hst => ?_⟩
  · rw [h.received, hrest]
    simp
  · rw [houtput, h.output]
    simp
  · apply List.rel_append
    · apply List.rel_append h.permuted
      rw [List.forall₂_map_left_iff, List.forall₂_same]
      intro x hx
      rw [hnone x hx]
    · exact List.Forall₂.cons (h.sends_perm hdelta hsane hmem hnodup hstep) List.Forall₂.nil
  · rw [hbatches, BTreeMap.entries_erase_head hentries, hes]
  · rw [hstep.lookup, List.append_nil]
    exact h.active_release hsplit hlater d
  · rw [hstore]
    exact h.stored d x
  · refine h.rounds x ?_ st (hstep.lookup_of_some hst)
    rw [List.append_nil] at hx ⊢
    rw [hsplit]
    exact List.mem_append_right _ hx

/-- A fresh certificate is in one batch. -/
theorem Fresh.batch_eq (h : Fresh (certificates bs)) {b b' : CommittedSubDag} (hb : b ∈ bs)
    (hb' : b' ∈ bs) {c : Certificate} (hc : c ∈ b.certificates) (hc' : c ∈ b'.certificates) :
    b' = b := by
  have hnd : (certificates bs).Nodup := h.of_map _
  have hdisjoint := (List.nodup_flatMap.mp hnd).2
  by_contra hne
  have hsymm : Std.Symm (Function.onFun List.Disjoint CommittedSubDag.certificates) :=
    ⟨fun _ _ hab => hab.symm⟩
  exact hdisjoint.forall hb' hb hne hc' hc

/-- What was sent are the certificates of the batches that were output. -/
theorem Ledger.output_perm (h : Ledger bs cs s done rest outs) :
    s.txOutput.Perm (certificates done) := by
  rw [h.output]
  have hpermuted := h.permuted
  clear h
  induction hpermuted with
  | nil => exact List.Perm.refl _
  | cons hout _ ih => exact hout.append ih

/-- Fresh certificates in batches of increasing index. -/
structure Orderly (bs : List CommittedSubDag) (cs : List Certificate) : Prop where
  fresh : Fresh (certificates bs ++ cs)
  increasing : Increasing bs

/-- Every state has a ledger. -/
theorem inductive_ledger (hdelta : 0 < core.deltaThreshold) :
    Inductive core (fun bs cs s => (Sane s ∧ ∀ c ∈ cs, s.store.lookup c.digest ≠ none) ∧
      (Orderly bs cs → ∃ done rest outs, Ledger bs cs s done rest outs)) where
  new := by
    refine ⟨(inductive_sane core).new, fun _ => ⟨[], [], [], rfl, rfl, .nil, rfl, ?_, ?_, ?_⟩⟩
    · simp [State.new]
    · simp [State.new]
    · simp
  register := by
    intro bs cs c s s' hs h
    refine ⟨(inductive_sane core).register bs cs c s s' hs.1 h, fun horderly => ?_⟩
    have hfresh := horderly.fresh
    rw [← List.append_assoc] at hfresh
    obtain ⟨done, rest, outs, hledger⟩ := hs.2 ⟨hfresh.of_append, horderly.increasing⟩
    exact ⟨done, rest, outs, hledger.register h horderly.fresh⟩
  record := by
    intro bs b σ s hs
    refine ⟨(inductive_sane core).record bs b σ s hs.1, fun horderly => ?_⟩
    have hincreasing : Increasing bs := by
      have hall := horderly.increasing
      unfold Increasing at hall
      rw [List.map_append, List.pairwise_append] at hall
      exact hall.1
    have hfresh : Fresh (certificates bs ++ b.certificates) := by
      have hall := horderly.fresh
      simpa using hall
    obtain ⟨done, rest, outs, hledger⟩ := hs.2 ⟨hfresh, hincreasing⟩
    exact ⟨done, rest ++ [b], outs, hledger.record horderly.increasing σ⟩
  drop := by
    intro bs s k es hentries hs
    refine ⟨(inductive_sane core).drop bs s k es hentries hs.1, fun horderly => ?_⟩
    obtain ⟨done, rest, outs, hledger⟩ := hs.2 horderly
    -- pending batches have members
    have hpending := hledger.pending
    rw [hentries, eq_comm, List.map_eq_cons_iff] at hpending
    obtain ⟨b, _, hfilter, hb, _⟩ := hpending
    have hmem : b ∈ rest.filter (fun b => decide (members b ≠ [])) := by
      rw [hfilter]
      exact List.mem_cons_self
    have hne := of_decide_eq_true (List.mem_filter.mp hmem).2
    exact absurd (congrArg (fun e => e.2.members) hb) hne
  final := by
    intro bs σ s k ms sorted s' h hs
    refine ⟨(inductive_sane core).final bs σ s k ms sorted s' h hs.1, fun horderly => ?_⟩
    obtain ⟨done, rest, outs, hledger⟩ := hs.2 horderly
    have hfresh := horderly.fresh
    rw [List.append_nil] at hfresh
    exact hledger.final hdelta hs.1.1 hfresh h

theorem Run.ledger (hdelta : 0 < core.deltaThreshold) {es : History} (hrun : core.Run es s)
    (hfresh : Fresh (certificates (received es))) (hincreasing : Increasing (received es)) :
    ∃ done rest outs, Ledger (received es) [] s done rest outs := by
  apply ((inductive_ledger hdelta).run hrun).2
  exact ⟨by rwa [List.append_nil], hincreasing⟩

/-! ## §3. The stream. -/

omit [Crypto] in
/-- A beginning of a concatenation: some parts, and a beginning of the next. -/
theorem prefix_of_flatten {α β : Type} {R : List α → β → Prop} {outs : List (List α)}
    {done : List β} (h : List.Forall₂ R outs done) {sent : List α} (hsent : sent <+: outs.flatten) :
    ∃ whole later parts part, done = whole ++ later ∧ sent = parts.flatten ++ part ∧
      List.Forall₂ R parts whole ∧
      (part = [] ∨ ∃ b later' out, later = b :: later' ∧ R out b ∧ part <+: out) := by
  induction h generalizing sent with
  | nil =>
      obtain rfl : sent = [] := List.prefix_nil.mp hsent
      exact ⟨[], [], [], [], rfl, rfl, .nil, Or.inl rfl⟩
  | @cons out b outs done hout hrest ih =>
      obtain ⟨after, hafter⟩ := hsent
      rw [List.flatten_cons] at hafter
      obtain ⟨as, hout', _⟩ | ⟨as, hsent', hrest'⟩ := List.append_eq_append_iff.mp hafter
      · exact ⟨[], b :: done, [], sent, rfl, rfl, .nil,
          Or.inr ⟨b, done, out, rfl, hout, ⟨as, hout'.symm⟩⟩⟩
      · obtain ⟨whole, later, parts, part, hdone, has, hparts, hpart⟩ := ih ⟨after, hrest'.symm⟩
        refine ⟨b :: whole, later, out :: parts, part, ?_, ?_, .cons hout hparts, hpart⟩
        · rw [hdone]
          rfl
        · rw [hsent', has]
          simp

/-- **Every batch is output once and in order**: whatever the receiver got so far is one
permutation of each batch of a prefix of those received, and, while the next batch is
being sent, a beginning of one of its permutations.  The executor never stops. -/
theorem output_in_order (committeeSize windowCap : ℕ) {es : History} {s : State}
    (hrun : (spawn committeeSize windowCap none).Run es s)
    (hfresh : Fresh (certificates (received es))) (hincreasing : Increasing (received es)) :
    (∃ done rest outs, received es = done ++ rest ∧ s.txOutput = outs.flatten ∧
      List.Forall₂ (fun out b => out.Perm b.certificates) outs done) ∧
    (∀ sent, sent <+: s.txOutput → ∃ done rest outs part, received es = done ++ rest ∧
      sent = outs.flatten ++ part ∧
      List.Forall₂ (fun out b => out.Perm b.certificates) outs done ∧
      (part = [] ∨ ∃ b rest' out, rest = b :: rest' ∧ out.Perm b.certificates ∧ part <+: out)) ∧
    ∀ d, ∃ s', (spawn committeeSize windowCap none).next s d = some s' := by
  have hdelta := deltaThreshold_spawn committeeSize windowCap none
  obtain ⟨done, rest, outs, hledger⟩ := hrun.ledger hdelta hfresh hincreasing
  refine ⟨⟨done, rest, outs, hledger.received, hledger.output, hledger.permuted⟩, ?_,
    next_total hdelta rfl hrun⟩
  intro sent hsent
  rw [hledger.output] at hsent
  obtain ⟨whole, later, parts, part, hdone, heq, hparts, hpart⟩ :=
    prefix_of_flatten hledger.permuted hsent
  refine ⟨whole, later ++ rest, parts, part, ?_, heq, hparts, ?_⟩
  · rw [hledger.received, hdone, List.append_assoc]
  · obtain hnil | ⟨b, later', out, hlater, hout, hprefix⟩ := hpart
    · exact Or.inl hnil
    · exact Or.inr ⟨b, later' ++ rest, out, by rw [hlater]; rfl, hout, hprefix⟩

omit [Crypto] in
set_option maxRecDepth 10000 in
theorem exists_twoBatchesRun :
    letI := sampleCrypto
    ∃ es s, (spawn 4 1 none).Run es s ∧ Fresh (certificates (received es)) ∧
      Increasing (received es) ∧
      s.txOutput = [Certificate.sample 1 0 [], Certificate.sample 1 1 []] :=
  let _ := sampleCrypto
  let ⟨es, s, hrun, hcheck⟩ := System.exec_check (spawn 4 1 none).system
    [sampleDelivery 0 [Certificate.sample 1 1 [], Certificate.sample 1 0 []],
      sampleDelivery 3 [Certificate.sample 2 0 [0, 1]]]
    (fun es s => decide (Fresh (certificates (received es)) ∧ Increasing (received es) ∧
      s.txOutput = [Certificate.sample 1 0 [], Certificate.sample 1 1 []])) (by decide +kernel)
  ⟨es, s, hrun, of_decide_eq_true hcheck⟩

omit [Crypto] in
/-- One of two batches is output. -/
theorem output_in_order_sample :
    letI := sampleCrypto
    ∃ es s, (spawn 4 1 none).Run es s ∧
      s.txOutput = [Certificate.sample 1 0 [], Certificate.sample 1 1 []] ∧
      (∃ done rest outs, received es = done ++ rest ∧ s.txOutput = outs.flatten ∧
        List.Forall₂ (fun out b => out.Perm b.certificates) outs done) ∧
      (∀ sent, sent <+: s.txOutput → ∃ done rest outs part, received es = done ++ rest ∧
        sent = outs.flatten ++ part ∧
        List.Forall₂ (fun out b => out.Perm b.certificates) outs done ∧
        (part = [] ∨ ∃ b rest' out, rest = b :: rest' ∧ out.Perm b.certificates ∧ part <+: out)) ∧
      ∀ d, ∃ s', (spawn 4 1 none).next s d = some s' := by
  let _ := sampleCrypto
  obtain ⟨es, s, hrun, hfresh, hincreasing, houtput⟩ := exists_twoBatchesRun
  exact ⟨es, s, hrun, houtput, output_in_order 4 1 hrun hfresh hincreasing⟩

end MrvExecutor

end Mrv
