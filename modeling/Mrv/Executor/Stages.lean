/-
  Mrv.Executor.Stages — the executor one operation at a time.

  `on_committed_batch` records certificate after certificate, caps the horizons, and
  outputs batch after batch.  A `Stage` is the state between two of these operations,
  with the batches recorded so far and the certificates recorded of the current one.

  What holds at every stage holds in particular between batches (`Run.passes`).
-/
import Mrv.Executor.Invariant

namespace Mrv

variable [Crypto]

namespace MrvExecutor

/-! ## §1. Operations. -/

/-- The executor between two operations. -/
structure Stage where
  batches : List CommittedSubDag
  /-- What is recorded of the batch that is being recorded. -/
  current : List Certificate
  state : State

/-- The certificates recorded so far. -/
def Stage.certificates (g : Stage) : List Certificate :=
  MrvExecutor.certificates g.batches ++ g.current

inductive Operation where
  /-- The loop body of `on_committed_batch`. -/
  | register (certificate : Certificate)
  /-- The rest of `on_committed_batch` up to `apply_window_cap`. -/
  | record (batch : CommittedSubDag) (σ : HashOrder)
  /-- `try_finalize_batches` removes a batch without members. -/
  | drop
  /-- `try_finalize_batches` outputs a batch. -/
  | final (σ : HashOrder)

/-- One operation, where it is enabled. -/
def operate (core : MrvExecutor) (g : Stage) : Operation → Option Stage
  | .register certificate =>
      (g.state.register core certificate).map (fun state =>
        { g with current := g.current ++ [certificate], state })
  | .record batch σ =>
      if g.current = batch.certificates then
        some { batches := g.batches ++ [batch], current := [],
               state := core.applyWindowCap σ (g.state.enqueue batch) }
      else none
  | .drop =>
      if g.current ≠ [] then none
      else
        match g.state.batches.entries with
        | (k, ⟨[]⟩) :: _ => some { g with state := { g.state with batches := g.state.batches.erase k } }
        | _ => none
  | .final σ =>
      if g.current ≠ [] then none
      else
        match g.state.batches.entries with
        | [] => none
        | (k, batch) :: _ =>
            if batch.members = [] then none
            else
              match g.state.batchHorizon batch.members with
              | none => none
              | some batchHorizon =>
                  if g.state.frontierRound < batchHorizon then none
                  else (core.finalize σ g.state k batch.members).toOption.map
                    (fun state => { g with state })

/-- The executor as a system of operations. -/
def stages (core : MrvExecutor) : System Stage Operation :=
  { init := ⟨[], [], State.new⟩, next := core.operate }

/-- Operations done so far, latest first, each with the stage before it. -/
abbrev Operations := List (Stage × Operation)

/-- The stages the executor passes. -/
abbrev Passes (core : MrvExecutor) (ops : Operations) (g : Stage) : Prop :=
  core.stages.Run ops g

/-! ## §2. What an operation can do. -/

variable {core : MrvExecutor} {g g' : Stage} {op : Operation}

theorem operate_register {c : Certificate} (h : core.operate g (.register c) = some g') :
    ∃ s', Registers core g.state c s' ∧ g' = ⟨g.batches, g.current ++ [c], s'⟩ := by
  obtain ⟨s', hs', rfl⟩ := Option.map_eq_some_iff.mp h
  exact ⟨s', registers_of_eq hs', rfl⟩

theorem operate_record {b : CommittedSubDag} {σ : HashOrder}
    (h : core.operate g (.record b σ) = some g') :
    g.current = b.certificates ∧
      g' = ⟨g.batches ++ [b], [], core.applyWindowCap σ (g.state.enqueue b)⟩ := by
  unfold operate at h
  dsimp only at h
  split at h
  · next hcurrent => exact ⟨hcurrent, (Option.some.inj h).symm⟩
  · cases h

theorem operate_drop (h : core.operate g .drop = some g') :
    g.current = [] ∧ ∃ k es, g.state.batches.entries = (k, ⟨[]⟩) :: es ∧
      g' = { g with state := { g.state with batches := g.state.batches.erase k } } := by
  unfold operate at h
  dsimp only at h
  split at h
  · cases h
  · next hcurrent =>
    rw [not_not] at hcurrent
    split at h
    · next k es hentries => exact ⟨hcurrent, k, es, hentries, (Option.some.inj h).symm⟩
    · cases h

theorem operate_final {σ : HashOrder} (h : core.operate g (.final σ) = some g') :
    g.current = [] ∧ ∃ k ms sorted s', Finalizes core σ g.state k ms sorted s' ∧
      g' = ⟨g.batches, g.current, s'⟩ := by
  unfold operate at h
  dsimp only at h
  split at h
  · cases h
  · next hcurrent =>
    rw [not_not] at hcurrent
    split at h
    · cases h
    · next k batch es hentries =>
      obtain ⟨ms⟩ := batch
      dsimp only at h
      split at h
      · cases h
      · split at h
        · cases h
        · next r hr =>
          split at h
          · cases h
          · next hge =>
            obtain ⟨s', hs', rfl⟩ := Option.map_eq_some_iff.mp h
            generalize hresult : core.finalize σ g.state k ms = result at hs'
            cases result with
            | error e => cases hs'
            | ok t =>
                obtain ⟨sorted, hsorted, heq⟩ := finalize_eq_ok hresult
                rw [← Option.some.inj hs']
                exact ⟨hcurrent, k, ms, sorted, t, ⟨⟨es, hentries⟩, ⟨r, hr, not_lt.mp hge⟩,
                  hsorted, heq⟩, rfl⟩

/-- **The rule for stages.** -/
theorem Inductive.passes {P : List CommittedSubDag → List Certificate → State → Prop}
    (hP : Inductive core P) {ops : Operations} (h : core.Passes ops g) :
    P g.batches g.current g.state := by
  refine System.Run.invariant (P := fun _ g => P g.batches g.current g.state) hP.new ?_ h
  intro _ t op t' _ ht (hnext : core.operate t op = some t')
  cases op with
  | register c =>
      obtain ⟨s', hs', rfl⟩ := operate_register hnext
      exact hP.register _ _ c _ s' ht hs'
  | record b σ =>
      obtain ⟨hcurrent, rfl⟩ := operate_record hnext
      rw [hcurrent] at ht
      exact hP.record _ b σ _ ht
  | drop =>
      obtain ⟨hcurrent, k, es, hentries, rfl⟩ := operate_drop hnext
      rw [hcurrent] at ht
      show P t.batches t.current _
      rw [hcurrent]
      exact hP.drop _ _ k es hentries ht
  | final σ =>
      obtain ⟨hcurrent, k, ms, sorted, s', hfinal, rfl⟩ := operate_final hnext
      rw [hcurrent] at ht
      show P t.batches t.current s'
      rw [hcurrent]
      exact hP.final _ σ _ k ms sorted s' hfinal ht

/-- What is recorded stays recorded. -/
theorem operate_extends (h : core.operate g op = some g') :
    g.batches <+: g'.batches ∧ g.certificates <+: g'.certificates := by
  cases op with
  | register c =>
      obtain ⟨s', _, rfl⟩ := operate_register h
      refine ⟨List.prefix_refl _, [c], ?_⟩
      exact List.append_assoc _ _ _
  | record b σ =>
      obtain ⟨hcurrent, rfl⟩ := operate_record h
      refine ⟨List.prefix_append _ _, [], ?_⟩
      unfold Stage.certificates
      simp [hcurrent]
  | drop =>
      obtain ⟨_, _, _, _, rfl⟩ := operate_drop h
      exact ⟨List.prefix_refl _, List.prefix_refl _⟩
  | final σ =>
      obtain ⟨_, _, _, _, _, _, rfl⟩ := operate_final h
      exact ⟨List.prefix_refl _, List.prefix_refl _⟩

/-- What was registered is among the certificates recorded. -/
theorem Passes.mem_certificates {ops : Operations} (h : core.Passes ops g) {t : Stage}
    {c : Certificate} (hc : (t, Operation.register c) ∈ ops) : c ∈ g.certificates := by
  refine System.Run.invariant (P := fun ops (g : Stage) => ∀ t c,
    (t, Operation.register c) ∈ ops → c ∈ g.certificates) (by simp) ?_ h t c hc
  intro ops u op u' _ ih (hnext : core.operate u op = some u') t c hmem
  obtain heq | hmem := List.mem_cons.mp hmem
  · obtain ⟨rfl, rfl⟩ := Prod.mk.inj heq
    obtain ⟨s', _, rfl⟩ := operate_register hnext
    unfold Stage.certificates
    simp
  · exact (operate_extends hnext).2.subset (ih t c hmem)

/-! ## §3. Runs are made of operations. -/

variable {bs : List CommittedSubDag} {s s' : State}

theorem passes_registerAll {cs pre : List Certificate} {ops : Operations}
    (hops : core.Passes ops ⟨bs, pre, s⟩) (h : cs.foldlM (State.register core) s = some s') :
    ∃ ops', core.Passes ops' ⟨bs, pre ++ cs, s'⟩ := by
  induction cs generalizing pre s ops with
  | nil =>
      rw [← Option.some.inj h, List.append_nil]
      exact ⟨ops, hops⟩
  | cons c cs ih =>
      rw [List.foldlM_cons] at h
      obtain ⟨t, ht, h⟩ := Option.bind_eq_some_iff.mp h
      have hnext : core.stages.next ⟨bs, pre, s⟩ (.register c) = some ⟨bs, pre ++ [c], t⟩ := by
        show (s.register core c).map _ = _
        rw [ht]
        rfl
      obtain ⟨ops', hops'⟩ := ih (.step hops hnext) h
      rw [List.append_assoc] at hops'
      exact ⟨ops', hops'⟩

theorem next_drop {k : ℕ} {es : List (ℕ × BatchState)}
    (hentries : s.batches.entries = (k, ⟨[]⟩) :: es) :
    core.stages.next ⟨bs, [], s⟩ .drop = some ⟨bs, [], { s with batches := s.batches.erase k }⟩ := by
  show (if ([] : List Certificate) ≠ [] then none
    else match s.batches.entries with
      | (k, ⟨[]⟩) :: _ => some (Stage.mk bs [] { s with batches := s.batches.erase k })
      | _ => none) = _
  rw [if_neg (not_not_intro rfl), hentries]

theorem next_final {σ : HashOrder} {k : ℕ} {ms : List Digest} (hready : Ready s k ms)
    (ht : core.finalize σ s k ms = .ok s') :
    core.stages.next ⟨bs, [], s⟩ (.final σ) = some ⟨bs, [], s'⟩ := by
  obtain ⟨es, hentries⟩ := hready.head
  obtain ⟨r, hr, hle⟩ := hready.horizon
  show (if ([] : List Certificate) ≠ [] then none
    else match s.batches.entries with
      | [] => none
      | (k', batch) :: _ =>
          if batch.members = [] then none
          else match s.batchHorizon batch.members with
            | none => none
            | some batchHorizon =>
                if s.frontierRound < batchHorizon then none
                else (core.finalize σ s k' batch.members).toOption.map
                  (fun state => Stage.mk bs [] state)) = _
  rw [if_neg (not_not_intro rfl), hentries]
  dsimp only
  rw [if_neg hready.members, hr]
  dsimp only
  rw [if_neg (not_lt.mpr hle), ht]
  rfl

theorem passes_tryFinalize {orders : ℕ → HashOrder} {fuel : ℕ} {ops : Operations}
    (hops : core.Passes ops ⟨bs, [], s⟩)
    (h : core.tryFinalizeBatches orders fuel s = .ok s') :
    ∃ ops', core.Passes ops' ⟨bs, [], s'⟩ := by
  induction fuel generalizing s ops with
  | zero => cases h
  | succ fuel ih =>
      obtain hsettled | ⟨k, es, hentries⟩ | ⟨k, ms, hready⟩ := front_cases s
      · rw [(tryFinalize_settled core orders fuel hsettled).1] at h
        rw [← Except.ok.inj h]
        exact ⟨ops, hops⟩
      · rw [(tryFinalize_drop core orders fuel hentries).1] at h
        exact ih (.step hops (next_drop hentries)) h
      · obtain ⟨sorted, t, _, ht, hloop, _⟩ := hready.of_ok h
        exact ih (.step hops (next_final hready ht)) hloop

/-- **Between batches the executor is at a stage.** -/
theorem Run.passes {es : History} (h : core.Run es s) :
    ∃ ops, core.Passes ops ⟨received es, [], s⟩ := by
  refine System.Run.invariant (P := fun es s => ∃ ops, core.Passes ops ⟨received es, [], s⟩)
    ⟨[], .init⟩ ?_ h
  rintro es t d t' _ ⟨ops, hops⟩ hnext
  obtain ⟨u, hu, hloop⟩ := next_eq_some hnext
  obtain ⟨ops', hops'⟩ := passes_registerAll hops hu
  rw [List.nil_append] at hops'
  have hrecord : core.stages.next ⟨received es, d.batch.certificates, u⟩
      (.record d.batch (d.orders d.batch.batchIndex)) =
        some ⟨received es ++ [d.batch], [],
          core.applyWindowCap (d.orders d.batch.batchIndex) (u.enqueue d.batch)⟩ :=
    if_pos rfl
  exact passes_tryFinalize (.step hops' hrecord) hloop

end MrvExecutor

end Mrv
