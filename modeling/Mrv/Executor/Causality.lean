/-
  Mrv.Executor.Causality — when the output respects causality.

  `sort_batch` has no causal edges.  A certificate and its ancestor are in order as long as
  the ancestor is available no later; then the tie-break takes the lower round first.  The
  ancestor is held back by a certificate better than itself, and this one is better than a
  mature descendant as well.  What remains is a descendant that is not mature: it overtakes
  its ancestor if the tie-break prefers it to what the ancestor waits for.

    * `causal_iff_not_contested` — so the order of one batch is causal exactly if there is
                                   no such descendant in it,
    * `output_causal_iff`        — and the output of a run, if there is none in any batch.
-/
import Mrv.Executor.Output
import Mrv.Executor.Strict

namespace Mrv

open Relation (ReflTransGen)

variable [Crypto]

namespace MrvExecutor

variable {core : MrvExecutor} {s s' : State} {cs : List Certificate} {l sorted : List Digest}

/-! ## §1. One batch. -/

/-- No digest of a list comes before one that it descends from. -/
def CausalOrder (store : HashMap Digest Certificate) (l : List Digest) : Prop :=
  Kahn.Respects (fun b a => a ∈ l ∧ a ≠ b ∧ Reaches store b a) l

/-- A descendant that is not mature comes before what its ancestor waits for. -/
structure Overtakes (core : MrvExecutor) (s : State) (b a x : Digest) : Prop where
  ne : a ≠ b
  descends : Reaches s.store b a
  immature : ∀ st, s.aufStates.lookup b = some st → st.mature = false
  waits : core.comparePair s x a = some .aBetter
  preferred : s.tieBreak x b = .gt

/-- In a batch some descendant overtakes its ancestor. -/
def Contested (core : MrvExecutor) (s : State) (l : List Digest) : Prop :=
  ∃ b ∈ l, ∃ a ∈ l, ∃ x ∈ l, core.Overtakes s b a x

omit [Crypto] in
/-- A descendant is of a later round. -/
theorem tieKey_lt_of_reaches {a b : Digest} {ca cb : Certificate} (hlayered : Layered s.store)
    (hb : s.store.lookup b = some cb) (ha : s.store.lookup a = some ca) (hne : a ≠ b)
    (h : Reaches s.store b a) : s.tieKey a < s.tieKey b := by
  obtain rfl | ⟨y, ⟨c, hc, hparent⟩, hrest⟩ := ReflTransGen.cases_head h
  · exact absurd rfl hne
  · obtain rfl := Option.some.inj (hb.symm.trans hc)
    obtain ⟨cy, hcy, hround⟩ := Reaches.exists_round_le hlayered ha hrest
    have hlayer := hlayered b y cb cy hb hparent hcy
    exact tieKey_lt_of_round_lt ha hb (by omega)

/-- What is better than the ancestor is better than the descendant, unless that one is not
mature or comes first. -/
theorem Better.descendant (hsat : Saturated core s) (htracks : Tracks cs s) {a b x : Digest}
    {stB : AufState} (h : core.Better s x a) (hreach : Reaches s.store b a)
    (hb : s.aufStates.lookup b = some stB) (hmature : stB.mature = true)
    (hle : s.tieKey b ≤ s.tieKey x) : core.Better s x b := by
  rw [hsat.better_iff] at h ⊢
  obtain ⟨stX, stA, hx, ha, hmX, _, r, hrX, _, hleads⟩ := h
  obtain ⟨cx, hcx, hroundX⟩ := htracks.rounds x stX hx
  obtain ⟨cb, hcb, hroundB⟩ := htracks.rounds b stB hb
  have hround : stB.round ≤ stX.round := by
    by_contra hlt
    rw [hroundX, hroundB, not_le] at hlt
    exact absurd hle (not_le.mpr (tieKey_lt_of_round_lt hcx hcb hlt))
  refine ⟨stX, stB, hx, hb, hmX, hmature, r, hrX, by omega, ?_⟩
  have hcard := Finset.card_le_card (htracks.seen_subset ha hb hreach r)
  rw [← seenCountAt_eq ha, ← seenCountAt_eq hb] at hcard
  unfold Saturation.Leads at hleads ⊢
  omega

/-- **The order of a batch is causal exactly if no descendant overtakes its ancestor.** -/
theorem causal_iff_not_contested (hsat : Saturated core s) (htracks : Tracks cs s)
    (hlayered : Layered s.store) (hactive : ∀ d ∈ l, s.aufStates.lookup d ≠ none)
    (hgreedy : Kahn.Greedy l.toFinset (core.Verdict s l) (fun a b => s.tieKey a ≤ s.tieKey b) ∅
      sorted) :
    CausalOrder s.store sorted ↔ ¬ core.Contested s l := by
  have hmem : ∀ d, d ∈ sorted ↔ d ∈ l := by
    intro d
    rw [hgreedy.mem_iff, List.mem_toFinset]
    exact and_iff_left (Finset.notMem_empty d)
  have hstored : ∀ d ∈ l, Stored s d := by
    intro d hd
    obtain ⟨st, hst⟩ := Option.ne_none_iff_exists'.mp (hactive d hd)
    obtain ⟨c, hc, _⟩ := htracks.rounds d st hst
    unfold Stored
    rw [hc]
    exact Option.some_ne_none c
  constructor
  · rintro hcausal ⟨b, hb, a, ha, x, hx, hover⟩
    obtain ⟨pre, post, heq⟩ := List.append_of_mem ((hmem a).mpr ha)
    -- nothing is better than the descendant, so it comes before the ancestor
    have hbpre : b ∈ pre := by
      refine hgreedy.mem_of_blocked heq (List.mem_toFinset.mpr hb) ?_ (List.mem_toFinset.mpr hx)
        ⟨hx, ha, hover.waits⟩ ?_
      · rintro p ⟨_, _, hbetter⟩
        obtain ⟨_, st, _, hst, _, hmature, _⟩ := hsat.better_iff.mp hbetter
        rw [hover.immature st hst] at hmature
        exact Bool.noConfusion hmature
      · intro hle
        exact (tieBreak_iff (hstored x hx) (hstored b hb)).mpr hle hover.preferred
    obtain ⟨pre', mid, hpre⟩ := List.append_of_mem hbpre
    have heq' : sorted = pre' ++ b :: (mid ++ a :: post) := by
      rw [heq, hpre]
      simp
    have hapre := hcausal pre' b _ heq' a ⟨(hmem a).mpr ha, hover.ne, hover.descends⟩
    have hnd := hgreedy.nodup
    rw [heq'] at hnd
    exact (List.nodup_append.mp hnd).2.2 a hapre a (by simp) rfl
  · rintro hcontested pre b post heq a ⟨ha, hne, hreach⟩
    by_contra hapre
    have hb : b ∈ l := by
      rw [← hmem, heq]
      simp
    rw [hmem] at ha
    obtain ⟨ca, hca⟩ := Option.ne_none_iff_exists'.mp (hstored a ha)
    obtain ⟨cb, hcb⟩ := Option.ne_none_iff_exists'.mp (hstored b hb)
    have hlt := tieKey_lt_of_reaches hlayered hcb hca hne hreach
    -- the ancestor waits for some `x` that is no better than `b` in the tie-break
    obtain ⟨x, hx, hxpre, ⟨_, _, hbetter⟩, hle⟩ := hgreedy.exists_blocker
      (fun x y z hxy hyz => ⟨hxy.1, hyz.2.1, hxy.2.2.trans hsat hyz.2.2⟩)
      (fun x hx => Better.irrefl hsat.pos hx.2.2) heq (List.mem_toFinset.mpr ha) hapre
      (not_le.mpr hlt)
    rw [List.mem_toFinset] at hx
    have hxb : x ≠ b := by
      rintro rfl
      exact htracks.not_better hsat.pos hreach hbetter
    refine hcontested ⟨b, hb, a, ha, x, hx, hne, hreach, fun st hst => ?_, hbetter, ?_⟩
    · by_contra hmature
      rw [Bool.not_eq_false] at hmature
      have hbefore := (hgreedy.split heq).1 x (List.mem_toFinset.mpr hx)
        ⟨hx, hb, hbetter.descendant hsat htracks hreach hst hmature hle⟩
      exact hxpre (hbefore.resolve_left (Finset.notMem_empty x))
    · by_contra hgt
      have hle' := (tieBreak_iff (hstored x hx) (hstored b hb)).mp hgt
      exact hxb (tieKey_injective s (le_antisymm hle' hle))

/-! ## §2. The stream. -/

/-- A certificate descends from another one that was delivered. -/
structure Descends (store : HashMap Digest Certificate) (b a : Certificate) : Prop where
  delivered : store.lookup a.digest = some a
  ne : a.digest ≠ b.digest
  reaches : Reaches store b.digest a.digest

/-- Every certificate was sent after all that it descends from. -/
def OutputCausal (s : State) : Prop := Kahn.Respects (Descends s.store) s.txOutput

omit [Crypto] in
/-- Ancestors are recorded before. -/
theorem mem_of_reaches [Crypto] {cs' : List Certificate} {store : HashMap Digest Certificate}
    (hstored : ∀ d c, store.lookup d = some c ↔ c ∈ cs ++ cs' ∧ c.digest = d)
    (hordered : ParentsFirst (cs ++ cs')) (hfresh : Fresh (cs ++ cs')) {x : Certificate}
    (hx : x ∈ cs) {d : Digest} (h : Reaches store x.digest d) :
    ∀ c, store.lookup d = some c → c ∈ cs := by
  induction h with
  | refl =>
      intro c hc
      obtain ⟨hmem, heq⟩ := (hstored _ c).mp hc
      rw [hfresh.eq_of_digest hmem (List.mem_append_left _ hx) heq]
      exact hx
  | tail _ hstep ih =>
      intro c hc
      obtain ⟨y, hy, hparent⟩ := hstep
      obtain ⟨hmem, rfl⟩ := (hstored _ c).mp hc
      refine (List.mem_append.mp hmem).resolve_right fun hlater => ?_
      exact (List.pairwise_append.mp hordered).2.2 y (ih y hy) c hlater hparent

/-- Recording a certificate does not change what is below those that were sent. -/
theorem outputCausal_register {c : Certificate} (htracks : Tracks cs s)
    (hsent : ∀ b ∈ s.txOutput, b ∈ cs) (hcausal : Causal (cs ++ [c]))
    (hstep : Registers core s c s') : OutputCausal s' ↔ OutputCausal s := by
  have hlast := hcausal.last htracks.stored
  have hdescends : ∀ b ∈ s.txOutput, ∀ a, Descends s'.store b a ↔ Descends s.store b a := by
    intro b hb a
    have hne : b.digest ≠ c.digest := hcausal.fresh.ne_of_append (hsent b hb)
    have hreaches := reaches_insert (c := c) (d := a.digest) hlast hne
    rw [← hstep.store] at hreaches
    by_cases ha : a.digest = c.digest
    · rw [ha] at hreaches
      refine iff_of_false (fun h => ?_) (fun h => ?_)
      · have hpath := h.reaches
        rw [ha, hreaches] at hpath
        exact not_reaches_last hlast hne hpath
      · have hpath := h.reaches
        rw [ha] at hpath
        exact not_reaches_last hlast hne hpath
    · have hlookup := hstep.lookup_store a.digest
      rw [if_neg ha] at hlookup
      constructor
      · exact fun h => ⟨hlookup.symm.trans h.delivered, h.ne, hreaches.mp h.reaches⟩
      · exact fun h => ⟨hlookup.trans h.delivered, h.ne, hreaches.mpr h.reaches⟩
  unfold OutputCausal Kahn.Respects
  rw [hstep.txOutput]
  refine forall_congr' fun pre => forall_congr' fun b => forall_congr' fun post =>
    forall_congr' fun heq => forall_congr' fun a => ?_
  rw [hdescends b (by rw [heq]; simp) a]

/-- The certificates sent for some members of a batch, in the order of the digests. -/
theorem sent_spec {store : HashMap Digest Certificate} {b : CommittedSubDag}
    (hlookup : ∀ c ∈ b.certificates, store.lookup c.digest = some c)
    (hsorted : ∀ d ∈ sorted, d ∈ members b) :
    (sorted.filterMap store.lookup).map Certificate.digest = sorted ∧
      ∀ c ∈ sorted.filterMap store.lookup,
        c ∈ b.certificates ∧ store.lookup c.digest = some c := by
  have hbatch : ∀ d ∈ sorted, ∃ c ∈ b.certificates, store.lookup d = some c ∧ c.digest = d := by
    intro d hd
    obtain ⟨c, hc, rfl⟩ := List.mem_map.mp (hsorted d hd)
    exact ⟨c, hc, hlookup c hc, rfl⟩
  constructor
  · have hsome : ∀ d ∈ sorted, (store.lookup d).map Certificate.digest = some d := by
      intro d hd
      obtain ⟨c, _, hc, heq⟩ := hbatch d hd
      rw [hc, Option.map_some, heq]
    rw [List.map_filterMap, List.filterMap_congr hsome, List.filterMap_some]
  · intro c hc
    obtain ⟨d, hd, hdc⟩ := List.mem_filterMap.mp hc
    obtain ⟨c', hc', hdc', rfl⟩ := hbatch d hd
    obtain rfl := Option.some.inj (hdc.symm.trans hdc')
    exact ⟨hc', hdc⟩

/-- **An output keeps the stream causal exactly if the order of its batch is causal.** -/
theorem outputCausal_final {bs done rest : List CommittedSubDag} {outs : List (List Certificate)}
    (hcausal : Causal (certificates bs)) (hledger : Ledger bs [] s done rest outs) {σ : HashOrder}
    {k : ℕ} {ms : List Digest} (hstep : Finalizes core σ s k ms sorted s')
    (hsorted : ∀ d, d ∈ sorted ↔ d ∈ ms) (hnd : sorted.Nodup) :
    OutputCausal s' ↔ OutputCausal s ∧ CausalOrder s.store sorted := by
  obtain ⟨es, hentries⟩ := hstep.head
  obtain ⟨hstore, _, _, houtput⟩ := hstep.frame
  obtain ⟨empties, b₀, rest', hrest, hnone, rfl, _⟩ := hledger.head hentries
  have hreceived : certificates bs =
      (certificates done ++ b₀.certificates) ++ certificates rest' :=
    hledger.certificates_front hrest hnone
  have hstored : ∀ d c, s.store.lookup d = some c ↔
      c ∈ (certificates done ++ b₀.certificates) ++ certificates rest' ∧ c.digest = d := by
    rw [← hreceived]
    have hall := hledger.stored
    rw [List.append_nil] at hall
    exact hall
  rw [hreceived] at hcausal
  have hdone : ∀ c, c ∈ s.txOutput ↔ c ∈ certificates done := fun c =>
    hledger.output_perm.mem_iff
  have hlookup : ∀ c ∈ b₀.certificates, s.store.lookup c.digest = some c := fun c hc =>
    (hstored c.digest c).mpr ⟨by simp [hc], rfl⟩
  obtain ⟨hdigest, hout⟩ := sent_spec hlookup fun d hd => (hsorted d).mp hd
  -- what was sent earlier is in no way part of this batch
  have hapart : ∀ c ∈ certificates done, c ∉ b₀.certificates := by
    intro c hc hc'
    have hnd : (certificates done ++ b₀.certificates).Nodup := hcausal.of_append.fresh.of_map _
    exact (List.nodup_append.mp hnd).2.2 c hc c hc' rfl
  unfold OutputCausal
  rw [houtput, hstore, Kahn.respects_append]
  refine and_congr_right fun _ => ?_
  generalize hcs : sorted.filterMap s.store.lookup = out at hdigest hout
  subst hdigest
  unfold CausalOrder Kahn.Respects
  constructor
  · rintro h pre d post heq d' ⟨hd', hne, hreach⟩
    obtain ⟨pre, after, hsplit, rfl, hafter⟩ := List.map_eq_append_iff.mp heq
    obtain ⟨b, post, rfl, rfl, _⟩ := List.map_eq_cons_iff.mp hafter
    obtain ⟨a, ha, rfl⟩ := List.mem_map.mp hd'
    obtain hsent | hpre := List.mem_append.mp
      (h pre b post hsplit a ⟨(hout a ha).2, hne, hreach⟩)
    · exact absurd (hout a ha).1 (hapart a ((hdone a).mp hsent))
    · exact List.mem_map_of_mem hpre
  · intro h pre b post heq a hdescends
    have hb : b ∈ out := by
      rw [heq]
      simp
    rw [List.mem_append, hdone]
    -- an ancestor was delivered earlier: it was sent, or is in this batch
    have ha := mem_of_reaches hstored hcausal.ordered hcausal.fresh
      (List.mem_append_right _ (hout b hb).1) hdescends.reaches a hdescends.delivered
    refine (List.mem_append.mp ha).imp_right fun ha => ?_
    have hpre := h (pre.map Certificate.digest) b.digest (post.map Certificate.digest)
      (by rw [heq]; simp) a.digest
      ⟨(hsorted _).mpr (List.mem_map_of_mem ha), hdescends.ne, hdescends.reaches⟩
    obtain ⟨y, hy, hdigest⟩ := List.mem_map.mp hpre
    have hlookup := (hout y (by rw [heq]; simp [hy])).2
    rw [hdigest, hdescends.delivered] at hlookup
    rw [Option.some.inj hlookup]
    exact hy

/-! ## §3. Runs. -/

/-- In the batch that is output next some descendant overtakes its ancestor. -/
def Stage.Contested (core : MrvExecutor) (g : Stage) : Prop :=
  ∃ k ms es, g.state.batches.entries = (k, ⟨ms⟩) :: es ∧ core.Contested g.state ms

variable {authorities : Finset PublicKey} {g g' : Stage} {ops : Operations}

/-- A stage of the executor of a committee is saturated. -/
theorem Passes.saturated {committeeSize windowCap : ℕ} {capacity : Option ℕ}
    (hops : (spawn committeeSize windowCap capacity).Passes ops g)
    (hsize : authorities.card = committeeSize)
    (hdag : CommittedDag authorities (AllButFaulty authorities) g.certificates) :
    Saturated (spawn committeeSize windowCap capacity) g.state := by
  have hthreshold : (spawn committeeSize windowCap capacity).deltaThreshold.toNat =
      (authorities.card - 1) / 3 + 1 := by
    show ((((max committeeSize 1 - 1) / 3 : ℕ) : ℤ) + 1).toNat = _
    omega
  refine ⟨deltaThreshold_spawn _ _ _, ?_, ?_, (inductive_backed _).passes hops⟩
  · show (((max committeeSize 1 - 1) / 3 : ℕ) : ℤ) + 1 ≤
      ((2 * ((max committeeSize 1 - 1) / 3) + 1 : ℕ) : ℤ)
    omega
  · rw [hthreshold]
    exact saturates_seenCountAt hdag (hops.tracks hdag.causal)

theorem outputCausal_step {committeeSize windowCap : ℕ} {capacity : Option ℕ}
    (hops : (spawn committeeSize windowCap capacity).Passes ops g)
    (hsize : authorities.card = committeeSize) {op : Operation}
    (hnext : (spawn committeeSize windowCap capacity).operate g op = some g')
    (hincreasing : Increasing g'.batches)
    (hdag : CommittedDag authorities (AllButFaulty authorities) g'.certificates)
    (hs : OutputCausal g.state) :
    OutputCausal g'.state ↔
      ∀ σ, op = .final σ → ¬ g.Contested (spawn committeeSize windowCap capacity) := by
  have hdelta := deltaThreshold_spawn committeeSize windowCap capacity
  obtain ⟨hbatches, hcertificates⟩ := operate_extends hnext
  -- the step only adds certificates, so the DAG before it was one too
  have hbefore : CommittedDag authorities (AllButFaulty authorities) g.certificates := by
    obtain ⟨later, hlater⟩ := hcertificates
    rw [← hlater] at hdag
    exact hdag.of_append
  have htracks := hops.tracks hbefore.causal
  obtain ⟨⟨hsane, _⟩, hledger⟩ := (inductive_ledger hdelta).passes hops
  obtain ⟨done, rest, outs, hledger⟩ := hledger
    ⟨hbefore.causal.fresh, hincreasing.sublist (hbatches.sublist.map _)⟩
  cases op with
  | register c =>
      obtain ⟨s', hstep, rfl⟩ := operate_register hnext
      refine iff_of_true ((outputCausal_register htracks ?_ ?_ hstep).mpr hs)
        fun σ heq => Operation.noConfusion heq
      · intro b hb
        have hdone := hledger.output_perm.mem_iff.mp hb
        unfold Stage.certificates
        rw [hledger.received, certificates_append]
        simp [hdone]
      · have hcausal := hdag.causal
        unfold Stage.certificates at hcausal ⊢
        rw [List.append_assoc]
        exact hcausal
  | record b σ =>
      obtain ⟨_, rfl⟩ := operate_record hnext
      refine iff_of_true ?_ fun σ heq => Operation.noConfusion heq
      obtain ⟨hstore, _, _, houtput⟩ := recorded_frame (spawn committeeSize windowCap capacity) σ
        g.state b
      unfold OutputCausal
      rw [hstore, houtput]
      exact hs
  | drop =>
      obtain ⟨_, k, es, _, rfl⟩ := operate_drop hnext
      exact iff_of_true hs fun σ heq => Operation.noConfusion heq
  | final σ =>
      obtain ⟨hcurrent, k, ms, sorted, s', hfinal, rfl⟩ := operate_final hnext
      have hcertificates : g.certificates = certificates g.batches := by
        unfold Stage.certificates
        rw [hcurrent, List.append_nil]
      rw [hcurrent] at hledger
      have hsat := hops.saturated hsize hbefore
      obtain ⟨r, hready, _⟩ := hfinal.ready
      obtain ⟨blocks, rfl, hlin⟩ := hfinal.linearises hdelta hsane
      have hgreedy := hlin.greedy_flatten hsat
      -- a batch that is ready has all its states
      have hactive : ∀ d ∈ ms, g.state.aufStates.lookup d ≠ none := by
        intro d hd
        obtain ⟨st, _, hst, _⟩ := batchHorizon_eq_some hready d hd
        rw [hst]
        exact Option.some_ne_none st
      have hbatch := causal_iff_not_contested hsat htracks
        (hbefore.causal.layered_store htracks.stored) hactive hgreedy
      rw [hcertificates] at hbefore
      rw [outputCausal_final hbefore.causal hledger hfinal hlin.scc.mem_flatten hgreedy.nodup,
        and_iff_right hs, hbatch]
      obtain ⟨es, hentries⟩ := hfinal.head
      unfold Stage.Contested
      rw [hentries]
      simp

/-- **When the output respects causality**: at all stages of a run every certificate that
was sent came after its ancestors exactly if no batch was output in which a descendant that
is not mature overtakes its ancestor. -/
theorem output_causal_iff (committeeSize windowCap : ℕ) (capacity : Option ℕ)
    (hops : (spawn committeeSize windowCap capacity).Passes ops g)
    (hsize : authorities.card = committeeSize) (hincreasing : Increasing g.batches)
    (hdag : CommittedDag authorities (AllButFaulty authorities) g.certificates) :
    (OutputCausal g.state ∧ ∀ t op, (t, op) ∈ ops → OutputCausal t.state) ↔
      ∀ t σ, (t, Operation.final σ) ∈ ops →
        ¬ t.Contested (spawn committeeSize windowCap capacity) := by
  have hinit : OutputCausal (spawn committeeSize windowCap capacity).stages.init.state := by
    intro pre b post heq
    exact absurd heq.symm (List.append_ne_nil_of_right_ne_nil _ (List.cons_ne_nil _ _))
  have hall := System.Run.forall_iff (I := fun t => OutputCausal t.state)
    (C := fun t op => ∀ σ, op = .final σ → ¬ t.Contested (spawn committeeSize windowCap capacity))
    (D := fun t => Increasing t.batches ∧
      CommittedDag authorities (AllButFaulty authorities) t.certificates)
    hinit ?_ ?_ hops ⟨hincreasing, hdag⟩
  · rw [hall]
    constructor
    · exact fun h t σ hmem => h t _ hmem σ rfl
    · rintro h t op hmem σ rfl
      exact h t σ hmem
  · intro t op t' (hnext : (spawn committeeSize windowCap capacity).operate t op = some t') hD
    obtain ⟨hbatches, later, hlater⟩ := operate_extends hnext
    have hdag' := hD.2
    rw [← hlater] at hdag'
    exact ⟨hD.1.sublist (hbatches.sublist.map _), hdag'.of_append⟩
  · intro es t op t' hrun hnext hD ht
    exact outputCausal_step hrun hsize hnext hD.1 hD.2 ht

omit [Crypto] in
set_option maxRecDepth 10000 in
theorem exists_outputStage :
    letI := sampleCrypto
    ∃ ops g, (spawn 4 1 none).Passes ops g ∧ Increasing g.batches ∧
      g.certificates = [Certificate.sample 1 2 [], Certificate.sample 1 1 [],
        Certificate.sample 1 0 [], Certificate.sample 2 0 [0, 1, 2]] ∧
      g.state.txOutput = [Certificate.sample 1 0 [], Certificate.sample 1 1 [],
        Certificate.sample 1 2 []] :=
  let _ := sampleCrypto
  let first := [Certificate.sample 1 2 [], Certificate.sample 1 1 [], Certificate.sample 1 0 []]
  let second := [Certificate.sample 2 0 [0, 1, 2]]
  let ⟨ops, g, hops, hcheck⟩ := System.exec_check (spawn 4 1 none).stages
    (first.map .register ++ [.record (sampleDelivery 0 first).batch .listed] ++
      second.map .register ++ [.record (sampleDelivery 1 second).batch .listed, .final .listed])
    (fun _ g => decide (Increasing g.batches ∧ g.certificates = first ++ second ∧
      g.state.txOutput = [Certificate.sample 1 0 [], Certificate.sample 1 1 [],
        Certificate.sample 1 2 []])) (by decide +kernel)
  ⟨ops, g, hops, of_decide_eq_true hcheck⟩

omit [Crypto] in
/-- The output of one batch was causal. -/
theorem output_causal_iff_sample :
    letI := sampleCrypto
    ∃ ops g, (spawn 4 1 none).Passes ops g ∧
      g.state.txOutput = [Certificate.sample 1 0 [], Certificate.sample 1 1 [],
        Certificate.sample 1 2 []] ∧
      ((OutputCausal g.state ∧ ∀ t op, (t, op) ∈ ops → OutputCausal t.state) ↔
        ∀ t σ, (t, Operation.final σ) ∈ ops → ¬ t.Contested (spawn 4 1 none)) := by
  let _ := sampleCrypto
  obtain ⟨ops, g, hops, hincreasing, hcs, houtput⟩ := exists_outputStage
  have hdag : CommittedDag ((Finset.range 4).image sampleKey)
      (AllButFaulty ((Finset.range 4).image sampleKey)) g.certificates := by
    rw [hcs]
    exact CommittedDag.of_list (by decide +kernel) (by decide +kernel) (by decide +kernel)
      (by decide +kernel) (by decide +kernel)
  exact ⟨ops, g, hops, houtput,
    output_causal_iff 4 1 none hops (by decide +kernel) hincreasing hdag⟩

/-! ## §4. A certificate that overtakes its ancestor. -/

/-- Certificates of a round by some authors, with the same parents. -/
def sampleRow (round : ℕ) (authors parents : List ℕ) : List Certificate :=
  authors.map (fun author => Certificate.sample round author parents)

/-- Four batches of a committee of seven.  In the second one the certificate of author 6 of
round 1 is a parent of that of author 0 of round 2.  It waits for those of the authors 3 to 6
of round 2, which are better; the child is not mature and comes before them. -/
def sampleOvertaking : List (List Certificate) :=
  [sampleRow 1 [1, 2, 3, 4, 5] [] ++ sampleRow 2 [2] [1, 2, 3, 4, 5],
    sampleRow 1 [6] [] ++ sampleRow 2 [0] [1, 2, 3, 4, 6] ++
      sampleRow 2 [3, 4, 5, 6] [1, 2, 3, 4, 5] ++ sampleRow 3 [0] [0, 3, 4, 5, 6] ++
      sampleRow 3 [2, 3, 4, 5] [2, 3, 4, 5, 6] ++ sampleRow 4 [0] [0, 2, 3, 4, 5],
    sampleRow 2 [1] [1, 2, 3, 4, 6] ++ sampleRow 3 [1] [1, 3, 4, 5, 6] ++
      sampleRow 4 [1, 2, 3, 4, 5] [1, 2, 3, 4, 5] ++ sampleRow 5 [1, 2, 3, 4, 5] [1, 2, 3, 4, 5] ++
      sampleRow 6 [1] [1, 2, 3, 4, 5],
    sampleRow 6 [2, 3, 4, 5, 6] [1, 2, 3, 4, 5] ++ sampleRow 7 [1, 2, 3, 4, 5] [2, 3, 4, 5, 6] ++
      sampleRow 8 [1] [1, 2, 3, 4, 5]]

/-- What is sent first. -/
def sampleOvertaken : List Certificate :=
  sampleRow 1 [1, 2, 3, 4, 5] [] ++ sampleRow 2 [2] [1, 2, 3, 4, 5]

omit [Crypto] in
set_option maxRecDepth 100000 in
theorem exists_overtakingRun :
    letI := sampleCrypto
    ∃ es s, (spawn 7 4 none).Run es s ∧ Increasing (received es) ∧
      certificates (received es) = sampleOvertaking.flatten ∧
      s.txOutput.take 7 = sampleOvertaken ++ sampleRow 2 [0] [1, 2, 3, 4, 6] ∧
      s.store.lookup (sampleDigest 1 6) = some (Certificate.sample 1 6 []) ∧
      s.store.lookup (sampleDigest 2 0) = some (Certificate.sample 2 0 [1, 2, 3, 4, 6]) :=
  let _ := sampleCrypto
  let ⟨es, s, hrun, hcheck⟩ := System.exec_check (spawn 7 4 none).system
    (sampleOvertaking.zipIdx.map (fun p => sampleDelivery p.2 p.1))
    (fun es s => decide (Increasing (received es) ∧
      certificates (received es) = sampleOvertaking.flatten ∧
      s.txOutput.take 7 = sampleOvertaken ++ sampleRow 2 [0] [1, 2, 3, 4, 6] ∧
      s.store.lookup (sampleDigest 1 6) = some (Certificate.sample 1 6 []) ∧
      s.store.lookup (sampleDigest 2 0) = some (Certificate.sample 2 0 [1, 2, 3, 4, 6])))
    (by decide +kernel)
  ⟨es, s, hrun, of_decide_eq_true hcheck⟩

omit [Crypto] in
/-- The child is sent before the parent. -/
theorem output_overtakes :
    letI := sampleCrypto
    ¬ ∀ (committeeSize windowCap : ℕ) (authorities : Finset PublicKey) es s,
      authorities.card = committeeSize → (spawn committeeSize windowCap none).Run es s →
      Increasing (received es) →
      CommittedDag authorities (AllButFaulty authorities) (certificates (received es)) →
      OutputCausal s := by
  let _ := sampleCrypto
  intro hclaim
  obtain ⟨es, s, hrun, hincreasing, hcs, htake, hparent, hchild⟩ := exists_overtakingRun
  have hdag : CommittedDag ((Finset.range 7).image sampleKey)
      (AllButFaulty ((Finset.range 7).image sampleKey)) (certificates (received es)) := by
    rw [hcs]
    exact CommittedDag.of_list (by decide +kernel) (by decide +kernel) (by decide +kernel)
      (by decide +kernel) (by decide +kernel)
  have hcausal := hclaim 7 4 _ es s (by decide +kernel) hrun hincreasing hdag
  have houtput : s.txOutput = sampleOvertaken ++
      Certificate.sample 2 0 [1, 2, 3, 4, 6] :: s.txOutput.drop 7 := by
    conv_lhs => rw [← List.take_append_drop 7 s.txOutput, htake]
    exact List.append_assoc _ _ _
  have hlink : Link s.store (sampleDigest 2 0) (sampleDigest 1 6) :=
    ⟨_, hchild, by decide +kernel⟩
  have hbefore := hcausal _ _ _ houtput (Certificate.sample 1 6 [])
    ⟨hparent, by decide +kernel, ReflTransGen.single hlink⟩
  exact absurd hbefore (by decide +kernel)

end MrvExecutor

end Mrv
