/-
  Mrv.Protocol.Progress — what keeps a good authority from committing, and what does not.

  Only a certificate that is let through as genesis stops the consensus task of a good
  authority (`consensus_runs_iff`): whatever else its primary accepts comes after its
  parents, by a quorum, so that the rounds the task expects are there.

  A leader that certificates of a quorum name, accepted by whichever good authorities, is
  committed by every good authority whose consensus task gets three rounds further
  (`quorate_leader_committed`).
-/
import Mrv.Consensus.Panic
import Mrv.Consensus.Progress
import Mrv.Protocol.Agreement

namespace Mrv

open Mrv.Consensus (leaders leaderKey FedFrom FedByQuorums QuorateLeader UniquePerSlot delivered
  bareHistory)

variable [Crypto]

/-! ## §1. Tasks fed from a DAG. -/

namespace Consensus

variable {task : Consensus} {D : Set Certificate} {es : History} {n : Node}

/-- A part of a DAG in causal order has parents by quorums. -/
theorem FedFrom.byQuorums (hD : QuorumDag task.committee D)
    (hinj : Set.InjOn Certificate.digest (WithGenesis task.committee D))
    (hfed : FedFrom task D es) : FedByQuorums task.committee (delivered es) := by
  induction es with
  | nil => exact trivial
  | cons e es ih =>
      obtain ⟨m, a⟩ := e
      cases a with
      | commit => exact ih hfed.tail
      | receive c =>
          refine ⟨ih hfed.tail, hfed.causal.2, fun _ => ?_⟩
          obtain ⟨S, hS, hparents⟩ := hD.quorum c (hfed.mem c List.mem_cons_self)
          refine ⟨S, hS, fun a ha => ?_⟩
          obtain ⟨y, hy, horigin, hparent⟩ := hparents a ha
          refine ⟨y, ?_, horigin, hparent⟩
          obtain ⟨g, hg, hdigest⟩ | ⟨z, hz, hdigest⟩ := hfed.causal.2 _ hparent.1
          · exact Or.inr (hinj (Or.inr hg) hy hdigest ▸ hg)
          · exact Or.inl (hinj (Or.inl (hfed.tail.mem z hz)) hy hdigest ▸ hz)

/-- **A task that is fed from a DAG does not panic.** -/
theorem Run.live_of_fed (hrun : task.Run es n) (hne : task.committee.authorities.entries ≠ [])
    (hD : QuorumDag task.committee D)
    (hinj : Set.InjOn Certificate.digest (WithGenesis task.committee D))
    (hfed : FedFrom task D es) : n.panic = none := by
  refine System.Run.invariant (P := fun es n => FedFrom task D es → n.panic = none) ?_ ?_ hrun hfed
  · exact fun _ => rfl
  · intro es n a n' hrun ih hnext hfed
    have hinv := Run.inv hrun
    have hlive := ih hfed.tail
    cases a with
    | receive c =>
        obtain ⟨_, hpending, rfl⟩ := next_receive hnext
        have hu : UniquePerSlot (delivered ((n, .receive c) :: es)) :=
          fun x hx y hy => hD.unique x (hfed.mem x hx) y (hfed.mem y hy)
        exact panic_receive_none hne hinv (Run.present hrun hu.tail) hlive hpending
          (hfed.byQuorums hD hinj) hu (hD.round_pos c (hfed.mem c List.mem_cons_self))
    | commit =>
        obtain ⟨leader, rest, batch, _, _, _, _, rfl⟩ := hinv.commit_step hnext
        exact hlive

end Consensus

namespace Network

variable {self : Network} {es : History} {s : PublicKey → Process} {name : PublicKey}

/-! ## §2. When consensus stops. -/

section

variable (h : Assumptions self es s) (hrun : self.Run es s) (hgood : name ∈ self.good)

include h hrun hgood

/-- What the consensus task of a good authority took, if nothing is of round 0. -/
theorem Assumptions.fedFrom_of_pos
    (hpos : ∀ c ∈ (s name).primary.core.txConsensus.take (s name).certificates, 0 < c.round) :
    FedFrom self.task (self.dag s)
      (bareHistory ((self.config name).consensusHistory (self.history name es))) := by
  refine h.fedFrom hrun hgood (List.nil_append _).symm fun c hc => hpos c ?_
  rw [(ProcessConfig.Run.channels (hrun.party name)).delivered, List.mem_reverse] at hc
  exact hc

omit h in
/-- **When consensus stops**: the consensus task of a good authority runs on exactly as long
as it took no certificate that its primary let through as genesis, whatever the other
authorities send, if subtractions are checked and no good authority processes a stale
header. -/
theorem consensus_runs_iff (h : FreshAssumptions self es s) :
    (s name).consensus.panic = none ↔
      ∀ c ∈ (s name).primary.core.txConsensus.take (s name).certificates,
        ¬ Certificate.LetThrough self.committee c := by
  have hdelivered := (ProcessConfig.Run.channels (hrun.party name)).delivered
  constructor
  · intro hlive c hc
    refine not_letThrough_of_pos ((Consensus.Run.inv (hrun.consensus name)).delivered_pos hlive c ?_)
    rw [hdelivered]
    exact List.mem_reverse.mpr hc
  · intro hnot
    have hpos : ∀ c ∈ (s name).primary.core.txConsensus.take (s name).certificates,
        0 < c.round := by
      intro c hc
      by_contra hzero
      exact hnot c hc (h.letThrough_of_zero hrun hgood (List.mem_of_mem_take hc) (by omega))
    have hne : self.task.committee.authorities.entries ≠ [] := by
      intro hempty
      have hweight := h.positive name hgood
      rw [Committee.weight_eq_zero] at hweight
      · exact absurd hweight (Nat.lt_irrefl 0)
      · unfold Committee.members BTreeMap.keys
        rw [show self.committee.authorities.entries = [] from hempty]
        exact Finset.notMem_empty _
    have hlive : (s name).consensus.bare.panic = none :=
      Consensus.Run.live_of_fed (Consensus.Run.bare (hrun.consensus name)) hne
        (h.quorumDag_dag hrun) (h.injOn_dag hrun) (h.fedFrom_of_pos hrun hgood hpos)
    exact hlive

/-! ## §3. Progress. -/

omit h in
/-- **Leaders that a quorum names are committed**: if good authorities accepted a leader of an
even round and certificates of a quorum that name it, then every good authority whose
consensus task runs and took a certificate at least three rounds above the leader has
committed the leader, or will do so before it takes another certificate, as long as no good
authority processes a stale header. -/
theorem quorate_leader_committed (h : FreshAssumptions self es s) {leader : Certificate}
    (hleader : QuorateLeader self.task (self.dag s) leader)
    (hlive : (s name).consensus.panic = none)
    (hreached : ∃ c ∈ (s name).primary.core.txConsensus.take (s name).certificates,
      leader.round + 3 ≤ c.round) :
    leaderKey leader
      ∈ leaders (s name).consensus ++ (s name).consensus.pending.map leaderKey := by
  have hdelivered := (ProcessConfig.Run.channels (hrun.party name)).delivered
  have hpos : ∀ c ∈ (s name).primary.core.txConsensus.take (s name).certificates,
      0 < c.round := by
    intro c hc
    refine (Consensus.Run.inv (hrun.consensus name)).delivered_pos hlive c ?_
    rw [hdelivered]
    exact List.mem_reverse.mpr hc
  have hfit : 2 * self.task.committee.totalStake < 2 ^ 32 := h.fit
  have hcommitted := Consensus.Run.commits_quorate hfit (h.quorumDag_dag hrun) (h.injOn_dag hrun)
    (Consensus.Run.bare (hrun.consensus name)) hleader (h.fedFrom_of_pos hrun hgood hpos) hlive (by
      obtain ⟨c, hc, hle⟩ := hreached
      refine ⟨c.bare, ?_, hle⟩
      rw [Consensus.delivered_bareHistory, hdelivered]
      exact List.mem_map_of_mem (List.mem_reverse.mpr hc))
  -- keys do not mention votes and signatures
  have houtput : ((s name).consensus.output.map CommittedSubDag.bare).map Consensus.batchKey
      = (s name).consensus.output.map Consensus.batchKey := by
    rw [List.map_map]
    rfl
  have hpending : ((s name).consensus.pending.map Certificate.bare).map leaderKey
      = (s name).consensus.pending.map leaderKey := by
    rw [List.map_map]
    rfl
  unfold leaders at hcommitted ⊢
  rw [← houtput, ← hpending]
  exact hcommitted

end

open Mrv.Core (sampleHash)

omit [Crypto] in
/-- Two authorities that took certificates of five rounds run on. -/
theorem consensus_runs_iff_sample :
    letI := sampleHash
    ∃ es s, samplePair.Run es s ∧ (s (sampleKey 2)).certificates = 5 ∧
      ∀ c ∈ (s (sampleKey 2)).primary.core.txConsensus.take (s (sampleKey 2)).certificates,
        ¬ Certificate.LetThrough samplePair.committee c := by
  let _ := sampleHash
  obtain ⟨es, s, hrun, h, hpair⟩ := exists_samplePairRun
  have hgood : sampleKey 2 ∈ samplePair.good := by decide
  obtain ⟨_, _, hcertificates, hlive⟩ := hpair _ hgood
  exact ⟨es, s, hrun, hcertificates, (consensus_runs_iff hrun hgood h).mp hlive⟩

omit [Crypto] in
set_option maxRecDepth 10000 in
/-- The leader of round 2, which the first authority names, is committed by the second. -/
theorem quorate_leader_committed_sample :
    letI := sampleHash
    ∃ es s leader, samplePair.Run es s ∧ QuorateLeader samplePair.task (samplePair.dag s) leader ∧
      leaderKey leader ∈ leaders (s (sampleKey 2)).consensus
        ++ (s (sampleKey 2)).consensus.pending.map leaderKey := by
  let _ := sampleHash
  obtain ⟨es, s, hrun, h, hpair⟩ := exists_samplePairRun
  have hgood : sampleKey 2 ∈ samplePair.good := by decide
  obtain ⟨_, haccepted, hcertificates, hlive⟩ := hpair _ hgood
  have hmem : ∀ r < 5, (sampleTower r).bare ∈ samplePair.dag s := by
    intro r hr
    refine ⟨sampleKey 2, hgood, sampleTower r, ?_, ?_, rfl⟩
    · rw [haccepted]
      exact List.mem_map_of_mem (List.mem_range.mpr hr)
    · cases r <;> exact Nat.succ_pos _
  have hleader : QuorateLeader samplePair.task (samplePair.dag s) (sampleTower 1).bare :=
    ⟨hmem 1 (by decide), by decide +kernel, by decide, by decide, {sampleKey 1}, by decide +kernel,
      fun a ha => ⟨(sampleTower 2).bare, hmem 2 (by decide), (Finset.mem_singleton.mp ha).symm ▸ rfl,
        by decide +kernel⟩⟩
  refine ⟨es, s, _, hrun, hleader, quorate_leader_committed hrun hgood h hleader hlive ?_⟩
  refine ⟨sampleTower 4, ?_, by decide⟩
  rw [haccepted, hcertificates, List.take_of_length_le (by simp)]
  exact List.mem_map_of_mem (List.mem_range.mpr (by decide))

end Network

end Mrv
