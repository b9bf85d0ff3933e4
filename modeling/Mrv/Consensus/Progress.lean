/-
  Mrv.Consensus.Progress — a leader that a quorum names is committed.

  The commit test of a leader is made when a certificate three rounds above it comes
  in, on what is in memory by then.  A leader with f + 1 of support may be missed by
  it.  One that a quorum of the next round names is not: whatever certificate comes three
  rounds above has a parent whose quorum of parents shares f + 1 with that quorum
  (`pending_of_quorate`).  So every task that gets that far commits the leader
  (`Run.commits_quorate`), wherever its other certificates come from.
-/
import Mrv.Consensus.Agreement

namespace Mrv

variable [Crypto]

/-! ## §1. The stake test. -/

omit [Crypto] in
/-- **Two quorums share f + 1.** -/
theorem Committee.validity_le_inter {c : Committee} {S T : Finset PublicKey}
    (hfit : 2 * c.totalStake < 2 ^ 32) (hS : c.quorumThreshold.toNat ≤ ∑ a ∈ S, c.weight a)
    (hT : c.quorumThreshold.toNat ≤ ∑ a ∈ T, c.weight a) :
    c.validityThreshold.toNat ≤ ∑ a ∈ S ∩ T, c.weight a := by
  have hsplit : ∑ a ∈ S ∪ T, c.weight a + ∑ a ∈ S ∩ T, c.weight a
      = ∑ a ∈ S, c.weight a + ∑ a ∈ T, c.weight a := Finset.sum_union_inter
  have hunion := c.sum_weight_le_totalStake (S ∪ T)
  rw [quorumThreshold_toNat hfit] at hS hT
  rw [validityThreshold_toNat hfit]
  omega

namespace State

variable {s : State} {known : Certificate → Prop}

/-- The stake counted for a leader is at least that of any authorities whose certificates in
memory name it. -/
theorem support_le (hs : s.Sound known) {task : Consensus}
    (hfit : 2 * task.committee.totalStake < 2 ^ 32) {r : ℕ} {d : Digest} {stake : Stake}
    (h : task.support s.dag r d = .ok stake) {S : Finset PublicKey}
    (hS : ∀ a ∈ S, ∃ y, y.round = r ∧ y.origin = a ∧ s.Has y ∧ d ∈ y.header.parents) :
    ∑ a ∈ S, task.committee.weight a ≤ stake.toNat := by
  unfold Consensus.support at h
  cases hlookup : s.dag.lookup r with
  | none => rw [hlookup] at h; cases h
  | some authorities =>
      rw [hlookup] at h
      obtain rfl := Except.ok.inj h
      set voters := authorities.values.filter (fun e => decide (d ∈ e.2.header.parents))
        with hvoters
      have hnodup : (voters.map (fun e => e.2.origin)).Nodup :=
        (origins_nodup hs hlookup).sublist (List.filter_sublist.map _)
      have hsub : S ⊆ (voters.map (fun e => e.2.origin)).toFinset := by
        intro a ha
        obtain ⟨y, rfl, rfl, hhas, hnames⟩ := hS a ha
        obtain ⟨authorities', hlookup', hmem⟩ := Dag.find_eq_some_iff.mp hhas
        rw [hlookup, Option.some.injEq] at hlookup'
        rw [← hlookup'] at hmem
        refine List.mem_toFinset.mpr (List.mem_map.mpr ⟨(y.digest, y), ?_, rfl⟩)
        exact List.mem_filter.mpr
          ⟨AList.mem_values_of_lookup hmem, decide_eq_true hnames⟩
      have hle : ∑ a ∈ S, task.committee.weight a
          ≤ ∑ a ∈ (voters.map (fun e => e.2.origin)).toFinset, task.committee.weight a :=
        Finset.sum_le_sum_of_subset hsub
      -- the stakes of distinct authorities do not wrap around
      have htotal := task.committee.sum_weight_le_totalStake
        (voters.map (fun e => e.2.origin)).toFinset
      rw [Committee.toNat_sum, Nat.mod_eq_of_lt]
      · rw [List.sum_toFinset _ hnodup, List.map_map] at hle
        rw [List.map_map]
        exact hle
      · rw [List.sum_toFinset _ hnodup, List.map_map] at htotal
        rw [List.map_map]
        have hlt : task.committee.totalStake < 2 ^ 32 := by omega
        exact Nat.lt_of_le_of_lt htotal hlt

end State

namespace Consensus

variable {task : Consensus} {D : Set Certificate} {es : History} {n : Node} {x : Certificate}

/-- **The commit test passes** for a leader in memory with f + 1 of support there. -/
theorem mem_leadersToCommit {s : State} (heven : x.round % 2 = 0) (htwo : 2 ≤ x.round) (hlt : s.lastCommittedRound < x.round)
    (hname : task.leaderName x.round = some x.origin) (hhas : s.Has x)
    (hsupport : ∀ stake, task.support s.dag (x.round + 1) x.digest = .ok stake →
      task.committee.validityThreshold.toNat ≤ stake.toNat)
    {ls : List Certificate} (h : task.leadersToCommit s (x.round + 3) = .ok ls) : x ∈ ls := by
  unfold leadersToCommit at h
  rw [if_neg (by omega)] at h
  dsimp only at h
  rw [if_neg (by omega), if_neg (by omega)] at h
  obtain ⟨o, hleader, h⟩ := bind_eq_ok.mp h
  have hround : x.round + 3 - 1 - 2 = x.round := by omega
  rw [hround] at hleader
  obtain ⟨a, ha, hfind⟩ := leader_eq_ok hleader
  rw [hname, Option.some.injEq] at ha
  obtain rfl : o = some (x.digest, x) := by
    rw [← hfind, ← ha]
    exact hhas
  obtain ⟨stake, hstake, h⟩ := bind_eq_ok.mp h
  rw [show x.round + 3 - 1 - 1 = x.round + 1 by omega] at hstake
  have henough := hsupport stake hstake
  rw [if_neg (fun hlow => Nat.not_lt.mpr henough (UInt32.lt_iff_toNat_lt.mp hlow))] at h
  obtain ⟨ls', horder, rfl⟩ := map_eq_ok.mp h
  unfold orderLeaders at horder
  rw [if_neg (by omega)] at horder
  obtain ⟨rest, _, rfl⟩ := map_eq_ok.mp horder
  exact List.mem_reverse.mpr List.mem_cons_self

/-! ## §2. Leaders that a quorum names. -/

/-- A leader of an even round that certificates of a quorum name as a parent. -/
structure QuorateLeader (task : Consensus) (D : Set Certificate) (x : Certificate) : Prop where
  mem : x ∈ D
  name : task.leaderName x.round = some x.origin
  even : x.round % 2 = 0
  two_le : 2 ≤ x.round
  quorum : ∃ S : Finset PublicKey,
    task.committee.quorumThreshold.toNat ≤ ∑ a ∈ S, task.committee.weight a ∧
      ∀ a ∈ S, ∃ y ∈ D, y.origin = a ∧ y.Parent x

section

variable (hfit : 2 * task.committee.totalStake < 2 ^ 32) (hD : QuorumDag task.committee D)

include hfit

theorem QuorateLeader.supportedLeader (hx : QuorateLeader task D x) : SupportedLeader task D x := by
  obtain ⟨S, hS, hnames⟩ := hx.quorum
  refine ⟨⟨hx.mem, S, ?_, hnames⟩, hx.name, hx.even, hx.two_le⟩
  rw [Committee.quorumThreshold_toNat hfit] at hS
  rw [Committee.validityThreshold_toNat hfit]
  omega

include hD

omit hfit in
/-- A certificate above round 1 has parents in the DAG by a quorum. -/
theorem exists_parents (hx : x ∈ D) (hround : 1 < x.round) : ∃ S : Finset PublicKey,
    task.committee.quorumThreshold.toNat ≤ ∑ a ∈ S, task.committee.weight a ∧
      ∀ a ∈ S, ∃ y ∈ D, y.origin = a ∧ x.Parent y := by
  obtain ⟨S, hS, hparents⟩ := hD.quorum x hx
  refine ⟨S, hS, fun a ha => ?_⟩
  obtain ⟨y, hy | hgenesis, horigin, hparent⟩ := hparents a ha
  · exact ⟨y, hy, horigin, hparent⟩
  · have hzero := Certificate.round_of_mem_genesis hgenesis
    have hbelow := hparent.2
    omega

omit [Crypto] hfit hD in
/-- A quorum is not empty. -/
theorem exists_mem_of_quorum {S : Finset PublicKey}
    (hS : task.committee.quorumThreshold.toNat ≤ ∑ a ∈ S, task.committee.weight a) :
    ∃ a, a ∈ S := by
  by_contra hempty
  have hpos := task.committee.quorumThreshold_pos
  rw [Finset.eq_empty_of_forall_notMem (fun a ha => hempty ⟨a, ha⟩), Finset.sum_empty] at hS
  omega

/-- **What is three rounds above a quorate leader** has grandparents by f + 1 that name it. -/
theorem QuorateLeader.shared (hx : QuorateLeader task D x) {c : Certificate} (hc : c ∈ D)
    (hround : c.round = x.round + 3) : ∃ y ∈ D, c.Parent y ∧ ∃ S : Finset PublicKey,
      task.committee.validityThreshold.toNat ≤ ∑ a ∈ S, task.committee.weight a ∧
        ∀ a ∈ S, ∃ z ∈ D, z.origin = a ∧ y.Parent z ∧ z.Parent x := by
  obtain ⟨S₁, hS₁, hparents⟩ := exists_parents hD hc (by omega)
  obtain ⟨a, ha⟩ := exists_mem_of_quorum hS₁
  obtain ⟨y, hy, _, hcy⟩ := hparents a ha
  have hyround : y.round = x.round + 2 := by
    have hbelow := hcy.2
    omega
  obtain ⟨S₂, hS₂, hgrandparents⟩ := exists_parents hD hy (by omega)
  obtain ⟨S, hS, hchildren⟩ := hx.quorum
  refine ⟨y, hy, hcy, S₂ ∩ S, Committee.validity_le_inter hfit hS₂ hS, fun b hb => ?_⟩
  obtain ⟨hb₂, hbS⟩ := Finset.mem_inter.mp hb
  obtain ⟨z, hz, hzorigin, hyz⟩ := hgrandparents b hb₂
  obtain ⟨z', hz', hzorigin', hzx⟩ := hchildren b hbS
  have hzround : z.round = z'.round := by
    have hbelow := hyz.2
    have hbelow' := hzx.2
    omega
  obtain rfl := hD.unique z hz z' hz' hzround (hzorigin.trans hzorigin'.symm)
  exact ⟨z, hz, hzorigin, hyz, hzx⟩

/-- A quorate leader is in the chain of every later supported one. -/
theorem QuorateLeader.mem_chain (hx : QuorateLeader task D x) {y : Certificate}
    (hy : SupportedLeader task D y) (hle : x.round ≤ y.round) : x ∈ chain task D y := by
  have hself : x ∈ chain task D x := List.mem_cons_self
  obtain hlt | heq := Nat.lt_or_eq_of_le hle
  · rw [chain_eq_append hfit hD (hx.supportedLeader hfit) hy hlt]
    exact List.mem_append_right _ hself
  · have hname := hx.name
    rw [heq, hy.name, Option.some.injEq] at hname
    rw [← hD.unique x hx.mem y hy.supported.mem heq hname.symm]
    exact hself

end

/-! ## §3. Runs. -/

section

variable (hfit : 2 * task.committee.totalStake < 2 ^ 32) (hD : QuorumDag task.committee D)
  (hinj : Set.InjOn Certificate.digest (WithGenesis task.committee D))

include hD hinj

/-- What is delivered is populated down to round 1. -/
theorem FedFrom.exists_round (hfed : FedFrom task D es) {c : Certificate} (hc : c ∈ delivered es)
    {k : ℕ} (hk : 0 < k) (hle : k ≤ c.round) : ∃ y ∈ delivered es, y.round = k := by
  obtain ⟨j, hj⟩ : ∃ j, c.round = k + j := Nat.exists_eq_add_of_le hle
  induction j generalizing c with
  | zero => exact ⟨c, hc, by omega⟩
  | succ j ih =>
      obtain ⟨S, hS, hparents⟩ := exists_parents hD (hfed.mem c hc) (by omega)
      obtain ⟨a, ha⟩ := exists_mem_of_quorum hS
      obtain ⟨y, hy, _, hcy⟩ := hparents a ha
      have hbelow := hcy.2
      exact ih (hfed.closed hD.round_pos hinj hc hy hcy.1) (by omega) (by omega)

include hfit

/-- **A certificate three rounds above a quorate leader** makes the task commit it, unless it
did already. -/
theorem pending_of_quorate (hx : QuorateLeader task D x) {c : Certificate}
    (hfed : FedFrom task D ((n, .receive c) :: es))
    (hinv' : Inv task ((n, .receive c) :: es) (task.receive n c))
    (hpresent' : Present task ((n, .receive c) :: es) (task.receive n c))
    (hlive : (task.receive n c).panic = none) (hround : c.round = x.round + 3)
    (hlt : n.state.lastCommittedRound < x.round) : x ∈ (task.receive n c).pending := by
  have hc : c ∈ delivered ((n, .receive c) :: es) := List.mem_cons_self
  obtain ⟨y, hy, hcy, S, hS, hshared⟩ := hx.shared hfit hD (hfed.mem c hc) hround
  have hclosed : ∀ {u v : Certificate}, u ∈ delivered ((n, .receive c) :: es) → v ∈ D →
      u.Names v → v ∈ delivered ((n, .receive c) :: es) :=
    fun hu hv hnames => hfed.closed hD.round_pos hinj hu hv hnames
  have hydel := hclosed hc hy hcy.1
  have hlcr : (task.receive n c).state.lastCommittedRound = n.state.lastCommittedRound := by
    rw [state_receive]
    rfl
  have hmemory : ∀ {u : Certificate}, u ∈ delivered ((n, .receive c) :: es) →
      x.round ≤ u.round → (inserted n.state c).Has u := by
    intro u hu hle
    rw [← state_receive]
    exact hpresent'.above hinv' hu (by omega)
  obtain ⟨a, ha⟩ : ∃ a, a ∈ S := by
    by_contra hempty
    rw [Finset.eq_empty_of_forall_notMem (fun a ha => hempty ⟨a, ha⟩), Finset.sum_empty,
      Committee.validityThreshold_toNat hfit] at hS
    -- the leader's quorum has stake
    obtain ⟨T, hT, _⟩ := hx.quorum
    have htotal := task.committee.sum_weight_le_totalStake T
    rw [Committee.quorumThreshold_toNat hfit] at hT
    omega
  obtain ⟨z, hz, _, hyz, hzx⟩ := hshared a ha
  have hxdel := hclosed (hclosed hydel hz hyz.1) hx.mem hzx.1
  have hsound := hinv'.sound
  rw [state_receive] at hsound
  obtain ⟨ls, hls⟩ : ∃ ls, task.leadersToCommit (inserted n.state c) c.round = .ok ls := by
    cases hleaders : task.leadersToCommit (inserted n.state c) c.round with
    | ok ls => exact ⟨ls, rfl⟩
    | error e =>
        unfold inserted at hleaders
        unfold receive at hlive
        simp only [hleaders] at hlive
        exact absurd hlive (Option.some_ne_none e)
  have hpending : (task.receive n c).pending = ls := by
    unfold inserted at hls
    unfold receive
    simp only [hls]
  rw [hpending]
  rw [hround] at hls
  refine mem_leadersToCommit (s := inserted n.state c) hx.even hx.two_le hlt hx.name (hmemory hxdel (Nat.le_refl _))
    (fun stake hstake => ?_) hls
  refine hS.trans (State.support_le hsound hfit hstake fun b hb => ?_)
  obtain ⟨w, hw, hworigin, hyw, hwx⟩ := hshared b hb
  have hwround : x.round + 1 = w.round := hwx.2
  exact ⟨w, hwround.symm, hworigin, hmemory (hclosed hydel hw hyw.1) (by omega), hwx.1⟩

/-- **Every task commits a quorate leader** when a certificate three rounds above it came in. -/
theorem Run.commits_quorate (hrun : task.Run es n) (hx : QuorateLeader task D x)
    (hfed : FedFrom task D es) (hlive : n.panic = none)
    (hreached : ∃ c ∈ delivered es, x.round + 3 ≤ c.round) :
    leaderKey x ∈ leaders n ++ n.pending.map leaderKey := by
  obtain ⟨c, hc, hle⟩ := hreached
  obtain ⟨c, hc, hround⟩ := hfed.exists_round hD hinj hc (k := x.round + 3) (by omega) hle
  refine System.Run.invariant (P := fun es n => FedFrom task D es → n.panic = none →
    c ∈ delivered es → leaderKey x ∈ leaders n ++ n.pending.map leaderKey) ?_ ?_ hrun hfed hlive hc
  · exact fun _ _ hc => absurd hc List.not_mem_nil
  · intro es n a n' hrun ih hnext hfed hlive hc
    have hinv := Run.inv hrun
    have hrun' : task.Run ((n, a) :: es) n' := .step hrun hnext
    cases a with
    | receive d =>
        have hfed' : FedFrom task D es := hfed.tail
        obtain ⟨hpanic, hpending, rfl⟩ := next_receive hnext
        have hsame : leaders (task.receive n d) = leaders n := by
          unfold leaders
          rw [output_receive]
        by_cases hmem : c ∈ delivered es
        · have hearlier := ih hfed' hpanic hmem
          rw [hpending, List.map_nil, List.append_nil] at hearlier
          rw [hsame]
          exact List.mem_append_left _ hearlier
        obtain rfl : c = d := (List.mem_cons.mp hc).resolve_right hmem
        by_cases hlt : n.state.lastCommittedRound < x.round
        · have hu : UniquePerSlot (delivered ((n, .receive c) :: es)) :=
            fun y hy z hz => hD.unique y (hfed.mem y hy) z (hfed.mem z hz)
          have hin := pending_of_quorate hfit hD hinj hx hfed (Run.inv hrun')
            (Run.present hrun' hu) hlive hround hlt
          exact List.mem_append_right _ (List.mem_map_of_mem hin)
        · -- a leader of a later round was committed, on top of this one
          obtain ⟨hout, _⟩ | ⟨y, hy, hchain⟩ := Run.ledger hfit hD hinj hrun hfed'
          · have hzero : n.state.lastCommittedRound = 0 := by
              rw [hinv.lastLeader, hout]
              rfl
            have htwo := hx.two_le
            omega
          · rw [hpending, List.map_nil, List.append_nil] at hchain
            have hlast := lastCommittedRound_of_ledger hinv hchain
            rw [hsame, hchain]
            refine List.mem_append_left _ (List.mem_map_of_mem (List.mem_reverse.mpr ?_))
            exact hx.mem_chain hfit hD hy (by omega)
    | commit =>
        obtain ⟨leader, rest, batch, hpanic, hpending, _, _, rfl⟩ := hinv.commit_step hnext
        have hearlier := ih hfed.tail hpanic hc
        rw [hpending] at hearlier
        simpa [leaders, emit, subDag, leaderKey, batchKey] using hearlier

end

end Consensus

end Mrv
