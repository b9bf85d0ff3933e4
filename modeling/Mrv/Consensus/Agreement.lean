/-
  Mrv.Consensus.Agreement — two tasks commit the same leaders.

  The DAG alone determines a ladder: at most one leader certificate per even
  round.  What `order_leaders` collects is the greedy walk down this ladder along
  ancestors, cut off at the last committed round (`orderLeadersLoop_eq_walk`).
  `chain x` is the uncut walk from `x`.  A supported leader is an ancestor of
  everything two rounds above it, so the chain of a later supported leader passes
  through it and ends with its chain (`chain_eq_append`).

  Hence, in every state of a task, the leaders emitted and pending are the
  reversed chain of one supported leader (`Run.ledger`), and two such chains are
  prefixes of one another.
-/
import Mrv.Consensus.Linked

namespace Mrv

variable [Crypto]

namespace Consensus

variable {task : Consensus} {D : Set Certificate}

/-! ## §1. The ladder of leaders. -/

open Classical in
/-- The certificate of the DAG by the leader of a round. -/
noncomputable def rung (task : Consensus) (D : Set Certificate) (r : ℕ) : Option Certificate :=
  if h : ∃ x ∈ D, x.round = r ∧ task.leaderName r = some x.origin then some h.choose else none

omit [Crypto] in
theorem rung_mem {r : ℕ} {x : Certificate} (h : rung task D r = some x) :
    x ∈ D ∧ x.round = r ∧ task.leaderName r = some x.origin := by
  unfold rung at h
  split at h
  · next hex =>
    obtain rfl := Option.some.inj h
    exact hex.choose_spec
  · exact absurd h.symm (Option.some_ne_none x)

theorem rung_eq_some (hD : QuorumDag task.committee D) {x : Certificate} (hx : x ∈ D)
    (hname : task.leaderName x.round = some x.origin) : rung task D x.round = some x := by
  have hex : ∃ y ∈ D, y.round = x.round ∧ task.leaderName x.round = some y.origin :=
    ⟨x, hx, rfl, hname⟩
  unfold rung
  rw [dif_pos hex]
  obtain ⟨hy, hround, hname'⟩ := hex.choose_spec
  have horigin := Option.some.inj (hname'.symm.trans hname)
  exact congrArg some (hD.unique _ hy _ hx hround horigin)

/-- The leaders from `x` down to the bottom of the ladder. -/
noncomputable def chain (task : Consensus) (D : Set Certificate) (x : Certificate) :
    List Certificate :=
  x :: Walk.walk (rung task D) (Ancestor D) (Walk.downBy2 2 (x.round - 2)) x

/-- A leader of an even round that has been supported. -/
structure SupportedLeader (task : Consensus) (D : Set Certificate) (x : Certificate) : Prop where
  supported : Supported task.committee D x
  name : task.leaderName x.round = some x.origin
  even : x.round % 2 = 0
  two_le : 2 ≤ x.round

section

variable (hfit : 2 * task.committee.totalStake < 2 ^ 32) (hD : QuorumDag task.committee D)

include hfit hD

/-- **The chain of a later supported leader ends with the chain of an earlier one.** -/
theorem chain_eq_append {x y : Certificate} (hx : SupportedLeader task D x)
    (hy : SupportedLeader task D y) (hlt : x.round < y.round) :
    chain task D y = y :: Walk.walk (rung task D) (Ancestor D)
      (Walk.downBy2 (x.round + 2) (y.round - 2)) y ++ chain task D x := by
  have hxeven := hx.even
  have hyeven := hy.even
  have hxtwo := hx.two_le
  have habove : ∀ z ∈ D, x.round + 2 ≤ z.round → Ancestor D z x := by
    intro z hz hround
    exact hD.ancestor_of_supported hfit hx.supported (z.round - (x.round + 2)) z hz (by omega)
  have hsplit : Walk.downBy2 2 (y.round - 2) =
      Walk.downBy2 (x.round + 2) (y.round - 2) ++ x.round :: Walk.downBy2 2 (x.round - 2) :=
    Walk.downBy2_split hxtwo hxtwo (by omega) (by omega)
  unfold chain
  rw [hsplit, Walk.walk_through (rung_eq_some hD hx.supported.mem hx.name)]
  · rfl
  · exact habove y hy.supported.mem (by omega)
  · intro r hr z hz
    obtain ⟨hzD, hzround, _⟩ := rung_mem hz
    have hbounds := (Walk.mem_downBy2 (by omega)).mp hr
    exact habove z hzD (by omega)

/-- **Chains of supported leaders, read upward, are prefixes of one another.** -/
theorem chain_prefix {x y : Certificate} (hx : SupportedLeader task D x)
    (hy : SupportedLeader task D y) :
    (chain task D x).reverse <+: (chain task D y).reverse ∨
      (chain task D y).reverse <+: (chain task D x).reverse := by
  obtain hlt | heq | hlt := Nat.lt_trichotomy x.round y.round
  · left
    rw [chain_eq_append hfit hD hx hy hlt, List.reverse_append]
    exact List.prefix_append _ _
  · have hname := hx.name
    rw [heq, hy.name, Option.some.injEq] at hname
    rw [hD.unique x hx.supported.mem y hy.supported.mem heq hname.symm]
    exact Or.inl (List.prefix_refl _)
  · right
    rw [chain_eq_append hfit hD hy hx hlt, List.reverse_append]
    exact List.prefix_append _ _

end

/-! ## §2. `order_leaders` walks the ladder. -/

section

variable {es : History} {n : Node} (hD : QuorumDag task.committee D)
  (hinj : Set.InjOn Certificate.digest (WithGenesis task.committee D))
  (hfed : FedFrom task D es) (hinv : Inv task es n) (hpresent : Present task es n)

include hD hinj hfed hinv hpresent

/-- **The loop of `order_leaders` is the walk down the ladder.** -/
theorem orderLeadersLoop_eq_walk {rs : List ℕ} :
    ∀ {x : Certificate} {ls : List Certificate}, x ∈ delivered es →
      (∀ r ∈ rs, n.state.lastCommittedRound < r ∧ r < x.round) → rs.Pairwise (· > ·) →
      task.orderLeadersLoop n.state.dag rs x = .ok ls →
      ls = Walk.walk (rung task D) (Ancestor D) rs x := by
  induction rs with
  | nil =>
      intro x ls _ _ _ h
      exact (Except.ok.inj h).symm
  | cons r rs ih =>
      intro x ls hx hbounds hsorted h
      obtain ⟨hlcr, hrx⟩ := hbounds r List.mem_cons_self
      have hbounds' : ∀ r' ∈ rs, n.state.lastCommittedRound < r' ∧ r' < x.round :=
        fun r' hr' => hbounds r' (List.mem_cons_of_mem _ hr')
      obtain ⟨hbelow, hsorted'⟩ := List.pairwise_cons.mp hsorted
      obtain ⟨o, hleader, h⟩ := bind_eq_ok.mp h
      cases o with
      | none =>
          have hrest := ih hx hbounds' hsorted' h
          cases hrung : rung task D r with
          | none => rw [Walk.walk_cons_none hrung]; exact hrest
          | some y =>
              -- the leader exists but did not arrive, so it is no ancestor
              obtain ⟨hyD, hyround, hyname⟩ := rung_mem hrung
              have hnot : ¬ Ancestor D x y := by
                intro hxy
                have hy := hfed.delivered_of_ancestor hD.round_pos hinj hx hxy
                have hhas := hpresent.above hinv hy (by omega)
                obtain ⟨a, ha, hfind⟩ := leader_eq_ok hleader
                rw [hyname, Option.some.injEq] at ha
                unfold State.Has at hhas
                rw [hyround, ha, hfind] at hhas
                exact absurd hhas.symm (Option.some_ne_none _)
              rw [Walk.walk_cons_not_linked hrung hnot]
              exact hrest
      | some e =>
          obtain ⟨d, y⟩ := e
          obtain ⟨_, hyround, hyname, hyhas⟩ := leader_eq_some hinv.sound hleader
          have hy : y ∈ delivered es :=
            delivered_of_known (hinv.known_of_has hyhas) (by omega)
          have hrung : rung task D r = some y := by
            rw [← hyround]
            exact rung_eq_some hD (hfed.mem y hy) (by rw [hyround]; exact hyname)
          obtain ⟨b, hlinked, h⟩ := bind_eq_ok.mp h
          have hiff : b = true ↔ Ancestor D x y :=
            (State.linked_iff_held hinv.sound hyhas (by omega) hlinked).trans
              (held_iff_ancestor hD.round_pos hinj hfed hinv hpresent hx (by omega))
          cases b with
          | false =>
              rw [Walk.walk_cons_not_linked hrung (fun hxy => by simpa using hiff.mpr hxy)]
              exact ih hx hbounds' hsorted' h
          | true =>
              obtain ⟨rest, hrest, rfl⟩ := map_eq_ok.mp h
              rw [Walk.walk_cons_linked hrung (hiff.mp rfl)]
              refine congrArg (y :: ·) (ih hy ?_ hsorted' hrest)
              intro r' hr'
              have hlt := hbelow r' hr'
              exact ⟨(hbounds' r' hr').1, by omega⟩

omit hD hinj hpresent in
/-- A leader that passes the commit test is supported in the DAG. -/
theorem supportedLeader_of_elects {r : ℕ} {x : Certificate} {rest : List Certificate}
    (h : task.Elects n.state r x rest) : SupportedLeader task D x := by
  have htwo := h.two_le
  have hx : x ∈ delivered es := delivered_of_known (hinv.known_of_has h.has) (by omega)
  obtain ⟨stake, hstake, hthreshold⟩ := h.support
  obtain ⟨S, hS, hnames⟩ := State.exists_supporters hinv.sound hstake
  refine ⟨⟨hfed.mem x hx, S, ?_, ?_⟩, h.name, h.even, htwo⟩
  · exact (UInt32.le_iff_toNat_le.mp hthreshold).trans hS
  · intro a ha
    obtain ⟨y, hround, horigin, hhas, hname⟩ := hnames a ha
    have hy : y ∈ delivered es := delivered_of_known (hinv.known_of_has hhas) (by omega)
    exact ⟨y, hfed.mem y hy, horigin, hname, by omega⟩

end

/-! ## §3. The leaders of a run. -/

/-- How a batch names its leader. -/
def leaderKey (x : Certificate) : ℕ × Digest := (x.round, x.digest)

/-- The leader a batch names. -/
def batchKey (b : CommittedSubDag) : ℕ × Digest := (b.leaderRound, b.leaderDigest)

/-- The leaders of the batches sent so far. -/
def leaders (n : Node) : List (ℕ × Digest) := n.output.map batchKey

omit [Crypto] in
theorem leaders_of_output {n : Node} {q post : List CommittedSubDag} {b : CommittedSubDag}
    (h : q ++ b :: post = n.output) :
    leaders n = q.map batchKey ++ batchKey b :: post.map batchKey := by
  unfold leaders
  rw [← h, List.map_append, List.map_cons]

/-- The leaders emitted and pending are the chain of one supported leader. -/
def Ledger (task : Consensus) (D : Set Certificate) (n : Node) : Prop :=
  (n.output = [] ∧ n.pending = []) ∨ ∃ x, SupportedLeader task D x ∧
    leaders n ++ n.pending.map leaderKey = (chain task D x).reverse.map leaderKey

/-- Between two certificates the last committed round is that of the chain's head. -/
theorem lastCommittedRound_of_ledger {es : History} {n : Node} (hinv : Inv task es n)
    {x : Certificate} (h : leaders n = (chain task D x).reverse.map leaderKey) :
    n.state.lastCommittedRound = x.round := by
  have hlast : n.output.getLast?.map CommittedSubDag.leaderRound =
      (leaders n).getLast?.map Prod.fst := by
    unfold leaders
    rw [List.getLast?_map, Option.map_map]
    rfl
  rw [hinv.lastLeader, hlast, h, List.getLast?_map, List.getLast?_reverse]
  rfl

section

variable {es : History} {n n' : Node} (hfit : 2 * task.committee.totalStake < 2 ^ 32)
  (hD : QuorumDag task.committee D)
  (hinj : Set.InjOn Certificate.digest (WithGenesis task.committee D))

include hfit hD hinj

/-- A reception that elects a leader extends the chain to it. -/
theorem ledger_receive {c : Certificate} (hfed : FedFrom task D ((n, .receive c) :: es))
    (hinv : Inv task es n) (hinv' : Inv task ((n, .receive c) :: es) (task.receive n c))
    (hpresent' : Present task ((n, .receive c) :: es) (task.receive n c))
    (hpending : n.pending = []) (h : Ledger task D n) : Ledger task D (task.receive n c) := by
  -- a panic leaves nothing pending, and the ledger as it was
  obtain hnil | hok := pending_receive hpending
  · unfold Ledger leaders at h ⊢
    rw [hpending] at h
    rw [output_receive, hnil]
    exact h
  have hsound := hinv'.sound
  rw [state_receive] at hsound
  obtain hnil | ⟨y, rest, helects, hpend⟩ := leadersToCommit_eq_ok hsound hok
  · unfold Ledger leaders at h ⊢
    rw [hpending] at h
    rw [output_receive, hnil]
    exact h
  -- some leader is elected on the state with the new certificate
  have helects' : task.Elects (task.receive n c).state c.round y rest := by
    rw [state_receive]
    exact helects
  have hlcr : (task.receive n c).state.lastCommittedRound = n.state.lastCommittedRound := by
    rw [state_receive]
    rfl
  have hy := supportedLeader_of_elects hfed hinv' helects'
  have hytwo := helects'.two_le
  have hydelivered : y ∈ delivered ((n, .receive c) :: es) :=
    delivered_of_known (hinv'.known_of_has helects'.has) (by omega)
  have hwalk := orderLeadersLoop_eq_walk hD hinj hfed hinv' hpresent' hydelivered
    (fun r hr => by have hbounds := (Walk.mem_downBy2 (by omega)).mp hr; omega)
    (Walk.downBy2_sorted _ _) helects'.past
  have hlt := helects'.lastCommitted_lt
  rw [hlcr] at hwalk hlt
  refine Or.inr ⟨y, hy, ?_⟩
  unfold leaders
  rw [output_receive, hpend]
  obtain ⟨hout, _⟩ | ⟨x, hx, hchain⟩ := h
  · -- the first leader: the walk goes down to the bottom
    have h0 : n.state.lastCommittedRound = 0 := by
      rw [hinv.lastLeader, hout]
      rfl
    rw [h0] at hwalk
    rw [hout, hwalk]
    rfl
  · -- a later leader: the walk stops above the last chain
    rw [hpending, List.map_nil, List.append_nil] at hchain
    have hlast := lastCommittedRound_of_ledger hinv hchain
    rw [hlast] at hwalk hlt
    have hchain' : n.output.map batchKey =
        (chain task D x).reverse.map leaderKey := hchain
    rw [chain_eq_append hfit hD hx hy hlt, List.reverse_append, List.map_append, hchain', hwalk]

omit hfit hD hinj in
/-- Flattening moves one leader from the pending ones to the emitted ones. -/
theorem ledger_emit {leader : Certificate} {rest batch : List Certificate}
    (hpending : n.pending = leader :: rest) (h : Ledger task D n) :
    Ledger task D (task.emit n leader rest batch) := by
  obtain ⟨_, hnil⟩ | ⟨x, hx, hchain⟩ := h
  · rw [hpending] at hnil
    exact absurd hnil (List.cons_ne_nil _ _)
  · refine Or.inr ⟨x, hx, ?_⟩
    rw [← hchain, hpending]
    simp [leaders, emit, subDag, leaderKey, batchKey]

/-- **Every state of a run has a ledger.** -/
theorem Run.ledger (hrun : task.Run es n) (hfed : FedFrom task D es) : Ledger task D n := by
  refine System.Run.invariant (P := fun es n => FedFrom task D es → Ledger task D n) ?_ ?_
    hrun hfed
  · intro _
    exact Or.inl ⟨rfl, rfl⟩
  · intro es n a n' hrun ih hnext hfed
    have hinv := Run.inv hrun
    have hrun' : task.Run ((n, a) :: es) n' := .step hrun hnext
    cases a with
    | receive c =>
        have hfed' : FedFrom task D es :=
          ⟨fun x hx => hfed.mem x (List.mem_cons_of_mem _ hx), hfed.causal.1⟩
        obtain ⟨_, hpending, rfl⟩ := next_receive hnext
        have hu : UniquePerSlot (delivered ((n, .receive c) :: es)) :=
          fun x hx y hy => hD.unique x (hfed.mem x hx) y (hfed.mem y hy)
        exact ledger_receive hfit hD hinj hfed hinv (Run.inv hrun') (Run.present hrun' hu)
          hpending (ih hfed')
    | commit =>
        obtain ⟨leader, rest, batch, _, hpending, _, _, rfl⟩ := hinv.commit_step hnext
        exact ledger_emit hpending (ih ⟨hfed.mem, hfed.causal⟩)

/-- **Agreement on committed leaders**: whatever two tasks received of one DAG, in
whatever causal order, the leaders they emitted are prefixes of one another. -/
theorem leaders_agree {es₁ es₂ : History} {n₁ n₂ : Node} (hrun₁ : task.Run es₁ n₁)
    (hrun₂ : task.Run es₂ n₂) (hfed₁ : FedFrom task D es₁) (hfed₂ : FedFrom task D es₂) :
    leaders n₁ <+: leaders n₂ ∨ leaders n₂ <+: leaders n₁ := by
  obtain ⟨hout, _⟩ | ⟨x, hx, hchain₁⟩ := Run.ledger hfit hD hinj hrun₁ hfed₁
  · unfold leaders
    rw [hout]
    exact Or.inl (List.nil_prefix)
  obtain ⟨hout, _⟩ | ⟨y, hy, hchain₂⟩ := Run.ledger hfit hD hinj hrun₂ hfed₂
  · unfold leaders
    rw [hout]
    exact Or.inr (List.nil_prefix)
  have h₁ : leaders n₁ <+: (chain task D x).reverse.map leaderKey := by
    rw [← hchain₁]
    exact List.prefix_append _ _
  have h₂ : leaders n₂ <+: (chain task D y).reverse.map leaderKey := by
    rw [← hchain₂]
    exact List.prefix_append _ _
  obtain hxy | hyx := chain_prefix hfit hD hx hy
  · exact List.prefix_or_prefix_of_prefix (h₁.trans (hxy.map leaderKey)) h₂
  · exact List.prefix_or_prefix_of_prefix h₁ (h₂.trans (hyx.map leaderKey))

end

omit [Crypto] in
/-- Two nodes that receive one DAG in different orders. -/
theorem leaders_agree_sample :
    letI := sampleCrypto
    ∃ es₁ n₁ es₂ n₂, sampleTask.Run es₁ n₁ ∧ sampleTask.Run es₂ n₂ ∧
      delivered es₁ = earlyOrder.reverse ∧ delivered es₂ = lateOrder.reverse ∧
      n₁.output.length = 2 ∧ (leaders n₁ <+: leaders n₂ ∨ leaders n₂ <+: leaders n₁) := by
  let _ := sampleCrypto
  obtain ⟨es₁, n₁, h₁⟩ := exists_earlyRun
  obtain ⟨es₂, n₂, h₂⟩ := exists_lateRun
  obtain ⟨⟨hmem₁, hcausal₁, _⟩, hmem₂, hcausal₂, _⟩ := causal_sampleOrders
  obtain ⟨hD, hinj⟩ := quorumDag_sampleDag
  refine ⟨es₁, n₁, es₂, n₂, h₁.run, h₂.run, h₁.delivered, h₂.delivered, ?_,
    leaders_agree (by decide +kernel) hD hinj h₁.run h₂.run (h₁.fed hmem₁ hcausal₁)
      (h₂.fed hmem₂ hcausal₂)⟩
  simpa using congrArg List.length h₁.batches

end Consensus

end Mrv
