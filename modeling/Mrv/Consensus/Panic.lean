/-
  Mrv.Consensus.Panic — when the consensus task stops.

  The task subtracts from rounds and expects rounds of its memory to be there.
  The expectations are met: above the last committed round nothing is pruned, and
  below a delivered certificate every round is populated, down to round 1
  (`exists_round`).  So every computation that starts from a delivered certificate
  of a positive round returns (`leadersToCommit_total`).

  A certificate of round 0 stops the task at once: the first thing it does is
  `round - 1`.  Genesis certificates pass `Certificate::verify` and are forwarded,
  so the task does not panic exactly when none is delivered (`no_panic_iff`).
-/
import Mrv.Consensus.Linked

namespace Mrv

variable [Crypto]

namespace Consensus

variable {self : Consensus} {s : State} {known : Certificate → Prop} {es : History} {n : Node}

/-! ## §1. What is delivered. -/

/-- Each certificate of a list comes after its parents, genesis certificates apart; and
those of a positive round have parents of the previous round by a quorum of authorities
(latest first). -/
def FedByQuorums (committee : Committee) : List Certificate → Prop
  | [] => True
  | c :: cs => FedByQuorums committee cs ∧
      (∀ p ∈ c.header.parents,
        (∃ g ∈ Certificate.genesis committee, g.digest = p) ∨ ∃ x ∈ cs, x.digest = p) ∧
      (0 < c.round → ∃ S : Finset PublicKey,
        committee.quorumThreshold.toNat ≤ ∑ a ∈ S, committee.weight a ∧
          ∀ a ∈ S, ∃ y, (y ∈ cs ∨ y ∈ Certificate.genesis committee) ∧ y.origin = a ∧ c.Parent y)

/-- **Every round below a delivered certificate is populated.** -/
theorem exists_round {committee : Committee} {cs : List Certificate}
    (h : FedByQuorums committee cs) {c : Certificate} (hc : c ∈ cs) {k : ℕ} (hk : 0 < k)
    (hle : k ≤ c.round) : ∃ y ∈ cs, y.round = k := by
  induction cs generalizing c with
  | nil => exact absurd hc List.not_mem_nil
  | cons x cs ih =>
      obtain ⟨hcs, _, hquorum⟩ := h
      obtain rfl | hc := List.mem_cons.mp hc
      · by_cases heq : c.round = k
        · exact ⟨c, List.mem_cons_self, heq⟩
        -- a quorum is not empty: go on from a parent
        obtain ⟨S, hS, hparents⟩ := hquorum (by omega)
        have hpos := committee.quorumThreshold_pos
        have hne : S.Nonempty := by
          apply Finset.nonempty_of_ne_empty
          intro hempty
          rw [hempty, Finset.sum_empty] at hS
          omega
        obtain ⟨a, ha⟩ := hne
        obtain ⟨y, hy, _, _, hround⟩ := hparents a ha
        obtain hy | hgenesis := hy
        · obtain ⟨z, hz, hzk⟩ := ih hcs hy (by omega)
          exact ⟨z, List.mem_cons_of_mem _ hz, hzk⟩
        · have h0 := Certificate.round_of_mem_genesis hgenesis
          omega
      · obtain ⟨z, hz, hzk⟩ := ih hcs hc hle
        exact ⟨z, List.mem_cons_of_mem _ hz, hzk⟩

/-! ## §2. The functions return. -/

omit [Crypto] in
/-- With authorities there is a leader to look for. -/
theorem leader_total (hne : self.committee.authorities.entries ≠ []) (r : ℕ) (dag : Dag) :
    ∃ o, self.leader r dag = .ok o := by
  unfold leader
  dsimp only
  have hlength : (self.committee.authorities.keys.insertionSort (· ≤ ·)).length
      = self.committee.size := by
    rw [List.length_insertionSort]
    exact List.length_map _
  have hpos : 0 < self.committee.size := List.length_pos_iff.mpr hne
  have hlt : r % self.committee.size
      < (self.committee.authorities.keys.insertionSort (· ≤ ·)).length := by
    rw [hlength]
    exact Nat.mod_lt _ hpos
  rw [List.getElem?_eq_getElem hlt]
  exact ⟨_, rfl⟩

/-- The rounds of memory from one round up to another are all there. -/
def Populated (s : State) (low high : ℕ) : Prop :=
  ∀ k, low ≤ k → k < high → (s.dag.lookup k).isSome

omit [Crypto] in
theorem linkedLayer_total {dag : Dag} {rounds : List ℕ} (h : ∀ k ∈ rounds, (dag.lookup k).isSome)
    (parents : List Certificate) : ∃ out, linkedLayer dag rounds parents = .ok out := by
  induction rounds generalizing parents with
  | nil => exact ⟨parents, rfl⟩
  | cons k rounds ih =>
      rw [List.forall_mem_cons] at h
      obtain ⟨authorities, hlookup⟩ := Option.isSome_iff_exists.mp h.1
      unfold linkedLayer
      rw [hlookup]
      exact ih h.2 _

omit [Crypto] in
theorem linked_total {x y : Certificate} (h : Populated s y.round x.round) :
    ∃ b, linked x y s.dag = .ok b := by
  have hrounds : ∀ k ∈ (List.range' y.round (x.round - y.round)).reverse,
      (s.dag.lookup k).isSome := by
    intro k hk
    rw [List.mem_reverse, List.mem_range'_1] at hk
    apply h k hk.1
    omega
  obtain ⟨out, hout⟩ := linkedLayer_total hrounds [x]
  unfold linked
  dsimp only
  rw [hout]
  exact ⟨_, rfl⟩

/-- The loop over past leaders, all of rounds in memory. -/
theorem orderLeadersLoop_total (hne : self.committee.authorities.entries ≠ [])
    (hs : s.Sound known) (low : ℕ) {rounds : List ℕ} {x : Certificate}
    (hlow : ∀ k ∈ rounds, low ≤ k) (h : Populated s low x.round)
    (hsorted : rounds.Pairwise (· > ·)) (hbelow : ∀ k ∈ rounds, k < x.round) :
    ∃ ls, self.orderLeadersLoop s.dag rounds x = .ok ls := by
  induction rounds generalizing x with
  | nil => exact ⟨[], rfl⟩
  | cons k rounds ih =>
      rw [List.forall_mem_cons] at hlow hbelow
      rw [List.pairwise_cons] at hsorted
      obtain ⟨o, ho⟩ := leader_total hne k s.dag
      unfold orderLeadersLoop
      rw [ho]
      cases o with
      | none => exact ih hlow.2 h hsorted.2 hbelow.2
      | some e =>
          obtain ⟨d, y⟩ := e
          obtain ⟨_, hround, _, _⟩ := leader_eq_some hs ho
          -- between two leaders every layer is there, so `linked` finds its maps
          have hlinked : Populated s y.round x.round := by
            intro j hj hjx
            apply h j _ hjx
            omega
          obtain ⟨b, hb⟩ := linked_total hlinked
          show ∃ ls, (linked x y s.dag >>= _) = .ok ls
          rw [hb]
          cases b with
          | false => exact ih hlow.2 h hsorted.2 hbelow.2
          | true =>
              -- from here the loop goes on below the leader it found
              have hpast : Populated s low y.round := by
                intro j hj hjy
                apply h j hj
                omega
              obtain ⟨ls, hls⟩ := ih hlow.2 hpast hsorted.2 (fun j hj => by
                rw [hround]
                exact hsorted.1 j hj)
              refine ⟨y :: ls, ?_⟩
              show (self.orderLeadersLoop s.dag rounds y >>= _) = _
              rw [hls]
              rfl

/-- **The commit test returns** for a certificate of a positive round whose rounds below
are populated above the last committed one. -/
theorem leadersToCommit_total (hne : self.committee.authorities.entries ≠ [])
    (hs : s.Sound known) {r : ℕ} (hr : 0 < r)
    (h : Populated s (s.lastCommittedRound + 1) r) : ∃ ls, self.leadersToCommit s r = .ok ls := by
  unfold leadersToCommit
  rw [if_neg (by omega)]
  dsimp only
  split
  · exact ⟨[], rfl⟩
  next hparity =>
  split
  · exact ⟨[], rfl⟩
  next hold =>
  obtain ⟨o, ho⟩ := leader_total hne (r - 1 - 2) s.dag
  rw [ho]
  cases o with
  | none => exact ⟨[], rfl⟩
  | some e =>
      obtain ⟨d, x⟩ := e
      obtain ⟨_, hround, _, _⟩ := leader_eq_some hs ho
      -- the children of the leader are in a layer above the last commit
      have hsome : (s.dag.lookup (r - 1 - 1)).isSome := h _ (by omega) (by omega)
      obtain ⟨authorities, hlookup⟩ := Option.isSome_iff_exists.mp hsome
      have hsupport : ∃ stake, self.support s.dag (r - 1 - 1) d = .ok stake := by
        unfold support
        rw [hlookup]
        exact ⟨_, rfl⟩
      obtain ⟨stake, hstake⟩ := hsupport
      show ∃ ls, (self.support s.dag (r - 1 - 1) d >>= _) = .ok ls
      rw [hstake]
      simp only [bind, Except.bind]
      split
      · exact ⟨[], rfl⟩
      have hloop : ∃ ls, self.orderLeadersLoop s.dag
          (Walk.downBy2 (s.lastCommittedRound + 2) (x.round - 2)) x = .ok ls := by
        apply orderLeadersLoop_total hne hs (s.lastCommittedRound + 1)
        · intro k hk
          have hbounds := (Walk.mem_downBy2 (by omega)).mp hk
          omega
        · intro k hk hkx
          apply h k hk
          omega
        · exact Walk.downBy2_sorted _ _
        · intro k hk
          have hbounds := (Walk.mem_downBy2 (by omega)).mp hk
          omega
      obtain ⟨ls, hls⟩ := hloop
      refine ⟨(x :: ls).reverse, ?_⟩
      unfold orderLeaders
      rw [if_neg (by omega)]
      dsimp only
      rw [hls]
      rfl

/-! ## §3. Runs. -/

/-- **A reception does not panic** on a certificate of a positive round. -/
theorem panic_receive_none (hne : self.committee.authorities.entries ≠ []) (hinv : Inv self es n)
    (hpresent : Present self es n) (hpanic : n.panic = none) (hpending : n.pending = [])
    {c : Certificate} (hfed : FedByQuorums self.committee (c :: delivered es))
    (hu : UniquePerSlot (c :: delivered es)) (hc : 0 < c.round) :
    (self.receive n c).panic = none := by
  have hinv' := inv_receive (c := c) hinv hpanic hpending
  have hpresent' : Present self ((n, .receive c) :: es) (self.receive n c) :=
    present_receive hu hpresent
  have hsound := sound_receive (c := c) hinv
  have hpopulated : Populated (inserted n.state c) (n.state.lastCommittedRound + 1) c.round := by
    intro k hk hkc
    obtain ⟨y, hy, hround⟩ := exists_round hfed List.mem_cons_self (show 0 < k by omega) hkc.le
    have hhas := hpresent'.above hinv' (x := y) hy (by
      rw [state_receive]
      show n.state.lastCommittedRound < y.round
      omega)
    rw [state_receive] at hhas
    obtain ⟨authorities, hlookup, _⟩ := Dag.find_eq_some_iff.mp hhas
    rw [← hround, hlookup]
    rfl
  obtain ⟨ls, hls⟩ := leadersToCommit_total hne hsound hc hpopulated
  unfold receive
  unfold inserted at hls
  simp only [hls]
  exact hpanic

/-- **The task does not panic exactly when no certificate of round 0 is delivered.** -/
theorem no_panic_iff (hrun : self.Run es n) (hne : self.committee.authorities.entries ≠ [])
    (hfed : FedByQuorums self.committee (delivered es)) (hu : UniquePerSlot (delivered es)) :
    n.panic = none ↔ ∀ x ∈ delivered es, 0 < x.round := by
  have hinv := Run.inv hrun
  refine ⟨hinv.delivered_pos, ?_⟩
  refine System.Run.invariant (P := fun es n => FedByQuorums self.committee (delivered es) →
    UniquePerSlot (delivered es) → (∀ x ∈ delivered es, 0 < x.round) → n.panic = none)
    ?_ ?_ hrun hfed hu
  · intro _ _ _
    rfl
  · intro es n a n' hrun ih hnext hfed hu hpos
    have hinv := Run.inv hrun
    cases a with
    | receive c =>
        obtain ⟨hpanic, hpending, rfl⟩ := next_receive hnext
        exact panic_receive_none hne hinv (Run.present hrun hu.tail) hpanic hpending hfed hu
          (hpos c List.mem_cons_self)
    | commit =>
        obtain ⟨leader, rest, batch, hpanic, _, _, _, rfl⟩ := hinv.commit_step hnext
        exact hpanic

/-! ## §4. Examples. -/

/-- A test for `FedByQuorums`. -/
def fedByQuorums (committee : Committee) : List Certificate → Bool
  | [] => true
  | c :: cs => fedByQuorums committee cs &&
      decide (∀ p ∈ c.header.parents.toList,
        (∃ g ∈ Certificate.genesis committee, g.digest = p) ∨ ∃ x ∈ cs, x.digest = p) &&
      decide (0 < c.round → committee.quorumThreshold.toNat
        ≤ ∑ a ∈ parentAuthors committee cs c, committee.weight a)

theorem fedByQuorums_of_check {committee : Committee} {cs : List Certificate}
    (h : fedByQuorums committee cs = true) : FedByQuorums committee cs := by
  induction cs with
  | nil => exact trivial
  | cons c cs ih =>
      unfold fedByQuorums at h
      rw [Bool.and_eq_true, Bool.and_eq_true, decide_eq_true_eq, decide_eq_true_eq] at h
      obtain ⟨⟨hcs, hcausal⟩, hquorum⟩ := h
      refine ⟨ih hcs, hcausal, fun hpos => ⟨parentAuthors committee cs c, hquorum hpos, ?_⟩⟩
      intro a ha
      obtain ⟨y, hy, rfl⟩ := List.mem_map.mp (List.mem_toFinset.mp ha)
      rw [List.mem_filter, decide_eq_true_eq] at hy
      exact ⟨y, List.mem_append.mp hy.1, rfl, hy.2⟩

omit [Crypto] in
set_option maxRecDepth 10000 in
/-- A run over the DAG of the examples, which commits two leaders. -/
theorem no_panic_iff_sample :
    letI := sampleCrypto
    ∃ es n, sampleTask.Run es n ∧ delivered es = lateOrder.reverse ∧ n.panic = none := by
  let _ := sampleCrypto
  have hfed : letI := sampleCrypto
      fedByQuorums sampleTask.committee lateOrder.reverse = true ∧
        UniquePerSlot lateOrder.reverse ∧ ∀ x ∈ lateOrder.reverse, 0 < x.round := by
    decide +kernel
  obtain ⟨es, n, hsample⟩ := exists_lateRun
  have hdelivered := hsample.delivered
  refine ⟨es, n, hsample.run, hdelivered, ?_⟩
  rw [← hdelivered] at hfed
  exact (no_panic_iff hsample.run (by decide) (fedByQuorums_of_check hfed.1) hfed.2.1).mpr
    hfed.2.2

omit [Crypto] in
theorem exists_genesisRun :
    letI := sampleCrypto
    ∃ es n, sampleTask.Run es n ∧ delivered es = [Certificate.genesisOf (sampleKey 0)] ∧
      n.panic = some Panic.underflow :=
  let _ := sampleCrypto
  let ⟨es, n, hrun, hcheck⟩ := System.exec_check sampleTask.system
    [.receive (Certificate.genesisOf (sampleKey 0))]
    (fun es n => decide (Consensus.delivered es = [Certificate.genesisOf (sampleKey 0)] ∧
      n.panic = some Panic.underflow)) (by decide +kernel)
  ⟨es, n, hrun, of_decide_eq_true hcheck⟩

omit [Crypto] in
/-- **A genesis certificate stops the task**, although it is verified. -/
theorem genesis_underflows :
    ¬ ∀ (_ : Crypto) (task : Consensus) (es : History) (n : Node), task.Run es n →
      task.committee.authorities.entries ≠ [] →
      (∀ c ∈ delivered es, c.verify task.committee = .ok ()) →
      FedByQuorums task.committee (delivered es) → UniquePerSlot (delivered es) →
      n.panic = none := by
  intro h
  let _ := sampleCrypto
  obtain ⟨es, n, hrun, hdelivered, hpanic⟩ := exists_genesisRun
  have hlive := h sampleCrypto sampleTask es n hrun (by decide)
  rw [hdelivered, hpanic] at hlive
  have hnone := hlive (by decide +kernel) (fedByQuorums_of_check (by decide +kernel))
    (by decide +kernel)
  exact absurd hnone (Option.some_ne_none _)

end Consensus

end Mrv
