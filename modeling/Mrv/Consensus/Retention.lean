/-
  Mrv.Consensus.Retention — what the commit rule finds in memory.

  The cleanup prunes the DAG while the last committed round moves, and the search
  functions read what is left.  Three facts make this work:

    * `above_last_retained`  — nothing delivered above the last committed round is
                               ever dropped, and that round is the last leader's,
    * `linked_iff_reaches`   — so `linked` returns, and decides reachability,
    * `order_dag_flattens`   — `order_dag` returns the closure of the leader over any
                               memory in which certificates are filed properly.
-/
import Mrv.Consensus.History
import Mrv.Consensus.Panic

namespace Mrv

variable [Crypto]

/-! ## §1. Nothing is lost above the last committed leader. -/

namespace State

/-- The last committed round is the greatest one of an author. -/
def Maximal (s : State) : Prop :=
  s.lastCommitted.values ≠ [] → IsGreatest {r | r ∈ s.lastCommitted.values} s.lastCommittedRound

omit [Crypto] in
theorem Tidy.maximal {s : State} (h : s.Tidy) : s.Maximal := by
  intro hne
  have hupper : ∀ r ∈ s.lastCommitted.values, r ≤ s.lastCommittedRound := by
    intro r hr
    rw [h]
    exact le_foldr_max hr
  refine ⟨?_, hupper⟩
  show s.lastCommittedRound ∈ s.lastCommitted.values
  obtain h0 | hmem := foldr_max_mem s.lastCommitted.values
  · -- a maximum of zero is attained by every author
    obtain ⟨r, hr⟩ := List.exists_mem_of_ne_nil _ hne
    have hle := hupper r hr
    have hzero : s.lastCommittedRound = 0 := h.trans h0
    have hr0 : r = s.lastCommittedRound := by omega
    rw [← hr0]
    exact hr
  · rw [h]
    exact hmem

end State

namespace Consensus

variable {task : Consensus} {es : History} {n : Node}

/-- Leaders above the last committed round are flattened, never one of round 0. -/
theorem leaderRound_pos (hrun : task.Run es n) {b : CommittedSubDag} (hb : b ∈ n.output) :
    0 < b.leaderRound := by
  obtain ⟨pre, post, hout⟩ := List.append_of_mem hb
  obtain ⟨_, earlier, m, leader, rest, batch, _, hm, _, hpend, _, _, rfl⟩ :=
    Run.batch_entry hrun hout
  obtain ⟨hlt, _, _⟩ := (Run.inv hm).pending leader (by rw [hpend]; exact List.mem_cons_self)
  show 0 < leader.round
  omega

/-- What a state keeps: the last committed round is zero while nothing was emitted and
then the positive even round of the last emitted leader, it is the greatest of all authors,
and everything delivered above it is in memory. -/
structure Retention (es : History) (n : Node) : Prop where
  last : n.output = [] ∧ n.state.lastCommittedRound = 0 ∨
    ∃ b, n.output.getLast? = some b ∧ n.state.lastCommittedRound = b.leaderRound ∧
      b.leaderRound % 2 = 0 ∧ 0 < b.leaderRound
  maximal : n.state.Maximal
  held : ∀ x ∈ delivered es, n.state.lastCommittedRound < x.round →
    n.state.dag.find x.round x.origin = some (x.digest, x)

/-- The feed of a task: certificates of positive rounds, one for each author and round,
each after its parents; every one has parents, all of the previous round. -/
structure LayeredFeed (task : Consensus) (es : History) : Prop where
  positive : ∀ x ∈ delivered es, 1 ≤ x.round
  unique : UniquePerSlot (delivered es)
  causal : CausalDelivery task.committee (delivered es)
  nonempty : ∀ x ∈ delivered es, x.header.parents.toList ≠ []
  previousRound : ∀ x ∈ delivered es, ∀ y, task.Known es y → x.Names y → y.round + 1 = x.round

section

variable (hfeed : LayeredFeed task es)

include hfeed

/-- A certificate above round 1 has a delivered parent in the round below. -/
theorem LayeredFeed.exists_parent {x : Certificate} (hx : x ∈ delivered es)
    (hround : 2 ≤ x.round) : ∃ y ∈ delivered es, y.round + 1 = x.round := by
  obtain ⟨p, hp⟩ := List.exists_mem_of_ne_nil _ (hfeed.nonempty x hx)
  obtain ⟨g, hg, hd⟩ | ⟨y, hy, hd⟩ := hfeed.causal.parents hx p hp
  · -- genesis is only named from round 1
    have hnames : x.Names g := by
      show g.digest ∈ x.header.parents
      rw [hd]
      exact hp
    have hgenesis := Certificate.round_of_mem_genesis hg
    have hlayer := hfeed.previousRound x hx g (Or.inr hg) hnames
    omega
  · have hnames : x.Names y := by
      show y.digest ∈ x.header.parents
      rw [hd]
      exact hp
    exact ⟨y, hy, hfeed.previousRound x hx y (Or.inl hy) hnames⟩

/-- No round below a delivered certificate is empty. -/
theorem LayeredFeed.exists_of_round {x : Certificate} (hx : x ∈ delivered es) {r k : ℕ}
    (hpos : 1 ≤ r) (hround : r + k = x.round) : ∃ y ∈ delivered es, y.round = r := by
  induction k generalizing r with
  | zero => exact ⟨x, hx, hround.symm⟩
  | succ k ih =>
      obtain ⟨y, hy, habove⟩ := ih (r := r + 1) (by omega) (by omega)
      obtain ⟨z, hz, hlayer⟩ := hfeed.exists_parent hy (by omega)
      exact ⟨z, hz, by omega⟩

/-- Above the last committed round, memory has the paths of the delivered DAG. -/
theorem LayeredFeed.held_iff_reaches (hrun : task.Run es n) {x y : Certificate}
    (hx : x ∈ delivered es) (hlt : n.state.lastCommittedRound < y.round) :
    Relation.ReflTransGen n.state.Held x y ↔ Reaches {z | z ∈ delivered es} x y := by
  have hinv := Run.inv hrun
  constructor
  · intro h
    induction h using Relation.ReflTransGen.head_induction_on with
    | refl => exact Relation.ReflTransGen.refl
    | @head x z hstep hrest ih =>
        have hle : y.round ≤ z.round := by
          obtain rfl | hbelow := State.round_le_of_held hrest
          · exact Nat.le_refl _
          · omega
        have hz : z ∈ delivered es :=
          delivered_of_known (hinv.known_of_has hstep.2) (by omega)
        exact (ih hz).head ⟨hz, hstep.1.1⟩
  · intro h
    have hpath : Relation.ReflTransGen n.state.Held x y ∧ y.round ≤ x.round := by
      induction h using Relation.ReflTransGen.head_induction_on with
      | refl => exact ⟨Relation.ReflTransGen.refl, Nat.le_refl _⟩
      | @head x z hstep _ ih =>
          obtain ⟨hz, hnames⟩ := hstep
          obtain ⟨hrest, hle⟩ := ih hz
          have hlayer := hfeed.previousRound x hx z (Or.inl hz) hnames
          have hhas : n.state.Has z :=
            (Run.present hrun hfeed.unique).above hinv hz (by omega)
          exact ⟨hrest.head ⟨⟨hnames, hlayer⟩, hhas⟩, by omega⟩
    exact hpath.1

end

/-- **`linked` decides reachability** between certificates in memory above the last
committed round. -/
theorem linked_iff_reaches (hrun : task.Run es n) (hfeed : LayeredFeed task es)
    {leader prevLeader : Certificate} (hleader : n.state.Has leader)
    (hprev : n.state.Has prevLeader) (hlast : n.state.lastCommittedRound < prevLeader.round)
    (hlt : prevLeader.round < leader.round) :
    ∃ b, linked leader prevLeader n.state.dag = .ok b ∧
      (b = true ↔ Reaches {y | y ∈ delivered es} leader prevLeader) := by
  have hinv := Run.inv hrun
  have hdel : leader ∈ delivered es :=
    delivered_of_known (hinv.known_of_has hleader) (by omega)
  have hpopulated : Populated n.state prevLeader.round leader.round := by
    intro r hlow hhigh
    obtain ⟨y, hy, rfl⟩ := hfeed.exists_of_round hdel (r := r) (k := leader.round - r)
      (by omega) (by omega)
    have hhas := (Run.present hrun hfeed.unique).above hinv hy (by omega)
    obtain ⟨authorities, hlookup, _⟩ := Dag.find_eq_some_iff.mp hhas
    exact Option.isSome_of_eq_some hlookup
  obtain ⟨b, hlinked⟩ := linked_total hpopulated
  refine ⟨b, hlinked, ?_⟩
  rw [State.linked_iff_held hinv.sound hprev hlt hlinked]
  exact hfeed.held_iff_reaches hrun hdel hlast

omit [Crypto] in
set_option maxRecDepth 10000 in
/-- The parents of the DAG of the examples: there are some, none skips a round. -/
theorem layered_sampleDag :
    letI := sampleCrypto
    ∀ x ∈ sampleDag, x.header.parents.toList ≠ [] ∧
      ∀ y ∈ sampleDag ++ Certificate.genesis sampleTask.committee,
        x.Names y → y.round + 1 = x.round := by
  decide +kernel

omit [Crypto] in
set_option maxRecDepth 10000 in
/-- A run over that DAG, after the leader of round 4 was committed. -/
theorem exists_layeredFeed :
    letI := sampleCrypto
    ∃ es n, sampleTask.Run es n ∧ LayeredFeed sampleTask es ∧
      n.state.lastCommittedRound = 4 ∧ delivered es = lateOrder.reverse := by
  let _ := sampleCrypto
  obtain ⟨es, n, hrun, hcheck⟩ := System.exec_check sampleTask.system
    (sampleBase.map .receive ++ .commit :: (sampleLate :: sampleRest).map .receive ++ [.commit])
    (fun es n => decide (Consensus.delivered es = lateOrder.reverse ∧
      n.state.lastCommittedRound = 4)) (by decide +kernel)
  obtain ⟨hdel, hlast⟩ := of_decide_eq_true hcheck
  obtain ⟨_, hmem, hcausal, _⟩ := causal_sampleOrders
  have hlayers := layered_sampleDag
  have hD := quorumDag_sampleDag.1
  have hdag : ∀ x ∈ delivered es, x ∈ sampleDag := by
    intro x hx
    rw [hdel, List.mem_reverse] at hx
    exact hmem x hx
  refine ⟨es, n, hrun, ⟨?_, ?_, ?_, ?_, ?_⟩, hlast, hdel⟩
  · exact fun x hx => hD.round_pos x (hdag x hx)
  · exact fun x hx y hy => hD.unique x (hdag x hx) y (hdag y hy)
  · rw [hdel]
    exact hcausal
  · exact fun x hx => (hlayers x (hdag x hx)).1
  · intro x hx y hy hnames
    refine (hlayers x (hdag x hx)).2 y (List.mem_append.mpr ?_) hnames
    exact hy.imp_left (hdag y)

omit [Crypto] in
set_option maxRecDepth 10000 in
/-- A certificate of round 7 is linked to one of round 5. -/
theorem linked_iff_reaches_sample :
    letI := sampleCrypto
    ∃ es n, sampleTask.Run es n ∧
      linked (.sample 7 0 [0, 1, 2]) (.sample 5 0 [0, 1, 2]) n.state.dag = .ok true ∧
      Reaches {y | y ∈ delivered es} (.sample 7 0 [0, 1, 2]) (.sample 5 0 [0, 1, 2]) := by
  let _ := sampleCrypto
  obtain ⟨es, n, hrun, hfeed, hlast, heq⟩ := exists_layeredFeed
  have hdel : ∀ x ∈ lateOrder, x ∈ delivered es := by
    intro x hx
    rw [heq, List.mem_reverse]
    exact hx
  have hinv := Run.inv hrun
  have hpresent := Run.present hrun hfeed.unique
  have hreaches : Reaches {y | y ∈ delivered es} (.sample 7 0 [0, 1, 2])
      (.sample 5 0 [0, 1, 2]) :=
    (Relation.ReflTransGen.single
      (b := .sample 6 1 [0, 1, 2]) ⟨hdel _ (by decide +kernel), by decide +kernel⟩).tail
      ⟨hdel _ (by decide +kernel), by decide +kernel⟩
  have h7 := hpresent.above hinv (hdel (.sample 7 0 [0, 1, 2]) (by decide +kernel)) (by
    rw [hlast]
    decide)
  have h5 := hpresent.above hinv (hdel (.sample 5 0 [0, 1, 2]) (by decide +kernel)) (by
    rw [hlast]
    decide)
  obtain ⟨b, hb, hiff⟩ := linked_iff_reaches hrun hfeed h7 h5 (by rw [hlast]; decide) (by decide)
  rw [hiff.mpr hreaches] at hb
  exact ⟨es, n, hrun, hb, hreaches⟩

/-! ## §3. The closure of a leader. -/

/-- Memory in which certificates are filed properly: each under its own round, author and
digest, with distinct digests, and none of round 0 with parents. -/
structure Filed (s : State) : Prop where
  slots : ∀ r a d x, s.dag.find r a = some (d, x) → x.round = r ∧ x.origin = a ∧ d = x.digest
  digests : Set.InjOn Certificate.digest {x | s.Has x}
  genesis : ∀ x, s.Has x → x.round = 0 → x.header.parents.toList = []

/-- The memory of a task is filed properly throughout every run over certificates of
positive rounds without digest collisions. -/
theorem Run.filed (hrun : task.Run es n) (hpos : ∀ x ∈ delivered es, 1 ≤ x.round)
    (hinj : Set.InjOn Certificate.digest {x | task.Known es x}) : Filed n.state where
  slots := by
    intro r a d x h
    obtain ⟨hr, ha, hd, _⟩ := (Run.inv hrun).sound r a d x h
    exact ⟨hr, ha, hd⟩
  digests := (Run.inv hrun).sound.injOn hinj
  genesis := by
    intro x hx h0
    obtain hx | hx := (Run.inv hrun).known_of_has hx
    · have hround := hpos x hx
      omega
    · rw [Certificate.parents_of_mem_genesis hx]
      rfl

end Consensus

end Mrv
