/-
  Mrv.Consensus.Order — the shape and the causal order of the committed sequence.

  Batches are numbered from one without gaps, their leaders climb through even
  rounds, and each batch is sorted by round with its leader alone on top
  (`BatchShape`).  Across batches a certificate never follows one that names it
  as a parent.  That last fact needs to know why a parent can be absent from a
  batch: `Settled` says that it was emitted before, or is gone from memory, or is
  out of the collector's reach, and that it stays so.
-/
import Mrv.Consensus.Commit

namespace Mrv

variable [Crypto]

namespace Consensus

variable {task : Consensus} {es : History} {n : Node}

/-! ## §1. Numbers and leaders of the batches. -/

/-- Every batch of the output was emitted by a commit step of the history. -/
theorem Run.batch_entry (hrun : task.Run es n) {pre post : List CommittedSubDag}
    {b : CommittedSubDag} (h : n.output = pre ++ b :: post) :
    ∃ later earlier m leader rest batch, es = later ++ (m, Action.commit) :: earlier ∧
      task.Run earlier m ∧ m.panic = none ∧ m.pending = leader :: rest ∧
      task.orderDag leader m.state = .ok batch ∧ m.output = pre ∧ b = subDag m leader batch := by
  induction hrun generalizing post with
  | init => exact absurd h.symm (by simp [system, start])
  | @step es n n' a hrun hnext ih =>
      cases a with
      | receive c =>
          obtain ⟨_, _, rfl⟩ := next_receive hnext
          rw [output_receive] at h
          obtain ⟨later, earlier, m, leader, rest, batch, rfl, hm⟩ := ih h
          exact ⟨(n, .receive c) :: later, earlier, m, leader, rest, batch, rfl, hm⟩
      | commit =>
          obtain ⟨leader, rest, batch, hpanic, hpending, horder, _, rfl⟩ :=
            (Run.inv hrun).commit_step hnext
          obtain hnil | ⟨post', last, rfl⟩ := List.eq_nil_or_concat' post
          · -- the batch is the one just emitted
            rw [hnil] at h
            have hsplit : n.output ++ [subDag n leader batch] = pre ++ [b] := h
            obtain ⟨hpre, hb⟩ := List.append_inj' hsplit rfl
            exact ⟨[], es, n, leader, rest, batch, rfl, hrun, hpanic, hpending, horder, hpre,
              (List.singleton_inj.mp hb).symm⟩
          · have hsplit : n.output ++ [subDag n leader batch] = (pre ++ b :: post') ++ [last] := by
              simpa [emit] using h
            obtain ⟨hpre, _⟩ := List.append_inj' hsplit rfl
            obtain ⟨later, earlier, m, leader', rest', batch', rfl, hm⟩ := ih hpre
            exact ⟨(n, .commit) :: later, earlier, m, leader', rest', batch', rfl, hm⟩

/-- A pending leader was delivered. -/
theorem delivered_of_pending {leader : Certificate} {rest : List Certificate}
    (hrun : task.Run es n) (hpending : n.pending = leader :: rest) : leader ∈ delivered es := by
  have hleader : leader ∈ n.pending := by rw [hpending]; exact List.mem_cons_self
  obtain ⟨hlt, _, hhas⟩ := (Run.inv hrun).pending leader hleader
  exact delivered_of_known ((Run.inv hrun).known_of_has hhas) (by omega)

/-- Batch numbers are 1, 2, 3, … -/
def Numbered (n : Node) : Prop :=
  n.nextBatchIndex = n.output.length ∧
    n.output.map CommittedSubDag.batchIndex = List.range' 1 n.output.length

theorem Run.numbered (hrun : task.Run es n) : Numbered n := by
  refine System.Run.invariant (P := fun _ n => Numbered n) ⟨rfl, rfl⟩ ?_ hrun
  intro es n a n' hrun ih hnext
  cases a with
  | receive c =>
      obtain ⟨_, _, rfl⟩ := next_receive hnext
      have hindex : (task.receive n c).nextBatchIndex = n.nextBatchIndex := by
        unfold receive
        simp only []
        split <;> rfl
      unfold Numbered
      rw [hindex, output_receive]
      exact ih
  | commit =>
      obtain ⟨leader, rest, batch, _, _, _, _, rfl⟩ := (Run.inv hrun).commit_step hnext
      obtain ⟨hnext, hmap⟩ := ih
      constructor
      · simp [emit, hnext]
      · simp only [emit, subDag, List.map_append, hmap, List.map_cons, List.map_nil, List.length_append,
          List.length_cons, List.length_nil, List.range'_1_concat, hnext]
        rw [Nat.add_comm]

/-- The leaders emitted and pending climb through even rounds. -/
structure Climbing (n : Node) : Prop where
  sorted : (n.output.map CommittedSubDag.leaderRound).Pairwise (· < ·)
  even : ∀ b ∈ n.output, b.leaderRound % 2 = 0
  le_last : ∀ b ∈ n.output, b.leaderRound ≤ n.state.lastCommittedRound

theorem Run.climbing (hrun : task.Run es n) : Climbing n := by
  refine System.Run.invariant (P := fun _ n => Climbing n) ?_ ?_ hrun
  · exact ⟨List.Pairwise.nil, by simp [system, start], by simp [system, start]⟩
  · intro es n a n' hrun ih hnext
    have hinv := Run.inv hrun
    cases a with
    | receive c =>
        obtain ⟨_, _, rfl⟩ := next_receive hnext
        refine ⟨?_, ?_, ?_⟩
        · rw [output_receive]; exact ih.sorted
        · rw [output_receive]; exact ih.even
        · rw [output_receive, state_receive]; exact ih.le_last
    | commit =>
        obtain ⟨leader, rest, batch, hpanic, hpending, horder, hmem, rfl⟩ :=
          hinv.commit_step hnext
        have hleader : leader ∈ n.pending := by rw [hpending]; exact List.mem_cons_self
        obtain ⟨hlt, heven, _⟩ := hinv.pending leader hleader
        have hlast : (task.emit n leader rest batch).state.lastCommittedRound = leader.round :=
          lastCommittedRound_updateAll hinv hleader horder hmem
        refine ⟨?_, ?_, ?_⟩
        · simp only [emit, List.map_append, List.map_cons, List.map_nil]
          rw [List.pairwise_append]
          -- the new leader is above the last one, which is above all before
          refine ⟨ih.sorted, List.pairwise_singleton _ _, ?_⟩
          intro r hr r' hr'
          obtain ⟨b, hb, rfl⟩ := List.mem_map.mp hr
          have hle := ih.le_last b hb
          rw [List.mem_singleton.mp hr']
          show b.leaderRound < leader.round
          omega
        · intro b hb
          obtain hb | hb := List.mem_append.mp hb
          · exact ih.even b hb
          · rw [List.mem_singleton.mp hb]
            exact heven
        · intro b hb
          rw [hlast]
          obtain hb | hb := List.mem_append.mp hb
          · have hle := ih.le_last b hb
            omega
          · rw [List.mem_singleton.mp hb]
            exact Nat.le_refl _

/-! ## §2. One batch. -/

/-- A batch in nondecreasing round order with its leader last and alone in its round;
the others are ancestors of the leader in the DAG `D`. -/
def BatchShape (D : Set Certificate) (b : CommittedSubDag) : Prop :=
  ∃ front leader, b.certificates = front ++ [leader] ∧ leader.round = b.leaderRound ∧
    leader.digest = b.leaderDigest ∧ b.certificates.Pairwise (fun x y => x.round ≤ y.round) ∧
      ∀ x ∈ front, x.round < leader.round ∧ Ancestor D leader x

omit [Crypto] in
/-- In a sorted list without repetition, an element above all others is the last. -/
theorem eq_append_of_top {leader : Certificate} {batch : List Certificate}
    (hsorted : batch.Pairwise (fun x y => x.round ≤ y.round)) (hnd : batch.Nodup)
    (hmem : leader ∈ batch) (htop : ∀ x ∈ batch, x = leader ∨ x.round < leader.round) :
    ∃ front, batch = front ++ [leader] ∧ ∀ x ∈ front, x.round < leader.round := by
  obtain ⟨front, back, rfl⟩ := List.append_of_mem hmem
  rw [List.nodup_append] at hnd
  obtain ⟨_, hback, hdisjoint⟩ := hnd
  have hnil : back = [] := by
    cases back with
    | nil => rfl
    | cons y back =>
        have hle := (List.pairwise_cons.mp (List.pairwise_append.mp hsorted).2.1).1 y
          List.mem_cons_self
        obtain heq | hlt := htop y (by simp)
        · rw [heq] at hback
          exact absurd List.mem_cons_self (List.nodup_cons.mp hback).1
        · omega
  subst hnil
  refine ⟨front, rfl, ?_⟩
  intro x hx
  obtain heq | hlt := htop x (List.mem_append_left _ hx)
  · exact absurd heq (hdisjoint x hx leader List.mem_cons_self)
  · exact hlt

/-- What a search reaches are delivered ancestors. -/
theorem ancestor_of_reached {leader x : Certificate} (h : Inv task es n) (hpanic : n.panic = none)
    (hx : n.state.Reached leader x) : Ancestor {y | y ∈ delivered es} leader x := by
  induction hx with
  | refl => exact Relation.ReflTransGen.refl
  | @tail y z _ hfollows ih =>
      refine ih.tail ⟨?_, hfollows.1⟩
      refine delivered_of_known (h.known_of_has hfollows.2.1) ?_
      -- a genesis certificate in memory counts as committed
      by_contra h0
      have hround : z.round = 0 := by omega
      have hfind := hfollows.2.1
      unfold State.Has at hfind
      rw [hround] at hfind
      apply hfollows.2.2
      unfold State.LastCommitted
      rw [hround]
      exact h.genesis_committed hpanic _ _ hfind

theorem Run.shapes (hrun : task.Run es n) :
    ∀ b ∈ n.output, BatchShape {x | x ∈ delivered es} b := by
  refine System.Run.invariant
    (P := fun es n => ∀ b ∈ n.output, BatchShape {x | x ∈ delivered es} b) ?_ ?_ hrun
  · intro b hb
    exact absurd hb List.not_mem_nil
  · intro es n a n' hrun ih hnext
    have hinv := Run.inv hrun
    cases a with
    | receive c =>
        obtain ⟨_, _, rfl⟩ := next_receive hnext
        rw [output_receive]
        intro b hb
        obtain ⟨front, leader, hcerts, hround, hdigest, hsorted, hfront⟩ := ih b hb
        refine ⟨front, leader, hcerts, hround, hdigest, hsorted, ?_⟩
        intro x hx
        exact ⟨(hfront x hx).1,
          (hfront x hx).2.mono (fun y hy => List.mem_cons_of_mem _ hy)⟩
    | commit =>
        obtain ⟨leader, rest, batch, hpanic, hpending, horder, hmem, rfl⟩ :=
          hinv.commit_step hnext
        intro b hb
        obtain hb | hb := List.mem_append.mp hb
        · exact ih b hb
        · rw [List.mem_singleton.mp hb]
          -- nothing in the batch is above its leader, so the leader comes last
          have hsorted := sorted_orderDag horder
          obtain ⟨front, hfront, hbelow⟩ := eq_append_of_top hsorted
            (nodup_orderDag hinv.sound horder) hmem
            (fun x hx => round_of_mem_batch hinv horder hx)
          refine ⟨front, leader, hfront, rfl, rfl, hsorted, ?_⟩
          intro x hx
          have hxbatch : x ∈ batch := by rw [hfront]; exact List.mem_append_left _ hx
          have hancestor : Ancestor {y | y ∈ delivered es} leader x :=
            ancestor_of_reached hinv hpanic (mem_of_orderDag hinv.sound horder hxbatch).1
          exact ⟨hbelow x hx, hancestor⟩

/-! ## §3. Parents never follow their children. -/

/-- Certificates delivered once each, after their parents, which are from the round
below; digests tell them and the genesis certificates apart. -/
structure CausalFeed (task : Consensus) (es : History) : Prop where
  once : DeliveredOnce es
  causal : CausalDelivery task.committee (delivered es)
  previousRound : ∀ x ∈ delivered es, ∀ y ∈ delivered es, x.Names y → y.round + 1 = x.round
  digests : Set.InjOn Certificate.digest {x | task.Known es x}

theorem CausalFeed.tail {m : Node} {a : Action} (h : CausalFeed task ((m, a) :: es)) :
    CausalFeed task es := by
  cases a with
  | receive c =>
      have hmono : ∀ x, task.Known es x → task.Known ((m, .receive c) :: es) x := by
        intro x hx
        obtain hx | hx := hx
        · exact Or.inl (List.mem_cons_of_mem _ hx)
        · exact Or.inr hx
      exact {
        once := h.once.tail
        causal := h.causal.1
        previousRound := fun x hx y hy => h.previousRound x (List.mem_cons_of_mem _ hx) y
          (List.mem_cons_of_mem _ hy)
        digests := fun x hx y hy heq => h.digests (hmono x hx) (hmono y hy) heq }
  | commit => exact ⟨h.once.tail, h.causal, h.previousRound, h.digests⟩

/-- A parent of an emitted certificate has been emitted, or is gone from memory, or is
out of the collector's reach. -/
def Settled (task : Consensus) (es : History) (n : Node) : Prop :=
  n.panic = none → ∀ x ∈ emitted n, ∀ y ∈ delivered es, x.Names y →
    y ∈ emitted n ∨ ¬ n.state.Has y ∨ ¬ n.state.InRange task.gcDepth y

/-- A certificate just delivered is no parent of an emitted one: those came before. -/
theorem not_names_of_receive {c x : Certificate} {m : Node}
    (hfeed : CausalFeed task ((m, .receive c) :: es)) (hpos : 0 < c.round)
    (hx : x ∈ delivered es) : ¬ x.Names c := by
  intro hnames
  obtain ⟨g, hg, hgd⟩ | ⟨z, hz, hzd⟩ := hfeed.causal.1.parents hx _ hnames
  · have hgc : g = c := hfeed.digests (Or.inr hg) (Or.inl List.mem_cons_self) hgd
    have h0 := Certificate.round_of_mem_genesis hg
    rw [hgc] at h0
    omega
  · have hzc : z = c := hfeed.digests (Or.inl (List.mem_cons_of_mem _ hz))
      (Or.inl List.mem_cons_self) hzd
    rw [hzc] at hz
    exact (List.nodup_cons.mp hfeed.once.nodup).1 hz

theorem settled_receive {c : Certificate} (hfeed : CausalFeed task ((n, .receive c) :: es))
    (hinv : Inv task es n) (hpanic : n.panic = none) (h : Settled task es n) :
    Settled task ((n, .receive c) :: es) (task.receive n c) := by
  intro hlive x hx y hy hnames
  rw [emitted_receive] at hx ⊢
  rw [state_receive]
  have hxdel := hinv.emitted_delivered x hx
  obtain rfl | hy := List.mem_cons.mp hy
  · exact absurd hnames (not_names_of_receive hfeed (panic_receive hlive) hxdel)
  · obtain hemitted | hnot | hout := h hpanic x hx y hy hnames
    · exact Or.inl hemitted
    · right; left
      rw [has_inserted_iff hfeed.once.unique hfeed.once.nodup hy]
      exact hnot
    · exact Or.inr (Or.inr hout)

/-- A parent of a certificate in a batch is in the batch too, when it is in memory and
in reach, or it was emitted before. -/
theorem mem_batch_of_names {leader x y : Certificate} {batch : List Certificate}
    (hfeed : CausalFeed task es) (hinv : Inv task es n) (hpanic : n.panic = none)
    (hleader : leader ∈ n.pending) (horder : task.orderDag leader n.state = .ok batch)
    (hx : x ∈ batch) (hy : y ∈ delivered es) (hnames : x.Names y) (hhas : n.state.Has y)
    (hrange : n.state.InRange task.gcDepth y) : y ∈ emitted n ∨ y ∈ batch := by
  have hxdel := delivered_of_mem_batch hinv hpanic hleader horder hx
  have hround := hfeed.previousRound x hxdel y hy hnames
  have hpos := hinv.delivered_pos hpanic y hy
  by_cases hlast : n.state.LastCommitted y
  · -- the author's last committed certificate is this one
    left
    have hcr : n.state.committedRound y.origin = y.round := by
      unfold State.LastCommitted at hlast
      unfold State.committedRound
      rw [hlast]
      rfl
    obtain h0 | ⟨z, hz, horigin, hzround⟩ := hinv.committed y.origin
    · omega
    · have hzy := hfeed.once.unique z (hinv.emitted_delivered z hz) y hy (by omega) horigin
      rw [← hzy]
      exact hz
  · right
    have hfollows : n.state.Follows x y := ⟨⟨hnames, hround⟩, hhas, hlast⟩
    have hreached := (mem_of_orderDag hinv.sound horder hx).1.tail hfollows
    exact (mem_orderDag hinv.sound (hinv.sound.injOn hfeed.digests) horder).mpr
      ⟨hreached, hrange⟩

omit [Crypto] in
/-- What is out of the collector's reach before a batch is so after it. -/
theorem inRange_of_updateAll {batch : List Certificate} {y : Certificate} (htidy : n.state.Tidy)
    (h : (n.state.updateAll batch task.gcDepth).InRange task.gcDepth y) :
    n.state.InRange task.gcDepth y :=
  (State.lastCommittedRound_le_updateAll htidy).trans h

theorem settled_emit {leader : Certificate} {rest batch : List Certificate}
    (hfeed : CausalFeed task es) (hinv : Inv task es n) (hpanic : n.panic = none)
    (hleader : leader ∈ n.pending) (horder : task.orderDag leader n.state = .ok batch)
    (h : Settled task es n) :
    Settled task ((n, .commit) :: es) (task.emit n leader rest batch) := by
  intro _ x hx y hy hnames
  rw [emitted_emit] at hx ⊢
  by_cases hhas : (n.state.updateAll batch task.gcDepth).Has y
  swap
  · exact Or.inr (Or.inl hhas)
  by_cases hrange : (n.state.updateAll batch task.gcDepth).InRange task.gcDepth y
  swap
  · exact Or.inr (Or.inr hrange)
  -- in memory and in reach after the batch, so before it as well
  left
  have hhas' : n.state.Has y := State.find_of_find_updateAll hhas
  have hrange' := inRange_of_updateAll hinv.tidy hrange
  obtain hx | hx := List.mem_append.mp hx
  · obtain hemitted | hnot | hout := h hpanic x hx y hy hnames
    · exact List.mem_append_left _ hemitted
    · exact absurd hhas' hnot
    · exact absurd hrange' hout
  · obtain hemitted | hbatch :=
      mem_batch_of_names hfeed hinv hpanic hleader horder hx hy hnames hhas' hrange'
    · exact List.mem_append_left _ hemitted
    · exact List.mem_append_right _ hbatch

theorem Run.settled (hrun : task.Run es n) (hfeed : CausalFeed task es) : Settled task es n := by
  refine System.Run.invariant (P := fun es n => CausalFeed task es → Settled task es n) ?_ ?_
    hrun hfeed
  · intro _ _ x hx
    exact absurd hx List.not_mem_nil
  · intro es n a n' hrun ih hnext hfeed
    have hinv := Run.inv hrun
    cases a with
    | receive c =>
        obtain ⟨hpanic, _, rfl⟩ := next_receive hnext
        exact settled_receive hfeed hinv hpanic (ih hfeed.tail)
    | commit =>
        obtain ⟨leader, rest, batch, hpanic, hpending, horder, _, rfl⟩ := hinv.commit_step hnext
        have hleader : leader ∈ n.pending := by rw [hpending]; exact List.mem_cons_self
        exact settled_emit hfeed.tail hinv hpanic hleader horder (ih hfeed.tail)

/-- What is in a batch is in memory and in reach. -/
theorem has_of_mem_batch {leader x : Certificate} {batch : List Certificate}
    (h : Inv task es n) (hleader : leader ∈ n.pending)
    (horder : task.orderDag leader n.state = .ok batch) (hx : x ∈ batch) :
    n.state.Has x ∧ n.state.InRange task.gcDepth x := by
  obtain ⟨hreached, hrange⟩ := mem_of_orderDag h.sound horder hx
  refine ⟨?_, hrange⟩
  obtain heq | ⟨y, _, hfollows⟩ := Relation.ReflTransGen.cases_tail hreached
  · rw [heq]
    exact (h.pending leader hleader).2.2
  · exact hfollows.2.1

/-- **No certificate comes after one that names it as a parent.** -/
theorem Run.emitted_causal (hrun : task.Run es n) (hfeed : CausalFeed task es) :
    (emitted n).Pairwise (fun x y => ¬ x.Names y) := by
  refine System.Run.invariant
    (P := fun es n => CausalFeed task es → (emitted n).Pairwise (fun x y => ¬ x.Names y)) ?_ ?_
    hrun hfeed
  · intro _
    exact List.Pairwise.nil
  · intro es n a n' hrun ih hnext hfeed
    have hinv := Run.inv hrun
    cases a with
    | receive c =>
        obtain ⟨_, _, rfl⟩ := next_receive hnext
        rw [emitted_receive]
        exact ih hfeed.tail
    | commit =>
        obtain ⟨leader, rest, batch, hpanic, hpending, horder, hmem, rfl⟩ :=
          hinv.commit_step hnext
        have hleader : leader ∈ n.pending := by rw [hpending]; exact List.mem_cons_self
        have hbatch := fun z hz =>
          delivered_of_mem_batch (x := z) hinv hpanic hleader horder hz
        rw [emitted_emit, List.pairwise_append]
        refine ⟨ih hfeed.tail, ?_, ?_⟩
        · -- within a batch parents are from lower rounds
          refine (sorted_orderDag horder).imp_of_mem ?_
          intro x y hx hy hle hnames
          have hround := hfeed.tail.previousRound x (hbatch x hx) y (hbatch y hy) hnames
          omega
        · intro x hx y hy hnames
          -- an earlier output has no parent that is only now in the batch
          obtain ⟨hhas, hrange⟩ := has_of_mem_batch hinv hleader horder hy
          obtain hemitted | hnot | hout :=
            Run.settled hrun hfeed.tail hpanic x hx y (hbatch y hy) hnames
          · exact not_stale_of_deliveredOnce
              (.step hrun hnext) hfeed.once n leader rest List.mem_cons_self hpending y
              (stale_of_mem_batch hinv hpanic hleader horder hy hemitted)
          · exact hnot hhas
          · exact hout hrange

/-! ## §4. The committed sequence. -/

/-- A run over the DAG of the examples is fed causally. -/
theorem SampleRun.causalFeed {received : List Certificate} {batches : List (Digest × List Digest)}
    (h : SampleRun received batches es n) (hD : QuorumDag sampleTask.committee {x | x ∈ sampleDag})
    (hinj : Set.InjOn Certificate.digest (WithGenesis sampleTask.committee {x | x ∈ sampleDag}))
    (hmem : ∀ x ∈ received, x ∈ sampleDag) (hnd : received.Nodup)
    (hcausal : CausalDelivery sampleTask.committee received.reverse)
    (hround : ∀ x ∈ sampleDag, ∀ y ∈ sampleDag, x.Names y → y.round + 1 = x.round) :
    CausalFeed sampleTask es := by
  have hfed := h.fed hmem hcausal
  refine ⟨⟨?_, ?_⟩, hfed.causal, ?_, ?_⟩
  · exact fun x hx y hy => hD.unique x (hfed.mem x hx) y (hfed.mem y hy)
  · rw [h.delivered, List.nodup_reverse]
    exact hnd
  · exact fun x hx y hy => hround x (hfed.mem x hx) y (hfed.mem y hy)
  · exact hinj.mono (fun x hx => hfed.withGenesis hx)

omit [Crypto] in
/-- The run that receives the late certificate late. -/
theorem exists_causalFeed_lateRun :
    letI := sampleCrypto
    ∃ es n, SampleRun lateOrder
        [firstBatch, (sampleDigest 4 0, sampleDigest 1 2 :: secondBatch)] es n ∧
      CausalFeed sampleTask es := by
  let _ := sampleCrypto
  obtain ⟨es, n, h⟩ := exists_lateRun
  obtain ⟨_, hmem, hcausal, hnd⟩ := causal_sampleOrders
  obtain ⟨hD, hinj⟩ := quorumDag_sampleDag
  exact ⟨es, n, h, h.causalFeed hD hinj hmem hnd hcausal round_of_names_sampleDag⟩

omit [Crypto] in
/-- The run that receives it early. -/
theorem exists_causalFeed_earlyRun :
    letI := sampleCrypto
    ∃ es n, SampleRun earlyOrder [firstBatch, (sampleDigest 4 0, secondBatch)] es n ∧
      CausalFeed sampleTask es := by
  let _ := sampleCrypto
  obtain ⟨es, n, h⟩ := exists_earlyRun
  obtain ⟨⟨hmem, hcausal, hnd⟩, _⟩ := causal_sampleOrders
  obtain ⟨hD, hinj⟩ := quorumDag_sampleDag
  exact ⟨es, n, h, h.causalFeed hD hinj hmem hnd hcausal round_of_names_sampleDag⟩

end Consensus

end Mrv
