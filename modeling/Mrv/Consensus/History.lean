/-
  Mrv.Consensus.History — committing a leader and committing its history.

  A leader's batch is meant to complete its history: every certificate the leader
  reaches through parents, as far back as the collector allows, should be emitted
  by then.  The cleanup of `State::update` works against this.  It drops, for each
  author, everything below the last committed round, whether it was committed or
  not, and an author's certificates need not be ancestors of one another.

  `historyCommitted_iff_retained` locates the failure exactly: a run completes
  every history if and only if no certificate of the history of a leader is gone
  from memory, uncommitted, when the leader is flattened.
-/
import Mrv.Consensus.Order

namespace Mrv

variable [Crypto]

namespace Consensus

variable {task : Consensus} {es : History} {n : Node}

/-! ## §1. The property and its condition. -/

/-- Reaching a certificate of `D` through named parents. -/
def Reaches (D : Set Certificate) : Certificate → Certificate → Prop :=
  Relation.ReflTransGen (fun x y => y ∈ D ∧ x.Names y)

/-- Whenever a leader is flattened, every certificate of its history within the
collector's reach is in its batch or was emitted earlier. -/
def HistoryCommitted (task : Consensus) (es : History) : Prop :=
  ∀ m leader rest batch, (m, Action.commit) ∈ es → m.pending = leader :: rest →
    task.orderDag leader m.state = .ok batch →
    ∀ x, Reaches {y | y ∈ delivered es} leader x → 1 ≤ x.round →
      m.state.InRange task.gcDepth x → x ∈ emitted m ∨ x ∈ batch

/-- Whenever a leader is flattened, the uncommitted certificates of its history that
are below their authors' last committed rounds are still in memory. -/
def Retained (task : Consensus) (es : History) : Prop :=
  ∀ m leader rest, (m, Action.commit) ∈ es → m.pending = leader :: rest →
    ∀ x, Reaches {y | y ∈ delivered es} leader x → 1 ≤ x.round →
      m.state.InRange task.gcDepth x → x ∉ emitted m →
      x.round < m.state.committedRound x.origin → m.state.Has x

theorem Reaches.mono {D D' : Set Certificate} (hsub : D ⊆ D') {x y : Certificate}
    (h : Reaches D x y) : Reaches D' x y := by
  induction h with
  | refl => exact Relation.ReflTransGen.refl
  | tail _ hstep ih => exact ih.tail ⟨hsub hstep.1, hstep.2⟩

theorem reaches_of_ancestor {D : Set Certificate} {x y : Certificate} (h : Ancestor D x y) :
    Reaches D x y := by
  induction h with
  | refl => exact Relation.ReflTransGen.refl
  | tail _ hstep ih => exact ih.tail ⟨hstep.1, hstep.2.1⟩

/-! ## §2. One batch. -/

/-- The parents of an emitted certificate that are within the collector's reach have
been emitted. -/
def Complete (task : Consensus) (es : History) (n : Node) : Prop :=
  n.panic = none → ∀ x ∈ emitted n, ∀ y ∈ delivered es, x.Names y →
    n.state.InRange task.gcDepth y → y ∈ emitted n

theorem complete_receive {c : Certificate} (hfeed : CausalFeed task ((n, .receive c) :: es))
    (hinv : Inv task es n) (hpanic : n.panic = none) (h : Complete task es n) :
    Complete task ((n, .receive c) :: es) (task.receive n c) := by
  intro hlive x hx y hy hnames hrange
  rw [emitted_receive] at hx ⊢
  rw [state_receive] at hrange
  have hxdel := hinv.emitted_delivered x hx
  obtain rfl | hy := List.mem_cons.mp hy
  · exact absurd hnames (not_names_of_receive hfeed (panic_receive hlive) hxdel)
  · exact h hpanic x hx y hy hnames hrange

section Batch

variable {leader : Certificate} {rest batch : List Certificate} (hfeed : CausalFeed task es)
  (hinv : Inv task es n) (hpresent : Present task es n) (hpanic : n.panic = none)
  (hleader : leader ∈ n.pending) (horder : task.orderDag leader n.state = .ok batch)
  (hretained : ∀ x, Reaches {y | y ∈ delivered es} leader x → 1 ≤ x.round →
    n.state.InRange task.gcDepth x → x ∉ emitted n →
    x.round < n.state.committedRound x.origin → n.state.Has x)

include hfeed hinv hpresent hpanic hleader horder hretained

/-- The parents in reach of a certificate of the batch are emitted with it or before. -/
theorem complete_batch {x y : Certificate} (hx : x ∈ batch) (hy : y ∈ delivered es)
    (hnames : x.Names y) (hrange : n.state.InRange task.gcDepth y) :
    y ∈ emitted n ∨ y ∈ batch := by
  by_cases hemitted : y ∈ emitted n
  · exact Or.inl hemitted
  have hreaches : Reaches {z | z ∈ delivered es} leader y :=
    (reaches_of_ancestor (ancestor_of_reached hinv hpanic
      (mem_of_orderDag hinv.sound horder hx).1)).tail ⟨hy, hnames⟩
  have hhas : n.state.Has y := by
    by_cases hlt : y.round < n.state.committedRound y.origin
    · exact hretained y hreaches (hinv.delivered_pos hpanic y hy) hrange hemitted hlt
    · exact hpresent y hy (by omega) hrange
  exact mem_batch_of_names hfeed hinv hpanic hleader horder hx hy hnames hhas hrange

/-- **One batch completes the history of its leader.** -/
theorem history_batch (hcomplete : Complete task es n) {x : Certificate} (hmem : leader ∈ batch)
    (hx : Reaches {y | y ∈ delivered es} leader x) (hrange : n.state.InRange task.gcDepth x) :
    x ∈ emitted n ∨ x ∈ batch := by
  induction hx with
  | refl => exact Or.inr hmem
  | @tail z y hreaches hstep ih =>
      obtain ⟨hy, hnames⟩ := hstep
      have hzdel : z ∈ delivered es := by
        obtain rfl | ⟨w, _, hz, _⟩ := Relation.ReflTransGen.cases_tail hreaches
        · exact delivered_of_mem_batch hinv hpanic hleader horder hmem
        · exact hz
      have hround := hfeed.previousRound z hzdel y hy hnames
      -- the child is higher, so the collector reaches it too
      have hzrange : n.state.InRange task.gcDepth z := by
        unfold State.InRange at hrange ⊢
        omega
      obtain hz | hz := ih hzrange
      · exact Or.inl (hcomplete hpanic z hz y hy hnames hrange)
      · exact complete_batch hfeed hinv hpresent hpanic hleader horder hretained hz hy hnames
          hrange

theorem complete_emit (hcomplete : Complete task es n) :
    Complete task ((n, .commit) :: es) (task.emit n leader rest batch) := by
  intro _ x hx y hy hnames hrange
  rw [emitted_emit] at hx ⊢
  have hrange' := inRange_of_updateAll hinv.tidy hrange
  obtain hx | hx := List.mem_append.mp hx
  · exact List.mem_append_left _ (hcomplete hpanic x hx y hy hnames hrange')
  · exact List.mem_append.mpr
      (complete_batch hfeed hinv hpresent hpanic hleader horder hretained hx hy hnames hrange')

end Batch

/-! ## §3. The whole run. -/

omit [Crypto] in
theorem mem_delivered_of_mem {e : Node × Action} {x : Certificate} (hx : x ∈ delivered es) :
    x ∈ delivered (e :: es) := by
  obtain ⟨m, a⟩ := e
  cases a with
  | receive c => exact List.mem_cons_of_mem _ hx
  | commit => exact hx

theorem Retained.tail {e : Node × Action} (h : Retained task (e :: es)) : Retained task es := by
  intro m leader rest hm hpending x hx
  exact h m leader rest (List.mem_cons_of_mem _ hm) hpending x
    (hx.mono (fun _ hy => mem_delivered_of_mem hy))

theorem Run.complete (hrun : task.Run es n) (hfeed : CausalFeed task es)
    (hretained : Retained task es) : Complete task es n := by
  refine System.Run.invariant
    (P := fun es n => CausalFeed task es → Retained task es → Complete task es n) ?_ ?_
    hrun hfeed hretained
  · intro _ _ _ x hx
    exact absurd hx List.not_mem_nil
  · intro es n a n' hrun ih hnext hfeed hretained
    have hinv := Run.inv hrun
    have hcomplete := ih hfeed.tail hretained.tail
    cases a with
    | receive c =>
        obtain ⟨hpanic, _, rfl⟩ := next_receive hnext
        exact complete_receive hfeed hinv hpanic hcomplete
    | commit =>
        obtain ⟨leader, rest, batch, hpanic, hpending, horder, _, rfl⟩ := hinv.commit_step hnext
        have hleader : leader ∈ n.pending := by rw [hpending]; exact List.mem_cons_self
        exact complete_emit hfeed.tail hinv (Run.present hrun hfeed.once.unique) hpanic hleader
          horder (hretained n leader rest List.mem_cons_self hpending) hcomplete

/-- The part of a history before one of its entries. -/
theorem CausalFeed.earlier {later earlier : History} (h : CausalFeed task (later ++ earlier)) :
    CausalFeed task earlier := by
  induction later with
  | nil => exact h
  | cons e later ih => exact ih h.tail

theorem Retained.earlier {later earlier : History} (h : Retained task (later ++ earlier)) :
    Retained task earlier := by
  induction later with
  | nil => exact h
  | cons e later ih => exact ih h.tail

/-- The history of a leader was delivered before the leader. -/
theorem reaches_earlier {later earlier : History} {leader x : Certificate}
    (hfeed : CausalFeed task (later ++ earlier)) (hleader : leader ∈ delivered earlier)
    (hx : Reaches {y | y ∈ delivered (later ++ earlier)} leader x) (hpos : 1 ≤ x.round) :
    x ∈ delivered earlier ∧ Reaches {y | y ∈ delivered earlier} leader x := by
  have hsub : ∀ y ∈ delivered earlier, y ∈ delivered (later ++ earlier) := by
    intro y hy
    rw [delivered_append]
    exact List.mem_append_right _ hy
  induction hx with
  | refl => exact ⟨hleader, Relation.ReflTransGen.refl⟩
  | @tail z y hreaches hstep ih =>
      obtain ⟨hy, hnames⟩ := hstep
      have hzdel : z ∈ delivered (later ++ earlier) := by
        obtain rfl | ⟨w, _, hz, _⟩ := Relation.ReflTransGen.cases_tail hreaches
        · exact hsub _ hleader
        · exact hz
      have hround := hfeed.previousRound z hzdel y hy hnames
      obtain ⟨hz, hreaches'⟩ := ih (by omega)
      have hy' : y ∈ delivered earlier := by
        obtain ⟨g, hg, hgd⟩ | ⟨w, hw, hwd⟩ := hfeed.earlier.causal.parents hz _ hnames
        · have hgy : g = y := hfeed.digests (Or.inr hg) (Or.inl hy) hgd
          have h0 := Certificate.round_of_mem_genesis hg
          rw [hgy] at h0
          omega
        · have hwy : w = y := hfeed.digests (Or.inl (hsub w hw)) (Or.inl hy) hwd
          rw [← hwy]
          exact hw
      exact ⟨hy', hreaches'.tail ⟨hy', hnames⟩⟩

/-- **Completing histories.** Over certificates delivered once each and in causal
order, a run commits the whole history of every leader exactly when no uncommitted
certificate of the history has been cleaned up before the leader is flattened. -/
theorem historyCommitted_iff_retained (hrun : task.Run es n) (hfeed : CausalFeed task es) :
    HistoryCommitted task es ↔ Retained task es := by
  constructor
  · intro h m leader rest hm hpending x hx hpos hrange hnot _
    obtain ⟨later, earlier, m', heq, hrun', hnext⟩ := System.Run.at_entry hrun hm
    have hinv := Run.inv hrun'
    obtain ⟨leader', rest', batch, _, hpending', horder, _, _⟩ := hinv.commit_step hnext
    rw [hpending, List.cons.injEq] at hpending'
    obtain ⟨rfl, rfl⟩ := hpending'
    have hleader : leader ∈ m.pending := by rw [hpending]; exact List.mem_cons_self
    -- what is in the batch was in the dag when it was flattened
    obtain hemitted | hbatch := h m leader rest batch hm hpending horder x hx hpos hrange
    · exact absurd hemitted hnot
    · exact (has_of_mem_batch hinv hleader horder hbatch).1
  · intro h m leader rest batch hm hpending horder x hx hpos hrange
    obtain ⟨later, earlier, m', heq, hrun', hnext⟩ := System.Run.at_entry hrun hm
    have hinv := Run.inv hrun'
    obtain ⟨leader', rest', batch', hpanic, hpending', horder', hmem, _⟩ :=
      hinv.commit_step hnext
    rw [hpending, List.cons.injEq] at hpending'
    obtain ⟨rfl, rfl⟩ := hpending'
    obtain rfl := Except.ok.inj (horder.symm.trans horder')
    have hleader : leader ∈ m.pending := by rw [hpending]; exact List.mem_cons_self
    -- the run ends before the commit: the rest of the history is set aside
    have hsplit : later ++ (m, Action.commit) :: earlier =
        (later ++ [(m, Action.commit)]) ++ earlier := by simp
    rw [heq, hsplit] at hfeed hx h
    have hleaderdel := delivered_of_mem_batch hinv hpanic hleader horder hmem
    have hx' := (reaches_earlier hfeed hleaderdel hx hpos).2
    refine history_batch hfeed.earlier hinv (Run.present hrun' hfeed.earlier.once.unique) hpanic
      hleader horder ?_ (Run.complete hrun' hfeed.earlier h.earlier) hmem hx' hrange
    intro y hy
    refine h m leader rest (by simp) hpending y (hy.mono ?_)
    intro z hz
    show z ∈ delivered _
    rw [delivered_append]
    exact List.mem_append_right _ hz

omit [Crypto] in
/-- On the run that receives the late certificate late. -/
theorem historyCommitted_iff_retained_sample :
    letI := sampleCrypto
    ∃ es n, sampleTask.Run es n ∧ n.output.length = 2 ∧
      (HistoryCommitted sampleTask es ↔ Retained sampleTask es) := by
  let _ := sampleCrypto
  obtain ⟨es, n, h, hfeed⟩ := exists_causalFeed_lateRun
  refine ⟨es, n, h.run, ?_, historyCommitted_iff_retained h.run hfeed⟩
  simpa using congrArg List.length h.batches

omit [Crypto] in
set_option maxRecDepth 10000 in
/-- The path from the leader of round 4 to the late certificate. -/
theorem path_sampleLate :
    letI := sampleCrypto
    sampleLate.round = 1 ∧ sampleLate.digest = sampleDigest 1 2 ∧
      (∀ b ∈ [firstBatch, (sampleDigest 4 0, secondBatch)], sampleDigest 1 2 ∉ b.2) ∧
      ∃ x y z, x ∈ sampleDag ∧ x.digest = sampleDigest 4 0 ∧ x.round = 4 ∧
        y ∈ earlyOrder ∧ x.Names y ∧ z ∈ earlyOrder ∧ y.Names z ∧
        sampleLate ∈ earlyOrder ∧ z.Names sampleLate :=
  ⟨by decide, by decide +kernel, by decide +kernel, .sample 4 0 [0, 1, 2], .sample 3 1 [0, 1, 2],
    .sample 2 1 [1, 2, 3], by decide +kernel⟩

omit [Crypto] in
/-- **A lost certificate**: a node that receives the late certificate before it commits
the leader of round 2 never commits it, though the leader of round 4 reaches it. -/
theorem history_not_committed :
    ¬ ∀ (_ : Crypto) (task : Consensus) (es : History) (n : Node), task.Run es n →
      CausalFeed task es → HistoryCommitted task es := by
  intro hall
  let _ := sampleCrypto
  obtain ⟨es, n, h, hfeed⟩ := exists_causalFeed_earlyRun
  have hhistory := hall sampleCrypto sampleTask es n h.run hfeed
  obtain ⟨⟨hmem, hcausal, _⟩, _⟩ := causal_sampleOrders
  obtain ⟨_, hinj⟩ := quorumDag_sampleDag
  obtain ⟨hround, hdigest, habsent, x, y, z, hx, hxd, hxr, hy, hxy, hz, hyz, hlate, hzl⟩ :=
    path_sampleLate
  obtain ⟨b, hb, hleader, hcerts⟩ := h.exists_batch (List.mem_cons_of_mem _ List.mem_cons_self)
  obtain ⟨pre, post, hout⟩ := List.append_of_mem hb
  obtain ⟨later, earlier, m, leader, rest, batch, heq, hrun, hpanic, hpending, horder, hmout, rfl⟩ :=
    Run.batch_entry h.run hout
  have hfed := h.fed hmem hcausal
  rw [heq] at hfed
  have hxl : leader = x := hinj (Or.inl (hfed.earlier.tail.mem _ (delivered_of_pending hrun hpending)))
    (Or.inl hx) (hleader.trans hxd.symm)
  subst hxl
  have hdel : ∀ w ∈ earlyOrder, w ∈ delivered es := by
    intro w hw
    rw [h.delivered, List.mem_reverse]
    exact hw
  -- the late certificate is an ancestor of the leader
  have hreaches : Reaches {w | w ∈ delivered es} leader sampleLate :=
    ((Relation.ReflTransGen.single ⟨hdel y hy, hxy⟩).tail ⟨hdel z hz, hyz⟩).tail
      ⟨hdel _ hlate, hzl⟩
  have hrange : m.state.InRange sampleTask.gcDepth sampleLate := by
    have hlt := ((Run.inv hrun).pending leader (by rw [hpending]; exact List.mem_cons_self)).1
    have hgc : sampleTask.gcDepth = 50 := rfl
    unfold State.InRange
    omega
  have hentry : (m, Action.commit) ∈ es := by rw [heq]; simp
  -- so it would have to be in the output
  have hemitted : sampleLate ∈ emitted n := by
    have hsplit : emitted n = emitted m ++ (batch ++ post.flatMap CommittedSubDag.certificates) := by
      unfold emitted
      rw [hout, hmout, List.flatMap_append, List.flatMap_cons]
      rfl
    rw [hsplit]
    obtain hold | hnew := hhistory m leader rest batch hentry hpending horder sampleLate hreaches
      (by omega) hrange
    · exact List.mem_append_left _ hold
    · exact List.mem_append_right _ (List.mem_append_left _ hnew)
  obtain ⟨b', hb', hmem'⟩ := h.digest_of_emitted hemitted
  rw [hdigest] at hmem'
  exact habsent b' hb' hmem'

end Consensus

end Mrv
