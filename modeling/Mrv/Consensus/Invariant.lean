/-
  Mrv.Consensus.Invariant — what holds in every state of the consensus task.

  `Inv` collects the facts about one state that the properties of runs rest on:
  the DAG is sound, the last committed rounds are those of certificates that were
  emitted, the leaders waiting to be flattened lie above the last committed
  round, and only delivered certificates were emitted.  A reception and the
  flattening of one leader preserve it (`inv_receive`, `inv_emit`), so it holds
  throughout every run (`Run.inv`).

  Flattening a leader never panics and never yields an empty batch
  (`Inv.orderDag_ok`), so a commit step always emits (`Inv.commit_step`).

  `Present` is the retention invariant: what is neither below its author's last
  committed round nor out of the collector's reach is still in memory.
-/
import Mrv.Consensus.Leaders

namespace Mrv

variable [Crypto]

/-! ## §1. The initial state. -/

namespace State

variable {committee : Committee}

theorem lookup_dag_new (genesis : List Certificate) (r : ℕ) :
    (State.new genesis).dag.lookup r = if r = 0 then
      some (AList.collect (genesis.map (fun x => (x.origin, (x.digest, x))))) else none := by
  show AList.lookup r (AList.insert 0 _ ∅) = _
  rw [AList.lookup_insert_eq_ite, AList.lookup_empty]

theorem find_new {r : ℕ} {a : PublicKey} {d : Digest} {x : Certificate}
    (h : (State.new (Certificate.genesis committee)).dag.find r a = some (d, x)) :
    r = 0 ∧ x ∈ Certificate.genesis committee ∧ x.origin = a ∧ d = x.digest := by
  obtain ⟨authorities, hround, ha⟩ := Dag.find_eq_some_iff.mp h
  rw [lookup_dag_new] at hround
  by_cases hr : r = 0
  · rw [if_pos hr] at hround
    obtain rfl := Option.some.inj hround
    obtain ⟨y, hy, heq⟩ := List.mem_map.mp (AList.mem_of_lookup_collect ha)
    simp only [Prod.mk.injEq] at heq
    obtain ⟨rfl, rfl, rfl⟩ := heq
    exact ⟨hr, hy, rfl, rfl⟩
  · rw [if_neg hr] at hround
    exact absurd hround.symm (Option.some_ne_none _)

theorem lookup_new {a : PublicKey} {k : ℕ}
    (h : (State.new (Certificate.genesis committee)).lastCommitted.lookup a = some k) : k = 0 := by
  simp only [new, AList.lookup_retain] at h
  obtain ⟨e, he, hk⟩ := Option.bind_eq_some_iff.mp h
  obtain ⟨y, hy, heq⟩ := List.mem_map.mp (AList.mem_of_lookup_collect he)
  simp only [Prod.mk.injEq] at heq
  obtain ⟨_, rfl⟩ := heq
  rw [← Option.some.inj hk]
  exact Certificate.round_of_mem_genesis hy

theorem committedRound_new (a : PublicKey) :
    (State.new (Certificate.genesis committee)).committedRound a = 0 := by
  unfold committedRound
  cases hl : (State.new (Certificate.genesis committee)).lastCommitted.lookup a with
  | none => rfl
  | some k => exact lookup_new hl

theorem tidy_new : (State.new (Certificate.genesis committee)).Tidy := by
  unfold Tidy
  obtain h0 | hmem := foldr_max_mem
    (State.new (Certificate.genesis committee)).lastCommitted.values
  · rw [h0]
    rfl
  · obtain ⟨a, ha⟩ := AList.mem_values.mp hmem
    rw [lookup_new ha]
    rfl

/-- A genesis certificate in memory is the last committed one of its author. -/
theorem lookup_new_of_find {a : PublicKey} {e : Digest × Certificate}
    (h : (State.new (Certificate.genesis committee)).dag.find 0 a = some e) :
    (State.new (Certificate.genesis committee)).lastCommitted.lookup a = some 0 := by
  obtain ⟨_, hx, ho, hd⟩ := find_new h
  obtain ⟨authorities, hround, ha⟩ := Dag.find_eq_some_iff.mp h
  rw [lookup_dag_new, if_pos rfl] at hround
  obtain rfl := Option.some.inj hround
  simp only [new, AList.lookup_retain, ha, Option.bind_some, Option.some.injEq]
  exact Certificate.round_of_mem_genesis hx

end State

/-! ## §2. The invariant. -/

namespace Consensus

/-- What the task may hold: delivered and genesis certificates. -/
def Known (task : Consensus) (es : History) (x : Certificate) : Prop :=
  x ∈ delivered es ∨ x ∈ Certificate.genesis task.committee

structure Inv (task : Consensus) (es : History) (n : Node) : Prop where
  sound : n.state.Sound (task.Known es)
  tidy : n.state.Tidy
  pending_sorted : n.pending.Pairwise (fun x y => x.round < y.round)
  pending : ∀ x ∈ n.pending,
    n.state.lastCommittedRound < x.round ∧ x.round % 2 = 0 ∧ n.state.Has x
  /-- The last committed rounds cover what was emitted. -/
  emitted_le : ∀ x ∈ emitted n, x.round ≤ n.state.committedRound x.origin
  /-- And they are the rounds of emitted certificates. -/
  committed : ∀ a, n.state.committedRound a = 0 ∨
    ∃ x ∈ emitted n, x.origin = a ∧ x.round = n.state.committedRound a
  emitted_delivered : ∀ x ∈ emitted n, x ∈ delivered es
  delivered_pos : n.panic = none → ∀ x ∈ delivered es, 0 < x.round
  genesis_committed : n.panic = none → ∀ a e, n.state.dag.find 0 a = some e →
    n.state.lastCommitted.lookup a = some 0
  /-- The last committed round is the one of the last leader. -/
  lastLeader : n.state.lastCommittedRound =
    (n.output.getLast?.map CommittedSubDag.leaderRound).getD 0

variable {task : Consensus} {es : History} {n : Node}

theorem inv_init : Inv task [] task.start where
  sound := by
    intro r a d x h
    obtain ⟨hr, hx, ho, hd⟩ := State.find_new h
    exact ⟨by rw [hr]; exact Certificate.round_of_mem_genesis hx, ho, hd, Or.inr hx⟩
  tidy := State.tidy_new
  pending_sorted := List.Pairwise.nil
  pending := by simp [start]
  emitted_le := by simp [start, emitted]
  committed := fun a => Or.inl (State.committedRound_new a)
  emitted_delivered := by simp [start, emitted]
  delivered_pos := by simp [delivered]
  genesis_committed := fun _ a e h => State.lookup_new_of_find h
  lastLeader := rfl

/-! ## §3. A reception. -/

section Receive

variable {c : Certificate}

theorem sound_inserted {s : State} {known known' : Certificate → Prop} (hs : s.Sound known)
    (hmono : ∀ x, known x → known' x) (hc : known' c) : (inserted s c).Sound known' := by
  intro r a d x h
  have h' : (s.dag.add c.round c.origin (c.digest, c)).find r a = some (d, x) := h
  rw [Dag.find_add] at h'
  by_cases hslot : r = c.round ∧ a = c.origin
  · rw [if_pos hslot] at h'
    simp only [Option.some.injEq, Prod.mk.injEq] at h'
    obtain ⟨rfl, rfl⟩ := h'
    exact ⟨hslot.1.symm, hslot.2.symm, rfl, hc⟩
  · rw [if_neg hslot] at h'
    obtain ⟨hr, ho, hd, hk⟩ := hs r a d x h'
    exact ⟨hr, ho, hd, hmono x hk⟩

theorem sound_receive (h : Inv task es n) :
    (inserted n.state c).Sound (task.Known ((n, .receive c) :: es)) := by
  refine sound_inserted h.sound ?_ (Or.inl List.mem_cons_self)
  intro x hx
  obtain hx | hx := hx
  · exact Or.inl (List.mem_cons_of_mem _ hx)
  · exact Or.inr hx

/-- The leaders a reception leaves pending have the shape of `order_leaders`. -/
theorem pending_receive_rounds (h : Inv task es n) (hpending : n.pending = []) :
    (task.receive n c).pending.Pairwise (fun x y => x.round < y.round) ∧
      ∀ x ∈ (task.receive n c).pending, n.state.lastCommittedRound < x.round ∧
        x.round % 2 = 0 ∧ (inserted n.state c).Has x := by
  obtain hnil | hok := pending_receive hpending
  · rw [hnil]
    exact ⟨List.Pairwise.nil, by simp⟩
  · exact leadersToCommit_rounds (sound_receive h) hok

theorem emitted_receive : emitted (task.receive n c) = emitted n := by
  unfold emitted
  rw [output_receive]

theorem inv_receive (h : Inv task es n) (hpanic : n.panic = none) (hpending : n.pending = []) :
    Inv task ((n, .receive c) :: es) (task.receive n c) where
  sound := by rw [state_receive]; exact sound_receive h
  tidy := by rw [state_receive]; exact h.tidy
  pending_sorted := (pending_receive_rounds h hpending).1
  pending := by rw [state_receive]; exact (pending_receive_rounds h hpending).2
  emitted_le := by rw [state_receive, emitted_receive]; exact h.emitted_le
  committed := by rw [state_receive, emitted_receive]; exact h.committed
  emitted_delivered := by
    rw [emitted_receive]
    exact fun x hx => List.mem_cons_of_mem _ (h.emitted_delivered x hx)
  delivered_pos := by
    intro hlive x hx
    obtain rfl | hx := List.mem_cons.mp hx
    · exact panic_receive hlive
    · exact h.delivered_pos hpanic x hx
  genesis_committed := by
    intro hlive a e hfind
    have hpos := panic_receive hlive
    rw [state_receive] at hfind ⊢
    have hfind' : (n.state.dag.add c.round c.origin (c.digest, c)).find 0 a = some e := hfind
    rw [Dag.find_add, if_neg (by omega)] at hfind'
    exact h.genesis_committed hpanic a e hfind'
  lastLeader := by rw [state_receive, output_receive]; exact h.lastLeader

end Receive

/-! ## §4. The flattening of a leader. -/

section Commit

variable {leader : Certificate} {rest batch : List Certificate}

theorem Inv.known_of_has (h : Inv task es n) {x : Certificate} (hx : n.state.Has x) :
    task.Known es x := h.sound.known_of_has hx

omit [Crypto] in
/-- A certificate above round 0 that the task holds was delivered. -/
theorem delivered_of_known {x : Certificate} (hx : task.Known es x) (hpos : 0 < x.round) :
    x ∈ delivered es := by
  obtain hx | hx := hx
  · exact hx
  · have h0 := Certificate.round_of_mem_genesis hx
    omega

/-- **Flattening does not fail**, and the leader is part of its own batch. -/
theorem Inv.orderDag_ok (h : Inv task es n) (hpanic : n.panic = none)
    (hleader : leader ∈ n.pending) :
    ∃ batch, task.orderDag leader n.state = .ok batch ∧ leader ∈ batch := by
  obtain ⟨hlt, _, hhas⟩ := h.pending leader hleader
  have hround : ∀ x, task.Known es x → x.round = 0 → x.header.parents.toList = [] := by
    intro x hx h0
    obtain hx | hx := hx
    · have hpos := h.delivered_pos hpanic x hx
      omega
    · rw [Certificate.parents_of_mem_genesis hx]
      rfl
  obtain ⟨batch, hbatch⟩ := orderDag_total h.sound hround (h.known_of_has hhas)
  refine ⟨batch, hbatch, leader_mem_orderDag ?_ hbatch⟩
  show n.state.lastCommittedRound ≤ leader.round + task.gcDepth
  omega

variable (h : Inv task es n) (hpanic : n.panic = none) (hleader : leader ∈ n.pending)
  (horder : task.orderDag leader n.state = .ok batch)

include h horder

theorem round_of_mem_batch {x : Certificate} (hx : x ∈ batch) :
    x = leader ∨ x.round < leader.round := by
  obtain heq | hlt := (mem_of_orderDag h.sound horder hx).1.round_le
  · exact Or.inl heq.symm
  · exact Or.inr hlt

include hpanic hleader

/-- A batch holds delivered certificates only: genesis certificates count as
committed from the start. -/
theorem delivered_of_mem_batch {x : Certificate} (hx : x ∈ batch) : x ∈ delivered es := by
  obtain ⟨hlt, _, hhas⟩ := h.pending leader hleader
  obtain heq | ⟨y, _, hfollows⟩ := Relation.ReflTransGen.cases_tail
    (mem_of_orderDag h.sound horder hx).1
  · rw [heq]
    exact delivered_of_known (h.known_of_has hhas) (by omega)
  · refine delivered_of_known (h.known_of_has hfollows.2.1) ?_
    by_contra h0
    have hround : x.round = 0 := by omega
    have hfind := hfollows.2.1
    unfold State.Has at hfind
    rw [hround] at hfind
    apply hfollows.2.2
    unfold State.LastCommitted
    rw [hround]
    exact h.genesis_committed hpanic _ _ hfind

omit hpanic

/-- After a batch the last committed round is the leader's. -/
theorem lastCommittedRound_updateAll (hmem : leader ∈ batch) :
    (n.state.updateAll batch task.gcDepth).lastCommittedRound = leader.round := by
  have hlt := (h.pending leader hleader).1
  have htidy : (n.state.updateAll batch task.gcDepth).Tidy := State.updateAll_tidy h.tidy
  have hge : leader.round ≤ (n.state.updateAll batch task.gcDepth).lastCommittedRound :=
    (State.round_le_committedRound_updateAll hmem).trans (htidy.committedRound_le _)
  obtain ⟨a, ha⟩ := htidy.exists_committedRound (by omega)
  have hle : (n.state.updateAll batch task.gcDepth).committedRound a ≤ leader.round := by
    obtain hold | ⟨x, hx, _, hround⟩ :=
        State.committedRound_updateAll_cases n.state batch task.gcDepth a
    · have := h.tidy.committedRound_le a
      omega
    · obtain rfl | hxlt := round_of_mem_batch h horder hx
      · omega
      · omega
  omega

end Commit

theorem inv_emit {leader : Certificate} {rest batch : List Certificate} (h : Inv task es n)
    (hpanic : n.panic = none) (hpending : n.pending = leader :: rest)
    (horder : task.orderDag leader n.state = .ok batch) (hmem : leader ∈ batch) :
    Inv task ((n, .commit) :: es) (task.emit n leader rest batch) := by
  have hleader : leader ∈ n.pending := by rw [hpending]; exact List.mem_cons_self
  have hlast := lastCommittedRound_updateAll h hleader horder hmem
  have htidy : (n.state.updateAll batch task.gcDepth).Tidy := State.updateAll_tidy h.tidy
  have hsorted := h.pending_sorted
  rw [hpending, List.pairwise_cons] at hsorted
  exact {
    sound := by
      intro r a d x hfind
      exact h.sound r a d x (State.find_of_find_updateAll hfind)
    tidy := htidy
    pending_sorted := hsorted.2
    pending := by
      intro x hx
      -- the batch raises no author above the leader, which is below the others
      have hlt : leader.round < x.round := hsorted.1 x hx
      obtain ⟨_, heven, hhas⟩ := h.pending x (by rw [hpending]; exact List.mem_cons_of_mem _ hx)
      have hle := htidy.committedRound_le x.origin
      refine ⟨?_, heven, State.find_updateAll hhas ?_ ?_⟩
      · show (n.state.updateAll batch task.gcDepth).lastCommittedRound < x.round
        omega
      · omega
      · omega
    emitted_le := by
      intro x hx
      rw [emitted_emit] at hx
      obtain hx | hx := List.mem_append.mp hx
      · exact (h.emitted_le x hx).trans (State.committedRound_le_updateAll _)
      · exact State.round_le_committedRound_updateAll hx
    committed := by
      intro a
      rw [emitted_emit]
      -- an author keeps its round, or has a certificate in the batch
      obtain hold | ⟨x, hx, ho, hround⟩ :=
        State.committedRound_updateAll_cases n.state batch task.gcDepth a
      · obtain h0 | ⟨x, hx, ho, hround⟩ := h.committed a
        · exact Or.inl (hold.trans h0)
        · exact Or.inr ⟨x, List.mem_append_left _ hx, ho, hround.trans hold.symm⟩
      · exact Or.inr ⟨x, List.mem_append_right _ hx, ho, hround⟩
    emitted_delivered := by
      intro x hx
      rw [emitted_emit] at hx
      obtain hx | hx := List.mem_append.mp hx
      · exact h.emitted_delivered x hx
      · exact delivered_of_mem_batch h hpanic hleader horder hx
    delivered_pos := fun _ => h.delivered_pos hpanic
    genesis_committed := by
      intro _ a e hfind
      -- a genesis certificate that is left is the current one of its author
      have hne : batch ≠ [] := List.ne_nil_of_mem hmem
      have hold := h.genesis_committed hpanic a e (State.find_of_find_updateAll hfind)
      obtain ⟨k, hk⟩ := Option.isSome_iff_exists.mp
        (State.lookup_isSome_updateAll
          (Option.isSome_of_eq_some hold))
      have hcur := (State.current_of_find_updateAll hne hfind).1
      unfold State.committedRound at hcur
      rw [hk] at hcur
      have h0 : k = 0 := Nat.le_zero.mp hcur
      rw [h0] at hk
      exact hk
    lastLeader := by
      show (n.state.updateAll batch task.gcDepth).lastCommittedRound = _
      rw [hlast]
      simp [emit, subDag] }

/-- **A commit step emits a batch that contains the leader.** -/
theorem Inv.commit_step (h : Inv task es n) {n' : Node} (hnext : task.next n .commit = some n') :
    ∃ leader rest batch, n.panic = none ∧ n.pending = leader :: rest ∧
      task.orderDag leader n.state = .ok batch ∧ leader ∈ batch ∧
      n' = task.emit n leader rest batch := by
  obtain ⟨leader, rest, hpanic, hpending, rfl⟩ := next_commit hnext
  have hleader : leader ∈ n.pending := by rw [hpending]; exact List.mem_cons_self
  obtain ⟨batch, horder, hmem⟩ := h.orderDag_ok hpanic hleader
  exact ⟨leader, rest, batch, hpanic, hpending, horder, hmem,
    commit_eq_emit horder (List.ne_nil_of_mem hmem)⟩

/-! ## §5. Every state of a run. -/

/-- **The invariant holds throughout every run.** -/
theorem Run.inv (hrun : task.Run es n) : Inv task es n := by
  refine System.Run.invariant (P := Inv task) inv_init ?_ hrun
  intro es n a n' _ hinv hnext
  cases a with
  | receive c =>
      obtain ⟨hpanic, hpending, rfl⟩ := next_receive hnext
      exact inv_receive hinv hpanic hpending
  | commit =>
      obtain ⟨leader, rest, batch, hpanic, hpending, horder, hmem, rfl⟩ := hinv.commit_step hnext
      exact inv_emit hinv hpanic hpending horder hmem

/-! ## §6. Retention. -/

omit [Crypto] in
theorem UniquePerSlot.tail {c : Certificate} {cs : List Certificate}
    (h : UniquePerSlot (c :: cs)) : UniquePerSlot cs :=
  fun x hx y hy => h x (List.mem_cons_of_mem _ hx) y (List.mem_cons_of_mem _ hy)

/-- What is neither below its author's last committed round nor out of the
collector's reach is in memory. -/
def Present (task : Consensus) (es : History) (n : Node) : Prop :=
  ∀ x ∈ delivered es, n.state.committedRound x.origin ≤ x.round →
    n.state.InRange task.gcDepth x → n.state.Has x

theorem present_receive {c : Certificate} (hu : UniquePerSlot (c :: delivered es))
    (h : Present task es n) :
    Present task ((n, .receive c) :: es) (task.receive n c) := by
  intro x hx hle hrange
  rw [state_receive] at hle hrange ⊢
  show (n.state.dag.add c.round c.origin (c.digest, c)).find x.round x.origin = _
  rw [Dag.find_add]
  by_cases hslot : x.round = c.round ∧ x.origin = c.origin
  · rw [if_pos hslot, hu x hx c List.mem_cons_self hslot.1 hslot.2]
  · rw [if_neg hslot]
    obtain rfl | hx := List.mem_cons.mp hx
    · exact absurd ⟨rfl, rfl⟩ hslot
    · exact h x hx hle hrange

theorem present_emit {leader : Certificate} {rest batch : List Certificate}
    (htidy : n.state.Tidy) (h : Present task es n) :
    Present task ((n, .commit) :: es) (task.emit n leader rest batch) := by
  intro x hx hle hrange
  have hle' : (n.state.updateAll batch task.gcDepth).committedRound x.origin ≤ x.round := hle
  have hrange' : (n.state.updateAll batch task.gcDepth).lastCommittedRound
      ≤ x.round + task.gcDepth := hrange
  have hhas : n.state.Has x :=
    h x hx ((State.committedRound_le_updateAll _).trans hle')
      ((State.lastCommittedRound_le_updateAll htidy).trans hrange')
  exact State.find_updateAll hhas hle' hrange'

/-- **Retention holds throughout every run** over one certificate per slot. -/
theorem Run.present (hrun : task.Run es n) (hu : UniquePerSlot (delivered es)) :
    Present task es n := by
  refine System.Run.invariant (P := fun es n => UniquePerSlot (delivered es) → Present task es n)
    ?_ ?_ hrun hu
  · intro _ x hx
    exact absurd hx List.not_mem_nil
  · intro es n a n' hrun ih hnext hu
    have hinv := Run.inv hrun
    cases a with
    | receive c =>
        obtain ⟨_, _, rfl⟩ := next_receive hnext
        exact present_receive hu (ih hu.tail)
    | commit =>
        obtain ⟨leader, rest, batch, _, _, _, _, rfl⟩ := hinv.commit_step hnext
        exact present_emit hinv.tidy (ih hu)

/-- Above the last committed round everything delivered is in memory. -/
theorem Present.above (h : Present task es n) (hinv : Inv task es n) {x : Certificate}
    (hx : x ∈ delivered es) (hlt : n.state.lastCommittedRound < x.round) : n.state.Has x := by
  have hle := hinv.tidy.committedRound_le x.origin
  refine h x hx (by omega) ?_
  show n.state.lastCommittedRound ≤ x.round + task.gcDepth
  omega

end Consensus

end Mrv
