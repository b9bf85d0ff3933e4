/-
  Mrv.Consensus.Content — two tasks commit the same batches.

  The leaders agree (`leaders_agree`); the content of a batch also depends on what
  the DAG in memory still holds.  The last committed rounds are a function of what
  was emitted (`Run.agree`), and a search sees the same links in two memories that
  hold the same uncommitted history within the collector's reach
  (`orderDag_eq_of_agree`).

  Memories can differ on one kind of certificate only: uncommitted ones below the
  last committed round of their authors.  One that arrived before that round was
  committed has been cleaned up, one that arrives afterwards is there.  Runs that
  hold the same ones of these whenever both flatten a leader, emit the same batches
  (`outputs_agree`).
-/
import Mrv.Consensus.Agreement
import Mrv.Consensus.Order

namespace Mrv

variable [Crypto]

/-! ## §1. Last committed rounds are replayed from the emitted certificates. -/

namespace State

/-- The same last committed rounds. -/
structure Agree (s t : State) : Prop where
  lastCommitted : s.lastCommitted = t.lastCommitted
  lastCommittedRound : s.lastCommittedRound = t.lastCommittedRound

variable {s t : State}

omit [Crypto] in
theorem Agree.symm (h : s.Agree t) : t.Agree s :=
  ⟨h.lastCommitted.symm, h.lastCommittedRound.symm⟩

omit [Crypto] in
theorem Agree.trans {u : State} (h : s.Agree t) (h' : t.Agree u) : s.Agree u :=
  ⟨h.lastCommitted.trans h'.lastCommitted, h.lastCommittedRound.trans h'.lastCommittedRound⟩

omit [Crypto] in
theorem Agree.isLast_iff (h : s.Agree t) (y : Certificate) :
    s.LastCommitted y ↔ t.LastCommitted y := by
  unfold LastCommitted
  rw [h.lastCommitted]

omit [Crypto] in
theorem Agree.inRange_iff (h : s.Agree t) (gcDepth : ℕ) (y : Certificate) :
    s.InRange gcDepth y ↔ t.InRange gcDepth y := by
  unfold InRange
  rw [h.lastCommittedRound]

omit [Crypto] in
theorem Agree.update (h : s.Agree t) (c : Certificate) (gcDepth : ℕ) :
    (s.update c gcDepth).Agree (t.update c gcDepth) := by
  have hmap : (s.update c gcDepth).lastCommitted = (t.update c gcDepth).lastCommitted := by
    unfold State.update
    simp only [h.lastCommitted]
  refine ⟨hmap, ?_⟩
  rw [tidy_update s c gcDepth, tidy_update t c gcDepth, hmap]

omit [Crypto] in
theorem Agree.updateAll (h : s.Agree t) (batch : List Certificate) (gcDepth : ℕ) :
    (s.updateAll batch gcDepth).Agree (t.updateAll batch gcDepth) := by
  induction batch generalizing s t with
  | nil => exact h
  | cons c batch ih => exact ih (h.update c gcDepth)

omit [Crypto] in
theorem updateAll_append (batch batch' : List Certificate) (gcDepth : ℕ) :
    s.updateAll (batch ++ batch') gcDepth = (s.updateAll batch gcDepth).updateAll batch' gcDepth :=
  List.foldl_append

end State

namespace Consensus

variable {task : Consensus} {es : History} {n : Node}

/-- **The last committed rounds are those of replaying the output.** -/
theorem Run.agree (hrun : task.Run es n) :
    n.state.Agree (task.start.state.updateAll (emitted n) task.gcDepth) := by
  refine System.Run.invariant
    (P := fun _ n => n.state.Agree (task.start.state.updateAll (emitted n) task.gcDepth)) ?_ ?_
    hrun
  · exact ⟨rfl, rfl⟩
  · intro es n a n' hrun ih hnext
    cases a with
    | receive c =>
        obtain ⟨_, _, rfl⟩ := next_receive hnext
        rw [emitted_receive, state_receive]
        exact ⟨ih.lastCommitted, ih.lastCommittedRound⟩
    | commit =>
        obtain ⟨leader, rest, batch, _, _, _, _, rfl⟩ := (Run.inv hrun).commit_step hnext
        rw [emitted_emit, State.updateAll_append]
        exact ih.updateAll batch task.gcDepth

/-! ## §2. Two memories with the same history. -/

section Search

variable {D : Set Certificate} {s t : State} {leader : Certificate}

/-- Within the collector's reach the two memories hold the same uncommitted ancestors
of the leader. -/
def SameHistory (task : Consensus) (D : Set Certificate) (s t : State) (leader : Certificate) :
    Prop :=
  ∀ y ∈ D, Ancestor D leader y → s.InRange task.gcDepth y → ¬ s.LastCommitted y →
    (s.Has y ↔ t.Has y)

theorem SameHistory.symm (h : SameHistory task D s t leader) (hagree : s.Agree t) :
    SameHistory task D t s leader := by
  intro y hy hancestor hrange hlast
  refine (h y hy hancestor ((hagree.inRange_iff _ y).mpr hrange) ?_).symm
  exact fun hl => hlast ((hagree.isLast_iff y).mp hl)

/-- Genesis certificates in memory count as committed. -/
def GenesisCommitted (D : Set Certificate) (s : State) : Prop :=
  ∀ y, s.Has y → ¬ s.LastCommitted y → y ∈ D

variable (hinj : Set.InjOn Certificate.digest (WithGenesis task.committee D))

include hinj

/-- A link followed in one memory, within the collector's reach, is followed in the
other. -/
theorem nextParent_eq_of_sameHistory (hs : s.Sound (· ∈ WithGenesis task.committee D))
    (ht : t.Sound (· ∈ WithGenesis task.committee D)) (hagree : s.Agree t)
    (hsame : SameHistory task D s t leader) (hgen : GenesisCommitted D s) {x : Certificate}
    (hx : Ancestor D leader x) (hpos : 0 < x.round) {d : Digest} (hd : d ∈ x.header.parents)
    {e : Digest × Certificate} (h : s.nextParent x d = some e)
    (hrange : s.InRange task.gcDepth e.2) :
    t.nextParent x d = some e ∧ t.InRange task.gcDepth e.2 := by
  obtain ⟨hed, hdigest, hround, hhas, hnot⟩ := State.nextParent_eq_some hs h
  have hparent : x.Parent e.2 := by
    refine ⟨?_, by omega⟩
    show e.2.digest ∈ x.header.parents
    rw [← hdigest, hed]
    exact hd
  have heD := hgen e.2 hhas hnot
  have hhas' : t.Has e.2 :=
    (hsame e.2 heD (hx.tail ⟨heD, hparent⟩) hrange hnot).mp hhas
  have hfollows : t.Follows x e.2 :=
    ⟨hparent, hhas', fun hl => hnot ((hagree.isLast_iff e.2).mpr hl)⟩
  have hnext := State.nextParent_of_follows ht (ht.injOn hinj) hfollows
  rw [← hdigest, hed] at hnext
  refine ⟨?_, (hagree.inRange_iff _ e.2).mp hrange⟩
  rw [hnext, ← hed]

variable (hs : s.Sound (· ∈ WithGenesis task.committee D))
  (ht : t.Sound (· ∈ WithGenesis task.committee D)) (hagree : s.Agree t)

/-- The search that never leaves the collector's reach. -/
def nextParentsInRange (task : Consensus) (s : State) (x : Digest × Certificate) :
    Except Panic (List (Digest × Certificate)) :=
  (s.nextParents x).map (List.filter (fun e => decide (s.InRange task.gcDepth e.2)))

include hs ht hagree

/-- It takes the same steps in both memories. -/
theorem nextParentsInRange_eq (hsame : SameHistory task D s t leader)
    (hsgen : GenesisCommitted D s) (htgen : GenesisCommitted D t) {x : Digest × Certificate}
    (hx : Ancestor D leader x.2) :
    nextParentsInRange task s x = nextParentsInRange task t x := by
  unfold nextParentsInRange State.nextParents
  by_cases hnil : x.2.header.parents.toList = []
  · rw [if_pos hnil, if_pos hnil]
    rfl
  rw [if_neg hnil, if_neg hnil]
  by_cases h0 : x.2.round = 0
  · rw [if_pos h0, if_pos h0]
    rfl
  rw [if_neg h0, if_neg h0]
  have hpos : 0 < x.2.round := Nat.pos_of_ne_zero h0
  refine congrArg Except.ok ?_
  rw [List.filter_filterMap, List.filter_filterMap]
  apply List.filterMap_congr
  intro d hd
  ext e
  simp only [Option.filter_eq_some_iff, decide_eq_true_eq]
  constructor
  · intro h
    exact nextParent_eq_of_sameHistory hinj hs ht hagree hsame hsgen hx hpos hd h.1 h.2
  · intro h
    exact nextParent_eq_of_sameHistory hinj ht hs hagree.symm (hsame.symm hagree) htgen hx hpos
      hd h.1 h.2

omit ht hagree in
/-- Dropping what is out of reach from a search leaves the search that never goes
there. -/
theorem explores_inRange (hgen : GenesisCommitted D s) (hleader : leader ∈ D)
    (hin : s.InRange task.gcDepth leader) {out : List (Digest × Certificate)}
    (hout : Search.Explores Prod.fst s.nextParents [(leader.digest, leader)] ∅ out) :
    Search.Explores Prod.fst (nextParentsInRange task s) [(leader.digest, leader)] ∅
        (out.filter (fun e => decide (s.InRange task.gcDepth e.2))) ∧
      ∀ e ∈ out, Ancestor D leader e.2 := by
  have hstart : ∀ e ∈ [(leader.digest, leader)],
      e.1 = e.2.digest ∧ e.2 ∈ D ∧ Ancestor D leader e.2 := by
    intro e he
    rw [List.mem_singleton.mp he]
    exact ⟨rfl, hleader, Relation.ReflTransGen.refl⟩
  have hstep : ∀ (x : Digest × Certificate) ys,
      x.1 = x.2.digest ∧ x.2 ∈ D ∧ Ancestor D leader x.2 → s.nextParents x = .ok ys →
      ∀ y ∈ ys, y.1 = y.2.digest ∧ y.2 ∈ D ∧ Ancestor D leader y.2 := by
    intro x ys hx hys y hy
    obtain ⟨hd, hfollows⟩ := State.mem_nextParents hs hys hy
    have hyD := hgen y.2 hfollows.2.1 hfollows.2.2
    exact ⟨hd, hyD, hx.2.2.tail ⟨hyD, hfollows.1⟩⟩
  constructor
  · have hfilter : Search.Explores Prod.fst (nextParentsInRange task s)
        ([(leader.digest, leader)].filter (fun e => decide (s.InRange task.gcDepth e.2))) ∅
        (out.filter (fun e => decide (s.InRange task.gcDepth e.2))) := by
      refine hout.filter hstart hstep ?_ ?_ ?_ ?_
      · -- one digest, one certificate
        intro x y hx hy hkey
        have hxy : x.2 = y.2 := hinj (Or.inl hx.2.1) (Or.inl hy.2.1)
          (hx.1.symm.trans (hkey.trans hy.1))
        rw [hxy]
      · -- parents of what is out of reach are out of reach
        intro x ys hx hys hout y hy
        have hround := (State.mem_nextParents hs hys hy).2.1.2
        simp only [decide_eq_false_iff_not] at hout ⊢
        unfold State.InRange at hout ⊢
        omega
      · intro x ys _ _ hys
        unfold nextParentsInRange
        rw [hys]
        rfl
      · intro x _ _
        exact Iff.rfl
    rw [List.filter_cons_of_pos (by simpa using hin), List.filter_nil] at hfilter
    exact hfilter
  · exact fun e he => (hout.forall_mem hstart hstep e he).2.2

/-- **The same history gives the same batch.** -/
theorem orderDag_eq_of_agree (hsame : SameHistory task D s t leader)
    (hsgen : GenesisCommitted D s) (htgen : GenesisCommitted D t) (hleader : leader ∈ D)
    (hin : s.InRange task.gcDepth leader) {batch batch' : List Certificate}
    (h : task.orderDag leader s = .ok batch) (h' : task.orderDag leader t = .ok batch') :
    batch = batch' := by
  obtain ⟨out, hout, rfl⟩ := orderDag_eq_ok h
  obtain ⟨out', hout', rfl⟩ := orderDag_eq_ok h'
  have hin' : t.InRange task.gcDepth leader := by
    unfold State.InRange at hin ⊢
    rw [← hagree.lastCommittedRound]
    exact hin
  obtain ⟨hexplores, hancestor⟩ := explores_inRange hinj hs hsgen hleader hin hout
  obtain ⟨hexplores', _⟩ := explores_inRange hinj ht htgen hleader hin' hout'
  have heq := hexplores.det hexplores' (fun e he => nextParentsInRange_eq hinj hs ht hagree hsame
    hsgen htgen (hancestor e (List.mem_filter.mp he).1))
  have hmap : ∀ (u : State) (l : List (Digest × Certificate)),
      (l.map Prod.snd).filter (fun x => decide (u.InRange task.gcDepth x)) =
        (l.filter (fun e => decide (u.InRange task.gcDepth e.2))).map Prod.snd := by
    intro u l
    rw [List.filter_map]
    rfl
  rw [hmap, hmap, heq]

end Search

/-! ## §3. Two runs. -/

/-- Whenever both runs flatten a leader, their memories hold the same ones of its
ancestors that are in reach and below the last committed rounds of their authors. -/
def SameRetained (task : Consensus) (D : Set Certificate) (es₁ es₂ : History) : Prop :=
  ∀ m₁ m₂ leader rest₁ rest₂, (m₁, Action.commit) ∈ es₁ → (m₂, Action.commit) ∈ es₂ →
    m₁.pending = leader :: rest₁ → m₂.pending = leader :: rest₂ →
    ∀ x ∈ D, Ancestor D leader x →
      m₁.state.InRange task.gcDepth x → m₂.state.InRange task.gcDepth x →
      x.round < m₁.state.committedRound x.origin → x.round < m₂.state.committedRound x.origin →
      (m₁.state.Has x ↔ m₂.state.Has x)

section Runs

variable {D : Set Certificate} {es₁ es₂ : History} {n₁ n₂ : Node}
  (hfit : 2 * task.committee.totalStake < 2 ^ 32) (hD : QuorumDag task.committee D)
  (hinj : Set.InjOn Certificate.digest (WithGenesis task.committee D))

theorem sound_withGenesis (hrun : task.Run es n) (hfed : FedFrom task D es) :
    n.state.Sound (· ∈ WithGenesis task.committee D) := by
  intro r a d x hfind
  obtain ⟨hr, ho, hd, hknown⟩ := (Run.inv hrun).sound r a d x hfind
  exact ⟨hr, ho, hd, hfed.withGenesis hknown⟩

theorem genesisCommitted_of_run (hrun : task.Run es n) (hpanic : n.panic = none)
    (hfed : FedFrom task D es) : GenesisCommitted D n.state := by
  intro y hhas hnot
  obtain hy | hy := (Run.inv hrun).known_of_has hhas
  · exact hfed.mem y hy
  · have h0 := Certificate.round_of_mem_genesis hy
    unfold State.Has at hhas
    rw [h0] at hhas
    refine absurd ?_ hnot
    unfold State.LastCommitted
    rw [h0]
    exact (Run.inv hrun).genesis_committed hpanic _ _ hhas

include hD hinj

/-- Memories that agree on what was committed hold the same uncommitted history: what
is current for its author is in both, the rest is left to the condition. -/
theorem sameHistory_of_runs {leader : Certificate} (hrun₁ : task.Run es₁ n₁)
    (hrun₂ : task.Run es₂ n₂) (hfed₁ : FedFrom task D es₁) (hfed₂ : FedFrom task D es₂)
    (hleader₁ : leader ∈ delivered es₁) (hleader₂ : leader ∈ delivered es₂)
    (hagree : n₁.state.Agree n₂.state)
    (hretained : ∀ x ∈ D, Ancestor D leader x →
      n₁.state.InRange task.gcDepth x → n₂.state.InRange task.gcDepth x →
      x.round < n₁.state.committedRound x.origin → x.round < n₂.state.committedRound x.origin →
      (n₁.state.Has x ↔ n₂.state.Has x)) :
    SameHistory task D n₁.state n₂.state leader := by
  intro y hy hancestor hrange _
  have hrange₂ := (hagree.inRange_iff _ y).mp hrange
  have hcr : n₁.state.committedRound y.origin = n₂.state.committedRound y.origin := by
    unfold State.committedRound
    rw [hagree.lastCommitted]
  by_cases hlt : y.round < n₁.state.committedRound y.origin
  · exact hretained y hy hancestor hrange hrange₂ hlt (hcr ▸ hlt)
  · have hunique : ∀ {es}, FedFrom task D es → UniquePerSlot (delivered es) :=
      fun hfed x hx z hz => hD.unique x (hfed.mem x hx) z (hfed.mem z hz)
    have hy₁ := hfed₁.delivered_of_ancestor hD.round_pos hinj hleader₁ hancestor
    have hy₂ := hfed₂.delivered_of_ancestor hD.round_pos hinj hleader₂ hancestor
    have hhas₁ := Run.present hrun₁ (hunique hfed₁) y hy₁ (by omega) hrange
    have hhas₂ := Run.present hrun₂ (hunique hfed₂) y hy₂ (by omega) hrange₂
    exact ⟨fun _ => hhas₂, fun _ => hhas₁⟩

include hfit

/-- Outputs of one length agree. -/
theorem outputs_agree_aux (hrun₁ : task.Run es₁ n₁) (hrun₂ : task.Run es₂ n₂)
    (hfed₁ : FedFrom task D es₁) (hfed₂ : FedFrom task D es₂)
    (hretained : SameRetained task D es₁ es₂) :
    ∀ (k : ℕ) (pre₁ pre₂ : List CommittedSubDag), pre₁.length = k → pre₂.length = k →
      pre₁ <+: n₁.output → pre₂ <+: n₂.output → pre₁ = pre₂ := by
  intro k
  induction k with
  | zero =>
      intro pre₁ pre₂ h₁ h₂ _ _
      rw [List.length_eq_zero_iff.mp h₁, List.length_eq_zero_iff.mp h₂]
  | succ k ih =>
      intro pre₁ pre₂ h₁ h₂ hpre₁ hpre₂
      obtain hnil | ⟨q₁, b₁, rfl⟩ := List.eq_nil_or_concat' pre₁
      · rw [hnil] at h₁; simp at h₁
      obtain hnil | ⟨q₂, b₂, rfl⟩ := List.eq_nil_or_concat' pre₂
      · rw [hnil] at h₂; simp at h₂
      rw [List.length_append, List.length_singleton] at h₁ h₂
      have hq : q₁ = q₂ := ih q₁ q₂ (by omega) (by omega)
        ((List.prefix_append q₁ [b₁]).trans hpre₁) ((List.prefix_append q₂ [b₂]).trans hpre₂)
      obtain ⟨post₁, hout₁⟩ := hpre₁
      obtain ⟨post₂, hout₂⟩ := hpre₂
      rw [List.append_assoc, List.singleton_append] at hout₁ hout₂
      obtain ⟨later₁, earlier₁, m₁, l₁, rest₁, batch₁, rfl, hm₁, hpanic₁, hpend₁, horder₁, hmout₁,
        rfl⟩ := Run.batch_entry hrun₁ hout₁.symm
      obtain ⟨later₂, earlier₂, m₂, l₂, rest₂, batch₂, rfl, hm₂, hpanic₂, hpend₂, horder₂, hmout₂,
        rfl⟩ := Run.batch_entry hrun₂ hout₂.symm
      subst hq
      -- the leaders are the same, because the leaders of the runs agree
      have hkey : leaderKey l₁ = leaderKey l₂ := by
        have hl₁ : leaders n₁ = q₁.map batchKey ++ leaderKey l₁ :: post₁.map batchKey :=
          leaders_of_output hout₁
        have hl₂ : leaders n₂ = q₁.map batchKey ++ leaderKey l₂ :: post₂.map batchKey :=
          leaders_of_output hout₂
        obtain ⟨t, ht⟩ | ⟨t, ht⟩ := leaders_agree hfit hD hinj hrun₁ hrun₂ hfed₁ hfed₂
        · rw [hl₁, hl₂, List.append_assoc, List.append_cancel_left_eq, List.cons_append] at ht
          exact (List.cons.inj ht).1
        · rw [hl₁, hl₂, List.append_assoc, List.append_cancel_left_eq, List.cons_append] at ht
          exact (List.cons.inj ht).1.symm
      have hdel₁ := delivered_of_pending hm₁ hpend₁
      have hdel₂ := delivered_of_pending hm₂ hpend₂
      have hfed₁' : FedFrom task D earlier₁ := hfed₁.earlier.tail
      have hfed₂' : FedFrom task D earlier₂ := hfed₂.earlier.tail
      have hl : l₁ = l₂ := hinj (Or.inl (hfed₁'.mem _ hdel₁)) (Or.inl (hfed₂'.mem _ hdel₂))
        (congrArg Prod.snd hkey)
      subst hl
      -- so are the last committed rounds, and by the condition the histories
      have hemitted : emitted m₁ = emitted m₂ := by
        unfold emitted
        rw [hmout₁, hmout₂]
      have hagree : m₁.state.Agree m₂.state := by
        have h₁ := Run.agree hm₁
        rw [hemitted] at h₁
        exact h₁.trans (Run.agree hm₂).symm
      have hsame := sameHistory_of_runs hD hinj hm₁ hm₂ hfed₁' hfed₂' hdel₁ hdel₂ hagree
        (hretained m₁ m₂ l₁ rest₁ rest₂ (by simp) (by simp) hpend₁ hpend₂)
      have hrange : m₁.state.InRange task.gcDepth l₁ := by
        have hlt := ((Run.inv hm₁).pending l₁ (by rw [hpend₁]; exact List.mem_cons_self)).1
        unfold State.InRange
        omega
      have hbatch := orderDag_eq_of_agree hinj (sound_withGenesis hm₁ hfed₁')
        (sound_withGenesis hm₂ hfed₂') hagree hsame (genesisCommitted_of_run hm₁ hpanic₁ hfed₁')
        (genesisCommitted_of_run hm₂ hpanic₂ hfed₂') (hfed₁'.mem _ hdel₁) hrange horder₁ horder₂
      unfold subDag
      rw [hbatch, (Run.numbered hm₁).1, (Run.numbered hm₂).1, hmout₁, hmout₂]

/-- **Agreement on the committed sequence**: the outputs are prefixes of one another. -/
theorem outputs_prefix (hrun₁ : task.Run es₁ n₁) (hrun₂ : task.Run es₂ n₂)
    (hfed₁ : FedFrom task D es₁) (hfed₂ : FedFrom task D es₂)
    (hretained : SameRetained task D es₁ es₂) :
    n₁.output <+: n₂.output ∨ n₂.output <+: n₁.output := by
  have haux := outputs_agree_aux hfit hD hinj hrun₁ hrun₂ hfed₁ hfed₂ hretained
  obtain hle | hle := Nat.le_total n₁.output.length n₂.output.length
  · left
    have heq := haux n₁.output.length n₁.output (n₂.output.take n₁.output.length) rfl
      (List.length_take_of_le hle) (List.prefix_refl _) (List.take_prefix _ _)
    rw [heq]
    exact List.take_prefix _ _
  · right
    have heq := haux n₂.output.length (n₁.output.take n₂.output.length) n₂.output
      (List.length_take_of_le hle) rfl (List.take_prefix _ _) (List.prefix_refl _)
    rw [← heq]
    exact List.take_prefix _ _

omit hfit hD in
/-- A leader heads one batch only. -/
theorem batch_eq_of_leader (hrun : task.Run es n) (hfed : FedFrom task D es)
    {b b' : CommittedSubDag} (hb : b ∈ n.output) (hb' : b' ∈ n.output)
    (h : b.leaderDigest = b'.leaderDigest) : b = b' := by
  have hround : b.leaderRound = b'.leaderRound := by
    obtain ⟨pre, post, hout⟩ := List.append_of_mem hb
    obtain ⟨pre', post', hout'⟩ := List.append_of_mem hb'
    obtain ⟨later, earlier, m, l, rest, batch, rfl, hm, _, hpend, _, _, rfl⟩ :=
      Run.batch_entry hrun hout
    obtain ⟨later', earlier', m', l', rest', batch', heq, hm', _, hpend', _, _, rfl⟩ :=
      Run.batch_entry hrun hout'
    have hl := hfed.earlier.tail.mem _ (delivered_of_pending hm hpend)
    rw [heq] at hfed
    have hl' := hfed.earlier.tail.mem _ (delivered_of_pending hm' hpend')
    have hll : l = l' := hinj (Or.inl hl) (Or.inl hl') h
    exact congrArg Certificate.round hll
  have hnd : (n.output.map CommittedSubDag.leaderRound).Nodup :=
    (Run.climbing hrun).sorted.imp Nat.ne_of_lt
  exact List.inj_on_of_nodup_map hnd hb hb' hround

end Runs

/-! ## §4. Content. -/

/-- **Agreement on committed content**: two runs over one DAG that hold the same
retained history when they flatten a leader, emit equal lists for that leader. -/
theorem certificates_agree {D : Set Certificate} {es₁ es₂ : History} {n₁ n₂ : Node}
    (hfit : 2 * task.committee.totalStake < 2 ^ 32) (hD : QuorumDag task.committee D)
    (hinj : Set.InjOn Certificate.digest (WithGenesis task.committee D))
    (hrun₁ : task.Run es₁ n₁) (hrun₂ : task.Run es₂ n₂)
    (hfed₁ : FedFrom task D es₁) (hfed₂ : FedFrom task D es₂)
    (hretained : SameRetained task D es₁ es₂) {b₁ b₂ : CommittedSubDag} (hb₁ : b₁ ∈ n₁.output)
    (hb₂ : b₂ ∈ n₂.output) (h : b₁.leaderDigest = b₂.leaderDigest) :
    b₁.certificates = b₂.certificates := by
  obtain hpre | hpre := outputs_prefix hfit hD hinj hrun₁ hrun₂ hfed₁ hfed₂ hretained
  · rw [batch_eq_of_leader hinj hrun₂ hfed₂ (hpre.subset hb₁) hb₂ h]
  · rw [batch_eq_of_leader hinj hrun₁ hfed₁ hb₁ (hpre.subset hb₂) h]

/-- What a memory holds of a DAG below the last committed rounds of its authors. -/
def leftBelow (cs : List Certificate) (s : State) : List Certificate :=
  cs.filter (fun x => decide (x.round < s.committedRound x.origin ∧
    s.dag.find x.round x.origin = some (x.digest, x)))

/-- Two runs retain the same if each leader finds the same left below in both. -/
theorem sameRetained_of_leftBelow {cs : List Certificate} {left : ℕ → List Certificate}
    {es₁ es₂ : History}
    (h₁ : ∀ e ∈ es₁, ∀ leader ∈ e.1.pending, leftBelow cs e.1.state = left leader.round)
    (h₂ : ∀ e ∈ es₂, ∀ leader ∈ e.1.pending, leftBelow cs e.1.state = left leader.round) :
    SameRetained task {x | x ∈ cs} es₁ es₂ := by
  intro m₁ m₂ leader rest₁ rest₂ hm₁ hm₂ hpend₁ hpend₂ x hx _ _ _ hlt₁ hlt₂
  have hiff : ∀ {s : State}, x.round < s.committedRound x.origin →
      (s.Has x ↔ x ∈ leftBelow cs s) := by
    intro s hlt
    unfold leftBelow
    rw [List.mem_filter, decide_eq_true_iff]
    exact ⟨fun hhas => ⟨hx, hlt, hhas⟩, fun h => h.2.2⟩
  rw [hiff hlt₁, hiff hlt₂, h₁ _ hm₁ leader (by simp [hpend₁]), h₂ _ hm₂ leader (by simp [hpend₂])]

/-- The late certificate arrives after the leader of round 2 is committed, the others in
another order. -/
def otherOrder : List Certificate :=
  [Certificate.sample 1 3 [0, 1, 3], .sample 1 1 [0, 1, 2], .sample 1 0 [0, 1, 2],
    .sample 2 0 [0, 1, 3], .sample 2 2 [0, 1, 3], .sample 2 3 [0, 1, 3],
    .sample 3 2 [0, 2, 3], .sample 3 0 [0, 2, 3], .sample 3 3 [0, 2, 3],
    .sample 4 3 [0, 2, 3], .sample 4 2 [0, 2, 3], .sample 4 1 [0, 2, 3],
    .sample 5 1 [1, 2, 3], sampleLate, .sample 2 1 [1, 2, 3], .sample 3 1 [0, 1, 2],
    .sample 4 0 [0, 1, 2], .sample 5 2 [0, 1, 2], .sample 5 0 [0, 1, 2],
    .sample 6 2 [0, 1, 2], .sample 6 1 [0, 1, 2], .sample 6 0 [0, 1, 2], .sample 7 0 [0, 1, 2]]

/-- The late certificate is what the leader of round 4 finds left below. -/
def lateLeft (round : ℕ) : List Certificate := if round = 4 then [sampleLate] else []

/-- A run that received these certificates, committed the leaders of rounds 2 and 4 and
found nothing but the late certificate left below. -/
structure KeepRun (received : List Certificate) (es : History) (n : Node) : Prop where
  run : sampleTask.Run es n
  delivered : delivered es = received.reverse
  leaders : n.output.map CommittedSubDag.leaderDigest = [sampleDigest 2 2, sampleDigest 4 0]
  left : ∀ e ∈ es, ∀ leader ∈ e.1.pending,
    leftBelow sampleDag e.1.state = lateLeft leader.round

theorem keepRun_of_exec (actions : List Action) {received : List Certificate}
    (h : (sampleTask.system.exec actions [] sampleTask.system.init).any (fun r : History × Node =>
      decide (Consensus.delivered r.1 = received.reverse ∧
        r.2.output.map CommittedSubDag.leaderDigest = [sampleDigest 2 2, sampleDigest 4 0] ∧
        ∀ e ∈ r.1, ∀ leader ∈ e.1.pending,
          leftBelow sampleDag e.1.state = lateLeft leader.round)) = true) :
    ∃ es n, KeepRun received es n := by
  obtain ⟨es, n, hrun, hcheck⟩ := System.exec_check _ actions (fun es n =>
    decide (Consensus.delivered es = received.reverse ∧
      n.output.map CommittedSubDag.leaderDigest = [sampleDigest 2 2, sampleDigest 4 0] ∧
      ∀ e ∈ es, ∀ leader ∈ e.1.pending,
        leftBelow sampleDag e.1.state = lateLeft leader.round)) h
  obtain ⟨hdelivered, hleaders, hleft⟩ := of_decide_eq_true hcheck
  exact ⟨es, n, hrun, hdelivered, hleaders, hleft⟩

theorem KeepRun.fed {received : List Certificate} {es : History} {n : Node}
    (h : KeepRun received es n) (hmem : ∀ x ∈ received, x ∈ sampleDag)
    (hcausal : CausalDelivery sampleTask.committee received.reverse) :
    FedFrom sampleTask {x | x ∈ sampleDag} es := by
  refine ⟨?_, ?_⟩
  · intro x hx
    rw [h.delivered, List.mem_reverse] at hx
    exact hmem x hx
  · rw [h.delivered]
    exact hcausal

theorem KeepRun.length {received : List Certificate} {es : History} {n : Node}
    (h : KeepRun received es n) : n.output.length = 2 := by
  simpa using congrArg List.length h.leaders

theorem KeepRun.exists_second {received : List Certificate} {es : History} {n : Node}
    (h : KeepRun received es n) : ∃ b ∈ n.output, b.leaderDigest = sampleDigest 4 0 := by
  refine List.mem_map.mp ?_
  rw [h.leaders]
  exact List.mem_cons_of_mem _ List.mem_cons_self

omit [Crypto] in
set_option maxRecDepth 10000 in
/-- Both orders keep the late certificate. -/
theorem exists_keepRuns :
    letI := sampleCrypto
    (∃ es n, KeepRun lateOrder es n) ∧ ∃ es n, KeepRun otherOrder es n :=
  let _ := sampleCrypto
  ⟨keepRun_of_exec ((lateOrder.take 13).map .receive ++ .commit ::
      (lateOrder.drop 13).map .receive ++ [.commit]) (by decide +kernel),
    keepRun_of_exec ((otherOrder.take 13).map .receive ++ .commit ::
      (otherOrder.drop 13).map .receive ++ [.commit]) (by decide +kernel)⟩

omit [Crypto] in
set_option maxRecDepth 10000 in
theorem causal_otherOrder :
    letI := sampleCrypto
    (∀ x ∈ otherOrder, x ∈ sampleDag) ∧
      CausalDelivery sampleTask.committee otherOrder.reverse := by
  decide +kernel

omit [Crypto] in
/-- Two nodes that commit the leaders of rounds 2 and 4 and get the DAG in two orders,
each with the late certificate after the first commit: it is below its author's last
committed round and in memory of both when they flatten the second leader. -/
theorem certificates_agree_sample :
    letI := sampleCrypto
    ∃ es₁ n₁ es₂ n₂, sampleTask.Run es₁ n₁ ∧ sampleTask.Run es₂ n₂ ∧
      delivered es₁ = lateOrder.reverse ∧ delivered es₂ = otherOrder.reverse ∧
      n₁.output.length = 2 ∧ n₂.output.length = 2 ∧
      ∃ b₁ ∈ n₁.output, ∃ b₂ ∈ n₂.output, b₁.leaderDigest = sampleDigest 4 0 ∧
        b₂.leaderDigest = sampleDigest 4 0 ∧ b₁.certificates = b₂.certificates := by
  let _ := sampleCrypto
  obtain ⟨⟨es₁, n₁, h₁⟩, es₂, n₂, h₂⟩ := exists_keepRuns
  obtain ⟨_, hmem₁, hcausal₁, _⟩ := causal_sampleOrders
  obtain ⟨hmem₂, hcausal₂⟩ := causal_otherOrder
  obtain ⟨hD, hinj⟩ := quorumDag_sampleDag
  obtain ⟨b₁, hb₁, hl₁⟩ := h₁.exists_second
  obtain ⟨b₂, hb₂, hl₂⟩ := h₂.exists_second
  refine ⟨es₁, n₁, es₂, n₂, h₁.run, h₂.run, h₁.delivered, h₂.delivered, h₁.length, h₂.length,
    b₁, hb₁, b₂, hb₂, hl₁, hl₂, ?_⟩
  exact certificates_agree (by decide +kernel) hD hinj h₁.run h₂.run (h₁.fed hmem₁ hcausal₁)
    (h₂.fed hmem₂ hcausal₂) (sameRetained_of_leftBelow h₁.left h₂.left) hb₁ hb₂
    (hl₁.trans hl₂.symm)

omit [Crypto] in
/-- **Content disagrees**: two nodes that receive all of one DAG, each certificate once
and after its parents, and commit different lists for the leader of round 4.  The
certificate of author 2 in round 1 reaches one of them before and the other after the
commit of author 2's certificate of round 2. -/
theorem certificates_disagree :
    ¬ ∀ (_ : Crypto) (task : Consensus) (D : Set Certificate) (es₁ es₂ : History) (n₁ n₂ : Node),
      2 * task.committee.totalStake < 2 ^ 32 → QuorumDag task.committee D →
      Set.InjOn Certificate.digest (WithGenesis task.committee D) →
      task.Run es₁ n₁ → task.Run es₂ n₂ → FedFrom task D es₁ → FedFrom task D es₂ →
      (delivered es₁).Nodup → (delivered es₂).Nodup →
      (∀ x ∈ D, x ∈ delivered es₁) → (∀ x ∈ D, x ∈ delivered es₂) →
      ∀ b₁ ∈ n₁.output, ∀ b₂ ∈ n₂.output, b₁.leaderDigest = b₂.leaderDigest →
        b₁.certificates = b₂.certificates := by
  intro h
  let _ := sampleCrypto
  obtain ⟨es₁, n₁, h₁⟩ := exists_earlyRun
  obtain ⟨es₂, n₂, h₂⟩ := exists_lateRun
  obtain ⟨⟨hmem₁, hcausal₁, hnd₁⟩, hmem₂, hcausal₂, hnd₂⟩ := causal_sampleOrders
  obtain ⟨hD, hinj⟩ := quorumDag_sampleDag
  obtain ⟨b₁, hb₁, hl₁, hc₁⟩ := h₁.exists_batch
    (List.mem_cons_of_mem _ List.mem_cons_self)
  obtain ⟨b₂, hb₂, hl₂, hc₂⟩ := h₂.exists_batch
    (List.mem_cons_of_mem _ List.mem_cons_self)
  have hall₁ : ∀ x ∈ sampleDag, x ∈ delivered es₁ := by
    rw [h₁.delivered]
    decide +kernel
  have hall₂ : ∀ x ∈ sampleDag, x ∈ delivered es₂ := by
    rw [h₂.delivered]
    decide +kernel
  have heq := h sampleCrypto sampleTask {x | x ∈ sampleDag} es₁ es₂ n₁ n₂ (by decide +kernel) hD
    hinj h₁.run h₂.run (h₁.fed hmem₁ hcausal₁) (h₂.fed hmem₂ hcausal₂)
    (by rw [h₁.delivered, List.nodup_reverse]; exact hnd₁)
    (by rw [h₂.delivered, List.nodup_reverse]; exact hnd₂) hall₁ hall₂
    b₁ hb₁ b₂ hb₂ (hl₁.trans hl₂.symm)
  rw [heq, hc₂] at hc₁
  exact absurd (congrArg List.length hc₁) (by decide)

end Consensus

end Mrv
