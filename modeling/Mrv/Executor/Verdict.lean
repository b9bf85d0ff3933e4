/-
  Mrv.Executor.Verdict — the order and the graph that `sort_batch` works with.

    * `ordersBy_tieBreak`  — on stored certificates `tie_break` is the order of a key,
                             different for different digests,
    * `comparePair_flip`   — `compare_pair` answers the same question whichever digest
                             comes first,
    * `verdictGraph_spec`  — the graph has exactly the edges of the relation `Better`.
-/
import Mrv.Executor.Invariant

namespace Mrv

namespace MrvExecutor

variable {core : MrvExecutor} {s : State} {a b : Digest}

/-! ## §1. The tie-break. -/

/-- What `tie_break` compares. -/
def State.tieKey (s : State) (d : Digest) : ℕ ×ₗ PublicKey ×ₗ Digest :=
  match s.store.lookup d with
  | some c => toLex (c.round, toLex (c.origin, d))
  | none => toLex (0, toLex (PublicKey.default, d))

theorem tieKey_injective (s : State) : Function.Injective s.tieKey := by
  have hlast : ∀ d, (ofLex (ofLex (s.tieKey d)).2).2 = d := by
    intro d
    unfold State.tieKey
    split
    · rfl
    · rfl
  intro a b h
  rw [← hlast a, h, hlast b]

/-- The digest is that of a stored certificate. -/
def Stored (s : State) (d : Digest) : Prop := s.store.lookup d ≠ none

theorem tieBreak_iff (ha : Stored s a) (hb : Stored s b) :
    s.tieBreak a b ≠ .gt ↔ s.tieKey a ≤ s.tieKey b := by
  obtain ⟨ca, hca⟩ := Option.ne_none_iff_exists'.mp ha
  obtain ⟨cb, hcb⟩ := Option.ne_none_iff_exists'.mp hb
  have hthen : ∀ o o' : Ordering, o.then o' ≠ .gt ↔ o = .lt ∨ o = .eq ∧ o' ≠ .gt := by decide
  simp only [State.tieBreak, State.tieKey, hca, hcb]
  rw [hthen, hthen, Prod.Lex.toLex_le_toLex, Prod.Lex.toLex_le_toLex, compare_lt_iff_lt,
    compare_eq_iff_eq, compare_lt_iff_lt, compare_eq_iff_eq, compare_le_iff_le]

theorem ordersBy_tieBreak {l : List Digest} (hl : ∀ d ∈ l, Stored s d) :
    OrdersBy s.tieBreak s.tieKey l :=
  fun a ha b hb => tieBreak_iff (hl a ha) (hl b hb)

/-- Of two stored certificates the one of the lower round comes first. -/
theorem tieKey_lt_of_round_lt {ca cb : Certificate} (hca : s.store.lookup a = some ca)
    (hcb : s.store.lookup b = some cb) (h : ca.round < cb.round) : s.tieKey a < s.tieKey b := by
  simp only [State.tieKey, hca, hcb]
  rw [Prod.Lex.toLex_lt_toLex]
  exact Or.inl h

/-! ## §2. Pair verdicts. -/

/-- `compare_pair` finds the first digest better. -/
def Better (core : MrvExecutor) (s : State) (a b : Digest) : Prop :=
  core.comparePair s a b = some .aBetter

instance (core : MrvExecutor) (s : State) (a b : Digest) : Decidable (core.Better s a b) :=
  inferInstanceAs (Decidable (core.comparePair s a b = some .aBetter))

theorem deltaThreshold_spawn (committeeSize windowCap : ℕ) (capacity : Option ℕ) :
    0 < (spawn committeeSize windowCap capacity).deltaThreshold := by
  show (0 : ℤ) < ((max committeeSize 1 - 1) / 3 : ℕ) + 1
  omega

/-- Every digest is compared without a panic. -/
theorem comparePair_total (core : MrvExecutor) (hs : ∀ d st, s.aufStates.lookup d = some st →
    st.Frozen) (a b : Digest) : ∃ r, core.comparePair s a b = some r := by
  cases ha : s.aufStates.lookup a with
  | none => exact ⟨.tie, by simp [comparePair, ha]⟩
  | some stA =>
      cases hb : s.aufStates.lookup b with
      | none => exact ⟨.tie, by simp [comparePair, ha, hb]⟩
      | some stB =>
          by_cases himmature : stA.mature = false ∨ stB.mature = false
          · exact ⟨.tie, by simp [comparePair, ha, hb, himmature]⟩
          · rw [not_or, Bool.not_eq_false, Bool.not_eq_false] at himmature
            obtain ⟨hA, hhA⟩ := Option.ne_none_iff_exists'.mp (hs a stA ha himmature.1)
            obtain ⟨hB, hhB⟩ := Option.ne_none_iff_exists'.mp (hs b stB hb himmature.2)
            simp only [comparePair, ha, hb, himmature, hhA, hhB]
            split
            · exact ⟨_, rfl⟩
            · split
              · exact ⟨_, rfl⟩
              · exact ⟨_, rfl⟩

/-- The rounds in which both digests could be seen, up to the later horizon. -/
def pairRounds (stA stB : AufState) (horizonA horizonB : ℕ) : List ℕ :=
  List.range' (max stA.round stB.round + 1)
    (max horizonA horizonB - max stA.round stB.round)

/-- The lead of the first digest over the second in a round. -/
def lead (s : State) (a b : Digest) (round : ℕ) : ℤ :=
  (s.seenCountAt a round : ℤ) - s.seenCountAt b round

theorem lead_flip (s : State) (a b : Digest) (round : ℕ) : lead s b a round = -lead s a b round := by
  unfold lead
  omega

/-- A verdict: the leads over the threshold are all of one side. -/
theorem verdict_eq_aBetter_iff (hdelta : 0 < core.deltaThreshold) {rounds : List ℕ} :
    core.verdict s a b rounds = .aBetter ↔
      (∃ r ∈ rounds, core.deltaThreshold ≤ lead s a b r) ∧
        ∀ r ∈ rounds, ¬ core.deltaThreshold ≤ lead s b a r := by
  have hneg : ∀ r, (¬ core.deltaThreshold ≤ lead s a b r ∧
      lead s a b r ≤ -core.deltaThreshold) ↔ core.deltaThreshold ≤ lead s b a r := by
    intro r
    rw [lead_flip s a b]
    omega
  have hpos : 1 ≤ rounds.countP (fun r => decide (core.deltaThreshold ≤ lead s a b r)) ↔
      ∃ r ∈ rounds, core.deltaThreshold ≤ lead s a b r := by
    rw [Nat.one_le_iff_ne_zero, ← Nat.pos_iff_ne_zero, List.countP_pos_iff]
    simp
  have hzero : rounds.countP (fun r => decide (¬ core.deltaThreshold ≤ lead s a b r ∧
      lead s a b r ≤ -core.deltaThreshold)) = 0 ↔
        ∀ r ∈ rounds, ¬ core.deltaThreshold ≤ lead s b a r := by
    rw [List.countP_eq_zero]
    simp only [hneg, decide_eq_true_eq]
  rw [← hpos, ← hzero]
  unfold verdict
  show (if _ then OrderingRelation.aBetter else if _ then .bBetter else .tie) = _ ↔ _
  split
  · next h => exact iff_of_true rfl h
  · next h =>
    refine iff_of_false ?_ h
    split
    · exact fun heq => OrderingRelation.noConfusion heq
    · exact fun heq => OrderingRelation.noConfusion heq

theorem verdict_eq_bBetter_iff (hdelta : 0 < core.deltaThreshold) {rounds : List ℕ} :
    core.verdict s a b rounds = .bBetter ↔ core.verdict s b a rounds = .aBetter := by
  have hneg : ∀ r, (¬ core.deltaThreshold ≤ lead s a b r ∧
      lead s a b r ≤ -core.deltaThreshold) ↔ core.deltaThreshold ≤ lead s b a r := by
    intro r
    rw [lead_flip s a b]
    omega
  have hpos : 1 ≤ rounds.countP (fun r => decide (¬ core.deltaThreshold ≤ lead s a b r ∧
      lead s a b r ≤ -core.deltaThreshold)) ↔
        ∃ r ∈ rounds, core.deltaThreshold ≤ lead s b a r := by
    rw [Nat.one_le_iff_ne_zero, ← Nat.pos_iff_ne_zero, List.countP_pos_iff]
    simp only [hneg, decide_eq_true_eq]
  have hzero : rounds.countP (fun r => decide (core.deltaThreshold ≤ lead s a b r)) = 0 ↔
      ∀ r ∈ rounds, ¬ core.deltaThreshold ≤ lead s a b r := by
    rw [List.countP_eq_zero]
    simp
  rw [verdict_eq_aBetter_iff hdelta, ← hpos, ← hzero]
  unfold verdict
  show (if _ then OrderingRelation.aBetter else if _ then .bBetter else .tie) = _ ↔ _
  split
  · next h =>
    refine iff_of_false (fun heq => OrderingRelation.noConfusion heq) fun h' => ?_
    have hcount : 1 ≤ 0 := le_of_le_of_eq h'.1 h.2
    omega
  · split
    · next h => exact iff_of_true rfl h
    · next h => exact iff_of_false (fun heq => OrderingRelation.noConfusion heq) h

/-- **When the first digest is better**: both are mature, and in the rounds in which both
could be seen it leads by the threshold somewhere and never trails by it. -/
theorem better_iff (hdelta : 0 < core.deltaThreshold) :
    core.Better s a b ↔ ∃ stA stB horizonA horizonB,
      s.aufStates.lookup a = some stA ∧ s.aufStates.lookup b = some stB ∧
      stA.mature = true ∧ stB.mature = true ∧
      stA.horizon = some horizonA ∧ stB.horizon = some horizonB ∧
      (∃ r ∈ pairRounds stA stB horizonA horizonB, core.deltaThreshold ≤ lead s a b r) ∧
      ∀ r ∈ pairRounds stA stB horizonA horizonB, ¬ core.deltaThreshold ≤ lead s b a r := by
  unfold Better comparePair
  constructor
  · intro h
    split at h
    · next stA stB ha hb =>
      split at h
      · cases h
      · next hmature =>
        rw [not_or, Bool.not_eq_false, Bool.not_eq_false] at hmature
        split at h
        · next horizonA horizonB hA hB =>
          dsimp only at h
          split at h
          · cases h
          · exact ⟨stA, stB, horizonA, horizonB, ha, hb, hmature.1, hmature.2, hA, hB,
              (verdict_eq_aBetter_iff hdelta).mp (Option.some.inj h)⟩
        · cases h
    · cases h
  · rintro ⟨stA, stB, horizonA, horizonB, ha, hb, hmA, hmB, hA, hB, hverdict⟩
    -- some round is compared, so the early exit is not taken
    have hstart : ¬ max horizonA horizonB ≤ max stA.round stB.round := by
      obtain ⟨r, hr, _⟩ := hverdict.1
      unfold pairRounds at hr
      rw [List.mem_range'_1] at hr
      omega
    simp only [ha, hb, hmA, hmB, hA, hB, hstart]
    simp only [Bool.true_eq_false, or_self, if_false, Option.some.injEq]
    exact (verdict_eq_aBetter_iff hdelta).mpr hverdict

/-- The second digest is better where it is better than the first. -/
theorem comparePair_flip (hdelta : 0 < core.deltaThreshold) :
    core.comparePair s a b = some .bBetter ↔ core.Better s b a := by
  unfold Better comparePair
  cases ha : s.aufStates.lookup a with
  | none => simp
  | some stA =>
      cases hb : s.aufStates.lookup b with
      | none => simp
      | some stB =>
          simp only [or_comm (a := stB.mature = false), max_comm stB.round]
          split
          · simp
          · cases hA : stA.horizon with
            | none => simp
            | some horizonA =>
                cases hB : stB.horizon with
                | none => simp
                | some horizonB =>
                    simp only [max_comm horizonB]
                    split
                    · simp
                    · rw [Option.some.injEq, Option.some.injEq]
                      exact verdict_eq_bBetter_iff hdelta

theorem Better.asymm (hdelta : 0 < core.deltaThreshold) (h : core.Better s a b) :
    ¬ core.Better s b a := by
  rw [← comparePair_flip hdelta]
  unfold Better at h
  rw [h]
  exact fun heq => OrderingRelation.noConfusion (Option.some.inj heq)

theorem Better.irrefl (hdelta : 0 < core.deltaThreshold) : ¬ core.Better s a a :=
  fun h => h.asymm hdelta h

/-! ## §3. The verdict graph. -/

/-- An edge of a graph. -/
def Graph.Edge (graph : Graph) (a b : Digest) : Prop := b ∈ (graph.lookup a).getD ∅

theorem addEdge_spec {graph : Graph} (ha : graph.lookup a ≠ none) (b : Digest) :
    ∃ graph', addEdge graph a b = some graph' ∧
      (∀ d, graph'.lookup d ≠ none ↔ graph.lookup d ≠ none) ∧
      ∀ x y, graph'.Edge x y ↔ graph.Edge x y ∨ x = a ∧ y = b := by
  obtain ⟨tos, htos⟩ := Option.ne_none_iff_exists'.mp ha
  refine ⟨graph.insert a (insert b tos), ?_, fun d => ?_, fun x y => ?_⟩
  · unfold addEdge
    rw [htos]
    rfl
  · rw [AList.lookup_insert_eq_ite]
    split
    · next hd =>
      subst hd
      simp [htos]
    · rfl
  · unfold Graph.Edge
    rw [AList.lookup_insert_eq_ite]
    split
    · next hx =>
      subst hx
      rw [htos, Option.getD_some, Option.getD_some, Finset.mem_insert]
      tauto
    · next hx => simp [hx]

/-- The edges that the pairs of a list stand for. -/
def PairEdge (core : MrvExecutor) (s : State) (ps : List (Digest × Digest)) (x y : Digest) :
    Prop :=
  (x, y) ∈ ps ∧ core.Better s x y ∨ (y, x) ∈ ps ∧ core.Better s x y

theorem addVerdict_spec (hdelta : 0 < core.deltaThreshold)
    (hs : ∀ d st, s.aufStates.lookup d = some st → st.Frozen) {graph : Graph}
    {p : Digest × Digest} (h1 : graph.lookup p.1 ≠ none) (h2 : graph.lookup p.2 ≠ none) :
    ∃ graph', core.addVerdict s graph p = some graph' ∧
      (∀ d, graph'.lookup d ≠ none ↔ graph.lookup d ≠ none) ∧
      ∀ x y, graph'.Edge x y ↔ graph.Edge x y ∨ core.PairEdge s [p] x y := by
  obtain ⟨a, b⟩ := p
  obtain ⟨r, hr⟩ := comparePair_total core hs a b
  have hab : core.Better s a b ↔ r = .aBetter := by
    unfold Better
    rw [hr, Option.some.injEq]
  have hba : core.Better s b a ↔ r = .bBetter := by
    rw [← comparePair_flip hdelta, hr, Option.some.injEq]
  have hedge : ∀ x y, core.PairEdge s [(a, b)] x y ↔
      (x = a ∧ y = b) ∧ r = .aBetter ∨ (x = b ∧ y = a) ∧ r = .bBetter := by
    intro x y
    unfold PairEdge
    rw [List.mem_singleton, List.mem_singleton, Prod.mk.injEq, Prod.mk.injEq]
    constructor
    · rintro (⟨⟨rfl, rfl⟩, h⟩ | ⟨⟨rfl, rfl⟩, h⟩)
      · exact Or.inl ⟨⟨rfl, rfl⟩, hab.mp h⟩
      · exact Or.inr ⟨⟨rfl, rfl⟩, hba.mp h⟩
    · rintro (⟨⟨rfl, rfl⟩, h⟩ | ⟨⟨rfl, rfl⟩, h⟩)
      · exact Or.inl ⟨⟨rfl, rfl⟩, hab.mpr h⟩
      · exact Or.inr ⟨⟨rfl, rfl⟩, hba.mpr h⟩
  simp only [hedge]
  unfold addVerdict
  dsimp only
  rw [hr]
  cases r with
  | aBetter =>
      obtain ⟨graph', heq, hkeys, hgraph⟩ := addEdge_spec h1 b
      exact ⟨graph', heq, hkeys, fun x y => by rw [hgraph]; simp⟩
  | bBetter =>
      obtain ⟨graph', heq, hkeys, hgraph⟩ := addEdge_spec h2 a
      exact ⟨graph', heq, hkeys, fun x y => by rw [hgraph]; simp⟩
  | tie => exact ⟨graph, rfl, fun _ => Iff.rfl, fun x y => by simp⟩

theorem addVerdicts_spec (hdelta : 0 < core.deltaThreshold)
    (hs : ∀ d st, s.aufStates.lookup d = some st → st.Frozen) {ps : List (Digest × Digest)}
    {graph : Graph} (hps : ∀ p ∈ ps, graph.lookup p.1 ≠ none ∧ graph.lookup p.2 ≠ none) :
    ∃ graph', ps.foldlM (core.addVerdict s) graph = some graph' ∧
      (∀ d, graph'.lookup d ≠ none ↔ graph.lookup d ≠ none) ∧
      ∀ x y, graph'.Edge x y ↔ graph.Edge x y ∨ core.PairEdge s ps x y := by
  induction ps generalizing graph with
  | nil => exact ⟨graph, rfl, fun _ => Iff.rfl, fun x y => by simp [PairEdge]⟩
  | cons p ps ih =>
      rw [List.forall_mem_cons] at hps
      obtain ⟨next, hnext, hkeys, hedges⟩ := addVerdict_spec hdelta hs hps.1.1 hps.1.2
      have hps' : ∀ q ∈ ps, next.lookup q.1 ≠ none ∧ next.lookup q.2 ≠ none := fun q hq =>
        ⟨(hkeys q.1).mpr (hps.2 q hq).1, (hkeys q.2).mpr (hps.2 q hq).2⟩
      obtain ⟨graph', hgraph', hkeys', hedges'⟩ := ih hps'
      refine ⟨graph', ?_, fun d => (hkeys' d).trans (hkeys d), fun x y => ?_⟩
      · rw [List.foldlM_cons, hnext]
        exact hgraph'
      · rw [hedges', hedges]
        unfold PairEdge
        simp only [List.mem_cons, List.not_mem_nil, or_false]
        tauto

theorem mem_pairs {nodes : List Digest} (h : (a, b) ∈ pairs nodes) : a ∈ nodes ∧ b ∈ nodes := by
  induction nodes with
  | nil => exact absurd h List.not_mem_nil
  | cons x nodes ih =>
      rw [pairs, List.mem_append] at h
      obtain h | h := h
      · obtain ⟨y, hy, heq⟩ := List.mem_map.mp h
        obtain ⟨rfl, rfl⟩ := Prod.mk.inj heq
        exact ⟨List.mem_cons_self, List.mem_cons_of_mem _ hy⟩
      · obtain ⟨ha, hb⟩ := ih h
        exact ⟨List.mem_cons_of_mem _ ha, List.mem_cons_of_mem _ hb⟩

/-- Two different nodes are compared once, in one order or the other. -/
theorem mem_pairs_of_ne {nodes : List Digest} (ha : a ∈ nodes) (hb : b ∈ nodes) (hne : a ≠ b) :
    (a, b) ∈ pairs nodes ∨ (b, a) ∈ pairs nodes := by
  induction nodes with
  | nil => exact absurd ha List.not_mem_nil
  | cons x nodes ih =>
      simp only [pairs, List.mem_append, List.mem_map, Prod.mk.injEq]
      obtain rfl | ha' := List.mem_cons.mp ha
      · exact Or.inl (Or.inl ⟨b, (List.mem_cons.mp hb).resolve_left hne.symm, rfl, rfl⟩)
      · obtain rfl | hb' := List.mem_cons.mp hb
        · exact Or.inr (Or.inl ⟨a, ha', rfl, rfl⟩)
        · exact (ih ha' hb').imp Or.inr Or.inr

/-- The verdicts between the digests of a list. -/
def Verdict (core : MrvExecutor) (s : State) (l : List Digest) (a b : Digest) : Prop :=
  a ∈ l ∧ b ∈ l ∧ core.Better s a b

/-- **The verdict graph.** -/
theorem verdictGraph_spec (hdelta : 0 < core.deltaThreshold)
    (hs : ∀ d st, s.aufStates.lookup d = some st → st.Frozen) (nodes : List Digest) :
    ∃ graph, core.verdictGraph s nodes = some graph ∧
      (∀ d, graph.lookup d ≠ none ↔ d ∈ nodes) ∧
      ∀ x y, graph.Edge x y ↔ core.Verdict s nodes x y := by
  let start : Graph := AList.collect (nodes.map (fun d => (d, ∅)))
  have hstart : ∀ d tos, start.lookup d = some tos → d ∈ nodes ∧ tos = ∅ := by
    intro d tos h
    obtain ⟨d', hd', heq⟩ := List.mem_map.mp (AList.mem_of_lookup_collect h)
    obtain ⟨rfl, rfl⟩ := Prod.mk.inj heq
    exact ⟨hd', rfl⟩
  -- every node is a key from the start, without edges
  have hkeys : ∀ d, start.lookup d ≠ none ↔ d ∈ nodes := by
    intro d
    constructor
    · intro h
      obtain ⟨tos, htos⟩ := Option.ne_none_iff_exists'.mp h
      exact (hstart d tos htos).1
    · intro h
      have hsome : (start.lookup d).isSome :=
        AList.lookup_collect_isSome (List.mem_map_of_mem h)
      exact Option.isSome_iff_ne_none.mp hsome
  have hnone : ∀ x y, ¬ start.Edge x y := by
    intro x y h
    unfold Graph.Edge at h
    cases hx : start.lookup x with
    | none => simp [hx] at h
    | some tos => simp [hx, (hstart x tos hx).2] at h
  have hps : ∀ p ∈ pairs nodes, start.lookup p.1 ≠ none ∧ start.lookup p.2 ≠ none := by
    rintro ⟨x, y⟩ hp
    obtain ⟨hx, hy⟩ := mem_pairs hp
    exact ⟨(hkeys x).mpr hx, (hkeys y).mpr hy⟩
  obtain ⟨graph, hgraph, hkeys', hedges⟩ := addVerdicts_spec hdelta hs hps
  refine ⟨graph, hgraph, fun d => (hkeys' d).trans (hkeys d), fun x y => ?_⟩
  rw [hedges]
  unfold PairEdge Verdict
  constructor
  · rintro (h | ⟨h, hbetter⟩ | ⟨h, hbetter⟩)
    · exact absurd h (hnone x y)
    · exact ⟨(mem_pairs h).1, (mem_pairs h).2, hbetter⟩
    · exact ⟨(mem_pairs h).2, (mem_pairs h).1, hbetter⟩
  · rintro ⟨hx, hy, hbetter⟩
    -- each pair of different nodes is compared once, in one of its two orders
    have hne : x ≠ y := by
      rintro rfl
      exact Better.irrefl hdelta hbetter
    exact Or.inr ((mem_pairs_of_ne hx hy hne).imp (fun h => ⟨h, hbetter⟩) fun h => ⟨h, hbetter⟩)

end MrvExecutor

end Mrv
