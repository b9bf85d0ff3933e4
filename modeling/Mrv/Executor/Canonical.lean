/-
  Mrv.Executor.Canonical — what the output does not depend on.

  Two runs may record the certificates of one round of a batch in different orders, and
  traverse their hash maps in different orders.  `Same` relates states that are not told
  apart by any lookup.  Recording two certificates that may come in either order commutes
  up to `Same` (`Registers.swap`), capping and releasing respect it, and `sort_batch`
  returns the linearisation of the verdicts, which is one (`Same.sortBatch`).

  So the output is a function of the batches (`output_canonical`).
-/
import Mrv.Executor.Output
import Mrv.Executor.Visibility
import Mrv.Lib.Reorder

namespace Mrv

/-! ## §1. Seeing commutes. -/

namespace AufState

variable (st : AufState) (reachThreshold round : ℕ) (a b : PublicKey)

/-- Two authors complete the first quorum of a round. -/
def HitsBoth : Prop :=
  st.horizon = none ∧
    ¬ (a ∈ (st.seenByRound.get round).getD ∅ ∧ b ∈ (st.seenByRound.get round).getD ∅) ∧
    reachThreshold ≤ (insert b (insert a ((st.seenByRound.get round).getD ∅))).card

instance : Decidable (st.HitsBoth reachThreshold round a b) := by
  unfold HitsBoth
  exact inferInstance

theorem hitsBoth_comm :
    st.HitsBoth reachThreshold round a b ↔ st.HitsBoth reachThreshold round b a := by
  unfold HitsBoth
  rw [Finset.insert_comm, and_comm (a := a ∈ _)]

theorem get_see_self : ((st.see reachThreshold round a).seenByRound.get round).getD ∅ =
    insert a ((st.seenByRound.get round).getD ∅) := by
  rw [get_see, if_pos rfl]

/-- One of the two completes the quorum, in whichever order they come. -/
theorem hits_or_hits_iff :
    st.Hits reachThreshold round a ∨ (st.see reachThreshold round a).Hits reachThreshold round b ↔
      st.HitsBoth reachThreshold round a b := by
  -- the second author hits only if the first has not set the horizon
  have hsecond : (st.see reachThreshold round a).Hits reachThreshold round b ↔
      b ∉ insert a ((st.seenByRound.get round).getD ∅) ∧
        (¬ st.Hits reachThreshold round a ∧ st.horizon = none) ∧
        reachThreshold ≤ (insert b (insert a ((st.seenByRound.get round).getD ∅))).card := by
    have hhorizon : (st.see reachThreshold round a).horizon = none ↔
        ¬ st.Hits reachThreshold round a ∧ st.horizon = none := by
      rw [see_eq]
      show (if _ then _ else _) = none ↔ _
      split
      · next h => simp [h]
      · next h => simp [h]
    unfold Hits at hhorizon ⊢
    rw [get_see_self, hhorizon]
  rw [hsecond]
  unfold Hits HitsBoth
  generalize (st.seenByRound.get round).getD ∅ = seen
  have hcard : (insert a seen).card ≤ (insert b (insert a seen)).card :=
    Finset.card_le_card (Finset.subset_insert b _)
  constructor
  · rintro (⟨ha, hnone, hreach⟩ | ⟨hb, ⟨_, hnone⟩, hreach⟩)
    · exact ⟨hnone, fun h => ha h.1, hreach.trans hcard⟩
    · exact ⟨hnone, fun h => hb (Finset.mem_insert_of_mem h.2), hreach⟩
  · rintro ⟨hnone, hnew, hreach⟩
    by_cases hb : b ∈ insert a seen
    · -- the second author adds nothing, so the first is new
      rw [Finset.insert_eq_of_mem hb] at hreach
      refine Or.inl ⟨fun ha => hnew ⟨ha, ?_⟩, hnone, hreach⟩
      rwa [Finset.insert_eq_of_mem ha] at hb
    · by_cases hfirst : a ∉ seen ∧ st.horizon = none ∧ reachThreshold ≤ (insert a seen).card
      · exact Or.inl hfirst
      · exact Or.inr ⟨hb, ⟨hfirst, hnone⟩, hreach⟩

theorem see_see : (st.see reachThreshold round a).see reachThreshold round b =
    { st with
      seenByRound :=
        st.seenByRound.insert round (insert b (insert a ((st.seenByRound.get round).getD ∅)))
      horizon := if st.HitsBoth reachThreshold round a b then some round else st.horizon
      mature := if st.HitsBoth reachThreshold round a b then true else st.mature } := by
  have hseen : ((st.see reachThreshold round a).seenByRound.insert round
      (insert b (insert a ((st.seenByRound.get round).getD ∅)))) =
      st.seenByRound.insert round (insert b (insert a ((st.seenByRound.get round).getD ∅))) := by
    apply BTreeMap.ext_get
    intro r
    rw [see_eq]
    show ((st.seenByRound.insert round _).insert round _).get r = _
    rw [BTreeMap.get_insert, BTreeMap.get_insert, BTreeMap.get_insert]
    split
    · rfl
    · rfl
  have hor := hits_or_hits_iff st reachThreshold round a b
  rw [see_eq (st.see reachThreshold round a), get_see_self, hseen]
  by_cases hsecond : (st.see reachThreshold round a).Hits reachThreshold round b
  · have hboth := hor.mp (Or.inr hsecond)
    rw [if_pos hsecond, if_pos hsecond, if_pos hboth, if_pos hboth, round_see]
  · rw [if_neg hsecond, if_neg hsecond, see_eq]
    by_cases hfirst : st.Hits reachThreshold round a
    · have hboth := hor.mp (Or.inl hfirst)
      rw [if_pos hfirst, if_pos hfirst, if_pos hboth, if_pos hboth]
    · have hboth : ¬ st.HitsBoth reachThreshold round a b := fun h =>
        (hor.mpr h).elim hfirst hsecond
      rw [if_neg hfirst, if_neg hfirst, if_neg hboth, if_neg hboth]

/-- **Two authors are seen in a round in either order.** -/
theorem see_comm : (st.see reachThreshold round a).see reachThreshold round b =
    (st.see reachThreshold round b).see reachThreshold round a := by
  rw [see_see, see_see, Finset.insert_comm]
  simp only [hitsBoth_comm st reachThreshold round a b]

end AufState

namespace MrvExecutor

/-! ## §2. The traversal for one of two certificates. -/

section

variable {store store' : HashMap Digest Certificate} {minRound : ℕ} {k x d : Digest}
  {c : Certificate}

/-- The traversal looks certificates up. -/
theorem sees_congr (h : ∀ d, store.lookup d = store'.lookup d) :
    Sees store minRound x d ↔ Sees store' minRound x d := by
  have hlinks : links store minRound = links store' minRound := by
    funext a
    unfold links
    rw [h a]
  unfold Sees
  rw [hlinks, visible_iff, visible_iff, h d]

variable (hlast : ∀ a ca, store.lookup a = some ca → k ∉ ca.header.parents) (hx : x ≠ k)

include hlast hx in
theorem not_sees_last : ¬ Sees store minRound x k := fun h => not_reaches_last hlast hx h.reaches

include hlast hx in
/-- A certificate that no stored one has as a parent is not met on the way. -/
theorem sees_insert : Sees (store.insert k c) minRound x d ↔ Sees store minRound x d := by
  have hlookup : ∀ a, a ≠ k → (store.insert k c).lookup a = store.lookup a :=
    fun a ha => AList.lookup_insert_ne ha
  by_cases hd : d = k
  · subst hd
    refine iff_of_false (fun h => ?_) (not_sees_last hlast hx)
    exact not_reaches_last hlast hx ((reaches_insert hlast hx).mp h.reaches)
  · unfold Sees
    rw [visible_iff, visible_iff, hlookup d hd]
    refine and_congr_left fun _ => ?_
    apply Dfs.reflTransGen_iff_of_source (k := k) _ _ hx
    · intro a ha b
      rw [mem_links, mem_links, hlookup a ha]
    · intro a ha hk
      rw [mem_links, hlookup a ha] at hk
      obtain ⟨ca, hca, _, hk⟩ := hk
      exact hlast a ca hca hk

end

/-! ## §3. States that are not told apart. -/

/-- The same under every key; members of a batch in any order. -/
structure Same (s s' : State) : Prop where
  store : ∀ d, s.store.lookup d = s'.store.lookup d
  aufStates : ∀ d, s.aufStates.lookup d = s'.aufStates.lookup d
  batches : ∀ k, (s.batches.get k).map (fun b => (b.members : Multiset Digest)) =
    (s'.batches.get k).map (fun b => (b.members : Multiset Digest))
  floor : s.activeFloorRound = s'.activeFloorRound
  frontier : s.frontierRound = s'.frontierRound
  txOutput : s.txOutput = s'.txOutput

variable {core : MrvExecutor} {s s' t t' : State}

theorem Same.refl (s : State) : Same s s := ⟨fun _ => rfl, fun _ => rfl, fun _ => rfl, rfl, rfl, rfl⟩

theorem Same.trans {u : State} (h : Same s t) (h' : Same t u) : Same s u where
  store d := (h.store d).trans (h'.store d)
  aufStates d := (h.aufStates d).trans (h'.aufStates d)
  batches k := (h.batches k).trans (h'.batches k)
  floor := h.floor.trans h'.floor
  frontier := h.frontier.trans h'.frontier
  txOutput := h.txOutput.trans h'.txOutput

theorem Same.activate (h : Same s t) (digest : Digest) (round : ℕ) (d : Digest) :
    (s.activate digest round).aufStates.lookup d = (t.activate digest round).aufStates.lookup d := by
  rw [lookup_activate, lookup_activate, h.aufStates, h.aufStates]

variable [Crypto]

/-- Recording a certificate looks its state up. -/
theorem Same.register {c : Certificate} (h : Same s t) (hs : Registers core s c s')
    (ht : Registers core t c t') : Same s' t' := by
  have hstore : ∀ d, s'.store.lookup d = t'.store.lookup d := by
    intro d
    rw [hs.lookup_store, ht.lookup_store, h.store]
  have hfloor : s'.activeFloorRound = t'.activeFloorRound := by
    rw [hs.floor, ht.floor, floor_activate, floor_activate, h.aufStates, h.floor]
  refine ⟨hstore, fun d => ?_, fun k => ?_, hfloor, ?_, ?_⟩
  · by_cases hsees : Sees s'.store (s'.activeFloorRound.getD c.round) c.digest d
    · have hsees' := hsees
      rw [hfloor, sees_congr hstore] at hsees'
      rw [hs.seen d hsees, ht.seen d hsees', h.activate]
    · have hunseen := hsees
      rw [hfloor, sees_congr hstore] at hunseen
      rw [hs.unseen d hsees, ht.unseen d hunseen, h.activate]
  · rw [hs.batches, ht.batches]
    exact h.batches k
  · rw [hs.frontier, ht.frontier, h.frontier]
  · rw [hs.txOutput, ht.txOutput, h.txOutput]

/-! ## §4. Two certificates of a round. -/

/-- The first certificate may come before the second. -/
def Precedes (x y : Certificate) : Prop :=
  x.round ≤ y.round ∧ x.digest ≠ y.digest ∧ ¬ x.Names y

/-- The certificate is new, and no stored one has it as a parent. -/
structure Fit (s : State) (c : Certificate) : Prop where
  unstored : s.store.lookup c.digest = none
  inactive : s.aufStates.lookup c.digest = none
  last : ∀ a ca, s.store.lookup a = some ca → c.digest ∉ ca.header.parents

variable {x y : Certificate}

theorem Fit.register (hy : Fit s y) (hxy : Precedes x y) (h : Registers core s x s') :
    Fit s' y := by
  have hne : y.digest ≠ x.digest := hxy.2.1.symm
  refine ⟨?_, ?_, fun a ca hca => ?_⟩
  · rw [h.lookup_store, if_neg hne]
    exact hy.unstored
  · by_contra hactive
    exact ((h.active_iff y.digest).mp hactive).elim hne fun hsome => hsome hy.inactive
  · rw [h.lookup_store] at hca
    split at hca
    · rw [← Option.some.inj hca]
      exact hxy.2.2
    · exact hy.last a ca hca

/-- The floor after a new certificate was recorded. -/
theorem Registers.floor_of_new {c : Certificate} (h : Registers core s c s')
    (hnew : s.aufStates.lookup c.digest = none) :
    s'.activeFloorRound = some (s.activeFloorRound.elim c.round (fun m => min m c.round)) := by
  rw [h.floor, floor_activate, if_pos hnew]

/-- The states after a new certificate was recorded: one is new, some see its author. -/
theorem Registers.lookup_of_new {c : Certificate} {X : Prop} [Decidable X]
    (h : Registers core s c s') (hnew : s.aufStates.lookup c.digest = none) (d : Digest)
    (hX : Sees s'.store (s'.activeFloorRound.getD c.round) c.digest d ↔ X) :
    s'.aufStates.lookup d =
      let before := if d = c.digest then some (AufState.new c.round) else s.aufStates.lookup d
      if X then before.map (fun st => st.see core.reachThreshold c.round c.origin) else before := by
  have hactivate : (s.activate c.digest c.round).aufStates.lookup d =
      if d = c.digest then some (AufState.new c.round) else s.aufStates.lookup d := by
    rw [lookup_activate]
    simp only [hnew, and_true]
  dsimp only
  split
  · next hsees => rw [h.seen d (hX.mpr hsees), hactivate]
  · next hsees => rw [h.unseen d (fun hs => hsees (hX.mp hs)), hactivate]

/-- **Recording commutes** on two certificates of which each may come first. -/
theorem Registers.swap {a b a' b' : State} (hx : Fit s x) (hy : Fit s y) (hxy : Precedes x y)
    (hyx : Precedes y x) (ha : Registers core s x a) (hb : Registers core a y b)
    (ha' : Registers core s y a') (hb' : Registers core a' x b') : Same b b' := by
  have hround : x.round = y.round := le_antisymm hxy.1 hyx.1
  have hne : x.digest ≠ y.digest := hxy.2.1
  have hya := hy.register hxy ha
  have hxa' := hx.register hyx ha'
  -- all four floors are the same
  obtain ⟨m, hm⟩ : ∃ m, m = s.activeFloorRound.elim x.round (fun m => min m x.round) := ⟨_, rfl⟩
  have hfloor : a.activeFloorRound = some m := by rw [ha.floor_of_new hx.inactive, hm]
  have hfloor' : a'.activeFloorRound = some m := by
    rw [ha'.floor_of_new hy.inactive, hm, hround]
  have hle : min m x.round = m := by
    rw [hm]
    cases s.activeFloorRound with
    | none => exact min_self _
    | some k => exact min_eq_left (min_le_right k x.round)
  have hfloorb : b.activeFloorRound = some m := by
    rw [hb.floor_of_new hya.inactive, hfloor, Option.elim_some, ← hround, hle]
  have hfloorb' : b'.activeFloorRound = some m := by
    rw [hb'.floor_of_new hxa'.inactive, hfloor', Option.elim_some, hle]
  have hstore : ∀ d, b.store.lookup d = b'.store.lookup d := by
    intro d
    rw [hb.lookup_store, ha.lookup_store, hb'.lookup_store, ha'.lookup_store]
    split
    · next hd => rw [if_neg fun heq => hne (heq.symm.trans hd)]
    · rfl
  refine ⟨hstore, fun d => ?_, fun k => ?_, hfloorb.trans hfloorb'.symm, ?_, ?_⟩
  · classical
    -- neither traversal meets the other certificate
    have hX : Sees a.store (a.activeFloorRound.getD x.round) x.digest d ↔
        Sees b.store m x.digest d := by
      rw [hfloor, Option.getD_some, hb.store, sees_insert hya.last hne]
    have hY : Sees b.store (b.activeFloorRound.getD y.round) y.digest d ↔
        Sees b.store m y.digest d := by
      rw [hfloorb, Option.getD_some]
    have hY' : Sees a'.store (a'.activeFloorRound.getD y.round) y.digest d ↔
        Sees b.store m y.digest d := by
      rw [hfloor', Option.getD_some, sees_congr hstore, hb'.store, sees_insert hxa'.last hne.symm]
    have hX' : Sees b'.store (b'.activeFloorRound.getD x.round) x.digest d ↔
        Sees b.store m x.digest d := by
      rw [hfloorb', Option.getD_some, sees_congr hstore]
    have hnotX : d = y.digest → ¬ Sees b.store m x.digest d := by
      rintro rfl
      rw [hb.store, sees_insert hya.last hne]
      exact not_sees_last hya.last hne
    have hnotY : d = x.digest → ¬ Sees b.store m y.digest d := by
      rintro rfl
      rw [sees_congr hstore, hb'.store, sees_insert hxa'.last hne.symm]
      exact not_sees_last hxa'.last hne.symm
    rw [hb.lookup_of_new hya.inactive d hY, ha.lookup_of_new hx.inactive d hX,
      hb'.lookup_of_new hxa'.inactive d hX', ha'.lookup_of_new hy.inactive d hY']
    dsimp only
    by_cases hdy : d = y.digest
    · have hdx : d ≠ x.digest := fun h => hne (h.symm.trans hdy)
      simp only [if_pos hdy, if_neg hdx, if_neg (hnotX hdy)]
    · by_cases hdx : d = x.digest
      · simp only [if_neg hdy, if_pos hdx, if_neg (hnotY hdx)]
      · simp only [if_neg hdy, if_neg hdx]
        by_cases hseesX : Sees b.store m x.digest d
        · by_cases hseesY : Sees b.store m y.digest d
          · simp only [if_pos hseesX, if_pos hseesY, Option.map_map, Function.comp_def, hround]
            congr 1
            funext st
            exact st.see_comm _ _ _ _
          · simp only [if_pos hseesX, if_neg hseesY]
        · simp only [if_neg hseesX]
  · rw [hb.batches, ha.batches, hb'.batches, ha'.batches]
  · rw [hb.frontier, ha.frontier, hb'.frontier, ha'.frontier, max_right_comm]
  · rw [hb.txOutput, ha.txOutput, hb'.txOutput, ha'.txOutput]

/-- **Recording a batch does not depend on the order within rounds.** -/
theorem commutes_register (core : MrvExecutor) :
    Commutes (State.register core) Precedes Fit Same where
  total s c := (register_registers core s c).imp fun _ h => h.1
  refl := Same.refl
  trans := Same.trans
  congr h hs ht := h.register (registers_of_eq hs) (registers_of_eq ht)
  keep _ hy hxy h := hy.register hxy (registers_of_eq h)
  swap hx hy hxy hyx ha hb ha' hb' := Registers.swap hx hy hxy hyx (registers_of_eq ha)
    (registers_of_eq hb) (registers_of_eq ha') (registers_of_eq hb')

/-! ## §5. Batches. -/

/-- Recording batches of one index and the same members. -/
theorem Same.recorded (h : Same s t) {b b' : CommittedSubDag} (hindex : b.batchIndex = b'.batchIndex)
    (hmembers : (members b).Perm (members b')) (σ σ' : HashOrder) :
    Same (core.applyWindowCap σ (s.enqueue b)) (core.applyWindowCap σ' (t.enqueue b')) := by
  obtain ⟨hstore, hfrontier, hfloor, houtput⟩ := recorded_frame core σ s b
  obtain ⟨hstore', hfrontier', hfloor', houtput'⟩ := recorded_frame core σ' t b'
  have hnil : members b ≠ [] ↔ members b' ≠ [] := not_congr ⟨fun heq => by
      rw [heq] at hmembers
      exact List.nil_perm.mp hmembers, fun heq => by
      rw [heq] at hmembers
      exact List.perm_nil.mp hmembers⟩
  refine ⟨fun d => ?_, fun d => ?_, fun k => ?_, ?_, ?_, ?_⟩
  · rw [hstore, hstore']
    exact h.store d
  · rw [recorded_lookup, recorded_lookup, h.aufStates, h.frontier]
  · rw [recorded_batches, recorded_batches]
    by_cases hne : members b ≠ []
    · rw [if_pos hne, if_pos (hnil.mp hne), BTreeMap.get_insert, BTreeMap.get_insert, hindex]
      split
      · exact congrArg some (Multiset.coe_eq_coe.mpr hmembers)
      · exact h.batches k
    · rw [if_neg hne, if_neg fun hne' => hne (hnil.mpr hne')]
      exact h.batches k
  · rw [hfloor, hfloor', h.floor]
  · rw [hfrontier, hfrontier', h.frontier]
  · rw [houtput, houtput', h.txOutput]

omit [Crypto] in
theorem Same.symm (h : Same s t) : Same t s where
  store d := (h.store d).symm
  aufStates d := (h.aufStates d).symm
  batches k := (h.batches k).symm
  floor := h.floor.symm
  frontier := h.frontier.symm
  txOutput := h.txOutput.symm

omit [Crypto] in
theorem Same.get (h : Same s t) {k : ℕ} {ms : List Digest} (hget : s.batches.get k = some ⟨ms⟩) :
    ∃ ms', t.batches.get k = some ⟨ms'⟩ ∧ ms.Perm ms' := by
  have hsame := h.batches k
  rw [hget, eq_comm, Option.map_some, Option.map_eq_some_iff] at hsame
  obtain ⟨⟨ms'⟩, hget', heq⟩ := hsame
  exact ⟨ms', hget', (Multiset.coe_eq_coe.mp heq).symm⟩

omit [Crypto] in
/-- The batches of lowest index are the same. -/
theorem Same.head (h : Same s t) {k k' : ℕ} {ms ms' : List Digest} {es es' : List (ℕ × BatchState)}
    (hentries : s.batches.entries = (k, ⟨ms⟩) :: es)
    (hentries' : t.batches.entries = (k', ⟨ms'⟩) :: es') : k = k' ∧ ms.Perm ms' := by
  have hleast : ∀ {s t : State} {k k' : ℕ} {ms ms' : List Digest} {es es' : List (ℕ × BatchState)},
      Same s t → s.batches.entries = (k, ⟨ms⟩) :: es → t.batches.entries = (k', ⟨ms'⟩) :: es' →
      k' ≤ k := by
    intro s t k k' ms ms' es es' h hentries hentries'
    have hget : s.batches.get k = some ⟨ms⟩ := BTreeMap.get_head hentries
    obtain ⟨ms₁, hget₁, _⟩ := h.get hget
    rw [BTreeMap.get_eq_some_iff, hentries', List.mem_cons] at hget₁
    have hsorted := t.batches.sorted
    rw [hentries', List.map_cons, List.pairwise_cons] at hsorted
    obtain heq | hmem := hget₁
    · exact le_of_eq (Prod.mk.inj heq).1.symm
    · exact (hsorted.1 k (List.mem_map.mpr ⟨_, hmem, rfl⟩)).le
  obtain rfl : k = k' := le_antisymm (hleast h.symm hentries' hentries) (hleast h hentries hentries')
  have hget : s.batches.get k = some ⟨ms⟩ := BTreeMap.get_head hentries
  have hget' : t.batches.get k = some ⟨ms'⟩ := BTreeMap.get_head hentries'
  obtain ⟨ms₁, hget₁, hperm⟩ := h.get hget
  obtain rfl : ms₁ = ms' :=
    congrArg BatchState.members (Option.some.inj (hget₁.symm.trans hget'))
  exact ⟨rfl, hperm⟩

omit [Crypto] in
theorem Same.empty (h : Same s t) (hentries : s.batches.entries = []) : t.batches.entries = [] := by
  cases hentries' : t.batches.entries with
  | nil => rfl
  | cons e es' =>
      obtain ⟨k, ⟨ms⟩⟩ := e
      have hget : t.batches.get k = some ⟨ms⟩ := BTreeMap.get_head hentries'
      obtain ⟨ms', hget', _⟩ := h.symm.get hget
      rw [BTreeMap.get_eq_some_iff, hentries] at hget'
      exact absurd hget' List.not_mem_nil

omit [Crypto] in
theorem Same.batchHorizon (h : Same s t) {ms ms' : List Digest} (hperm : ms.Perm ms') :
    s.batchHorizon ms = t.batchHorizon ms' := by
  unfold State.batchHorizon
  simp only [h.aufStates]
  generalize 0 = start
  induction hperm generalizing start with
  | nil => rfl
  | cons d _ ih =>
      rw [List.foldlM_cons, List.foldlM_cons]
      congr 1
      funext start
      exact ih start
  | swap d d' ms =>
      simp only [List.foldlM_cons]
      cases (t.aufStates.lookup d).bind AufState.horizon with
      | none => cases (t.aufStates.lookup d').bind AufState.horizon with
          | none => rfl
          | some k' => rfl
      | some k => cases (t.aufStates.lookup d').bind AufState.horizon with
          | none => rfl
          | some k' =>
              show List.foldlM _ (max (max start k') k) ms = List.foldlM _ (max (max start k) k') ms
              rw [max_right_comm]
  | trans _ _ ih ih' => exact (ih start).trans (ih' start)

omit [Crypto] in
/-- The verdicts look states up. -/
theorem Same.better (h : Same s t) (a b : Digest) : core.Better s a b ↔ core.Better t a b := by
  have hcount : ∀ d, s.seenCountAt d = t.seenCountAt d := by
    intro d
    funext r
    unfold State.seenCountAt
    rw [h.aufStates]
  have hcompare : core.comparePair s a b = core.comparePair t a b := by
    unfold comparePair verdict
    rw [h.aufStates, h.aufStates, hcount, hcount]
  unfold Better
  rw [hcompare]

/-- **`sort_batch` returns the same list**, whatever the order of the members and of the
traversals. -/
theorem Same.sortBatch (hdelta : 0 < core.deltaThreshold) (h : Same s t) (hs : Sane s) (ht : Sane t)
    {k : ℕ} {ms ms' : List Digest} (hget : s.batches.get k = some ⟨ms⟩)
    (hget' : t.batches.get k = some ⟨ms'⟩) (hperm : ms.Perm ms') (σ σ' : HashOrder) :
    core.sortBatch s σ ms = core.sortBatch t σ' ms' := by
  obtain ⟨blocks, hsort, hlin⟩ := sortBatch_spec hdelta hs.frozen σ (hs.members k ⟨ms⟩ hget)
  obtain ⟨blocks', hsort', hlin'⟩ := sortBatch_spec hdelta ht.frozen σ' (ht.members k ⟨ms'⟩ hget')
  have hkey : s.tieKey = t.tieKey := by
    funext d
    unfold State.tieKey
    rw [h.store]
  have hsame : core.Linearises t ms' blocks := hlin.congr h.better hkey fun d => hperm.mem_iff
  rw [hsort, hsort', hsame.unique hlin']

omit [Crypto] in
theorem Same.sent (h : Same s t) (sorted : List Digest) : Same (s.sent sorted) (t.sent sorted) where
  store := h.store
  aufStates := h.aufStates
  batches := h.batches
  floor := h.floor
  frontier := h.frontier
  txOutput := by
    have hlookup : s.store.lookup = fun d => t.store.lookup d := funext h.store
    show s.txOutput ++ sorted.filterMap s.store.lookup = t.txOutput ++ sorted.filterMap t.store.lookup
    rw [h.txOutput, hlookup]

omit [Crypto] in
/-- The states left by a release, and whether it recomputes the floor. -/
theorem Same.release (h : Same s t) (k : ℕ) {ms ms' : List Digest} (hperm : ms.Perm ms')
    (σ σ' : HashOrder) : Same (s.releaseBatch σ k ms) (t.releaseBatch σ' k ms') := by
  obtain ⟨hstore, hbatches, hfrontier, houtput⟩ := releaseBatch_frame s σ k ms
  obtain ⟨hstore', hbatches', hfrontier', houtput'⟩ := releaseBatch_frame t σ' k ms'
  have hlookup : ∀ d, (s.releaseBatch σ k ms).aufStates.lookup d =
      (t.releaseBatch σ' k ms').aufStates.lookup d := by
    intro d
    rw [lookup_releaseBatch, lookup_releaseBatch, h.aufStates]
    simp only [hperm.mem_iff]
  refine ⟨fun d => ?_, hlookup, fun k' => ?_, ?_, ?_, ?_⟩
  · rw [hstore, hstore']
    exact h.store d
  · rw [hbatches, hbatches', BTreeMap.get_erase, BTreeMap.get_erase]
    split
    · rfl
    · exact h.batches k'
  · have hremoved : (State.removeMembers s.activeFloorRound ms (s.aufStates, false)).2 = true ↔
        (State.removeMembers t.activeFloorRound ms' (t.aufStates, false)).2 = true := by
      rw [removedFloor_iff, removedFloor_iff, h.floor]
      simp only [hperm.mem_iff, h.aufStates]
    have hrounds : activeRounds (s.releaseBatch σ k ms) = activeRounds (t.releaseBatch σ' k ms') := by
      unfold activeRounds
      simp only [hlookup]
    unfold State.releaseBatch at hrounds ⊢
    dsimp only at hrounds ⊢
    -- both recompute the floor over the same rounds, or neither does
    by_cases hfloor : (State.removeMembers s.activeFloorRound ms (s.aufStates, false)).2 = true
    · rw [if_pos hfloor, if_pos (hremoved.mp hfloor)] at hrounds ⊢
      exact (floorLeast_recompute _ σ).unique (floorLeast_recompute _ σ') hrounds
    · rw [if_neg hfloor, if_neg fun hfloor' => hfloor (hremoved.mpr hfloor')]
      exact h.floor
  · rw [hfrontier, hfrontier', h.frontier]
  · rw [houtput, houtput', h.txOutput]

/-! ## §6. Runs. -/

omit [Crypto] in
theorem Same.drop (h : Same s t) (k : ℕ) :
    Same { s with batches := s.batches.erase k } { t with batches := t.batches.erase k } where
  store := h.store
  aufStates := h.aufStates
  batches k' := by
    show ((s.batches.erase k).get k').map _ = ((t.batches.erase k).get k').map _
    rw [BTreeMap.get_erase, BTreeMap.get_erase]
    split
    · rfl
    · exact h.batches k'
  floor := h.floor
  frontier := h.frontier
  txOutput := h.txOutput

omit [Crypto] in
/-- The same batch is in front, and it is ready in both states or in none. -/
theorem Same.ready (h : Same s t) {k : ℕ} {ms : List Digest} (hready : Ready s k ms) :
    ∃ ms', ms.Perm ms' ∧ Ready t k ms' := by
  obtain ⟨es, hentries⟩ := hready.head
  obtain ⟨r, hr, hle⟩ := hready.horizon
  rcases hentries' : t.batches.entries with _ | ⟨⟨k', ⟨ms'⟩⟩, es'⟩
  · exact absurd (hentries.symm.trans (h.symm.empty hentries')) (List.cons_ne_nil _ _)
  · obtain ⟨rfl, hperm⟩ := h.head hentries hentries'
    refine ⟨ms', hperm, ⟨es', hentries'⟩, ?_, r, ?_, ?_⟩
    · rintro rfl
      exact hready.members (List.perm_nil.mp hperm)
    · rw [← h.batchHorizon hperm]
      exact hr
    · rw [← h.frontier]
      exact hle

omit [Crypto] in
theorem Same.front_nil (h : Same s t) {k : ℕ} {es : List (ℕ × BatchState)}
    (hentries : s.batches.entries = (k, ⟨[]⟩) :: es) :
    ∃ es', t.batches.entries = (k, ⟨[]⟩) :: es' := by
  rcases hentries' : t.batches.entries with _ | ⟨⟨k', ⟨ms'⟩⟩, es'⟩
  · exact absurd (hentries.symm.trans (h.symm.empty hentries')) (List.cons_ne_nil _ _)
  · obtain ⟨rfl, hperm⟩ := h.head hentries hentries'
    obtain rfl := List.nil_perm.mp hperm
    exact ⟨es', rfl⟩

omit [Crypto] in
theorem Same.settled (h : Same s t) (hsettled : Settled s) : Settled t := by
  intro k' ms' es' hentries' r hr
  rcases hentries : s.batches.entries with _ | ⟨⟨k, ⟨ms⟩⟩, es⟩
  · exact absurd (hentries'.symm.trans (h.empty hentries)) (List.cons_ne_nil _ _)
  · obtain ⟨rfl, hperm⟩ := h.head hentries hentries'
    rw [← h.batchHorizon hperm] at hr
    rw [← h.frontier]
    exact hsettled k ms es hentries r hr

/-- The output loop sends the same certificates. -/
theorem Same.tryFinalize (hdelta : 0 < core.deltaThreshold) {orders orders' : ℕ → HashOrder}
    {fuel fuel' : ℕ} (h : Same s t) (hs : Sane s) (ht : Sane t)
    (hloop : core.tryFinalizeBatches orders fuel s = .ok s')
    (hloop' : core.tryFinalizeBatches orders' fuel' t = .ok t') : Same s' t' := by
  induction fuel generalizing s t fuel' with
  | zero => cases hloop
  | succ fuel ih =>
      cases fuel' with
      | zero => cases hloop'
      | succ fuel' =>
          obtain hsettled | ⟨k, es, hentries⟩ | ⟨k, ms, hready⟩ := front_cases s
          · rw [(tryFinalize_settled core orders fuel hsettled).1] at hloop
            rw [(tryFinalize_settled core orders' fuel' (h.settled hsettled)).1] at hloop'
            rw [← Except.ok.inj hloop, ← Except.ok.inj hloop']
            exact h
          · obtain ⟨es', hentries'⟩ := h.front_nil hentries
            rw [(tryFinalize_drop core orders fuel hentries).1] at hloop
            rw [(tryFinalize_drop core orders' fuel' hentries').1] at hloop'
            have hsane := ((inductive_sane core).drop [] s k es hentries ⟨hs, by simp⟩).1
            have hsane' := ((inductive_sane core).drop [] t k es' hentries' ⟨ht, by simp⟩).1
            exact ih (h.drop k) hsane hsane' hloop hloop'
          · obtain ⟨ms', hperm, hready'⟩ := h.ready hready
            obtain ⟨sorted, u, hstep, _, hloop, _⟩ := hready.of_ok hloop
            obtain ⟨sorted', u', hstep', _, hloop', _⟩ := hready'.of_ok hloop'
            have hsane := ((inductive_sane core).final [] _ s k ms _ u hstep ⟨hs, by simp⟩).1
            have hsane' := ((inductive_sane core).final [] _ t k ms' _ u' hstep' ⟨ht, by simp⟩).1
            refine ih ?_ hsane hsane' hloop hloop'
            -- both sort the batch alike
            obtain ⟨es, hentries⟩ := hready.head
            obtain ⟨es', hentries'⟩ := hready'.head
            have hsort := h.sortBatch hdelta hs ht (BTreeMap.get_head hentries)
              (BTreeMap.get_head hentries') hperm (orders k) (orders' k)
            obtain rfl : sorted = sorted' :=
              Option.some.inj (hstep.sorts.symm.trans (hsort.trans hstep'.sorts))
            rw [hstep.result, hstep'.result]
            exact (h.sent sorted).release k hperm _ _

/-- A batch whose certificates of a round may stand in another order. -/
structure Shuffles (b b' : CommittedSubDag) : Prop where
  index : b.batchIndex = b'.batchIndex
  perm : b.certificates.Perm b'.certificates
  rounds : b.certificates.map Certificate.round = b'.certificates.map Certificate.round

/-- Distinct certificates, in each batch by nondecreasing round, each after its parents. -/
structure InOrder (bs : List CommittedSubDag) : Prop where
  fresh : Fresh (certificates bs)
  rounds : ∀ b ∈ bs, (b.certificates.map Certificate.round).Pairwise (· ≤ ·)
  ordered : ParentsFirst (certificates bs)

instance (bs : List CommittedSubDag) : Decidable (InOrder bs) :=
  decidable_of_iff (Fresh (certificates bs) ∧
      (∀ b ∈ bs, (b.certificates.map Certificate.round).Pairwise (· ≤ ·)) ∧
      ParentsFirst (certificates bs))
    ⟨fun h => ⟨h.1, h.2.1, h.2.2⟩, fun h => ⟨h.fresh, h.rounds, h.ordered⟩⟩

variable {bs : List CommittedSubDag} {b b' : CommittedSubDag}

theorem InOrder.of_append (h : InOrder (bs ++ [b])) : InOrder bs := by
  have hfresh := h.fresh
  have hordered := h.ordered
  rw [certificates_append] at hfresh hordered
  exact ⟨hfresh.of_append, fun x hx => h.rounds x (List.mem_append_left _ hx),
    (List.pairwise_append.mp hordered).1⟩

/-- The certificates of the last batch may come in their order. -/
theorem InOrder.precedes (h : InOrder (bs ++ [b])) : b.certificates.Pairwise Precedes := by
  have hfresh := h.fresh
  have hordered := h.ordered
  unfold Fresh at hfresh
  simp only [certificates_append, certificates_cons, certificates_nil, List.append_nil,
    List.map_append] at hfresh hordered
  have hrounds := List.pairwise_map.mp (h.rounds b (by simp))
  have hdigests := List.pairwise_map.mp hfresh.of_append_right
  exact hrounds.and (hdigests.and (List.pairwise_append.mp hordered).2.1)

/-- So may those of a shuffled batch. -/
theorem InOrder.shuffled {bs' : List CommittedSubDag} (h : InOrder bs)
    (hshuffles : List.Forall₂ Shuffles bs bs')
    (hordered : ParentsFirst (certificates bs')) : InOrder bs' := by
  refine ⟨?_, ?_, hordered⟩
  · have hperm : (certificates bs).Perm (certificates bs') := by
      clear h hordered
      induction hshuffles with
      | nil => exact List.Perm.refl _
      | cons hb _ ih => exact hb.perm.append ih
    unfold Fresh
    rw [(hperm.map Certificate.digest).nodup_iff.symm]
    exact h.fresh
  · have hrounds := h.rounds
    clear h hordered
    induction hshuffles with
    | nil => simp
    | cons hb _ ih =>
        rw [List.forall_mem_cons] at hrounds ⊢
        rw [← hb.rounds]
        exact ⟨hrounds.1, ih hrounds.2⟩

/-- The certificates of the next batch may all come. -/
theorem Run.fit {es : History} (hrun : core.Run es s) (h : InOrder (received es ++ [b])) :
    ∀ c ∈ b.certificates, Fit s c := by
  have hstored : ∀ d x, s.store.lookup d = some x → x ∈ certificates (received es) := by
    intro d x hx
    have hmem := (inductive_stored core).run hrun d x hx
    rwa [List.append_nil] at hmem
  have hfresh := h.fresh
  have hordered := h.ordered
  unfold Fresh at hfresh
  simp only [certificates_append, certificates_cons, certificates_nil, List.append_nil,
    List.map_append] at hfresh hordered
  intro c hc
  have hunstored : s.store.lookup c.digest = none := by
    by_contra hsome
    obtain ⟨x, hx⟩ := Option.ne_none_iff_exists'.mp hsome
    have hdigest := hrun.sane.digest _ x hx
    exact (List.nodup_append.mp hfresh).2.2 x.digest (List.mem_map_of_mem (hstored _ x hx))
      c.digest (List.mem_map_of_mem hc) hdigest
  refine ⟨hunstored, ?_, fun a ca hca => ?_⟩
  · by_contra hactive
    exact hrun.sane.stored c.digest hactive hunstored
  · exact (List.pairwise_append.mp hordered).2.2 ca (hstored a ca hca) c hc

/-- Both runs reach the same state. -/
theorem Run.same (hdelta : 0 < core.deltaThreshold) {es es' : History} (hrun : core.Run es s)
    (hrun' : core.Run es' s') (hshuffles : List.Forall₂ Shuffles (received es) (received es'))
    (hbs : InOrder (received es)) (hbs' : InOrder (received es')) : Same s s' := by
  induction hrun generalizing es' s' with
  | init =>
      cases hrun' with
      | init => exact Same.refl _
      | step _ _ =>
          rw [received_cons] at hshuffles
          have hlength := hshuffles.length_eq
          simp [received] at hlength
  | @step es s u d hrun hnext ih =>
      cases hrun' with
      | init =>
          have hlength := hshuffles.length_eq
          simp [received] at hlength
      | @step es' t _ d' hrun' hnext' =>
          rw [received_cons] at hbs hbs'
          rw [received_cons, received_cons, ← List.forall₂_reverse_iff, List.reverse_append, List.reverse_append] at hshuffles
          obtain ⟨hlast, hearlier⟩ := List.forall₂_cons.mp hshuffles
          have hsame := ih hrun' (List.forall₂_reverse_iff.mp hearlier) hbs.of_append hbs'.of_append
          obtain ⟨r, hr, hloop⟩ := next_eq_some hnext
          obtain ⟨r', hr', hloop'⟩ := next_eq_some hnext'
          -- the certificates of a batch are recorded in either order
          have hrecorded : Same r r' := (commutes_register core).run_perm hlast.perm
            hbs.precedes hbs'.precedes (Run.fit hrun hbs) hsame hr hr'
          have hsane := ((inductive_sane core).recorded (received es)
            ((inductive_sane core).run hrun) hr (d.orders d.batch.batchIndex)).1
          have hsane' := ((inductive_sane core).recorded (received es')
            ((inductive_sane core).run hrun') hr' (d'.orders d'.batch.batchIndex)).1
          have hbatch : Same (core.applyWindowCap (d.orders d.batch.batchIndex) (r.enqueue d.batch))
              (core.applyWindowCap (d'.orders d'.batch.batchIndex) (r'.enqueue d'.batch)) :=
            hrecorded.recorded hlast.index (hlast.perm.map Certificate.digest) _ _
          exact hbatch.tryFinalize hdelta hsane hsane' hloop hloop'

/-- **The output is canonical**: two runs that receive the same batches, up to the order of
the certificates of one round in a batch, send the same certificates in the same order,
however their hash maps are traversed. -/
theorem output_canonical (committeeSize windowCap : ℕ) (capacity : Option ℕ) {es es' : History}
    {s s' : State} (hrun : (spawn committeeSize windowCap capacity).Run es s)
    (hrun' : (spawn committeeSize windowCap capacity).Run es' s')
    (hshuffles : List.Forall₂ Shuffles (received es) (received es'))
    (horder : InOrder (received es))
    (hordered : ParentsFirst (certificates (received es'))) :
    s.txOutput = s'.txOutput :=
  (hrun.same (deltaThreshold_spawn committeeSize windowCap capacity) hrun' hshuffles horder
    (horder.shuffled hshuffles hordered)).txOutput

/-- Elements come in the reverse of the order in which the model lists them. -/
def HashOrder.reversed : HashOrder := ⟨fun _ _ l => l.reverse, fun _ _ l => List.reverse_perm l⟩

/-- `sampleContest`, each round backwards. -/
def sampleContestShuffled : List Certificate :=
  [Certificate.sample 1 1 [], Certificate.sample 1 0 [], Certificate.sample 2 3 [1],
    Certificate.sample 2 2 [0], Certificate.sample 2 1 [0], Certificate.sample 2 0 [0],
    Certificate.sample 3 2 [0, 3], Certificate.sample 3 1 [0, 3], Certificate.sample 3 0 [0, 3]]

omit [Crypto] in
set_option maxRecDepth 10000 in
theorem exists_contestOutput :
    letI := sampleCrypto
    ∃ es s, (spawn 4 1 none).Run es s ∧
      received es = [(sampleDelivery 0 sampleContest).batch,
        (sampleDelivery 1 [Certificate.sample 4 0 [0]]).batch] ∧
      InOrder (received es) ∧ s.txOutput.length = 9 :=
  let _ := sampleCrypto
  let ⟨es, s, hrun, hcheck⟩ := System.exec_check (spawn 4 1 none).system
    [sampleDelivery 0 sampleContest, sampleDelivery 1 [Certificate.sample 4 0 [0]]]
    (fun es s => decide (received es = [(sampleDelivery 0 sampleContest).batch,
        (sampleDelivery 1 [Certificate.sample 4 0 [0]]).batch] ∧
      InOrder (received es) ∧ s.txOutput.length = 9))
    (by decide +kernel)
  ⟨es, s, hrun, of_decide_eq_true hcheck⟩

omit [Crypto] in
set_option maxRecDepth 10000 in
theorem exists_contestOutputShuffled :
    letI := sampleCrypto
    ∃ es s, (spawn 4 1 none).Run es s ∧
      received es = [(sampleDelivery 0 sampleContestShuffled).batch,
        (sampleDelivery 1 [Certificate.sample 4 0 [0]]).batch] ∧
      ParentsFirst (certificates (received es)) :=
  let _ := sampleCrypto
  let ⟨es, s, hrun, hcheck⟩ := System.exec_check (spawn 4 1 none).system
    [{ sampleDelivery 0 sampleContestShuffled with orders := fun _ => HashOrder.reversed },
      { sampleDelivery 1 [Certificate.sample 4 0 [0]] with orders := fun _ => HashOrder.reversed }]
    (fun es _ => decide (received es = [(sampleDelivery 0 sampleContestShuffled).batch,
        (sampleDelivery 1 [Certificate.sample 4 0 [0]]).batch] ∧
      ParentsFirst (certificates (received es))))
    (by decide +kernel)
  ⟨es, s, hrun, of_decide_eq_true hcheck⟩

omit [Crypto] in
set_option maxRecDepth 10000 in
/-- Nine certificates come out the same. -/
theorem output_canonical_sample :
    letI := sampleCrypto
    ∃ es s es' s', (spawn 4 1 none).Run es s ∧ (spawn 4 1 none).Run es' s' ∧
      received es ≠ received es' ∧ s.txOutput.length = 9 ∧ s.txOutput = s'.txOutput := by
  let _ := sampleCrypto
  obtain ⟨es, s, hrun, hreceived, horder, hlength⟩ := exists_contestOutput
  obtain ⟨es', s', hrun', hreceived', hordered⟩ := exists_contestOutputShuffled
  have hshuffles : List.Forall₂ Shuffles (received es) (received es') := by
    rw [hreceived, hreceived']
    refine .cons ⟨rfl, ?_, ?_⟩ (.cons ⟨rfl, List.Perm.refl _, rfl⟩ .nil)
    · decide +kernel
    · decide +kernel
  have hne : received es ≠ received es' := by
    rw [hreceived, hreceived']
    decide +kernel
  exact ⟨es, s, es', s', hrun, hrun', hne, hlength,
    output_canonical 4 1 none hrun hrun' hshuffles horder hordered⟩

end MrvExecutor

end Mrv
