/-
  Mrv.Executor.Visibility — what the visibility counters count.

  The traversal for a new certificate stops at the floor, the least round of an active
  state (`floor_least`).  On a path to an active certificate every step goes one round
  down, so no step before the last one is at the floor (`Reaches.sees`): what is cut off
  leads to nothing active.

  So an author is seen in a round exactly if a certificate of that author and round
  reaches the active certificate through stored certificates (`counters_exact`).
-/
import Mrv.Executor.Stages
import Mrv.Consensus.Flatten

namespace Mrv

open Relation (ReflTransGen)

namespace MrvExecutor

/-! ## §1. The floor. -/

/-- The rounds of the active states. -/
def activeRounds (s : State) : Set ℕ :=
  {r | ∃ d st, s.aufStates.lookup d = some st ∧ st.round = r}

/-- The floor is the least round of an active state. -/
def FloorLeast (s : State) : Prop :=
  ∀ m, s.activeFloorRound = some m ↔ IsLeast (activeRounds s) m

theorem FloorLeast.le {s : State} (h : FloorLeast s) {d : Digest} {st : AufState}
    (hst : s.aufStates.lookup d = some st) : ∃ m, s.activeFloorRound = some m ∧ m ≤ st.round := by
  have hmem : st.round ∈ activeRounds s := ⟨d, st, hst, rfl⟩
  have hleast : IsLeast (activeRounds s) (sInf (activeRounds s)) :=
    ⟨Nat.sInf_mem ⟨_, hmem⟩, fun r hr => Nat.sInf_le hr⟩
  exact ⟨_, (h _).mpr hleast, hleast.2 hmem⟩

/-- States with the same active rounds have the same floor. -/
theorem FloorLeast.unique {s s' : State} (h : FloorLeast s) (h' : FloorLeast s')
    (hrounds : activeRounds s = activeRounds s') : s.activeFloorRound = s'.activeFloorRound := by
  apply Option.ext
  intro m
  rw [h m, h' m, hrounds]

theorem floorLeast_recompute (s : State) (σ : HashOrder) :
    FloorLeast (s.recomputeActiveFloorRound σ) := by
  intro m
  show ((σ.visit .rounds s.aufStates.values).map AufState.round).min? = some m ↔ _
  have hmem : ∀ r, r ∈ (σ.visit .rounds s.aufStates.values).map AufState.round ↔
      r ∈ activeRounds s := by
    intro r
    simp only [List.mem_map, HashOrder.mem_visit, AList.mem_values]
    constructor
    · rintro ⟨st, ⟨d, hst⟩, rfl⟩
      exact ⟨d, st, hst, rfl⟩
    · rintro ⟨d, st, hst, rfl⟩
      exact ⟨st, ⟨d, hst⟩, rfl⟩
  rw [List.min?_eq_some_iff, hmem]
  refine and_congr_right fun _ => ⟨fun h r hr => h r ((hmem r).mpr hr), fun h r hr => ?_⟩
  exact h ((hmem r).mp hr)

theorem activeRounds_activate (s : State) (digest : Digest) (round : ℕ) :
    activeRounds (s.activate digest round) =
      if s.aufStates.lookup digest = none then insert round (activeRounds s)
      else activeRounds s := by
  ext r
  split
  · next hnone =>
    rw [Set.mem_insert_iff]
    constructor
    · rintro ⟨d, st, hst, rfl⟩
      rw [lookup_activate] at hst
      split at hst
      · rw [← Option.some.inj hst]
        exact Or.inl rfl
      · exact Or.inr ⟨d, st, hst, rfl⟩
    · rintro (rfl | ⟨d, st, hst, rfl⟩)
      · exact ⟨digest, AufState.new r, by rw [lookup_activate, if_pos ⟨rfl, hnone⟩], rfl⟩
      · refine ⟨d, st, ?_, rfl⟩
        rw [lookup_activate, if_neg, hst]
        rintro ⟨rfl, _⟩
        exact Option.some_ne_none st (hst.symm.trans hnone)
  · next hsome =>
    unfold State.activate
    rw [if_neg hsome]

theorem FloorLeast.activate {s : State} (h : FloorLeast s) (digest : Digest) (round : ℕ) :
    FloorLeast (s.activate digest round) := by
  intro m
  rw [activeRounds_activate, floor_activate]
  split
  · rw [Option.some.injEq]
    cases hfloor : s.activeFloorRound with
    | none =>
        have hempty : activeRounds s = ∅ := by
          rw [Set.eq_empty_iff_forall_notMem]
          rintro r ⟨d, st, hst, _⟩
          obtain ⟨k, hk, _⟩ := h.le hst
          exact Option.some_ne_none k (hk.symm.trans hfloor)
        rw [hempty]
        simp only [Option.elim_none, insert_empty_eq]
        constructor
        · rintro rfl
          exact isLeast_singleton
        · exact fun hleast => (isLeast_singleton.unique hleast)
    | some k =>
        have hleast := ((h k).mp hfloor).insert round
        rw [Option.elim_some, min_comm]
        exact ⟨fun heq => heq ▸ hleast, fun hm => hleast.unique hm⟩
  · exact h m

variable [Crypto] {core : MrvExecutor} {s s' : State}

/-- Seeing changes no round. -/
theorem Registers.activeRounds {c : Certificate} (h : Registers core s c s') :
    activeRounds s' = activeRounds (s.activate c.digest c.round) := by
  ext r
  constructor
  · rintro ⟨d, st', hst', rfl⟩
    obtain ⟨st, hst, rfl | rfl⟩ := h.lookup_eq_some hst'
    · exact ⟨d, st, hst, (AufState.round_see _ _ _ _).symm⟩
    · exact ⟨d, st', hst, rfl⟩
  · rintro ⟨d, st, hst, rfl⟩
    by_cases hsees : Sees s'.store (s'.activeFloorRound.getD c.round) c.digest d
    · refine ⟨d, st.see core.reachThreshold c.round c.origin, ?_, AufState.round_see _ _ _ _⟩
      rw [h.seen d hsees, hst]
      rfl
    · exact ⟨d, st, (h.unseen d hsees).trans hst, rfl⟩

omit [Crypto] in
/-- A release that takes no state of the floor round leaves one. -/
theorem FloorLeast.release (h : FloorLeast s) (σ : HashOrder) (batchIndex : ℕ)
    (members : List Digest) : FloorLeast (s.releaseBatch σ batchIndex members) := by
  unfold State.releaseBatch
  dsimp only
  split
  · exact floorLeast_recompute _ σ
  · next hkept =>
    rw [removedFloor_iff] at hkept
    push Not at hkept
    intro m
    show s.activeFloorRound = some m ↔ _
    have hsub : ∀ d st, (State.removeMembers s.activeFloorRound members (s.aufStates, false)).1.lookup
        d = some st ↔ d ∉ members ∧ s.aufStates.lookup d = some st := by
      intro d st
      rw [lookup_removeMembers]
      split
      · next hd => exact iff_of_false (Option.some_ne_none st).symm fun h => h.1 hd
      · next hd => exact (and_iff_right hd).symm
    rw [h m]
    constructor
    · rintro ⟨⟨d, st, hst, hround⟩, hleast⟩
      have hfloor : s.activeFloorRound = some m :=
        (h m).mpr ⟨⟨d, st, hst, hround⟩, hleast⟩
      refine ⟨⟨d, st, (hsub d st).mpr ⟨fun hd => ?_, hst⟩, hround⟩, ?_⟩
      · exact hkept.2 d hd st hst (by rw [hfloor, hround])
      · rintro r ⟨x, st', hst', rfl⟩
        exact hleast ⟨x, st', ((hsub x st').mp hst').2, rfl⟩
    · rintro ⟨⟨d, st, hst, hround⟩, hleast⟩
      have hst' := ((hsub d st).mp hst).2
      obtain ⟨k, hk, hle⟩ := h.le hst'
      obtain ⟨⟨x, stx, hstx, hroundx⟩, hk'⟩ := (h k).mp hk
      -- the state of the floor round is not a member, so it is still there
      have hx : x ∉ members := fun hx => hkept.2 x hx stx hstx (by rw [hk, hroundx])
      have hmk : m ≤ k := hleast ⟨x, stx, (hsub x stx).mpr ⟨hx, hstx⟩, hroundx⟩
      obtain rfl : m = k := by
        rw [hround] at hle
        omega
      exact (h m).mp hk

omit [Crypto] in
theorem FloorLeast.sent (h : FloorLeast s) (sorted : List Digest) : FloorLeast (s.sent sorted) := h

/-- **The floor is the least round of an active state**, whatever is received. -/
theorem inductive_floor (core : MrvExecutor) : Inductive core (fun _ _ s => FloorLeast s) where
  new := by
    intro m
    refine iff_of_false (Option.some_ne_none m).symm ?_
    rintro ⟨⟨d, st, hst, _⟩, _⟩
    exact absurd hst (by simp [State.new])
  register := by
    intro _ cs c s s' hs h m
    rw [h.floor, h.activeRounds]
    exact hs.activate c.digest c.round m
  record := by
    intro _ b σ s hs m
    obtain ⟨_, _, hfloor, _⟩ := recorded_frame core σ s b
    have hrounds : activeRounds (core.applyWindowCap σ (s.enqueue b)) = activeRounds s := by
      ext r
      unfold activeRounds
      simp only [Set.mem_ofPred_eq, recorded_lookup, Option.map_eq_some_iff]
      constructor
      · rintro ⟨d, _, ⟨st, hst, rfl⟩, rfl⟩
        exact ⟨d, st, hst, (round_capState _ _ _).symm⟩
      · rintro ⟨d, st, hst, rfl⟩
        exact ⟨d, _, ⟨st, hst, rfl⟩, round_capState _ _ _⟩
    rw [hfloor, hrounds]
    exact hs m
  drop := fun _ _ _ _ _ hs => hs
  final := by
    intro _ σ s k ms sorted s' h hs
    rw [h.result]
    exact (hs.sent sorted).release σ k ms

/-! ## §2. Paths. -/

/-- A stored certificate has the digest as a parent. -/
def Link (store : HashMap Digest Certificate) (a b : Digest) : Prop :=
  ∃ c, store.lookup a = some c ∧ b ∈ c.header.parents

/-- Zero or more parent links through stored certificates. -/
def Reaches (store : HashMap Digest Certificate) : Digest → Digest → Prop :=
  ReflTransGen (Link store)

omit [Crypto] in
theorem mem_links {store : HashMap Digest Certificate} {minRound : ℕ} {a b : Digest} :
    b ∈ links store minRound a ↔
      ∃ c, store.lookup a = some c ∧ minRound < c.round ∧ b ∈ c.header.parents := by
  unfold links
  cases store.lookup a with
  | none => simp
  | some c =>
      show b ∈ (if c.round ≤ minRound then [] else c.header.parents.toList) ↔ _
      split
      · next hle => simp [hle]
      · next hlt =>
        rw [not_le] at hlt
        simp [hlt, BTreeSet.mem_iff]

omit [Crypto] in
/-- What the traversal sees is reached. -/
theorem Sees.reaches {store : HashMap Digest Certificate} {minRound : ℕ} {x d : Digest}
    (h : Sees store minRound x d) : Reaches store x d := by
  refine ReflTransGen.mono ?_ x d h.1
  intro a b hab
  obtain ⟨c, hc, _, hb⟩ := mem_links.mp hab
  exact ⟨c, hc, hb⟩

/-- Stored parents are from the previous round. -/
def Layered (store : HashMap Digest Certificate) : Prop :=
  ∀ a b c p, store.lookup a = some c → b ∈ c.header.parents → store.lookup b = some p →
    p.round + 1 = c.round

omit [Crypto] in
/-- Along a path the rounds go down. -/
theorem Reaches.exists_round_le {store : HashMap Digest Certificate} (hlayered : Layered store)
    {x d : Digest} {c : Certificate} (hd : store.lookup d = some c) (h : Reaches store x d) :
    ∃ cx, store.lookup x = some cx ∧ c.round ≤ cx.round := by
  induction h using ReflTransGen.head_induction_on with
  | refl => exact ⟨c, hd, le_refl _⟩
  | head hstep _ ih =>
      obtain ⟨cy, hcy, hround⟩ := ih
      obtain ⟨cx, hcx, hparent⟩ := hstep
      have hlayer := hlayered _ _ cx cy hcx hparent hcy
      exact ⟨cx, hcx, by omega⟩

omit [Crypto] in
/-- **The cut leads to nothing active**: what is reached and not below the floor is seen. -/
theorem Reaches.sees {store : HashMap Digest Certificate} (hlayered : Layered store)
    {minRound : ℕ} {x d : Digest} {c : Certificate} (hd : store.lookup d = some c)
    (hfloor : minRound ≤ c.round) (h : Reaches store x d) : Sees store minRound x d := by
  refine ⟨?_, visible_iff.mpr ⟨c, hd, hfloor⟩⟩
  induction h using ReflTransGen.head_induction_on with
  | refl => exact ReflTransGen.refl
  | head hstep hrest ih =>
      -- the next one is not below `d`, so the one before it is above the floor
      obtain ⟨cy, hcy, hround⟩ := Reaches.exists_round_le hlayered hd hrest
      obtain ⟨cx, hcx, hparent⟩ := hstep
      have hlayer := hlayered _ _ cx cy hcx hparent hcy
      exact ReflTransGen.head (mem_links.mpr ⟨cx, hcx, by omega, hparent⟩) ih

section

variable {store : HashMap Digest Certificate} {k x d : Digest} {c : Certificate}

omit [Crypto] in
/-- A certificate that no stored one has as a parent opens no path for the others. -/
theorem reaches_insert (hlast : ∀ a ca, store.lookup a = some ca → k ∉ ca.header.parents)
    (hx : x ≠ k) : Reaches (store.insert k c) x d ↔ Reaches store x d := by
  have hlookup : ∀ a, a ≠ k → (store.insert k c).lookup a = store.lookup a :=
    fun a ha => AList.lookup_insert_ne ha
  apply Dfs.reflTransGen_iff_of_source (k := k) _ _ hx
  · intro a ha b
    unfold Link
    rw [hlookup a ha]
  · rintro a ha ⟨ca, hca, hk⟩
    rw [hlookup a ha] at hca
    exact hlast a ca hca hk

omit [Crypto] in
theorem not_reaches_last (hlast : ∀ a ca, store.lookup a = some ca → k ∉ ca.header.parents)
    (hx : x ≠ k) : ¬ Reaches store x k := by
  apply Dfs.not_reflTransGen_source _ hx
  rintro a _ ⟨ca, hca, hk⟩
  exact hlast a ca hca hk

end

/-! ## §3. The counters. -/

/-- No certificate comes before one of its parents. -/
def ParentsFirst (cs : List Certificate) : Prop := cs.Pairwise (fun x y => ¬ x.Names y)

instance (cs : List Certificate) : Decidable (ParentsFirst cs) :=
  inferInstanceAs (Decidable (cs.Pairwise (fun x y => ¬ x.Names y)))

/-- Certificates come after their parents, and these are from the previous round. -/
structure Causal (cs : List Certificate) : Prop where
  fresh : Fresh cs
  ordered : ParentsFirst cs
  layered : ∀ x ∈ cs, ∀ y ∈ cs, x.Names y → y.round + 1 = x.round

theorem Causal.of_append {cs cs' : List Certificate} (h : Causal (cs ++ cs')) : Causal cs := by
  refine ⟨h.fresh.of_append, (List.pairwise_append.mp h.ordered).1, fun x hx y hy => ?_⟩
  exact h.layered x (List.mem_append_left _ hx) y (List.mem_append_left _ hy)

instance (cs : List Certificate) : Decidable (Causal cs) :=
  decidable_of_iff (Fresh cs ∧ ParentsFirst cs ∧
      ∀ x ∈ cs, ∀ y ∈ cs, x.Names y → y.round + 1 = x.round)
    ⟨fun h => ⟨h.1, h.2.1, h.2.2⟩, fun h => ⟨h.fresh, h.ordered, h.layered⟩⟩

/-- The origins of the certificates of a round from which a digest can be reached. -/
def seers (cs : List Certificate) (store : HashMap Digest Certificate) (d : Digest) (r : ℕ) :
    Set PublicKey :=
  {a | ∃ x ∈ cs, x.round = r ∧ x.origin = a ∧ Reaches store x.digest d}

/-- The active states track the certificates recorded so far. -/
structure Tracks (cs : List Certificate) (s : State) : Prop where
  stored : ∀ d c, s.store.lookup d = some c ↔ c ∈ cs ∧ c.digest = d
  rounds : ∀ d st, s.aufStates.lookup d = some st →
    ∃ c, s.store.lookup d = some c ∧ st.round = c.round
  counted : ∀ d st, s.aufStates.lookup d = some st → ∀ r a,
    a ∈ (st.seenByRound.get r).getD ∅ ↔ a ∈ seers cs s.store d r

variable {cs : List Certificate} {c : Certificate}

theorem Causal.layered_store (h : Causal cs) {store : HashMap Digest Certificate}
    (hstored : ∀ d c, store.lookup d = some c ↔ c ∈ cs ∧ c.digest = d) : Layered store := by
  intro a b x y hx hb hy
  obtain ⟨hxcs, _⟩ := (hstored a x).mp hx
  obtain ⟨hycs, rfl⟩ := (hstored b y).mp hy
  exact h.layered x hxcs y hycs hb

/-- No stored certificate has the next one as a parent. -/
theorem Causal.last (h : Causal (cs ++ [c])) {store : HashMap Digest Certificate}
    (hstored : ∀ d c, store.lookup d = some c ↔ c ∈ cs ∧ c.digest = d) :
    ∀ a ca, store.lookup a = some ca → c.digest ∉ ca.header.parents := by
  intro a ca hca hparent
  obtain ⟨hmem, _⟩ := (hstored a ca).mp hca
  exact (List.pairwise_append.mp h.ordered).2.2 ca hmem c (List.mem_singleton.mpr rfl) hparent

theorem Tracks.new_of_fresh (h : Tracks cs s) (hfresh : Fresh (cs ++ [c])) :
    s.store.lookup c.digest = none ∧ s.aufStates.lookup c.digest = none := by
  have hstore : s.store.lookup c.digest = none := by
    by_contra hsome
    obtain ⟨x, hx⟩ := Option.ne_none_iff_exists'.mp hsome
    obtain ⟨hmem, hdigest⟩ := (h.stored _ x).mp hx
    exact hfresh.ne_of_append hmem hdigest
  refine ⟨hstore, ?_⟩
  by_contra hsome
  obtain ⟨st, hst⟩ := Option.ne_none_iff_exists'.mp hsome
  obtain ⟨x, hx, _⟩ := h.rounds _ st hst
  exact Option.some_ne_none x (hx.symm.trans hstore)

theorem Tracks.stored_register (h : Tracks cs s) (hstep : Registers core s c s')
    (hfresh : Fresh (cs ++ [c])) :
    ∀ d x, s'.store.lookup d = some x ↔ x ∈ cs ++ [c] ∧ x.digest = d := by
  rw [hstep.store]
  exact stored_insert h.stored hfresh

/-- The states before the traversal, in the new store. -/
theorem Tracks.activate (h : Tracks cs s) (hstep : Registers core s c s')
    (hcausal : Causal (cs ++ [c])) {d : Digest} {st : AufState}
    (hst : (s.activate c.digest c.round).aufStates.lookup d = some st) :
    (∃ x, s'.store.lookup d = some x ∧ st.round = x.round) ∧
      ∀ r a, a ∈ (st.seenByRound.get r).getD ∅ ↔ a ∈ seers cs s'.store d r := by
  obtain ⟨_, hinactive⟩ := h.new_of_fresh hcausal.fresh
  have hlast := hcausal.last h.stored
  have hreaches : ∀ x ∈ cs, ∀ d, Reaches s'.store x.digest d ↔ Reaches s.store x.digest d := by
    intro x hx d
    rw [hstep.store]
    exact reaches_insert hlast (hcausal.fresh.ne_of_append hx)
  rw [lookup_activate] at hst
  split at hst
  · next hd =>
    rw [hd.1, ← Option.some.inj hst]
    refine ⟨⟨c, by rw [hstep.lookup_store, if_pos rfl], rfl⟩, fun r a => ?_⟩
    refine iff_of_false (Finset.notMem_empty a) ?_
    rintro ⟨x, hx, _, _, hpath⟩
    exact not_reaches_last hlast (hcausal.fresh.ne_of_append hx) ((hreaches x hx _).mp hpath)
  · next hd =>
    obtain ⟨x, hx, hround⟩ := h.rounds d st hst
    refine ⟨⟨x, ?_, hround⟩, fun r a => ?_⟩
    · rw [hstep.lookup_store, if_neg fun heq => hd ⟨heq, hinactive⟩]
      exact hx
    · rw [h.counted d st hst]
      unfold seers
      refine exists_congr fun y => and_congr_right fun hy => ?_
      rw [hreaches y hy]

/-- The floor cuts no path to an active certificate. -/
theorem Tracks.sees_iff_reaches (h : Tracks cs s) (hstep : Registers core s c s')
    (hfloor : FloorLeast s') (hcausal : Causal (cs ++ [c])) {d : Digest} {st : AufState}
    (hst : s'.aufStates.lookup d = some st) :
    Sees s'.store (s'.activeFloorRound.getD c.round) c.digest d ↔
      Reaches s'.store c.digest d := by
  refine ⟨Sees.reaches, fun hpath => ?_⟩
  obtain ⟨st₀, hst₀, hsee⟩ := hstep.lookup_eq_some hst
  obtain ⟨⟨x, hx, hround⟩, _⟩ := h.activate hstep hcausal hst₀
  obtain ⟨m, hm, hle⟩ := hfloor.le hst
  refine hpath.sees (hcausal.layered_store (h.stored_register hstep hcausal.fresh)) hx ?_
  rw [hm, Option.getD_some, ← hround]
  obtain rfl | rfl := hsee
  · rwa [AufState.round_see] at hle
  · exact hle

/-- An author is added exactly to the states its certificate reaches. -/
theorem Tracks.register (h : Tracks cs s) (hstep : Registers core s c s') (hfloor : FloorLeast s')
    (hcausal : Causal (cs ++ [c])) : Tracks (cs ++ [c]) s' := by
  refine ⟨h.stored_register hstep hcausal.fresh, fun d st hst => ?_, fun d st hst r a => ?_⟩
  · obtain ⟨st₀, hst₀, hsee⟩ := hstep.lookup_eq_some hst
    obtain ⟨⟨x, hx, hround⟩, _⟩ := h.activate hstep hcausal hst₀
    refine ⟨x, hx, ?_⟩
    obtain rfl | rfl := hsee
    · rw [AufState.round_see, hround]
    · exact hround
  · have hsplit : a ∈ seers (cs ++ [c]) s'.store d r ↔ a ∈ seers cs s'.store d r ∨
        (c.round = r ∧ c.origin = a ∧ Reaches s'.store c.digest d) := by
      unfold seers
      simp only [List.mem_append, List.mem_singleton, or_and_right, exists_or, exists_eq_left]
      rfl
    rw [hsplit, ← h.sees_iff_reaches hstep hfloor hcausal hst]
    by_cases hsee : Sees s'.store (s'.activeFloorRound.getD c.round) c.digest d
    · rw [hstep.seen d hsee] at hst
      obtain ⟨st₀, hst₀, rfl⟩ := Option.map_eq_some_iff.mp hst
      rw [AufState.get_see, ← (h.activate hstep hcausal hst₀).2]
      by_cases hr : r = c.round
      · subst hr
        rw [if_pos rfl, Finset.mem_insert]
        simp only [hsee, true_and, and_true]
        rw [or_comm, eq_comm]
      · rw [if_neg hr]
        simp [Ne.symm hr]
    · rw [hstep.unseen d hsee] at hst
      rw [(h.activate hstep hcausal hst).2]
      simp [hsee]

/-- The floor is least, and the states track what was recorded. -/
theorem inductive_tracks (core : MrvExecutor) :
    Inductive core (fun bs cs s => FloorLeast s ∧
      (Causal (certificates bs ++ cs) → Tracks (certificates bs ++ cs) s)) where
  new := by
    refine ⟨(inductive_floor core).new, fun _ => ⟨?_, ?_, ?_⟩⟩
    · simp [State.new]
    · exact fun d st hst => absurd hst (by simp [State.new])
    · exact fun d st hst => absurd hst (by simp [State.new])
  register := by
    intro bs cs c s s' hs h
    have hfloor := (inductive_floor core).register bs cs c s s' hs.1 h
    refine ⟨hfloor, fun hcausal => ?_⟩
    rw [← List.append_assoc] at hcausal ⊢
    exact (hs.2 hcausal.of_append).register h hfloor hcausal
  record := by
    intro bs b σ s hs
    refine ⟨(inductive_floor core).record bs b σ s hs.1, fun hcausal => ?_⟩
    obtain ⟨hstore, _, _, _⟩ := recorded_frame core σ s b
    have hcs : certificates (bs ++ [b]) ++ [] = certificates bs ++ b.certificates := by simp
    rw [hcs] at hcausal ⊢
    have htracks := hs.2 hcausal
    -- the cap changes neither the round nor the counts
    have hlookup : ∀ d st, (core.applyWindowCap σ (s.enqueue b)).aufStates.lookup d = some st →
        ∃ st₀, s.aufStates.lookup d = some st₀ ∧ core.capState s.frontierRound st₀ = st := by
      intro d st hst
      rw [recorded_lookup] at hst
      exact Option.map_eq_some_iff.mp hst
    refine ⟨?_, fun d st hst => ?_, fun d st hst r a => ?_⟩
    · rw [hstore]
      exact htracks.stored
    · obtain ⟨st₀, hst₀, rfl⟩ := hlookup d st hst
      rw [hstore, round_capState]
      exact htracks.rounds d st₀ hst₀
    · obtain ⟨st₀, hst₀, rfl⟩ := hlookup d st hst
      rw [hstore, seenByRound_capState]
      exact htracks.counted d st₀ hst₀ r a
  drop := by
    intro _ s k es hentries hs
    exact ⟨hs.1, fun hcausal => ⟨(hs.2 hcausal).stored, (hs.2 hcausal).rounds, (hs.2 hcausal).counted⟩⟩
  final := by
    intro bs σ s k ms sorted s' h hs
    refine ⟨(inductive_floor core).final bs σ s k ms sorted s' h hs.1, fun hcausal => ?_⟩
    have htracks := hs.2 hcausal
    obtain ⟨hstore, _, _, _⟩ := h.frame
    refine ⟨?_, fun d st hst => ?_, fun d st hst => ?_⟩
    · rw [hstore]
      exact htracks.stored
    · rw [hstore]
      exact htracks.rounds d st (h.lookup_of_some hst)
    · rw [hstore]
      exact htracks.counted d st (h.lookup_of_some hst)

/-- At every stage the active states track the certificates recorded so far. -/
theorem Passes.tracks {ops : Operations} {g : Stage} (h : core.Passes ops g)
    (hcausal : Causal g.certificates) : Tracks g.certificates g.state :=
  ((inductive_tracks core).passes h).2 hcausal

/-- **The counters are exact**: at every stage, between two batches or inside one, an active
state has seen in a round exactly the origins of the certificates of that round, among those
recorded, from which it can be reached through stored certificates. -/
theorem counters_exact {ops : Operations} {g : Stage} (hops : core.Passes ops g)
    (hcausal : Causal g.certificates) {t : Digest} {st : AufState}
    (hst : g.state.aufStates.lookup t = some st) (r : ℕ) :
    ((st.seenByRound.get r).getD ∅ : Finset PublicKey) =
      {a | ∃ x ∈ g.certificates, x.round = r ∧ x.origin = a ∧
        Reaches g.state.store x.digest t} := by
  have htracks := hops.tracks hcausal
  ext a
  exact htracks.counted t st hst r a

/-- Three batches, the first of which is output; a certificate of the fourth is recorded. -/
def samplePruned : List Operation :=
  let first := [Certificate.sample 1 0 [], Certificate.sample 1 1 []]
  let second := [Certificate.sample 2 0 [0, 1], Certificate.sample 2 1 [1]]
  let third := [Certificate.sample 3 0 [0, 1]]
  first.map .register ++ .record (sampleDelivery 0 first).batch HashOrder.listed ::
    second.map .register ++ .record (sampleDelivery 1 second).batch HashOrder.listed ::
      third.map .register ++ [.record (sampleDelivery 2 third).batch HashOrder.listed,
        .final HashOrder.listed, .register (Certificate.sample 3 1 [0])]

omit [Crypto] in
set_option maxRecDepth 10000 in
/-- A stage at which the floor has passed the first batch. -/
theorem exists_prunedStage :
    letI := sampleCrypto
    ∃ ops g, (spawn 4 2 none).Passes ops g ∧ Causal g.certificates ∧
      g.current = [Certificate.sample 3 1 [0]] ∧ g.state.activeFloorRound = some 2 ∧
      ∃ st, g.state.aufStates.lookup (sampleDigest 2 0) = some st ∧
        (st.seenByRound.get 3).getD ∅ = {sampleKey 0, sampleKey 1} :=
  let _ := sampleCrypto
  let ⟨ops, g, hops, hcheck⟩ := System.exec_check (spawn 4 2 none).stages samplePruned
    (fun _ g => decide (Causal g.certificates ∧ g.current = [Certificate.sample 3 1 [0]] ∧
      g.state.activeFloorRound = some 2 ∧
      (g.state.aufStates.lookup (sampleDigest 2 0)).any (fun st =>
        decide ((st.seenByRound.get 3).getD ∅ = {sampleKey 0, sampleKey 1})) = true))
    (by decide +kernel)
  let ⟨hcausal, hcurrent, hfloor, hany⟩ := of_decide_eq_true hcheck
  let ⟨st, hst, hseen⟩ := (Option.any_eq_true _ _).mp hany
  ⟨ops, g, hops, hcausal, hcurrent, hfloor, st, hst, of_decide_eq_true hseen⟩

omit [Crypto] in
/-- The two certificates above a certificate of the floor round are what it has seen, one of
them of the batch that is being recorded. -/
theorem counters_exact_sample :
    letI := sampleCrypto
    ∃ ops g, (spawn 4 2 none).Passes ops g ∧ g.current = [Certificate.sample 3 1 [0]] ∧
      g.state.activeFloorRound = some 2 ∧
      {a | ∃ x ∈ g.certificates, x.round = 3 ∧ x.origin = a ∧
        Reaches g.state.store x.digest (sampleDigest 2 0)} = {sampleKey 0, sampleKey 1} := by
  let _ := sampleCrypto
  obtain ⟨ops, g, hops, hcausal, hcurrent, hfloor, st, hst, hseen⟩ := exists_prunedStage
  refine ⟨ops, g, hops, hcurrent, hfloor, ?_⟩
  rw [← counters_exact hops hcausal hst 3, hseen]
  simp

end MrvExecutor

end Mrv
