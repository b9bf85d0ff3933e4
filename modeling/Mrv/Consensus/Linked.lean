/-
  Mrv.Consensus.Linked — `linked` and the support count, in terms of the DAG.

  Above the last committed round nothing delivered is missing from memory, and
  what is delivered is closed under parents.  There `linked` decides whether one
  certificate is an ancestor of another (`linked_iff_ancestor`), and a leader
  that passes the stake test is supported in the DAG (`supported_of_support`).
-/
import Mrv.Consensus.Invariant
import Mrv.Consensus.QuorumDag

namespace Mrv

variable [Crypto]

namespace State

variable {s : State} {known : Certificate → Prop}

/-! ## §1. The layers of `linked`. -/

/-- Links to parents in memory. -/
def Held (s : State) (x y : Certificate) : Prop := x.Parent y ∧ s.Has y

theorem round_le_of_held {x y : Certificate} (h : Relation.ReflTransGen s.Held x y) :
    x = y ∨ y.round < x.round := by
  induction h with
  | refl => exact Or.inl rfl
  | tail _ hstep ih =>
      right
      have hround := hstep.1.2
      obtain rfl | hlt := ih
      · omega
      · omega

/-- One layer: what is in memory and named by the layer above. -/
theorem mem_layer (hs : s.Sound known) {r : ℕ} {authorities : HashMap PublicKey (Digest × Certificate)}
    (hlookup : s.dag.lookup r = some authorities) {parents : List Certificate}
    (hround : ∀ x ∈ parents, x.round = r + 1) {z : Certificate} :
    z ∈ (authorities.values.filter
        (fun e => parents.any (fun x => decide (e.1 ∈ x.header.parents)))).map Prod.snd ↔
      z.round = r ∧ ∃ x ∈ parents, s.Held x z := by
  simp only [List.mem_map, List.mem_filter, List.any_eq_true, decide_eq_true_eq]
  constructor
  · intro h
    obtain ⟨e, ⟨he, x, hx, hnames⟩, rfl⟩ := h
    obtain ⟨a, ha⟩ := AList.mem_values.mp he
    have hslot : s.dag.find r a = some (e.1, e.2) :=
      Dag.find_eq_some_iff.mpr ⟨authorities, hlookup, ha⟩
    obtain ⟨hr, _, hd, _⟩ := hs _ _ _ _ hslot
    refine ⟨hr, x, hx, ⟨?_, ?_⟩, hs.has hslot⟩
    · show e.2.digest ∈ x.header.parents
      rw [← hd]
      exact hnames
    · rw [hr, hround x hx]
  · intro h
    obtain ⟨hr, x, hx, ⟨hnames, _⟩, hhas⟩ := h
    obtain ⟨authorities', hlookup', ha⟩ := Dag.find_eq_some_iff.mp hhas
    rw [hr, hlookup] at hlookup'
    obtain rfl := Option.some.inj hlookup'
    exact ⟨(z.digest, z), ⟨AList.mem_values_of_lookup ha, x, hx, hnames⟩, rfl⟩

/-- **All layers**: the last one holds what is reached through memory. -/
theorem mem_linkedLayer (hs : s.Sound known) {j : ℕ} :
    ∀ (k : ℕ) {parents out : List Certificate}, (∀ x ∈ parents, x.round = j + k) →
      Consensus.linkedLayer s.dag (List.range' j k).reverse parents = .ok out →
      ∀ y, y ∈ out ↔ y.round = j ∧ ∃ x ∈ parents, Relation.ReflTransGen s.Held x y := by
  intro k
  induction k with
  | zero =>
      intro parents out hround h y
      obtain rfl := Except.ok.inj h
      constructor
      · intro hy
        exact ⟨hround y hy, y, hy, Relation.ReflTransGen.refl⟩
      · intro hy
        obtain ⟨hyj, x, hx, hpath⟩ := hy
        obtain rfl | hlt := round_le_of_held hpath
        · exact hx
        · have := hround x hx
          omega
  | succ k ih =>
      intro parents out hround h y
      rw [List.range'_1_concat, List.reverse_append, List.reverse_singleton,
        List.singleton_append] at h
      unfold Consensus.linkedLayer at h
      cases hlookup : s.dag.lookup (j + k) with
      | none => rw [hlookup] at h; cases h
      | some authorities =>
          rw [hlookup] at h
          have hlayer := fun z => mem_layer (z := z) hs hlookup hround
          rw [ih (fun z hz => ((hlayer z).mp hz).1) h y]
          constructor
          · intro hy
            obtain ⟨hyj, z, hz, hpath⟩ := hy
            obtain ⟨_, x, hx, hheld⟩ := (hlayer z).mp hz
            exact ⟨hyj, x, hx, hpath.head hheld⟩
          · intro hy
            obtain ⟨hyj, x, hx, hpath⟩ := hy
            obtain rfl | ⟨z, hheld, hpath⟩ := Relation.ReflTransGen.cases_head hpath
            · have := hround x hx
              omega
            · have hzround := hheld.1.2
              have hxround := hround x hx
              exact ⟨hyj, z, (hlayer z).mpr ⟨by omega, x, hx, hheld⟩, hpath⟩

/-- **`linked`** is reachability through memory. -/
theorem linked_iff_held (hs : s.Sound known) {x y : Certificate} (hy : s.Has y)
    (hlt : y.round < x.round) {b : Bool} (h : Consensus.linked x y s.dag = .ok b) :
    b = true ↔ Relation.ReflTransGen s.Held x y := by
  obtain ⟨out, hout, rfl⟩ := map_eq_ok.mp h
  have hmem := mem_linkedLayer hs (x.round - y.round)
    (fun z hz => by rw [List.mem_singleton.mp hz]; omega) hout
  rw [List.any_eq_true]
  constructor
  · intro hany
    obtain ⟨z, hz, heq⟩ := hany
    obtain ⟨hzround, w, hw, hpath⟩ := (hmem z).mp hz
    obtain rfl := List.mem_singleton.mp hw
    -- equal author and round: the two are in one slot
    have hzhas : s.Has z := by
      obtain rfl | ⟨v, _, hheld⟩ := Relation.ReflTransGen.cases_tail hpath
      · omega
      · exact hheld.2
    have horigin := (Certificate.eq_iff.mp heq).2.2
    unfold Has at hzhas hy
    rw [hzround, horigin, hy] at hzhas
    have hzy : y = z := congrArg Prod.snd (Option.some.inj hzhas)
    rw [hzy]
    exact hpath
  · intro hpath
    exact ⟨y, (hmem y).mpr ⟨rfl, x, List.mem_singleton_self x, hpath⟩, Certificate.eq_self y⟩

/-- Each author has one certificate in a round of memory. -/
theorem origins_nodup (hs : s.Sound known) {r : ℕ}
    {authorities : HashMap PublicKey (Digest × Certificate)}
    (hlookup : s.dag.lookup r = some authorities) :
    (authorities.values.map (fun e => e.2.origin)).Nodup := by
  have hkeys : authorities.values.map (fun e => e.2.origin) = authorities.keys := by
    unfold AList.values AList.keys List.keys
    rw [List.map_map]
    apply List.map_congr_left
    intro e he
    have hslot : s.dag.find r e.1 = some (e.2.1, e.2.2) :=
      Dag.find_eq_some_iff.mpr ⟨authorities, hlookup, AList.lookup_eq_some_iff.mpr he⟩
    exact (hs _ _ _ _ hslot).2.1
  rw [hkeys]
  exact authorities.keys_nodup

/-! ## §2. The stake test. -/

/-- The stake counted for a leader is that of distinct authorities whose certificates
name it. -/
theorem exists_supporters (hs : s.Sound known) {task : Consensus} {r : ℕ} {d : Digest}
    {stake : Stake} (h : task.support s.dag r d = .ok stake) :
    ∃ S : Finset PublicKey, stake.toNat ≤ ∑ a ∈ S, task.committee.weight a ∧
      ∀ a ∈ S, ∃ y, y.round = r ∧ y.origin = a ∧ s.Has y ∧ d ∈ y.header.parents := by
  unfold Consensus.support at h
  cases hlookup : s.dag.lookup r with
  | none => rw [hlookup] at h; cases h
  | some authorities =>
      rw [hlookup] at h
      obtain rfl := Except.ok.inj h
      set voters := authorities.values.filter (fun e => decide (d ∈ e.2.header.parents))
        with hvoters
      have hnodup : (voters.map (fun e => e.2.origin)).Nodup :=
        (origins_nodup hs hlookup).sublist (List.filter_sublist.map _)
      refine ⟨(voters.map (fun e => e.2.origin)).toFinset, ?_, ?_⟩
      · rw [Committee.toNat_sum, List.sum_toFinset _ hnodup, List.map_map, List.map_map]
        exact Nat.mod_le _ _
      · intro a ha
        obtain ⟨e, he, rfl⟩ := List.mem_map.mp (List.mem_toFinset.mp ha)
        rw [hvoters, List.mem_filter] at he
        obtain ⟨b, hb⟩ := AList.mem_values.mp he.1
        have hslot : s.dag.find r b = some (e.1, e.2) :=
          Dag.find_eq_some_iff.mpr ⟨authorities, hlookup, hb⟩
        obtain ⟨hr, _, _, _⟩ := hs _ _ _ _ hslot
        exact ⟨e.2, hr, rfl, hs.has hslot, of_decide_eq_true he.2⟩

end State

/-! ## §3. Tasks that receive a part of one DAG. -/

namespace Consensus

/-- The certificates a task received come from the DAG, each after its parents. -/
structure FedFrom (task : Consensus) (D : Set Certificate) (es : History) : Prop where
  mem : ∀ x ∈ delivered es, x ∈ D
  causal : CausalDelivery task.committee (delivered es)

theorem FedFrom.tail {task : Consensus} {D : Set Certificate} {es : History} {m : Node} {a : Action}
    (h : FedFrom task D ((m, a) :: es)) : FedFrom task D es := by
  cases a with
  | receive c => exact ⟨fun x hx => h.mem x (List.mem_cons_of_mem _ hx), h.causal.1⟩
  | commit => exact ⟨h.mem, h.causal⟩

theorem FedFrom.earlier {task : Consensus} {D : Set Certificate} {later earlier : History}
    (h : FedFrom task D (later ++ earlier)) : FedFrom task D earlier := by
  induction later with
  | nil => exact h
  | cons e later ih => exact ih h.tail

theorem CausalDelivery.parents {committee : Committee} {cs : List Certificate}
    (h : CausalDelivery committee cs) {x : Certificate} (hx : x ∈ cs) :
    ∀ p ∈ x.header.parents,
      (∃ g ∈ Certificate.genesis committee, g.digest = p) ∨ ∃ y ∈ cs, y.digest = p := by
  induction cs with
  | nil => exact absurd hx List.not_mem_nil
  | cons c cs ih =>
      intro p hp
      obtain rfl | hx := List.mem_cons.mp hx
      · obtain hg | ⟨y, hy, hd⟩ := h.2 p hp
        · exact Or.inl hg
        · exact Or.inr ⟨y, List.mem_cons_of_mem _ hy, hd⟩
      · obtain hg | ⟨y, hy, hd⟩ := ih h.1 hx p hp
        · exact Or.inl hg
        · exact Or.inr ⟨y, List.mem_cons_of_mem _ hy, hd⟩

section

variable {task : Consensus} {D : Set Certificate} {es : History} {n : Node}
  (hpos : ∀ x ∈ D, 0 < x.round)
  (hinj : Set.InjOn Certificate.digest (WithGenesis task.committee D))
  (hfed : FedFrom task D es)

include hfed

theorem FedFrom.withGenesis {x : Certificate} (hx : task.Known es x) :
    x ∈ WithGenesis task.committee D := by
  obtain hx | hx := hx
  · exact Or.inl (hfed.mem x hx)
  · exact Or.inr hx

include hpos hinj

/-- What is delivered is closed under links to parents in the DAG. -/
theorem FedFrom.closed {x y : Certificate} (hx : x ∈ delivered es) (hy : y ∈ D)
    (hnames : x.Names y) : y ∈ delivered es := by
  obtain ⟨g, hg, hgd⟩ | ⟨z, hz, hzd⟩ := hfed.causal.parents hx _ hnames
  · have hgy : g = y := hinj (Or.inr hg) (Or.inl hy) hgd
    have h0 := Certificate.round_of_mem_genesis hg
    have h1 := hpos y hy
    rw [hgy] at h0
    omega
  · have hzy : z = y := hinj (Or.inl (hfed.mem z hz)) (Or.inl hy) hzd
    rw [← hzy]
    exact hz

theorem FedFrom.delivered_of_ancestor {x y : Certificate} (hx : x ∈ delivered es)
    (h : Ancestor D x y) : y ∈ delivered es := by
  induction h with
  | refl => exact hx
  | tail _ hstep ih => exact hfed.closed hpos hinj ih hstep.1 hstep.2.1

/-- **Above the last committed round, memory and DAG have the same paths.** -/
theorem held_iff_ancestor (hinv : Inv task es n) (hpresent : Present task es n)
    {x y : Certificate} (hx : x ∈ delivered es) (hlt : n.state.lastCommittedRound < y.round) :
    Relation.ReflTransGen n.state.Held x y ↔ Ancestor D x y := by
  constructor
  · intro h
    induction h using Relation.ReflTransGen.head_induction_on with
    | refl => exact Relation.ReflTransGen.refl
    | @head x z hstep hrest ih =>
        have hzround : y.round ≤ z.round := by
          obtain rfl | hlt' := State.round_le_of_held hrest
          · exact Nat.le_refl _
          · omega
        have hz : z ∈ delivered es :=
          delivered_of_known (hinv.known_of_has hstep.2) (by omega)
        exact (ih hz).head ⟨hfed.mem z hz, hstep.1⟩
  · intro h
    induction h using Relation.ReflTransGen.head_induction_on with
    | refl => exact Relation.ReflTransGen.refl
    | @head x z hstep hrest ih =>
        have hzround : y.round ≤ z.round := by
          obtain rfl | hlt' := Ancestor.round_le hrest
          · exact Nat.le_refl _
          · omega
        have hz : z ∈ delivered es := hfed.closed hpos hinj hx hstep.1 hstep.2.1
        exact (ih hz).head ⟨hstep.2, hpresent.above hinv hz (by omega)⟩

end

/-! ## §4. Runs over the DAG of the examples. -/

/-- A batch as its leader and its certificates, by digests. -/
def digestsOf (b : CommittedSubDag) : Digest × List Digest :=
  (b.leaderDigest, b.certificates.map Certificate.digest)

/-- A run that received these certificates and emitted these batches. -/
structure SampleRun (received : List Certificate) (batches : List (Digest × List Digest))
    (es : History) (n : Node) : Prop where
  run : sampleTask.Run es n
  delivered : delivered es = received.reverse
  batches : n.output.map digestsOf = batches

theorem sampleRun_of_exec (actions : List Action) {received : List Certificate}
    {batches : List (Digest × List Digest)}
    (h : (sampleTask.system.exec actions [] sampleTask.system.init).any (fun r : History × Node =>
      decide (Consensus.delivered r.1 = received.reverse ∧
        r.2.output.map digestsOf = batches)) = true) :
    ∃ es n, SampleRun received batches es n := by
  obtain ⟨es, n, hrun, hcheck⟩ := System.exec_check _ actions (fun es n =>
      decide (Consensus.delivered es = received.reverse ∧ n.output.map digestsOf = batches)) h
  obtain ⟨hdelivered, hbatches⟩ := of_decide_eq_true hcheck
  exact ⟨es, n, hrun, hdelivered, hbatches⟩

theorem SampleRun.fed {received : List Certificate} {batches : List (Digest × List Digest)}
    {es : History} {n : Node} (h : SampleRun received batches es n) (hmem : ∀ x ∈ received, x ∈ sampleDag)
    (hcausal : CausalDelivery sampleTask.committee received.reverse) :
    FedFrom sampleTask {x | x ∈ sampleDag} es := by
  refine ⟨?_, ?_⟩
  · intro x hx
    rw [h.delivered, List.mem_reverse] at hx
    exact hmem x hx
  · rw [h.delivered]
    exact hcausal

/-- A batch listed for a run is in its output. -/
theorem SampleRun.exists_batch {received : List Certificate}
    {batches : List (Digest × List Digest)} {es : History} {n : Node}
    (h : SampleRun received batches es n) {b : Digest × List Digest} (hb : b ∈ batches) :
    ∃ b' ∈ n.output, b'.leaderDigest = b.1 ∧ b'.certificates.map Certificate.digest = b.2 := by
  rw [← h.batches] at hb
  obtain ⟨b', hb', rfl⟩ := List.mem_map.mp hb
  exact ⟨b', hb', rfl, rfl⟩

theorem SampleRun.digest_of_emitted {received : List Certificate}
    {batches : List (Digest × List Digest)} {es : History} {n : Node}
    (h : SampleRun received batches es n) {x : Certificate} (hx : x ∈ emitted n) :
    ∃ b ∈ batches, x.digest ∈ b.2 := by
  obtain ⟨b, hb, hxb⟩ := List.mem_flatMap.mp hx
  refine ⟨digestsOf b, ?_, List.mem_map_of_mem hxb⟩
  rw [← h.batches]
  exact List.mem_map_of_mem hb

/-- The late certificate arrives before the leader of round 2 is committed. -/
def earlyOrder : List Certificate := sampleLate :: sampleBase ++ sampleRest

/-- The late certificate arrives after the leader of round 2 is committed. -/
def lateOrder : List Certificate := sampleBase ++ sampleLate :: sampleRest

/-- The batch of round 2 in both orders. -/
def firstBatch : Digest × List Digest :=
  (sampleDigest 2 2, [sampleDigest 1 3, sampleDigest 1 1, sampleDigest 1 0, sampleDigest 2 2])

/-- The batch of round 4 without the late certificate. -/
def secondBatch : List Digest :=
  [sampleDigest 2 3, sampleDigest 2 0, sampleDigest 2 1, sampleDigest 3 2, sampleDigest 3 1,
    sampleDigest 3 0, sampleDigest 4 0]

omit [Crypto] in
set_option maxRecDepth 10000 in
/-- Early, it is cleaned up by that commit and left out of the batch of round 4. -/
theorem exists_earlyRun :
    letI := sampleCrypto
    ∃ es n, SampleRun earlyOrder [firstBatch, (sampleDigest 4 0, secondBatch)] es n :=
  let _ := sampleCrypto
  sampleRun_of_exec ((sampleLate :: sampleBase).map .receive ++ .commit ::
    sampleRest.map .receive ++ [.commit]) (by decide +kernel)

omit [Crypto] in
set_option maxRecDepth 10000 in
/-- Late, it is committed with the leader of round 4. -/
theorem exists_lateRun :
    letI := sampleCrypto
    ∃ es n, SampleRun lateOrder
      [firstBatch, (sampleDigest 4 0, sampleDigest 1 2 :: secondBatch)] es n :=
  let _ := sampleCrypto
  sampleRun_of_exec (sampleBase.map .receive ++ .commit ::
    (sampleLate :: sampleRest).map .receive ++ [.commit]) (by decide +kernel)

omit [Crypto] in
set_option maxRecDepth 10000 in
theorem causal_sampleOrders :
    letI := sampleCrypto
    ((∀ x ∈ earlyOrder, x ∈ sampleDag) ∧
        CausalDelivery sampleTask.committee earlyOrder.reverse ∧ earlyOrder.Nodup) ∧
      (∀ x ∈ lateOrder, x ∈ sampleDag) ∧
        CausalDelivery sampleTask.committee lateOrder.reverse ∧ lateOrder.Nodup := by
  let _ := sampleCrypto
  decide +kernel

end Consensus

end Mrv
