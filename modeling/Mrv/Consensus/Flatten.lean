/-
  Mrv.Consensus.Flatten — what `order_dag` returns.

  The search of `order_dag` follows the links to parents that are in memory and
  whose round is not the one last committed for their author (`Follows`).  This
  file says what it returns in these terms:

    * `mem_orderDag`       — exactly the certificates reached from the leader that
                             the collector has not passed,
    * `nodup_orderDag`     — each once,
    * `sorted_orderDag`    — by round,
    * `orderDag_total`     — and it does return: the fuel is enough.

  The DAG must be sound: a slot holds a certificate of that round and author,
  together with its digest.
-/
import Mrv.Consensus.Run
import Mathlib.Logic.Relation

namespace Mrv

variable [Crypto]

/-! ## §1. Links. -/

namespace Certificate

/-- `x` names `y` as a parent. -/
def Names (x y : Certificate) : Prop := y.digest ∈ x.header.parents

/-- `x` names `y` as a parent, and `y` is from the round below. -/
def Parent (x y : Certificate) : Prop := x.Names y ∧ y.round + 1 = x.round

instance (x y : Certificate) : Decidable (x.Names y) :=
  inferInstanceAs (Decidable (y.digest ∈ x.header.parents))

instance (x y : Certificate) : Decidable (x.Parent y) :=
  inferInstanceAs (Decidable (x.Names y ∧ y.round + 1 = x.round))

end Certificate

namespace State

/-- The certificate is in its slot of the DAG. -/
def Has (s : State) (x : Certificate) : Prop :=
  s.dag.find x.round x.origin = some (x.digest, x)

/-- Its round is the last one committed for its author. -/
def LastCommitted (s : State) (x : Certificate) : Prop :=
  s.lastCommitted.lookup x.origin = some x.round

/-- The links the search follows. -/
def Follows (s : State) (x y : Certificate) : Prop :=
  x.Parent y ∧ s.Has y ∧ ¬ s.LastCommitted y

/-- What the search reaches from a certificate. -/
def Reached (s : State) : Certificate → Certificate → Prop := Relation.ReflTransGen s.Follows

/-- The collector has not passed the certificate. -/
def InRange (s : State) (gcDepth : ℕ) (x : Certificate) : Prop :=
  s.lastCommittedRound ≤ x.round + gcDepth

instance (s : State) (gcDepth : ℕ) (x : Certificate) : Decidable (s.InRange gcDepth x) :=
  inferInstanceAs (Decidable (s.lastCommittedRound ≤ x.round + gcDepth))

/-- Every slot holds a known certificate of that round and author, stored with its
digest. -/
def Sound (s : State) (known : Certificate → Prop) : Prop :=
  ∀ r a d x, s.dag.find r a = some (d, x) →
    x.round = r ∧ x.origin = a ∧ d = x.digest ∧ known x

theorem Sound.has {s : State} {known : Certificate → Prop} (hs : s.Sound known) {r : ℕ}
    {a : PublicKey} {d : Digest} {x : Certificate} (h : s.dag.find r a = some (d, x)) :
    s.Has x := by
  obtain ⟨hr, ha, hd, _⟩ := hs r a d x h
  unfold Has
  rw [hr, ha, ← hd]
  exact h

theorem Sound.known_of_has {s : State} {known : Certificate → Prop} (hs : s.Sound known)
    {x : Certificate} (h : s.Has x) : known x :=
  (hs x.round x.origin x.digest x h).2.2.2

/-- Known certificates with distinct digests have distinct digests in memory. -/
theorem Sound.injOn {s : State} {known : Certificate → Prop} (hs : s.Sound known)
    (hinj : Set.InjOn Certificate.digest {x | known x}) :
    Set.InjOn Certificate.digest {x | s.Has x} :=
  hinj.mono (fun _ hx => hs.known_of_has hx)

theorem Reached.round_le {s : State} {x y : Certificate} (h : s.Reached x y) :
    x = y ∨ y.round < x.round := by
  induction h with
  | refl => exact Or.inl rfl
  | tail _ hstep ih =>
      right
      have hround := hstep.1.2
      obtain rfl | hlt := ih
      · omega
      · omega

/-- The search stays in memory. -/
theorem Reached.has {s : State} {x y : Certificate} (h : s.Reached x y) (hx : s.Has x) :
    s.Has y := by
  obtain rfl | ⟨_, _, hfollows⟩ := Relation.ReflTransGen.cases_tail h
  · exact hx
  · exact hfollows.2.1

/-! ## §2. One expansion. -/

/-- A parent that is found is the one named, in its slot of the round below. -/
theorem nextParent_eq_some {s : State} {known : Certificate → Prop} (hs : s.Sound known)
    {x : Certificate} {p : Digest} {e : Digest × Certificate} (h : s.nextParent x p = some e) :
    e.1 = p ∧ e.1 = e.2.digest ∧ e.2.round = x.round - 1 ∧ s.Has e.2 ∧
      ¬ s.LastCommitted e.2 := by
  unfold nextParent at h
  split at h
  · exact absurd h.symm (Option.some_ne_none e)
  · next e' hfind =>
    split at h
    · exact absurd h.symm (Option.some_ne_none e)
    · next hcommitted =>
      obtain rfl := Option.some.inj h
      obtain ⟨authorities, hround, hfind⟩ := Option.bind_eq_some_iff.mp hfind
      obtain ⟨a, ha⟩ := AList.mem_values.mp (List.mem_of_find?_eq_some hfind)
      have hslot : s.dag.find (x.round - 1) a = some (e'.1, e'.2) :=
        Dag.find_eq_some_iff.mpr ⟨authorities, hround, ha⟩
      obtain ⟨hr, _, hd, _⟩ := hs _ _ _ _ hslot
      have hp : e'.1 = p := by simpa using List.find?_some hfind
      exact ⟨hp, hd, hr, hs.has hslot, hcommitted⟩

/-- A named parent that is in memory and not committed is found. -/
theorem nextParent_of_follows {s : State} {known : Certificate → Prop} (hs : s.Sound known)
    (hinj : Set.InjOn Certificate.digest {x | s.Has x}) {x y : Certificate} (h : s.Follows x y) :
    s.nextParent x y.digest = some (y.digest, y) := by
  obtain ⟨⟨_, hround⟩, hhas, hcommitted⟩ := h
  obtain ⟨authorities, hlookup, hy⟩ := Dag.find_eq_some_iff.mp hhas
  have hlookup' : s.dag.lookup (x.round - 1) = some authorities := by
    rw [← hlookup, ← hround, Nat.add_sub_cancel]
  have hfind : authorities.values.find? (fun e => decide (e.1 = y.digest)) =
      some (y.digest, y) := by
    cases hf : authorities.values.find? (fun e => decide (e.1 = y.digest)) with
    | none =>
        have hnot := List.find?_eq_none.mp hf _ (AList.mem_values_of_lookup hy)
        simp at hnot
    | some e =>
        -- another certificate with this digest would be a collision
        obtain ⟨a, ha⟩ := AList.mem_values.mp (List.mem_of_find?_eq_some hf)
        have hslot : s.dag.find (x.round - 1) a = some (e.1, e.2) :=
          Dag.find_eq_some_iff.mpr ⟨authorities, hlookup', ha⟩
        obtain ⟨_, _, hd, _⟩ := hs _ _ _ _ hslot
        have hp : e.1 = y.digest := by simpa using List.find?_some hf
        have hey : e.2 = y := hinj (hs.has hslot) hhas (hd.symm.trans hp)
        exact congrArg some (Prod.ext hp hey)
  unfold nextParent
  rw [hlookup', Option.bind_some, hfind]
  exact if_neg hcommitted

theorem mem_nextParents {s : State} {known : Certificate → Prop} (hs : s.Sound known)
    {x e : Digest × Certificate} {ys : List (Digest × Certificate)}
    (h : s.nextParents x = .ok ys) (he : e ∈ ys) : e.1 = e.2.digest ∧ s.Follows x.2 e.2 := by
  unfold nextParents at h
  split at h
  · obtain rfl := Except.ok.inj h
    exact absurd he List.not_mem_nil
  · split at h
    · cases h
    · next hround =>
      obtain rfl := Except.ok.inj h
      obtain ⟨p, hp, he⟩ := List.mem_filterMap.mp he
      obtain ⟨h1, h2, hr, hhas, hcommitted⟩ := nextParent_eq_some hs he
      refine ⟨h2, ⟨?_, by omega⟩, hhas, hcommitted⟩
      show e.2.digest ∈ x.2.header.parents.toList
      rw [← h2, h1]
      exact hp

theorem mem_nextParents_of_follows {s : State} {known : Certificate → Prop} (hs : s.Sound known)
    (hinj : Set.InjOn Certificate.digest {x | s.Has x}) {x : Digest × Certificate}
    {y : Certificate} {ys : List (Digest × Certificate)} (h : s.nextParents x = .ok ys)
    (hfollows : s.Follows x.2 y) : (y.digest, y) ∈ ys := by
  have hparent : y.digest ∈ x.2.header.parents.toList := hfollows.1.1
  have hround := hfollows.1.2
  unfold nextParents at h
  split at h
  · next hnil => rw [hnil] at hparent; exact absurd hparent List.not_mem_nil
  · split at h
    · next h0 => omega
    · obtain rfl := Except.ok.inj h
      exact List.mem_filterMap.mpr ⟨y.digest, hparent, nextParent_of_follows hs hinj hfollows⟩

/-! ## §3. The whole search. -/

section Search

variable {s : State} {known : Certificate → Prop} (hs : s.Sound known) {leader : Certificate}
  {out : List (Digest × Certificate)}
  (hout : Search.Explores Prod.fst s.nextParents [(leader.digest, leader)] ∅ out)

include hs hout

/-- Everything emitted is reached, and comes with its digest. -/
theorem reached_of_mem_search : ∀ e ∈ out, e.1 = e.2.digest ∧ s.Reached leader e.2 := by
  refine hout.forall_mem (I := fun e => e.1 = e.2.digest ∧ s.Reached leader e.2) ?_ ?_
  · intro e he
    obtain rfl := List.mem_singleton.mp he
    exact ⟨rfl, Relation.ReflTransGen.refl⟩
  · intro x ys hx hys e he
    obtain ⟨hd, hfollows⟩ := mem_nextParents hs hys he
    exact ⟨hd, hx.2.tail hfollows⟩

/-- Everything reached is emitted. -/
theorem mem_search_of_reached (hinj : Set.InjOn Certificate.digest {x | s.Has x})
    {y : Certificate} (hy : s.Reached leader y) : (y.digest, y) ∈ out := by
  induction hy with
  | refl => exact hout.mem_of_mem_stack List.mem_cons_self
  | @tail x y _ hfollows ih =>
      obtain ⟨ys, hys⟩ := hout.succ_ok _ ih
      have hmem := mem_nextParents_of_follows hs hinj hys hfollows
      obtain hm | ⟨w, _, ws, hws, z, hz, hzout, hzy⟩ := hout.key_mem ih hys hmem
      · exact absurd hm (Finset.notMem_empty _)
      · -- the parent pushed under this digest is the certificate itself
        obtain ⟨hzd, hzfollows⟩ := mem_nextParents hs hws hz
        have hzy2 : z.2 = y := hinj hzfollows.2.1 hfollows.2.1 (hzd.symm.trans hzy)
        have hz' : z = (y.digest, y) := Prod.ext hzy hzy2
        rw [← hz']
        exact hzout

/-- The leader comes first; the others are from lower rounds and no digest is
emitted twice among them. -/
theorem search_eq_cons :
    ∃ rest, out = (leader.digest, leader) :: rest ∧ (rest.map Prod.fst).Nodup ∧
      ∀ e ∈ rest, e.2.round < leader.round := by
  have hreached := reached_of_mem_search hs hout
  cases hout with
  | @pop _ _ _ ys rest hsucc hrest =>
      obtain ⟨hnd, hmarked⟩ := Search.pushFresh_nodup Prod.fst ys [] ∅
        List.nodup_nil (by simp)
      have hrest_nd := (hrest.keys_nodup hnd hmarked).1
      refine ⟨rest, rfl, hrest_nd, ?_⟩
      have hbelow : ∀ e ∈ (Search.pushFresh Prod.fst ys [] ∅).1, e.2.round < leader.round := by
        intro e he
        obtain he | he := Search.mem_pushFresh he
        · have hround : e.2.round + 1 = leader.round := (mem_nextParents hs hsucc he).2.1.2
          omega
        · exact absurd he List.not_mem_nil
      refine hrest.forall_mem (I := fun e => e.2.round < leader.round) hbelow ?_
      intro x zs hx hzs e he
      have hround := (mem_nextParents hs hzs he).2.1.2
      show e.2.round < leader.round
      omega

theorem search_nodup : (out.map Prod.snd).Nodup := by
  have hreached := reached_of_mem_search hs hout
  obtain ⟨rest, rfl, hnd, hbelow⟩ := search_eq_cons hs hout
  rw [List.map_cons, List.nodup_cons]
  constructor
  · intro hmem
    obtain ⟨e, he, heq⟩ := List.mem_map.mp hmem
    have hlt := hbelow e he
    rw [heq] at hlt
    exact absurd hlt (Nat.lt_irrefl _)
  · -- distinct digests belong to distinct certificates
    have hdigest : (rest.map Prod.snd).map Certificate.digest = rest.map Prod.fst := by
      rw [List.map_map]
      apply List.map_congr_left
      intro e he
      exact (hreached e (List.mem_cons_of_mem _ he)).1.symm
    rw [← hdigest] at hnd
    exact List.Nodup.of_map _ hnd

end Search

end State

/-! ## §4. `order_dag`. -/

namespace Consensus

variable {self : Consensus} {s : State} {leader : Certificate} {batch : List Certificate}

/-- A batch is what the search emits, restricted to the collector's reach and
sorted by round. -/
theorem orderDag_eq_ok (h : self.orderDag leader s = .ok batch) :
    ∃ out, Search.Explores Prod.fst s.nextParents [(leader.digest, leader)] ∅ out ∧
      batch = ((out.map Prod.snd).filter
        (fun x => decide (s.InRange self.gcDepth x))).insertionSort
          (fun x y => x.round ≤ y.round) := by
  unfold orderDag at h
  cases hsearch : Search.search Panic.outOfFuel Prod.fst s.nextParents (s.dag.size + 2)
      [(leader.digest, leader)] ∅ with
  | error e =>
      rw [hsearch] at h
      cases h
  | ok out =>
      rw [hsearch] at h
      exact ⟨out, Search.search_eq_ok hsearch, (Except.ok.inj h).symm⟩

variable {known : Certificate → Prop}

theorem mem_of_orderDag (hs : s.Sound known) (h : self.orderDag leader s = .ok batch)
    {x : Certificate} (hx : x ∈ batch) : s.Reached leader x ∧ s.InRange self.gcDepth x := by
  obtain ⟨out, hout, rfl⟩ := orderDag_eq_ok h
  rw [List.mem_insertionSort, List.mem_filter] at hx
  obtain ⟨e, he, rfl⟩ := List.mem_map.mp hx.1
  exact ⟨(State.reached_of_mem_search hs hout e he).2, of_decide_eq_true hx.2⟩

/-- **The content of a batch**: what is reached from the leader and in range. -/
theorem mem_orderDag (hs : s.Sound known) (hinj : Set.InjOn Certificate.digest {x | s.Has x})
    (h : self.orderDag leader s = .ok batch) {x : Certificate} :
    x ∈ batch ↔ s.Reached leader x ∧ s.InRange self.gcDepth x := by
  refine ⟨mem_of_orderDag hs h, ?_⟩
  intro hx
  obtain ⟨out, hout, rfl⟩ := orderDag_eq_ok h
  rw [List.mem_insertionSort, List.mem_filter]
  have hmem := State.mem_search_of_reached hs hout hinj hx.1
  exact ⟨List.mem_map.mpr ⟨_, hmem, rfl⟩, decide_eq_true hx.2⟩

/-- The leader is in its batch unless the collector has passed it. -/
theorem leader_mem_orderDag (hin : s.InRange self.gcDepth leader)
    (h : self.orderDag leader s = .ok batch) : leader ∈ batch := by
  obtain ⟨out, hout, rfl⟩ := orderDag_eq_ok h
  rw [List.mem_insertionSort, List.mem_filter]
  have hmem := hout.mem_of_mem_stack List.mem_cons_self
  exact ⟨List.mem_map.mpr ⟨_, hmem, rfl⟩, decide_eq_true hin⟩

theorem nodup_orderDag (hs : s.Sound known) (h : self.orderDag leader s = .ok batch) :
    batch.Nodup := by
  obtain ⟨out, hout, rfl⟩ := orderDag_eq_ok h
  rw [(List.perm_insertionSort _ _).nodup_iff]
  exact (State.search_nodup hs hout).filter _

theorem sorted_orderDag (h : self.orderDag leader s = .ok batch) :
    batch.Pairwise (fun x y => x.round ≤ y.round) := by
  obtain ⟨out, _, rfl⟩ := orderDag_eq_ok h
  exact List.pairwise_insertionSort _ _

/-! ## §5. The search always ends. -/

/-- The digests in memory. -/
def digests (dag : Dag) : Finset Digest :=
  (dag.values.flatMap (fun authorities => authorities.values.map Prod.fst)).toFinset

omit [Crypto] in
theorem card_digests_le (dag : Dag) : (digests dag).card ≤ dag.size := by
  unfold digests Dag.size
  refine (List.toFinset_card_le _).trans (le_of_eq ?_)
  rw [List.length_flatMap]
  simp

theorem digest_mem_digests {x : Certificate} (h : s.Has x) : x.digest ∈ digests s.dag := by
  obtain ⟨authorities, hround, ha⟩ := Dag.find_eq_some_iff.mp h
  unfold digests
  rw [List.mem_toFinset, List.mem_flatMap]
  refine ⟨authorities, AList.mem_values_of_lookup hround, ?_⟩
  exact List.mem_map.mpr ⟨_, AList.mem_values_of_lookup ha, rfl⟩

/-- **`order_dag` returns**: certificates of round 0 name no parents, so the round
below a named parent exists, and a digest is pushed at most once. -/
theorem orderDag_total (hs : s.Sound known)
    (hround : ∀ x, known x → x.round = 0 → x.header.parents.toList = [])
    (hleader : known leader) : ∃ batch, self.orderDag leader s = .ok batch := by
  -- below the genesis round nothing is looked up, so no lookup fails
  have hsucc : ∀ e : Digest × Certificate, known e.2 → ∃ ys, s.nextParents e = .ok ys ∧
      ∀ y ∈ ys, known y.2 ∧ y.1 ∈ digests s.dag := by
    intro e he
    have hok : ∃ ys, s.nextParents e = .ok ys := by
      unfold State.nextParents
      by_cases hnil : e.2.header.parents.toList = []
      · exact ⟨[], if_pos hnil⟩
      · have h0 : e.2.round ≠ 0 := fun h0 => hnil (hround e.2 he h0)
        rw [if_neg hnil, if_neg h0]
        exact ⟨_, rfl⟩
    obtain ⟨ys, hys⟩ := hok
    refine ⟨ys, hys, ?_⟩
    intro y hy
    obtain ⟨hd, hfollows⟩ := State.mem_nextParents hs hys hy
    rw [hd]
    exact ⟨hs.known_of_has hfollows.2.1, digest_mem_digests hfollows.2.1⟩
  have hstack : ∀ e ∈ [(leader.digest, leader)], known e.2 := by
    intro e he
    rw [List.mem_singleton.mp he]
    exact hleader
  -- every turn pops an entry, and a digest is pushed at most once
  have hfuel : [(leader.digest, leader)].length + (digests s.dag \ ∅).card < s.dag.size + 2 := by
    have hcard := card_digests_le s.dag
    rw [Finset.sdiff_empty, List.length_singleton]
    omega
  obtain ⟨out, hout⟩ := Search.search_total Panic.outOfFuel hsucc
    (s.dag.size + 2) [(leader.digest, leader)] ∅ hstack hfuel
  unfold orderDag
  rw [hout]
  exact ⟨_, rfl⟩

end Consensus

end Mrv
