/-
  Mrv.Consensus.QuorumDag — the DAG the primaries build, as a set of certificates.

  This layer knows nothing of a task's memory.  A `QuorumDag` has one certificate
  per author and round, and every certificate has parents from a quorum of
  authorities in the round below (genesis certificates for round 1).

  `ancestor_of_supported` is the counting argument of the commit rule: a
  certificate that f+1 authorities of the next round support is an ancestor of
  every certificate two or more rounds above it.  Every quorum of parents meets
  the supporters.
-/
import Mrv.Consensus.Flatten

namespace Mrv

variable [Crypto]

/-- What is in the DAG or a genesis certificate. -/
def WithGenesis (committee : Committee) (D : Set Certificate) : Set Certificate :=
  D ∪ {g | g ∈ Certificate.genesis committee}

/-- A DAG of certificates: one per author and round, each with a quorum of parents
in the round below. -/
structure QuorumDag (committee : Committee) (D : Set Certificate) : Prop where
  round_pos : ∀ x ∈ D, 0 < x.round
  unique : ∀ x ∈ D, ∀ y ∈ D, x.round = y.round → x.origin = y.origin → x = y
  quorum : ∀ x ∈ D, ∃ S : Finset PublicKey,
    committee.quorumThreshold.toNat ≤ ∑ a ∈ S, committee.weight a ∧
      ∀ a ∈ S, ∃ y ∈ WithGenesis committee D, y.origin = a ∧ x.Parent y

/-- Reaching a certificate of the DAG through links to parents. -/
def Ancestor (D : Set Certificate) : Certificate → Certificate → Prop :=
  Relation.ReflTransGen (fun x y => y ∈ D ∧ x.Parent y)

theorem Ancestor.round_le {D : Set Certificate} {x y : Certificate} (h : Ancestor D x y) :
    x = y ∨ y.round < x.round := by
  induction h with
  | refl => exact Or.inl rfl
  | tail _ hstep ih =>
      right
      have hround := hstep.2.2
      obtain rfl | hlt := ih
      · omega
      · omega

theorem Ancestor.mono {D D' : Set Certificate} (hsub : D ⊆ D') {x y : Certificate}
    (h : Ancestor D x y) : Ancestor D' x y := by
  induction h with
  | refl => exact Relation.ReflTransGen.refl
  | tail _ hstep ih => exact ih.tail ⟨hsub hstep.1, hstep.2⟩

/-- Authorities with f+1 stake have certificates in the next round that name `x`. -/
structure Supported (committee : Committee) (D : Set Certificate) (x : Certificate) : Prop where
  mem : x ∈ D
  support : ∃ S : Finset PublicKey,
    committee.validityThreshold.toNat ≤ ∑ a ∈ S, committee.weight a ∧
      ∀ a ∈ S, ∃ y ∈ D, y.origin = a ∧ y.Parent x

section

variable {committee : Committee} {D : Set Certificate}
  (hfit : 2 * committee.totalStake < 2 ^ 32) (hD : QuorumDag committee D)

include hfit hD

/-- A certificate two or more rounds above a supported one has a parent by one of
its supporters. -/
theorem QuorumDag.exists_parent_of_supporter {x y : Certificate}
    (hx : Supported committee D x) (hy : y ∈ D) (hround : x.round + 2 ≤ y.round) :
    ∃ z ∈ D, y.Parent z ∧ ∃ w ∈ D, w.origin = z.origin ∧ w.Parent x := by
  obtain ⟨S, hS, hSx⟩ := hx.support
  obtain ⟨T, hT, hTy⟩ := hD.quorum y hy
  obtain ⟨a, haS, haT⟩ := Committee.exists_common_of_thresholds hfit hS hT
  obtain ⟨w, hw, hwa, hwx⟩ := hSx a haS
  obtain ⟨z, hz, hza, hyz⟩ := hTy a haT
  refine ⟨z, ?_, hyz, w, hw, hwa.trans hza.symm, hwx⟩
  obtain hz | hz := hz
  · exact hz
  · have h0 := Certificate.round_of_mem_genesis hz
    have hlt := hyz.2
    omega

/-- **A supported certificate is an ancestor of everything two rounds above it.** -/
theorem QuorumDag.ancestor_of_supported {x : Certificate} (hx : Supported committee D x) :
    ∀ (k : ℕ) (y : Certificate), y ∈ D → y.round = x.round + 2 + k → Ancestor D y x := by
  intro k
  induction k with
  | zero =>
      intro y hy hround
      obtain ⟨z, hz, hyz, w, hw, hwz, hwx⟩ :=
        hD.exists_parent_of_supporter hfit hx hy (by omega)
      have hzround := hyz.2
      have hwround := hwx.2
      -- parent and supporter are by one author, so they are one certificate
      have heq : z = w := hD.unique z hz w hw (by omega) hwz.symm
      rw [← heq] at hwx
      exact (Relation.ReflTransGen.single ⟨hz, hyz⟩).tail ⟨hx.mem, hwx⟩
  | succ k ih =>
      intro y hy hround
      obtain ⟨z, hz, hyz, _⟩ := hD.exists_parent_of_supporter hfit hx hy (by omega)
      have hzround := hyz.2
      exact Relation.ReflTransGen.head ⟨hz, hyz⟩ (ih z hz (by omega))

end

/-! ## DAGs given by a list. -/

/-- The authors of the parents of a certificate within a list. -/
def parentAuthors (committee : Committee) (l : List Certificate) (x : Certificate) :
    Finset PublicKey :=
  (((l ++ Certificate.genesis committee).filter (fun y => decide (x.Parent y))).map
    Certificate.origin).toFinset

theorem quorumDag_of_list {committee : Committee} {l : List Certificate}
    (hpos : ∀ x ∈ l, 0 < x.round)
    (hunique : ∀ x ∈ l, ∀ y ∈ l, x.round = y.round → x.origin = y.origin → x = y)
    (hquorum : ∀ x ∈ l,
      committee.quorumThreshold.toNat ≤ ∑ a ∈ parentAuthors committee l x, committee.weight a) :
    QuorumDag committee {x | x ∈ l} where
  round_pos := hpos
  unique := hunique
  quorum := by
    intro x hx
    refine ⟨parentAuthors committee l x, hquorum x hx, ?_⟩
    intro a ha
    obtain ⟨y, hy, rfl⟩ := List.mem_map.mp (List.mem_toFinset.mp ha)
    rw [List.mem_filter, decide_eq_true_eq] at hy
    exact ⟨y, List.mem_append.mp hy.1, rfl, hy.2⟩

/-- Distinct digests along a list make the digest injective on it. -/
theorem injOn_digest_of_list {committee : Committee} {l : List Certificate}
    (h : ((l ++ Certificate.genesis committee).map Certificate.digest).Nodup) :
    Set.InjOn Certificate.digest (WithGenesis committee {x | x ∈ l}) := by
  intro x hx y hy heq
  exact List.inj_on_of_nodup_map h (List.mem_append.mpr hx) (List.mem_append.mpr hy) heq

/-- The part of a DAG of four authorities that commits the leader of round 2: the
certificate of author 2 in round 1 is not in its history. -/
def sampleBase : List Certificate :=
  [.sample 1 0 [0, 1, 2], .sample 1 1 [0, 1, 2], .sample 1 3 [0, 1, 3],
    .sample 2 2 [0, 1, 3], .sample 2 0 [0, 1, 3], .sample 2 3 [0, 1, 3],
    .sample 3 0 [0, 2, 3], .sample 3 2 [0, 2, 3], .sample 3 3 [0, 2, 3],
    .sample 4 1 [0, 2, 3], .sample 4 2 [0, 2, 3], .sample 4 3 [0, 2, 3],
    .sample 5 1 [1, 2, 3]]

/-- That certificate of author 2. -/
def sampleLate : Certificate := .sample 1 2 [0, 1, 2]

/-- The rest of the DAG: the leader of round 4 reaches the late certificate through
author 1, and round 7 commits it. -/
def sampleRest : List Certificate :=
  [.sample 2 1 [1, 2, 3], .sample 3 1 [0, 1, 2], .sample 4 0 [0, 1, 2],
    .sample 5 0 [0, 1, 2], .sample 5 2 [0, 1, 2],
    .sample 6 0 [0, 1, 2], .sample 6 1 [0, 1, 2], .sample 6 2 [0, 1, 2], .sample 7 0 [0, 1, 2]]

def sampleDag : List Certificate := sampleBase ++ sampleLate :: sampleRest

/-- The consensus task of the examples. -/
def sampleTask : Consensus := { committee := Committee.sampleFour, gcDepth := 50 }

omit [Crypto] in
set_option maxRecDepth 10000 in
theorem quorumDag_sampleDag :
    letI := sampleCrypto
    QuorumDag sampleTask.committee {x | x ∈ sampleDag} ∧
      Set.InjOn Certificate.digest (WithGenesis sampleTask.committee {x | x ∈ sampleDag}) := by
  let _ := sampleCrypto
  exact ⟨quorumDag_of_list (by decide +kernel) (by decide +kernel) (by decide +kernel),
    injOn_digest_of_list (by decide +kernel)⟩

omit [Crypto] in
set_option maxRecDepth 10000 in
/-- Its parents are all from the round below. -/
theorem round_of_names_sampleDag :
    letI := sampleCrypto
    ∀ x ∈ sampleDag, ∀ y ∈ sampleDag, x.Names y → y.round + 1 = x.round := by
  decide +kernel

end Mrv
