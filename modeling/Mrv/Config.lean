/-
  Mrv.Config — the committee (`config/src/lib.rs`).

  Stakes are `u32`; the two thresholds are computed in `u32` as the code writes
  them, so they wrap when twice the total stake does not fit
  (`quorumThreshold_eq`, `validityThreshold_eq`).  Where it fits,
  `quorumThreshold_toNat` and `validityThreshold_toNat` give their values over
  the naturals.

  The import of committee files, the workers' addresses and the listing helpers
  that no modelled function calls are left out.
-/
import Mrv.Crypto
import Mrv.Lib.SortedMap
import Mrv.Lib.Quorum
import Mathlib

namespace Mrv

abbrev Stake := UInt32
abbrev WorkerId := UInt32
abbrev SocketAddr := String

inductive ConfigError where
  /-- Node is not in the committee. -/
  | notInCommittee (name : PublicKey)
  deriving DecidableEq

/-- The addresses of a primary: for other primaries, for our workers. -/
structure PrimaryAddresses where
  primaryToPrimary : SocketAddr
  workerToPrimary : SocketAddr
  deriving DecidableEq

structure Authority where
  /-- The voting power of this authority. -/
  stake : Stake
  /-- The network addresses of the primary. -/
  primary : PrimaryAddresses
  /-- The ids of the workers, the keys of the map of their addresses. -/
  workers : List WorkerId

structure Committee where
  authorities : BTreeMap PublicKey Authority

namespace Committee

/-! ## §1. The functions of the source. -/

/-- The number of authorities. -/
def size (c : Committee) : ℕ := c.authorities.entries.length

/-- The stake of a specific authority. -/
def stake (c : Committee) (name : PublicKey) : Stake :=
  ((c.authorities.get name).map Authority.stake).getD 0

/-- `self.authorities.values().map(|x| x.stake).sum()`. -/
def totalVotes (c : Committee) : Stake := (c.authorities.values.map Authority.stake).sum

/-- The stake required to reach a quorum (2f+1). -/
def quorumThreshold (c : Committee) : Stake := 2 * c.totalVotes / 3 + 1

/-- The stake required to reach availability (f+1). -/
def validityThreshold (c : Committee) : Stake := (c.totalVotes + 2) / 3

/-- The primary addresses of the target primary. -/
def primary (c : Committee) (target : PublicKey) : Except ConfigError PrimaryAddresses :=
  match c.authorities.get target with
  | some x => .ok x.primary
  | none => .error (.notInCommittee target)

/-- The addresses of all primaries except `myself`. -/
def othersPrimaries (c : Committee) (myself : PublicKey) : List (PublicKey × PrimaryAddresses) :=
  (c.authorities.entries.filter (fun e => decide (e.1 ≠ myself))).map (fun e => (e.1, e.2.primary))

/-- Looks a worker of an authority up; both failures report the authority. -/
def worker (c : Committee) (target : PublicKey) (id : WorkerId) : Except ConfigError WorkerId :=
  match c.authorities.get target with
  | none => .error (.notInCommittee target)
  | some authority =>
      if id ∈ authority.workers then .ok id else .error (.notInCommittee target)

/-! ## §2. Stakes over the naturals. -/

/-- The authorities of the committee. -/
def members (c : Committee) : Finset PublicKey := c.authorities.keys.toFinset

/-- A stake as a natural number. -/
def weight (c : Committee) (name : PublicKey) : ℕ := (c.stake name).toNat

/-- The total stake, without wrapping. -/
def totalStake (c : Committee) : ℕ := ∑ a ∈ c.members, c.weight a

theorem weight_eq_zero {c : Committee} {a : PublicKey} (h : a ∉ c.members) : c.weight a = 0 := by
  have hnone : c.authorities.get a = none :=
    BTreeMap.get_eq_none_iff.mpr (fun hk => h (List.mem_toFinset.mpr hk))
  simp [weight, stake, hnone]

theorem member_of_weight {c : Committee} {a : PublicKey} (h : 0 < c.weight a) : a ∈ c.members := by
  by_contra hnot
  rw [weight_eq_zero hnot] at h
  exact Nat.lt_irrefl 0 h

theorem mem_members_iff {c : Committee} {name : PublicKey} :
    name ∈ c.members ↔ ∃ x, c.primary name = .ok x := by
  have hget : name ∈ c.members ↔ c.authorities.get name ≠ none := by
    unfold members
    rw [List.mem_toFinset, Ne, BTreeMap.get_eq_none_iff, not_not]
  rw [hget]
  unfold primary
  cases c.authorities.get name with
  | none => simp
  | some authority => simp

/-- A sum of `u32`s is the sum of their values, wrapped. -/
theorem toNat_sum (l : List Stake) :
    l.sum.toNat = (l.map UInt32.toNat).sum % 2 ^ 32 := by
  induction l with
  | nil => rfl
  | cons x l ih => rw [List.sum_cons, List.map_cons, List.sum_cons, UInt32.toNat_add, ih]; omega

theorem totalStake_eq_sum (c : Committee) :
    c.totalStake = ((c.authorities.values.map Authority.stake).map UInt32.toNat).sum := by
  unfold totalStake members
  rw [List.sum_toFinset _ c.authorities.keys_nodup]
  unfold BTreeMap.keys BTreeMap.values
  rw [List.map_map, List.map_map, List.map_map]
  refine congrArg List.sum (List.map_congr_left ?_)
  intro e he
  have hget : c.authorities.get e.1 = some e.2 := BTreeMap.get_eq_some_iff.mpr he
  simp [weight, stake, hget]

section

variable {c : Committee} (hsum : c.totalStake < 2 ^ 32)

include hsum

theorem totalVotes_toNat : c.totalVotes.toNat = c.totalStake := by
  unfold totalVotes
  rw [toNat_sum, ← totalStake_eq_sum]
  exact Nat.mod_eq_of_lt hsum

/-- The quorum threshold, wrapped. -/
theorem quorumThreshold_eq : c.quorumThreshold.toNat = 2 * c.totalStake % 2 ^ 32 / 3 + 1 := by
  unfold quorumThreshold
  have h3 : (3 : UInt32).toNat = 3 := rfl
  have h2 : (2 : UInt32).toNat = 2 := rfl
  have h1 : (1 : UInt32).toNat = 1 := rfl
  rw [UInt32.toNat_add, UInt32.toNat_div, UInt32.toNat_mul, totalVotes_toNat hsum, h3, h2, h1]
  omega

/-- The validity threshold, wrapped. -/
theorem validityThreshold_eq : c.validityThreshold.toNat = (c.totalStake + 2) % 2 ^ 32 / 3 := by
  unfold validityThreshold
  have h3 : (3 : UInt32).toNat = 3 := rfl
  have h2 : (2 : UInt32).toNat = 2 := rfl
  rw [UInt32.toNat_div, UInt32.toNat_add, totalVotes_toNat hsum, h3, h2]

end

/-- A quorum is never empty. -/
theorem quorumThreshold_pos (c : Committee) : 0 < c.quorumThreshold.toNat := by
  unfold quorumThreshold
  have h1 : (1 : UInt32).toNat = 1 := rfl
  have h3 : (3 : UInt32).toNat = 3 := rfl
  rw [UInt32.toNat_add, UInt32.toNat_div, h1, h3]
  have hlt := (2 * c.totalVotes).toNat_lt
  omega

theorem sum_weight_le_totalStake {c : Committee} (S : Finset PublicKey) :
    ∑ a ∈ S, c.weight a ≤ c.totalStake :=
  Quorum.sum_le_total fun _ => weight_eq_zero

section

variable {c : Committee} (hfit : 2 * c.totalStake < 2 ^ 32)

include hfit

/-- `2f + 1` for a committee whose doubled stake fits in a `u32`. -/
theorem quorumThreshold_toNat : c.quorumThreshold.toNat = 2 * c.totalStake / 3 + 1 := by
  rw [quorumThreshold_eq (by omega), Nat.mod_eq_of_lt hfit]

theorem totalStake_lt_two_quorums : c.totalStake < 2 * c.quorumThreshold.toNat := by
  rw [quorumThreshold_toNat hfit]
  omega

/-- Adding a stake to a count of other stakes does not overflow. -/
theorem toNat_add_stake {weight : Stake} {S : Finset PublicKey} {a : PublicKey} (ha : a ∉ S)
    (hle : weight.toNat ≤ ∑ b ∈ S, c.weight b) :
    (weight + c.stake a).toNat = weight.toNat + c.weight a := by
  have htotal := sum_weight_le_totalStake (c := c) (insert a S)
  rw [Finset.sum_insert ha] at htotal
  rw [UInt32.toNat_add]
  show (weight.toNat + c.weight a) % 2 ^ 32 = _
  apply Nat.mod_eq_of_lt
  omega

/-- `f + 1` for a committee whose doubled stake fits in a `u32`. -/
theorem validityThreshold_toNat : c.validityThreshold.toNat = (c.totalStake + 2) / 3 := by
  rw [validityThreshold_eq (by omega), Nat.mod_eq_of_lt (by omega)]

/-- **A quorum meets every validity set.** -/
theorem exists_common_of_thresholds {S T : Finset PublicKey}
    (hS : c.validityThreshold.toNat ≤ ∑ a ∈ S, c.weight a)
    (hT : c.quorumThreshold.toNat ≤ ∑ a ∈ T, c.weight a) : ∃ a, a ∈ S ∧ a ∈ T := by
  rw [validityThreshold_toNat hfit] at hS
  rw [quorumThreshold_toNat hfit] at hT
  have hlt : ∑ a ∈ c.members, c.weight a < ∑ a ∈ S, c.weight a + ∑ a ∈ T, c.weight a := by
    change c.totalStake < _
    omega
  obtain ⟨a, ha, hb, _⟩ := Quorum.exists_mem_inter (fun a => weight_eq_zero) hlt
  exact ⟨a, ha, hb⟩

end

/-- Four authorities of equal stake. -/
def sampleFour : Committee :=
  let authority : Authority := { stake := 1, primary := ⟨"", ""⟩, workers := [0] }
  ⟨⟨[(sampleKey 0, authority), (sampleKey 1, authority), (sampleKey 2, authority),
    (sampleKey 3, authority)], by decide⟩⟩

end Committee

end Mrv
