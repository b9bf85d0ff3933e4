/-
  Mrv.Crypto — digests, public keys, signatures (`crypto/src/lib.rs`).

  Digests and public keys are arrays of 32 bytes compared lexicographically.
  They are kept as the 256-bit number the bytes spell, first byte most
  significant: comparing the numbers is comparing the arrays.

  SHA-512 and ed25519 come from a third-party crate.  They are the fields of
  `Crypto`, a parameter of everything above this file; what a result needs of
  them (no collisions among the certificates of a DAG, an exact batch check) is
  a hypothesis of that result.
-/
import Mrv.Lib.Bytes
import Mathlib.Order.Defs.LinearOrder
import Mathlib.Data.BitVec
import Mathlib.Tactic

namespace Mrv

/-- The linear order that an injection into the naturals induces. -/
abbrev linearOrderOfNat {α : Type*} [DecidableEq α] (f : α → ℕ) (hf : Function.Injective f) :
    LinearOrder α where
  le a b := f a ≤ f b
  lt a b := f a < f b
  le_refl a := Nat.le_refl (f a)
  le_trans _ _ _ := Nat.le_trans
  le_antisymm _ _ hab hba := hf (Nat.le_antisymm hab hba)
  lt_iff_le_not_ge _ _ := Nat.lt_iff_le_and_not_ge
  le_total a b := Nat.le_total (f a) (f b)
  toDecidableLE a b := inferInstanceAs (Decidable (f a ≤ f b))
  toDecidableLT a b := inferInstanceAs (Decidable (f a < f b))
  toDecidableEq := inferInstance

/-- `[u8; 32]` as bytes, from the number the array spells. -/
def bytesOf (v : BitVec 256) : List UInt8 :=
  (List.range 32).map (fun i => UInt8.ofBitVec (v.extractLsb' (8 * (31 - i)) 8))

theorem length_bytesOf (v : BitVec 256) : (bytesOf v).length = 32 := by
  simp [bytesOf]

theorem bytesOf_injective : Function.Injective bytesOf := by
  intro v w h
  have hbyte : ∀ i, i < 32 → v.extractLsb' (8 * (31 - i)) 8 = w.extractLsb' (8 * (31 - i)) 8 := by
    intro i hi
    have hget := congrArg (fun l : List UInt8 => l[i]?) h
    simp only [bytesOf, List.getElem?_map, List.getElem?_range hi, Option.map_some,
      Option.some.injEq] at hget
    exact congrArg UInt8.toBitVec hget
  refine BitVec.eq_of_getLsbD_eq ?_
  intro j hj
  have hj' := congrArg (fun b : BitVec 8 => b.getLsbD (j % 8)) (hbyte (31 - j / 8) (by omega))
  have hidx : 8 * (31 - (31 - j / 8)) + j % 8 = j := by omega
  have hlt : j % 8 < 8 := Nat.mod_lt _ (by omega)
  simpa [BitVec.getLsbD_extractLsb', hidx, hlt] using hj'

/-! ## §1. Digests and keys. -/

/-- A hash digest (32 bytes). -/
structure Digest where
  bytes : BitVec 256
  deriving DecidableEq

namespace Digest

theorem toNat_injective : Function.Injective (fun d : Digest => d.bytes.toNat) := by
  intro a b h
  cases a; cases b
  simpa using BitVec.eq_of_toNat_eq h

instance : LinearOrder Digest := linearOrderOfNat (fun d => d.bytes.toNat) toNat_injective

/-- `Digest::default()`: all bytes zero. -/
def default : Digest := ⟨0⟩

instance : Inhabited Digest := ⟨default⟩

/-- The bytes of the digest. -/
def toVec (d : Digest) : List UInt8 := bytesOf d.bytes

theorem length_toVec (d : Digest) : d.toVec.length = 32 := length_bytesOf _

theorem toVec_injective : Function.Injective toVec := by
  intro a b h
  cases a; cases b
  simpa using bytesOf_injective h

end Digest

/-- A public key (32 bytes). -/
structure PublicKey where
  bytes : BitVec 256
  deriving DecidableEq

namespace PublicKey

theorem toNat_injective : Function.Injective (fun k : PublicKey => k.bytes.toNat) := by
  intro a b h
  cases a; cases b
  simpa using BitVec.eq_of_toNat_eq h

instance : LinearOrder PublicKey := linearOrderOfNat (fun k => k.bytes.toNat) toNat_injective

/-- `PublicKey::default()`: all bytes zero. -/
def default : PublicKey := ⟨0⟩

instance : Inhabited PublicKey := ⟨default⟩

/-- The bytes of the key. -/
def toVec (k : PublicKey) : List UInt8 := bytesOf k.bytes

theorem length_toVec (k : PublicKey) : k.toVec.length = 32 := length_bytesOf _

theorem toVec_injective : Function.Injective toVec := by
  intro a b h
  cases a; cases b
  simpa using bytesOf_injective h

end PublicKey

/-- An ed25519 signature (two halves of 32 bytes). -/
structure Signature where
  part1 : BitVec 256
  part2 : BitVec 256
  deriving DecidableEq

namespace Signature

/-- `Signature::default()`: all bytes zero. -/
def default : Signature := ⟨0, 0⟩

instance : Inhabited Signature := ⟨default⟩

end Signature

/-! ## §2. The cryptographic library. -/

/-- What the code takes from its cryptographic libraries. -/
class Crypto where
  /-- The first 32 bytes of the SHA-512 hash of a byte string. -/
  sha512 : List UInt8 → Digest
  /-- Whether a signature over a digest is valid for a key. -/
  verify : Signature → Digest → PublicKey → Bool
  /-- Whether the batch check over one digest accepts. -/
  verifyBatch : Digest → List (PublicKey × Signature) → Bool
  /-- The signature the owner of a key makes over a digest. -/
  sign : PublicKey → Digest → Signature

/-- A hash for examples: it reads the low byte of the round and the last byte of the
author from the bytes of a certificate, which is enough to tell apart certificates of
small rounds by authors with small keys. -/
@[reducible] def sampleCrypto : Crypto where
  sha512 bs := ⟨BitVec.ofNat 256 (256 * (bs.getD 32 0).toNat + (bs.getD 71 0).toNat)⟩
  verify _ _ _ := true
  verifyBatch _ _ := true
  sign _ _ := Signature.default

/-- The key that spells a number. -/
def sampleKey (a : ℕ) : PublicKey := ⟨BitVec.ofNat 256 a⟩

/-- The digest `sampleCrypto` gives to a certificate of a round and an author. -/
def sampleDigest (round a : ℕ) : Digest := ⟨BitVec.ofNat 256 (256 * round + a)⟩

end Mrv
