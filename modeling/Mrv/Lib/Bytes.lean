/-
  Mrv.Lib.Bytes — a library on integers as bytes, least significant byte first.

    * `toLeBytes_ofLeBytes`, `ofLeBytes_toLeBytes` — either way and back.
-/
import Mathlib.Tactic

namespace Mrv

/-- `to_le_bytes` of a `k`-byte integer. -/
def toLeBytes (k n : ℕ) : List UInt8 := (List.range k).map (fun i => UInt8.ofNat (n / 256 ^ i))

theorem length_toLeBytes (k n : ℕ) : (toLeBytes k n).length = k := by
  simp [toLeBytes]

theorem toLeBytes_succ (k n : ℕ) :
    toLeBytes (k + 1) n = UInt8.ofNat n :: toLeBytes k (n / 256) := by
  unfold toLeBytes
  rw [List.range_succ_eq_map, List.map_cons, List.map_map, pow_zero, Nat.div_one]
  refine congrArg _ (List.map_congr_left fun i _ => ?_)
  show UInt8.ofNat (n / 256 ^ (i + 1)) = UInt8.ofNat (n / 256 / 256 ^ i)
  rw [Nat.div_div_eq_div_mul, pow_succ']

/-- The bytes of an integer that fits tell the integer. -/
theorem toLeBytes_inj {k n m : ℕ} (hn : n < 256 ^ k) (hm : m < 256 ^ k)
    (h : toLeBytes k n = toLeBytes k m) : n = m := by
  induction k generalizing n m with
  | zero =>
      rw [pow_zero] at hn hm
      omega
  | succ k ih =>
      rw [toLeBytes_succ, toLeBytes_succ] at h
      obtain ⟨hbyte, hrest⟩ := List.cons.inj h
      have hlow : n % 256 = m % 256 := by
        have hnat := congrArg UInt8.toNat hbyte
        simpa using hnat
      rw [pow_succ] at hn hm
      have hhigh := ih (by omega) (by omega) hrest
      omega

/-- The number that bytes spell, first byte least significant. -/
def ofLeBytes : List UInt8 → ℕ
  | [] => 0
  | b :: bytes => b.toNat + 256 * ofLeBytes bytes

theorem toLeBytes_ofLeBytes (bytes : List UInt8) :
    toLeBytes bytes.length (ofLeBytes bytes) = bytes := by
  induction bytes with
  | nil => rfl
  | cons b bytes ih =>
      have hb := b.toNat_lt
      have hhigh : (b.toNat + 256 * ofLeBytes bytes) / 256 = ofLeBytes bytes := by omega
      rw [List.length_cons, toLeBytes_succ]
      show UInt8.ofNat (b.toNat + 256 * ofLeBytes bytes) ::
        toLeBytes bytes.length ((b.toNat + 256 * ofLeBytes bytes) / 256) = b :: bytes
      rw [hhigh, ih]
      refine congrArg (· :: bytes) (UInt8.toNat_inj.mp ?_)
      rw [UInt8.toNat_ofNat']
      omega

theorem ofLeBytes_lt (bytes : List UInt8) : ofLeBytes bytes < 256 ^ bytes.length := by
  induction bytes with
  | nil => decide
  | cons b bytes ih =>
      have hb := b.toNat_lt
      rw [List.length_cons, pow_succ]
      show b.toNat + 256 * ofLeBytes bytes < _
      omega

/-- An integer that fits is spelled by its bytes. -/
theorem ofLeBytes_toLeBytes {k n : ℕ} (h : n < 256 ^ k) : ofLeBytes (toLeBytes k n) = n := by
  have hlt := ofLeBytes_lt (toLeBytes k n)
  have hbytes := toLeBytes_ofLeBytes (toLeBytes k n)
  rw [length_toLeBytes] at hlt hbytes
  exact toLeBytes_inj hlt h hbytes

end Mrv
