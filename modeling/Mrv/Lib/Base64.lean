/-
  Mrv.Lib.Base64 — standard base64 with padding, in its canonical form.

  Three bytes are spelled by four symbols of six bits each; a last group of one or two
  bytes is padded, and the bits of its last symbol that spell nothing are zero.  The
  decoder accepts exactly what the encoder writes:

    * `decodeChars_encodeChars`    — what was encoded is decoded,
    * `encodeChars_of_decodeChars` — what is decoded was encoded.
-/
import Mathlib.Data.String.Basic
import Mathlib.Tactic

namespace Mrv.Base64

/-! ## §1. Symbols. -/

/-- The symbols, by their value. -/
def alphabet : List Char :=
  ['A', 'B', 'C', 'D', 'E', 'F', 'G', 'H', 'I', 'J', 'K', 'L', 'M', 'N', 'O', 'P',
   'Q', 'R', 'S', 'T', 'U', 'V', 'W', 'X', 'Y', 'Z', 'a', 'b', 'c', 'd', 'e', 'f',
   'g', 'h', 'i', 'j', 'k', 'l', 'm', 'n', 'o', 'p', 'q', 'r', 's', 't', 'u', 'v',
   'w', 'x', 'y', 'z', '0', '1', '2', '3', '4', '5', '6', '7', '8', '9', '+', '/']

/-- The padding. -/
def pad : Char := '='

/-- The symbol of a value below 64. -/
def symbol (i : ℕ) : Char := alphabet.getD i pad

/-- The value of a symbol. -/
def value (c : Char) : Option ℕ := alphabet.idxOf? c

theorem value_symbol {i : ℕ} (h : i < 64) : value (symbol i) = some i := by
  have hall : ∀ i < 64, value (symbol i) = some i := by decide +kernel
  exact hall i h

theorem symbol_of_value {c : Char} {i : ℕ} (h : value c = some i) : i < 64 ∧ symbol i = c := by
  obtain ⟨hi, hget, _⟩ := List.idxOf?_eq_some_iff.mp h
  have hlength : alphabet.length = 64 := rfl
  refine ⟨by omega, ?_⟩
  show (alphabet[i]?).getD pad = c
  rw [List.getElem?_eq_getElem hi, Option.getD_some]
  exact hget

theorem symbol_ne_pad {i : ℕ} (h : i < 64) : symbol i ≠ pad := by
  have hall : ∀ i < 64, symbol i ≠ pad := by decide +kernel
  exact hall i h

/-! ## §2. Encoding and decoding. -/

/-- The symbols of a byte string. -/
def encodeChars : List UInt8 → List Char
  | [] => []
  | [a] => [symbol (a.toNat / 4), symbol (a.toNat % 4 * 16), pad, pad]
  | [a, b] =>
      [symbol (a.toNat / 4), symbol (a.toNat % 4 * 16 + b.toNat / 16),
        symbol (b.toNat % 16 * 4), pad]
  | a :: b :: c :: bytes =>
      symbol (a.toNat / 4) :: symbol (a.toNat % 4 * 16 + b.toNat / 16) ::
        symbol (b.toNat % 16 * 4 + c.toNat / 64) :: symbol (c.toNat % 64) :: encodeChars bytes

/-- The bytes of a group, from the values of its symbols. -/
def first (i j : ℕ) : UInt8 := UInt8.ofNat (i * 4 + j / 16)

def second (j k : ℕ) : UInt8 := UInt8.ofNat (j % 16 * 16 + k / 4)

def third (k l : ℕ) : UInt8 := UInt8.ofNat (k % 4 * 64 + l)

/-- A last group of one byte. -/
def decodeOne (w x : Char) : Option (List UInt8) :=
  match value w, value x with
  | some i, some j => if j % 16 = 0 then some [first i j] else none
  | _, _ => none

/-- A last group of two bytes. -/
def decodeTwo (w x y : Char) : Option (List UInt8) :=
  match value w, value x, value y with
  | some i, some j, some k => if k % 4 = 0 then some [first i j, second j k] else none
  | _, _, _ => none

/-- A group of three bytes. -/
def decodeThree (w x y z : Char) : Option (List UInt8) :=
  match value w, value x, value y, value z with
  | some i, some j, some k, some l => some [first i j, second j k, third k l]
  | _, _, _, _ => none

/-- The bytes that symbols spell; padding stands at the end only. -/
def decodeChars : List Char → Option (List UInt8)
  | [] => some []
  | w :: x :: y :: z :: chars =>
      if z = pad then
        if chars ≠ [] then none
        else if y = pad then decodeOne w x
        else decodeTwo w x y
      else (decodeThree w x y z).bind (fun group => (decodeChars chars).map (group ++ ·))
  | _ => none

def encode (bytes : List UInt8) : String := String.ofList (encodeChars bytes)

def decode (s : String) : Option (List UInt8) := decodeChars s.toList

theorem utf8Size_symbol (i : ℕ) : (symbol i).utf8Size = 1 := by
  obtain hlt | hge := Nat.lt_or_ge i 64
  · have hall : ∀ i < 64, (symbol i).utf8Size = 1 := by decide +kernel
    exact hall i hlt
  · unfold symbol
    rw [List.getD_eq_getElem?_getD, List.getElem?_eq_none (show alphabet.length ≤ i from hge)]
    rfl

/-- Four symbols of one byte each for three bytes. -/
theorem utf8ByteSize_encode (bytes : List UInt8) :
    (encode bytes).utf8ByteSize = 4 * ((bytes.length + 2) / 3) := by
  unfold encode
  rw [String.utf8ByteSize_ofList]
  have hpad : pad.utf8Size = 1 := rfl
  fun_induction encodeChars bytes with
  | case1 => rfl
  | case2 a => simp [String.utf8Len_cons, utf8Size_symbol, hpad]
  | case3 a b => simp [String.utf8Len_cons, utf8Size_symbol, hpad]
  | case4 a b c bytes ih =>
      simp only [String.utf8Len_cons, utf8Size_symbol, ih, List.length_cons]
      omega

/-! ## §3. The round trips. -/

theorem ofNat_of_eq {a : UInt8} {n : ℕ} (h : n = a.toNat) : UInt8.ofNat n = a := by
  rw [h]
  exact UInt8.ofNat_toNat

theorem toNat_ofNat_of_lt {n : ℕ} (h : n < 256) : (UInt8.ofNat n).toNat = n := by
  rw [UInt8.toNat_ofNat']
  exact Nat.mod_eq_of_lt h

section

variable {i j k l : ℕ}

theorem toNat_first (hi : i < 64) (hj : j < 64) : (first i j).toNat = i * 4 + j / 16 :=
  toNat_ofNat_of_lt (by omega)

theorem toNat_second (hk : k < 64) : (second j k).toNat = j % 16 * 16 + k / 4 :=
  toNat_ofNat_of_lt (by omega)

theorem toNat_third (hl : l < 64) : (third k l).toNat = k % 4 * 64 + l :=
  toNat_ofNat_of_lt (by omega)

end

/-- **What was encoded is decoded.** -/
theorem decodeChars_encodeChars (bytes : List UInt8) :
    decodeChars (encodeChars bytes) = some bytes := by
  fun_induction encodeChars bytes with
  | case1 => rfl
  | case2 a =>
      have ha := a.toNat_lt
      have hfirst : first (a.toNat / 4) (a.toNat % 4 * 16) = a := ofNat_of_eq (by omega)
      unfold decodeChars decodeOne
      rw [value_symbol (by omega), value_symbol (by omega)]
      simp [hfirst]
  | case3 a b =>
      have ha := a.toNat_lt
      have hb := b.toNat_lt
      have hfirst : first (a.toNat / 4) (a.toNat % 4 * 16 + b.toNat / 16) = a :=
        ofNat_of_eq (by omega)
      have hsecond : second (a.toNat % 4 * 16 + b.toNat / 16) (b.toNat % 16 * 4) = b :=
        ofNat_of_eq (by omega)
      -- the third symbol is not padding, so the group has two bytes
      have hy := symbol_ne_pad (i := b.toNat % 16 * 4) (by omega)
      unfold decodeChars decodeTwo
      rw [value_symbol (by omega), value_symbol (by omega), value_symbol (by omega)]
      simp [hy, hfirst, hsecond]
  | case4 a b c bytes ih =>
      have ha := a.toNat_lt
      have hb := b.toNat_lt
      have hc := c.toNat_lt
      have hfirst : first (a.toNat / 4) (a.toNat % 4 * 16 + b.toNat / 16) = a :=
        ofNat_of_eq (by omega)
      have hsecond : second (a.toNat % 4 * 16 + b.toNat / 16)
          (b.toNat % 16 * 4 + c.toNat / 64) = b := ofNat_of_eq (by omega)
      have hthird : third (b.toNat % 16 * 4 + c.toNat / 64) (c.toNat % 64) = c :=
        ofNat_of_eq (by omega)
      -- the fourth symbol is not padding, so the group is full
      have hz := symbol_ne_pad (i := c.toNat % 64) (by omega)
      unfold decodeChars decodeThree
      rw [if_neg hz, value_symbol (by omega), value_symbol (by omega), value_symbol (by omega),
        value_symbol (by omega), ih]
      simp [hfirst, hsecond, hthird]

theorem encodeChars_of_decodeOne {w x : Char} {bytes : List UInt8}
    (h : decodeOne w x = some bytes) : encodeChars bytes = [w, x, pad, pad] := by
  unfold decodeOne at h
  split at h
  · next i j hvi hvj =>
    obtain ⟨hi, rfl⟩ := symbol_of_value hvi
    obtain ⟨hj, rfl⟩ := symbol_of_value hvj
    split at h
    · next hzero =>
      rw [← Option.some.inj h]
      unfold encodeChars
      have hhigh : (i * 4 + j / 16) / 4 = i := by omega
      have hlow : (i * 4 + j / 16) % 4 * 16 = j := by omega
      rw [toNat_first hi hj, hhigh, hlow]
    · cases h
  · cases h

theorem encodeChars_of_decodeTwo {w x y : Char} {bytes : List UInt8}
    (h : decodeTwo w x y = some bytes) : encodeChars bytes = [w, x, y, pad] := by
  unfold decodeTwo at h
  split at h
  · next i j k hvi hvj hvk =>
    obtain ⟨hi, rfl⟩ := symbol_of_value hvi
    obtain ⟨hj, rfl⟩ := symbol_of_value hvj
    obtain ⟨hk, rfl⟩ := symbol_of_value hvk
    split at h
    · next hzero =>
      rw [← Option.some.inj h]
      unfold encodeChars
      have h1 : (i * 4 + j / 16) / 4 = i := by omega
      have h2 : (i * 4 + j / 16) % 4 * 16 + (j % 16 * 16 + k / 4) / 16 = j := by omega
      have h3 : (j % 16 * 16 + k / 4) % 16 * 4 = k := by omega
      rw [toNat_first hi hj, toNat_second hk, h1, h2, h3]
    · cases h
  · cases h

theorem encodeChars_of_decodeThree {w x y z : Char} {group : List UInt8}
    (h : decodeThree w x y z = some group) (bytes : List UInt8) :
    encodeChars (group ++ bytes) = w :: x :: y :: z :: encodeChars bytes := by
  unfold decodeThree at h
  split at h
  · next i j k l hvi hvj hvk hvl =>
    obtain ⟨hi, rfl⟩ := symbol_of_value hvi
    obtain ⟨hj, rfl⟩ := symbol_of_value hvj
    obtain ⟨hk, rfl⟩ := symbol_of_value hvk
    obtain ⟨hl, rfl⟩ := symbol_of_value hvl
    rw [← Option.some.inj h]
    show encodeChars (first i j :: second j k :: third k l :: bytes) = _
    have h1 : (i * 4 + j / 16) / 4 = i := by omega
    have h2 : (i * 4 + j / 16) % 4 * 16 + (j % 16 * 16 + k / 4) / 16 = j := by omega
    have h3 : (j % 16 * 16 + k / 4) % 16 * 4 + (k % 4 * 64 + l) / 64 = k := by omega
    have h4 : (k % 4 * 64 + l) % 64 = l := by omega
    rw [encodeChars, toNat_first hi hj, toNat_second hk, toNat_third hl, h1, h2, h3, h4]
  · cases h

/-- **What is decoded was encoded.** -/
theorem encodeChars_of_decodeChars {chars : List Char} {bytes : List UInt8}
    (h : decodeChars chars = some bytes) : encodeChars bytes = chars := by
  fun_induction decodeChars chars generalizing bytes with
  | case1 =>
      rw [← Option.some.inj h]
      rfl
  | case2 => cases h
  | case3 w x chars hnil =>
      obtain rfl : chars = [] := not_not.mp hnil
      exact encodeChars_of_decodeOne h
  | case4 w x y chars hnil _ =>
      obtain rfl : chars = [] := not_not.mp hnil
      exact encodeChars_of_decodeTwo h
  | case5 w x y z chars _ ih =>
      obtain ⟨group, hgroup, hrest⟩ := Option.bind_eq_some_iff.mp h
      obtain ⟨rest, hdecoded, rfl⟩ := Option.map_eq_some_iff.mp hrest
      rw [encodeChars_of_decodeThree hgroup, ih hdecoded]
  | case6 => cases h

/-- **The decoder accepts exactly what the encoder writes.** -/
theorem decode_eq_some_iff {s : String} {bytes : List UInt8} :
    decode s = some bytes ↔ s = encode bytes := by
  unfold decode encode
  constructor
  · intro h
    rw [encodeChars_of_decodeChars h, String.ofList_toList]
  · intro h
    rw [h, String.toList_ofList, decodeChars_encodeChars]

end Mrv.Base64
