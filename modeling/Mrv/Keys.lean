/-
  Mrv.Keys — the text form of keys (`crypto/src/lib.rs`).

  Keys travel as base64.  The `base64` crate is a parameter, `Base64Crate`; that it
  decodes exactly what it encodes, bytes of any length, is the hypothesis `Exact`.

  `decode_base64` slices the decoded bytes before it converts them, so the conversion
  never sees a wrong length: shorter input stops the task at the slice, and longer input
  loses its tail.  Public and secret keys share the definition and differ in the length
  (`decode_base64_iff`).
-/
import Mrv.Crypto
import Mrv.Lib.Base64

namespace Mrv

/-! ## §1. The functions of the source. -/

/-- What the code takes from the `base64` crate. -/
structure Base64Crate where
  /-- `base64::DecodeError`. -/
  DecodeError : Type
  /-- `base64::DecodeError::InvalidLength`. -/
  invalidLength : DecodeError
  encode : List UInt8 → String
  decode : String → Except DecodeError (List UInt8)

/-- The crate decodes exactly the text it writes. -/
def Base64Crate.Exact (base64 : Base64Crate) : Prop :=
  ∀ s bytes, base64.decode s = .ok bytes ↔ s = base64.encode bytes

/-- Why decoding stops the task. -/
inductive KeyPanic where
  /-- The range of a slice ends past the last byte. -/
  | sliceOutOfRange
  deriving DecidableEq

/-- `decode_base64` of a key of `n` bytes. -/
def decodeKey {κ : Type} (base64 : Base64Crate) (n : ℕ) (tryInto : List UInt8 → Option κ)
    (s : String) : Except KeyPanic (Except base64.DecodeError κ) :=
  match base64.decode s with
  | .error e => .ok (.error e)
  | .ok bytes =>
      -- `bytes[..n]`
      if n ≤ bytes.length then
        match tryInto (bytes.take n) with
        | some key => .ok (.ok key)
        | none => .ok (.error base64.invalidLength)
      else .error .sliceOutOfRange

namespace PublicKey

/-- `try_into` for `[u8; 32]`. -/
def tryInto (bytes : List UInt8) : Option PublicKey :=
  if bytes.length = 32 then some ⟨BitVec.ofNat 256 (ofLeBytes bytes.reverse)⟩ else none

def encodeBase64 (base64 : Base64Crate) (key : PublicKey) : String := base64.encode key.toVec

def decodeBase64 (base64 : Base64Crate) (s : String) :
    Except KeyPanic (Except base64.DecodeError PublicKey) :=
  decodeKey base64 32 tryInto s

/-- `Serialize`: a key is written as text. -/
def serialize (base64 : Base64Crate) (key : PublicKey) : String := key.encodeBase64 base64

/-- `Deserialize`: a decoding error becomes one of the format. -/
def deserialize {ε : Type} (base64 : Base64Crate) (custom : base64.DecodeError → ε) (s : String) :
    Except KeyPanic (Except ε PublicKey) :=
  (decodeBase64 base64 s).map (fun value => value.mapError custom)

end PublicKey

/-- A secret key (64 bytes). -/
structure SecretKey where
  bytes : List UInt8
  length_bytes : bytes.length = 64
  deriving DecidableEq

namespace SecretKey

/-- `try_into` for `[u8; 64]`. -/
def tryInto (bytes : List UInt8) : Option SecretKey :=
  if h : bytes.length = 64 then some ⟨bytes, h⟩ else none

def encodeBase64 (base64 : Base64Crate) (key : SecretKey) : String := base64.encode key.bytes

def decodeBase64 (base64 : Base64Crate) (s : String) :
    Except KeyPanic (Except base64.DecodeError SecretKey) :=
  decodeKey base64 64 tryInto s

end SecretKey

/-! ## §2. Arrays of bytes. -/

/-- `toVec` and `tryInto` convert between a type and the byte strings of length `n`. -/
structure IsArray {κ : Type} (n : ℕ) (toVec : κ → List UInt8) (tryInto : List UInt8 → Option κ) :
    Prop where
  length : ∀ key, (toVec key).length = n
  eq_some : ∀ bytes key, tryInto bytes = some key ↔ toVec key = bytes
  total : ∀ bytes, bytes.length = n → ∃ key, tryInto bytes = some key

theorem IsArray.toVec_injective {κ : Type} {n : ℕ} {toVec : κ → List UInt8}
    {tryInto : List UInt8 → Option κ} (h : IsArray n toVec tryInto) :
    Function.Injective toVec := by
  intro a b hab
  have ha := (h.eq_some (toVec b) a).mpr hab
  have hb := (h.eq_some (toVec b) b).mpr rfl
  exact Option.some.inj (ha.symm.trans hb)

/-- The bytes of an array, last byte first. -/
theorem bytesOf_eq_reverse (v : BitVec 256) : bytesOf v = (toLeBytes 32 v.toNat).reverse := by
  have hbyte : ∀ i < 32, UInt8.ofBitVec (v.extractLsb' (8 * (31 - i)) 8) =
      UInt8.ofNat (v.toNat / 256 ^ (31 - i)) := by
    intro i _
    have hpow : 2 ^ (8 * (31 - i)) = 256 ^ (31 - i) := by
      rw [pow_mul]
      rfl
    refine UInt8.toNat_inj.mp ?_
    show (v.extractLsb' (8 * (31 - i)) 8).toNat = _
    rw [BitVec.extractLsb'_toNat, Nat.shiftRight_eq_div_pow, UInt8.toNat_ofNat', hpow]
  refine List.ext_getElem ?_ ?_
  · rw [length_bytesOf, List.length_reverse, length_toLeBytes]
  · intro i hi _
    rw [length_bytesOf] at hi
    rw [List.getElem_reverse]
    simp only [bytesOf, toLeBytes, List.getElem_map, List.getElem_range, List.length_map,
      List.length_range]
    show _ = UInt8.ofNat (v.toNat / 256 ^ (31 - i))
    exact hbyte i hi

theorem PublicKey.isArray : IsArray 32 PublicKey.toVec PublicKey.tryInto := by
  have hback : ∀ bytes : List UInt8, bytes.length = 32 →
      bytesOf (BitVec.ofNat 256 (ofLeBytes bytes.reverse)) = bytes := by
    intro bytes hlength
    have hlt := ofLeBytes_lt bytes.reverse
    rw [List.length_reverse, hlength] at hlt
    have hbytes := toLeBytes_ofLeBytes bytes.reverse
    rw [List.length_reverse, hlength] at hbytes
    rw [bytesOf_eq_reverse, BitVec.toNat_ofNat, Nat.mod_eq_of_lt (by omega), hbytes,
      List.reverse_reverse]
  refine ⟨PublicKey.length_toVec, ?_, ?_⟩
  · intro bytes key
    unfold tryInto
    constructor
    · intro h
      split at h
      · next hlength =>
        rw [← Option.some.inj h]
        exact hback bytes hlength
      · cases h
    · intro h
      have hlength : bytes.length = 32 := by
        rw [← h]
        exact key.length_toVec
      rw [if_pos hlength, Option.some.injEq]
      refine PublicKey.toVec_injective ?_
      rw [h]
      exact hback bytes hlength
  · intro bytes hlength
    exact ⟨_, if_pos hlength⟩

theorem SecretKey.isArray : IsArray 64 SecretKey.bytes SecretKey.tryInto := by
  refine ⟨SecretKey.length_bytes, ?_, ?_⟩
  · intro bytes key
    obtain ⟨bytes', hlength⟩ := key
    unfold tryInto
    constructor
    · intro h
      split at h
      · exact (SecretKey.mk.inj (Option.some.inj h)).symm
      · cases h
    · intro h
      obtain rfl : bytes' = bytes := h
      exact dif_pos hlength
  · intro bytes hlength
    exact ⟨⟨bytes, hlength⟩, dif_pos hlength⟩

/-! ## §3. When decoding is exact. -/

/-- Decoding a text returns the key that is written so, and an error if there is none. -/
structure DecodesExactly {κ ε : Type} (encode : κ → String)
    (decode : String → Except KeyPanic (Except ε κ)) (s : String) : Prop where
  key : ∀ k, decode s = .ok (.ok k) ↔ s = encode k
  error : (∀ k, s ≠ encode k) → ∃ e, decode s = .ok (.error e)

section

variable {κ : Type} {n : ℕ} {toVec : κ → List UInt8} {tryInto : List UInt8 → Option κ}
  {base64 : Base64Crate}

theorem Base64Crate.Exact.encode_injective (hexact : base64.Exact) :
    Function.Injective base64.encode := by
  intro a b hab
  have ha := (hexact (base64.encode b) a).mpr hab.symm
  have hb := (hexact (base64.encode b) b).mpr rfl
  exact Except.ok.inj (ha.symm.trans hb)

/-- The key that the text of `n` bytes decodes to. -/
theorem decodeKey_of_length (harray : IsArray n toVec tryInto) (hexact : base64.Exact)
    {bytes : List UInt8} (hlength : n ≤ bytes.length) :
    ∃ key, decodeKey base64 n tryInto (base64.encode bytes) = .ok (.ok key) ∧
      toVec key = bytes.take n := by
  obtain ⟨key, hkey⟩ := harray.total (bytes.take n) (List.length_take_of_le hlength)
  refine ⟨key, ?_, (harray.eq_some _ _).mp hkey⟩
  unfold decodeKey
  rw [(hexact _ bytes).mpr rfl]
  show (if n ≤ bytes.length then _ else _) = _
  rw [if_pos hlength, hkey]

/-- **One kind of key**: decoding is exact unless the text is that of a byte string of
another length. -/
theorem decodeKey_exact_iff (harray : IsArray n toVec tryInto) (hexact : base64.Exact)
    (s : String) :
    DecodesExactly (fun key => base64.encode (toVec key)) (decodeKey base64 n tryInto) s ↔
      ∀ bytes, s = base64.encode bytes → bytes.length = n := by
  constructor
  · intro h bytes hs
    subst hs
    obtain hshort | hlength := Nat.lt_or_ge bytes.length n
    · -- no key is written so, and the slice fails
      have hnone : ∀ key, base64.encode bytes ≠ base64.encode (toVec key) := by
        intro key heq
        have hlength := harray.length key
        rw [← hexact.encode_injective heq] at hlength
        omega
      obtain ⟨e, he⟩ := h.error hnone
      unfold decodeKey at he
      rw [(hexact _ bytes).mpr rfl] at he
      change (if n ≤ bytes.length then _ else _) = _ at he
      rw [if_neg (by omega)] at he
      cases he
    · obtain ⟨key, hkey, htake⟩ := decodeKey_of_length harray hexact hlength
      have heq := hexact.encode_injective ((h.key key).mp hkey)
      rw [heq]
      exact harray.length key
  · intro h
    cases hdecode : base64.decode s with
    | error e =>
        -- a text that is not decoded was not encoded
        have hnone : ∀ bytes, s ≠ base64.encode bytes := by
          intro bytes hs
          rw [(hexact s bytes).mpr hs] at hdecode
          cases hdecode
        have hvalue : decodeKey base64 n tryInto s = .ok (.error e) := by
          unfold decodeKey
          rw [hdecode]
        refine ⟨fun key => ?_, fun _ => ⟨e, hvalue⟩⟩
        rw [hvalue]
        exact iff_of_false (fun heq => by cases heq) (hnone _)
    | ok bytes =>
        obtain rfl := (hexact s bytes).mp hdecode
        have hlength := h bytes rfl
        obtain ⟨key, hkey, htake⟩ := decodeKey_of_length harray hexact hlength.ge
        -- the slice takes all of the bytes, so the key has the text it was read from
        rw [← hlength, List.take_length] at htake
        refine ⟨fun key' => ?_, fun hnone => absurd (congrArg base64.encode htake.symm) (hnone key)⟩
        rw [hkey, Except.ok.injEq, Except.ok.injEq, ← htake]
        constructor
        · intro heq
          rw [heq]
        · intro heq
          exact harray.toVec_injective (hexact.encode_injective heq)

end

/-- **When keys decode exactly**: a text decodes to the key it spells or to an error,
exactly if it does not spell a byte string of another length than a key's. -/
theorem decode_base64_iff (base64 : Base64Crate) (hexact : base64.Exact) (s : String) :
    (DecodesExactly (PublicKey.encodeBase64 base64) (PublicKey.decodeBase64 base64) s ↔
      ∀ bytes, s = base64.encode bytes → bytes.length = 32) ∧
    (DecodesExactly (SecretKey.encodeBase64 base64) (SecretKey.decodeBase64 base64) s ↔
      ∀ bytes, s = base64.encode bytes → bytes.length = 64) :=
  ⟨decodeKey_exact_iff PublicKey.isArray hexact s, decodeKey_exact_iff SecretKey.isArray hexact s⟩

/-- The crate, as far as it is used here. -/
def standardBase64 : Base64Crate :=
  { DecodeError := Unit
    invalidLength := ()
    encode := Base64.encode
    decode := fun s => (Base64.decode s).elim (.error ()) .ok }

theorem exact_standardBase64 : standardBase64.Exact := by
  intro s bytes
  show (Base64.decode s).elim (Except.error ()) Except.ok = .ok bytes ↔ s = Base64.encode bytes
  rw [← Base64.decode_eq_some_iff]
  cases Base64.decode s with
  | none => exact iff_of_false (fun h => by cases h) (fun h => by cases h)
  | some bytes' =>
      show Except.ok bytes' = Except.ok bytes ↔ some bytes' = some bytes
      rw [Except.ok.injEq, Option.some.injEq]

/-- The text of a key decodes exactly. -/
theorem decode_base64_iff_sample :
    DecodesExactly (PublicKey.encodeBase64 standardBase64) (PublicKey.decodeBase64 standardBase64)
      ((sampleKey 7).encodeBase64 standardBase64) := by
  refine ((decode_base64_iff standardBase64 exact_standardBase64 _).1).mpr ?_
  intro bytes hbytes
  rw [← exact_standardBase64.encode_injective hbytes]
  exact (sampleKey 7).length_toVec

/-- The empty text stops the task: it spells fewer bytes than a key has. -/
theorem decode_base64_panics :
    ¬ ∀ base64 : Base64Crate, base64.Exact → ∀ s,
      DecodesExactly (PublicKey.encodeBase64 base64) (PublicKey.decodeBase64 base64) s ∧
      DecodesExactly (SecretKey.encodeBase64 base64) (SecretKey.decodeBase64 base64) s := by
  intro h
  have hpanic : PublicKey.decodeBase64 standardBase64 "" = .error .sliceOutOfRange := rfl
  have hnone : ∀ key : PublicKey, "" ≠ key.encodeBase64 standardBase64 := by
    intro key heq
    have hempty : Base64.encode [] = standardBase64.encode key.toVec := heq
    have hlength := key.length_toVec
    rw [← exact_standardBase64.encode_injective hempty] at hlength
    cases hlength
  obtain ⟨e, he⟩ := (h standardBase64 exact_standardBase64 "").1.error hnone
  rw [hpanic] at he
  cases he

/-- A public key that was serialized is read back. -/
theorem deserialize_serialize {ε : Type} {base64 : Base64Crate} (hexact : base64.Exact)
    (custom : base64.DecodeError → ε) (key : PublicKey) :
    PublicKey.deserialize base64 custom (key.serialize base64) = .ok (.ok key) := by
  have hexactly := ((decode_base64_iff base64 hexact (key.serialize base64)).1).mpr (by
    intro bytes hbytes
    rw [← hexact.encode_injective hbytes]
    exact key.length_toVec)
  unfold PublicKey.deserialize
  rw [(hexactly.key key).mpr rfl]
  rfl

end Mrv
