/-
  Mrv.Lib.Bincode — values as bytes: the formats of a crate, and what comes back from them.

  A `Format` writes values of a type and reads them from the front of a byte string.  A
  `Crate` knows the formats of some types and puts formats together: the fields of a
  structure, sequences, ordered sets and maps, the variants of an enumeration.  The crate
  is a parameter.  What is relied on is the layout that it documents (`Documented`):
  integers are little-endian and of a fixed width, fields follow one another, sequences
  stand behind their length, variants behind their number.

  A format `Carries` some values if those are read back, whatever comes after them, and
  nothing else is read.  The operations of a documented crate keep this
  (`carries_pair`, `carries_vec`, `carries_btreeSet`, `carries_btreeMap`,
  `carries_enum`), so that a format that is put together from parts carries what its parts
  do, and its messages survive (`Carries.roundTrips`).

  `standard` is a crate with this layout.
-/
import Mrv.Lib.Bytes
import Mrv.Lib.Except
import Mrv.Lib.SortedMap

namespace Mrv.Bincode

/-! ## §1. Formats. -/

/-- Why a value is not read. -/
inductive Failure (ε P : Type) where
  | error (e : ε)
  /-- The reader itself stopped. -/
  | panic (p : P)
  deriving DecidableEq

/-- How the values of a type are written, and how one is read from the front of some bytes,
with the bytes after it. -/
structure Format (ε P α : Type) where
  write : α → List UInt8
  read : List UInt8 → Except (Failure ε P) (α × List UInt8)

namespace Format

variable {ε P α β : Type}

/-- `bincode::serialize` -/
def serialize (f : Format ε P α) (x : α) : List UInt8 := f.write x

/-- `bincode::deserialize`: bytes after the value are not looked at. -/
def deserialize (f : Format ε P α) (bytes : List UInt8) : Except (Failure ε P) α := do
  let (x, _) ← f.read bytes
  return x

/-- Values of another type, written as those of this one. -/
def convert (f : Format ε P α) (write : β → α) (read : α → Except (Failure ε P) β) :
    Format ε P β where
  write x := f.write (write x)
  read bytes := do
    let (y, rest) ← f.read bytes
    let x ← read y
    return (x, rest)

/-- Some values, one after the other. -/
def readMany (f : Format ε P α) : ℕ → List UInt8 → Except (Failure ε P) (List α × List UInt8)
  | 0, bytes => .ok ([], bytes)
  | n + 1, bytes => do
      let (x, bytes) ← f.read bytes
      let (xs, rest) ← readMany f n bytes
      return (x :: xs, rest)

/-- The values that a format carries over: what was written is read back, whatever comes after
it, and what is read is one of them. -/
structure Carries (f : Format ε P α) (Fits : α → Prop) : Prop where
  read_write : ∀ x, Fits x → ∀ rest, f.read (f.write x ++ rest) = .ok (x, rest)
  fits : ∀ bytes x rest, f.read bytes = .ok (x, rest) → Fits x

/-- **Messages survive**: each that fits is read back whatever comes after it, no two are
written alike, none is the beginning of another, and what was read fits again. -/
structure RoundTrips (f : Format ε P α) (Fits : α → Prop) : Prop where
  read_back : ∀ x, Fits x → ∀ rest, f.deserialize (f.serialize x ++ rest) = .ok x
  injective : ∀ x y, Fits x → Fits y → ∀ rest, f.serialize x <+: f.serialize y ++ rest → x = y
  fits : ∀ bytes x, f.deserialize bytes = .ok x → Fits x

section

variable {f : Format ε P α} {Fits : α → Prop}

theorem Carries.deserialize_serialize (h : f.Carries Fits) {x : α} (hx : Fits x)
    (rest : List UInt8) : f.deserialize (f.serialize x ++ rest) = .ok x := by
  unfold deserialize serialize
  rw [h.read_write x hx]
  rfl

theorem Carries.roundTrips (h : f.Carries Fits) : f.RoundTrips Fits where
  read_back _ hx rest := h.deserialize_serialize hx rest
  injective x y hx hy rest hfront := by
    obtain ⟨rest', heq⟩ := hfront
    have hread := h.read_write x hx rest'
    have hwritten : f.write x ++ rest' = f.write y ++ rest := heq
    rw [hwritten, h.read_write y hy] at hread
    exact (Prod.mk.inj (Except.ok.inj hread)).1.symm
  fits bytes x hx := by
    obtain ⟨⟨_, rest⟩, hread, rfl⟩ := map_eq_ok.mp hx
    exact h.fits bytes _ rest hread

theorem Carries.of_iff (h : f.Carries Fits) {Fits' : α → Prop} (hiff : ∀ x, Fits' x ↔ Fits x) :
    f.Carries Fits' := by
  rwa [show Fits' = Fits from funext fun x => propext (hiff x)]

/-- A conversion carries what the other type holds of the values that are carried. -/
theorem Carries.convert (h : f.Carries Fits) {write : β → α}
    {read : α → Except (Failure ε P) β} {Fits' : β → Prop}
    (hwrite : ∀ x, Fits' x → Fits (write x) ∧ read (write x) = .ok x)
    (hread : ∀ y x, Fits y → read y = .ok x → Fits' x) :
    (f.convert write read).Carries Fits' where
  read_write x hx rest := by
    obtain ⟨hfits, hback⟩ := hwrite x hx
    show (do
      let (y, rest) ← f.read (f.write (write x) ++ rest)
      let x ← read y
      return (x, rest)) = _
    rw [h.read_write _ hfits]
    show (do
      let y ← read (write x)
      return (y, rest)) = _
    rw [hback]
    rfl
  fits bytes x rest hx := by
    obtain ⟨⟨y, _⟩, hy, hx⟩ := bind_eq_ok.mp hx
    obtain ⟨_, hback, heq⟩ := map_eq_ok.mp hx
    rw [← (Prod.mk.inj heq).1]
    exact hread y _ (h.fits bytes y _ hy) hback

theorem Carries.readMany_write (h : f.Carries Fits) {xs : List α} (hxs : ∀ x ∈ xs, Fits x)
    (rest : List UInt8) :
    f.readMany xs.length (xs.flatMap f.write ++ rest) = .ok (xs, rest) := by
  induction xs with
  | nil => rfl
  | cons x xs ih =>
      rw [List.forall_mem_cons] at hxs
      rw [List.length_cons, List.flatMap_cons, List.append_assoc]
      unfold readMany
      rw [h.read_write x hxs.1]
      show (do
        let (xs, rest) ← f.readMany xs.length (xs.flatMap f.write ++ rest)
        return (x :: xs, rest)) = _
      rw [ih hxs.2]
      rfl

theorem Carries.of_readMany (h : f.Carries Fits) {n : ℕ} {bytes rest : List UInt8} {xs : List α}
    (hread : f.readMany n bytes = .ok (xs, rest)) : xs.length = n ∧ ∀ x ∈ xs, Fits x := by
  induction n generalizing bytes rest xs with
  | zero =>
      rw [← (Prod.mk.inj (Except.ok.inj hread)).1]
      exact ⟨rfl, List.forall_mem_nil _⟩
  | succ n ih =>
      obtain ⟨⟨y, _⟩, hy, hread⟩ := bind_eq_ok.mp hread
      obtain ⟨⟨ys, _⟩, hys, heq⟩ := map_eq_ok.mp hread
      rw [← (Prod.mk.inj heq).1]
      obtain ⟨hlength, hall⟩ := ih hys
      exact ⟨congrArg (· + 1) hlength, List.forall_mem_cons.mpr ⟨h.fits _ y _ hy, hall⟩⟩

end

end Format

/-- A variant of an enumeration, with the format of its content. -/
structure Variant (ε P α : Type) where
  Content : Type
  format : Format ε P Content
  build : Content → α
  content : α → Option Content
  content_eq_some : ∀ x y, content x = some y ↔ x = build y

/-- A value is of one variant only. -/
def Disjoint {ε P α : Type} (vs : List (Variant ε P α)) : Prop :=
  vs.Pairwise fun v w => ∀ y, v.content (w.build y) = none

/-- The content of the variant with a number. -/
def readVariant {ε P α : Type} (invalidValue : UInt32 → ε) (vs : List (Variant ε P α)) (tag : UInt32)
    (bytes : List UInt8) : Except (Failure ε P) (α × List UInt8) :=
  match vs[tag.toNat]? with
  | none => .error (.error (invalidValue tag))
  | some v => do
      let (y, rest) ← v.format.read bytes
      return (v.build y, rest)

/-! ## §2. The crate. -/

/-- What is taken from the crate, and from the derived implementations that call it. -/
structure Crate (P : Type) where
  /-- `bincode::ErrorKind` -/
  ErrorKind : Type
  /-- `serde::de::Error::custom` -/
  custom {δ : Type} (message : δ) : ErrorKind
  /-- `bincode::ErrorKind::InvalidUtf8Encoding` -/
  invalidUtf8Encoding : ErrorKind
  /-- `serde::de::Error::invalid_value`, for the number of a variant that there is not. -/
  invalidValue (tag : UInt32) : ErrorKind
  u8 : Format ErrorKind P UInt8
  u32 : Format ErrorKind P UInt32
  u64 : Format ErrorKind P UInt64
  /-- `[u8; n]` -/
  array (n : ℕ) : Format ErrorKind P (Vector UInt8 n)
  string : Format ErrorKind P String
  /-- The fields of a structure, a tuple or a variant, in the order of declaration. -/
  pair {α β : Type} : Format ErrorKind P α → Format ErrorKind P β → Format ErrorKind P (α × β)
  vec {α : Type} : Format ErrorKind P α → Format ErrorKind P (List α)
  btreeSet {α : Type} [LinearOrder α] : Format ErrorKind P α → Format ErrorKind P (BTreeSet α)
  btreeMap {α β : Type} [LinearOrder α] :
    Format ErrorKind P α → Format ErrorKind P β → Format ErrorKind P (BTreeMap α β)
  /-- An enumeration, from its variants in the order of declaration. -/
  enum {α : Type} : List (Variant ErrorKind P α) → Format ErrorKind P α

namespace Crate

variable {P : Type}

/-- The text of some bytes. -/
def fromUtf8 (crate : Crate P) (bytes : List UInt8) : Except (Failure crate.ErrorKind P) String :=
  match String.fromUTF8? ⟨bytes.toArray⟩ with
  | some s => .ok s
  | none => .error (.error crate.invalidUtf8Encoding)

/-- **The layout that the crate documents.** -/
structure Documented (crate : Crate P) : Prop where
  /-- A byte is itself. -/
  u8_write : ∀ b, crate.u8.write b = [b]
  u8_read : ∀ b rest, crate.u8.read (b :: rest) = .ok (b, rest)
  /-- Integers are little-endian and of a fixed width. -/
  u32_write : ∀ n, crate.u32.write n = toLeBytes 4 n.toNat
  u32_read : ∀ bytes rest, bytes.length = 4 →
    crate.u32.read (bytes ++ rest) = .ok (UInt32.ofNat (ofLeBytes bytes), rest)
  u64_write : ∀ n, crate.u64.write n = toLeBytes 8 n.toNat
  u64_read : ∀ bytes rest, bytes.length = 8 →
    crate.u64.read (bytes ++ rest) = .ok (UInt64.ofNat (ofLeBytes bytes), rest)
  /-- The end of the input where a value is expected is an error. -/
  u64_eof : ∃ e, crate.u64.read [] = .error (.error e)
  /-- The length of an array is not written. -/
  array_write : ∀ {n : ℕ} (v : Vector UInt8 n), (crate.array n).write v = v.toList
  array_read : ∀ {n : ℕ} (v : Vector UInt8 n) rest,
    (crate.array n).read (v.toList ++ rest) = .ok (v, rest)
  /-- A text is the sequence of its bytes. -/
  string : crate.string =
    (crate.vec crate.u8).convert (fun s => s.toUTF8.data.toList) crate.fromUtf8
  /-- Fields follow one another. -/
  pair_write : ∀ {α β : Type} (f : Format crate.ErrorKind P α) (g : Format crate.ErrorKind P β) x,
    (crate.pair f g).write x = f.write x.1 ++ g.write x.2
  pair_read : ∀ {α β : Type} (f : Format crate.ErrorKind P α) (g : Format crate.ErrorKind P β)
    bytes, (crate.pair f g).read bytes = do
      let (x, bytes) ← f.read bytes
      let (y, rest) ← g.read bytes
      return ((x, y), rest)
  /-- A sequence stands behind its length. -/
  vec_write : ∀ {α : Type} (f : Format crate.ErrorKind P α) xs,
    (crate.vec f).write xs = crate.u64.write (UInt64.ofNat xs.length) ++ xs.flatMap f.write
  vec_read : ∀ {α : Type} (f : Format crate.ErrorKind P α) bytes,
    (crate.vec f).read bytes = do
      let (n, bytes) ← crate.u64.read bytes
      f.readMany n.toNat bytes
  /-- An ordered set is the sequence of its elements, which are inserted as they are read. -/
  btreeSet : ∀ {α : Type} [LinearOrder α] (f : Format crate.ErrorKind P α),
    crate.btreeSet f = (crate.vec f).convert BTreeSet.toList fun xs => .ok (BTreeSet.ofList xs)
  /-- An ordered map is the sequence of its entries, by key. -/
  btreeMap : ∀ {α β : Type} [LinearOrder α] (f : Format crate.ErrorKind P α)
    (g : Format crate.ErrorKind P β),
    crate.btreeMap f g = (crate.vec (crate.pair f g)).convert BTreeMap.entries fun es =>
      .ok (BTreeMap.collect es)
  /-- A variant stands behind its number. -/
  enum_write : ∀ {α : Type} (vs : List (Variant crate.ErrorKind P α)), Disjoint vs →
    ∀ (i : ℕ) v y, vs[i]? = some v →
      (crate.enum vs).write (v.build y) = crate.u32.write (UInt32.ofNat i) ++ v.format.write y
  enum_read : ∀ {α : Type} (vs : List (Variant crate.ErrorKind P α)) bytes,
    (crate.enum vs).read bytes = do
      let (tag, bytes) ← crate.u32.read bytes
      readVariant crate.invalidValue vs tag bytes

/-! ## §3. What is carried. -/

section

variable {crate : Crate P} (h : crate.Documented) {α β : Type}
  {f : Format crate.ErrorKind P α} {g : Format crate.ErrorKind P β}
  {Fits : α → Prop} {Fits' : β → Prop}

include h

theorem carries_u8 : crate.u8.Carries fun _ => True where
  read_write b _ rest := by
    rw [h.u8_write]
    exact h.u8_read b rest
  fits _ _ _ _ := trivial

theorem carries_u32 : crate.u32.Carries fun _ => True where
  read_write n _ rest := by
    rw [h.u32_write, h.u32_read _ _ (length_toLeBytes 4 _), ofLeBytes_toLeBytes n.toNat_lt,
      UInt32.ofNat_toNat]
  fits _ _ _ _ := trivial

theorem carries_u64 : crate.u64.Carries fun _ => True where
  read_write n _ rest := by
    rw [h.u64_write, h.u64_read _ _ (length_toLeBytes 8 _), ofLeBytes_toLeBytes n.toNat_lt,
      UInt64.ofNat_toNat]
  fits _ _ _ _ := trivial

theorem carries_array (n : ℕ) : (crate.array n).Carries fun _ => True where
  read_write v _ rest := by
    rw [h.array_write]
    exact h.array_read v rest
  fits _ _ _ _ := trivial

theorem carries_pair (hf : f.Carries Fits) (hg : g.Carries Fits') :
    (crate.pair f g).Carries fun x => Fits x.1 ∧ Fits' x.2 where
  read_write x hx rest := by
    rw [h.pair_write, h.pair_read, List.append_assoc, hf.read_write _ hx.1]
    show (do
      let (y, rest) ← g.read (g.write x.2 ++ rest)
      return ((x.1, y), rest)) = _
    rw [hg.read_write _ hx.2]
    rfl
  fits bytes x rest hx := by
    rw [h.pair_read] at hx
    obtain ⟨⟨a, _⟩, ha, hx⟩ := bind_eq_ok.mp hx
    obtain ⟨⟨b, _⟩, hb, heq⟩ := map_eq_ok.mp hx
    rw [← (Prod.mk.inj heq).1]
    exact ⟨hf.fits _ a _ ha, hg.fits _ b _ hb⟩

theorem carries_vec (hf : f.Carries Fits) :
    (crate.vec f).Carries fun xs => xs.length < 2 ^ 64 ∧ ∀ x ∈ xs, Fits x where
  read_write xs hxs rest := by
    rw [h.vec_write, h.vec_read, List.append_assoc, (carries_u64 h).read_write _ trivial]
    show f.readMany (UInt64.ofNat xs.length).toNat (xs.flatMap f.write ++ rest) = _
    rw [UInt64.toNat_ofNat_of_lt' hxs.1]
    exact hf.readMany_write hxs.2 rest
  fits bytes xs rest hxs := by
    rw [h.vec_read] at hxs
    obtain ⟨⟨n, _⟩, _, hxs⟩ := bind_eq_ok.mp hxs
    obtain ⟨hlength, hall⟩ := hf.of_readMany hxs
    refine ⟨?_, hall⟩
    rw [hlength]
    exact n.toNat_lt

/-- No sequence is read where the input ends. -/
theorem vec_read_nil : ∃ e, (crate.vec f).read [] = .error (.error e) := by
  obtain ⟨e, he⟩ := h.u64_eof
  rw [h.vec_read, he]
  exact ⟨e, rfl⟩

theorem string_read_nil : ∃ e, crate.string.read [] = .error (.error e) := by
  obtain ⟨e, he⟩ := vec_read_nil h (f := crate.u8)
  refine ⟨e, ?_⟩
  rw [h.string]
  show (do
    let (bytes, rest) ← (crate.vec crate.u8).read []
    let s ← crate.fromUtf8 bytes
    return (s, rest)) = _
  rw [he]
  rfl

omit h in
theorem fromUtf8_toUTF8 (s : String) : crate.fromUtf8 s.toUTF8.data.toList = .ok s := by
  have htext : String.fromUTF8? ⟨s.toUTF8.data.toList.toArray⟩ = some s := by
    unfold String.fromUTF8?
    exact dif_pos s.isValidUTF8
  unfold fromUtf8
  rw [htext]

omit h in
/-- The text of some bytes is written as these bytes. -/
theorem toUTF8_of_fromUtf8 {bytes : List UInt8} {s : String}
    (hs : crate.fromUtf8 bytes = .ok s) : s.toUTF8.data.toList = bytes := by
  unfold fromUtf8 at hs
  split at hs
  · next htext =>
    unfold String.fromUTF8? at htext
    split at htext
    · rw [← Except.ok.inj hs, ← Option.some.inj htext]
      rfl
    · cases htext
  · cases hs

theorem carries_string : crate.string.Carries fun s => s.utf8ByteSize < 2 ^ 64 := by
  rw [h.string]
  refine (carries_vec h (carries_u8 h)).convert
    (fun s hs => ⟨⟨hs, fun _ _ => trivial⟩, fromUtf8_toUTF8 s⟩) fun bytes s hbytes hs => ?_
  rw [← toUTF8_of_fromUtf8 hs] at hbytes
  exact hbytes.1

theorem carries_btreeSet [LinearOrder α] (hf : f.Carries Fits) :
    (crate.btreeSet f).Carries fun s => s.toList.length < 2 ^ 64 ∧ ∀ x ∈ s.toList, Fits x := by
  rw [h.btreeSet]
  refine (carries_vec h hf).convert
    (fun s hs => ⟨hs, congrArg Except.ok s.ofList_toList⟩) fun xs s hxs hs => ?_
  rw [← Except.ok.inj hs]
  exact ⟨(BTreeSet.length_ofList_le xs).trans_lt hxs.1,
    fun x hx => hxs.2 x (BTreeSet.mem_ofList.mp hx)⟩

theorem carries_btreeMap [LinearOrder α] (hf : f.Carries Fits) (hg : g.Carries Fits') :
    (crate.btreeMap f g).Carries fun m =>
      m.entries.length < 2 ^ 64 ∧ ∀ e ∈ m.entries, Fits e.1 ∧ Fits' e.2 := by
  rw [h.btreeMap]
  refine (carries_vec h (carries_pair h hf hg)).convert
    (fun m hm => ⟨hm, congrArg Except.ok m.collect_entries⟩) fun es m hes hm => ?_
  rw [← Except.ok.inj hm]
  exact ⟨(BTreeMap.length_collect_le es).trans_lt hes.1,
    fun e he => hes.2 e (BTreeMap.mem_of_mem_collect he)⟩

/-- **Enumerations**: the values whose content is carried by its variant. -/
theorem carries_enum {vs : List (Variant crate.ErrorKind P α)} (hvs : Disjoint vs)
    (hlength : vs.length < 2 ^ 32) (hcover : ∀ x, ∃ v ∈ vs, ∃ y, x = v.build y)
    (hcarries : ∀ v ∈ vs, v.format.Carries fun y => Fits (v.build y)) :
    (crate.enum vs).Carries Fits where
  read_write x hx rest := by
    obtain ⟨v, hv, y, rfl⟩ := hcover x
    obtain ⟨i, hi⟩ := List.mem_iff_getElem?.mp hv
    have hlt : i < 2 ^ 32 := (List.getElem?_eq_some_iff.mp hi).1.trans hlength
    rw [h.enum_write vs hvs i v y hi, h.enum_read, List.append_assoc,
      (carries_u32 h).read_write _ trivial]
    show readVariant crate.invalidValue vs (UInt32.ofNat i) (v.format.write y ++ rest) = _
    unfold readVariant
    simp only [UInt32.toNat_ofNat_of_lt' hlt, hi]
    rw [(hcarries v hv).read_write y hx]
    rfl
  fits bytes x rest hx := by
    rw [h.enum_read] at hx
    obtain ⟨⟨tag, bytes'⟩, _, hx⟩ := bind_eq_ok.mp hx
    dsimp only at hx
    unfold readVariant at hx
    cases hget : vs[tag.toNat]? with
    | none =>
        rw [hget] at hx
        cases hx
    | some v =>
        rw [hget] at hx
        obtain ⟨⟨y, _⟩, hy, heq⟩ := map_eq_ok.mp hx
        rw [← (Prod.mk.inj heq).1]
        exact (hcarries v (List.mem_of_getElem? hget)).fits _ y _ hy

end

end Crate

/-! ## §4. A crate with this layout. -/

namespace Standard

inductive ErrorKind where
  /-- The bytes end before the value does. -/
  | unexpectedEof
  | invalidUtf8Encoding
  | invalidValue (tag : UInt32)
  | custom
  deriving DecidableEq

variable {P α β : Type}

/-- The next bytes. -/
def take (n : ℕ) (bytes : List UInt8) :
    Except (Failure ErrorKind P) (Vector UInt8 n × List UInt8) :=
  if h : n ≤ bytes.length then
    .ok (⟨(bytes.take n).toArray, by simp [h]⟩, bytes.drop n)
  else .error (.error .unexpectedEof)

theorem take_append {n : ℕ} (v : Vector UInt8 n) (rest : List UInt8) :
    take (P := P) n (v.toList ++ rest) = .ok (v, rest) := by
  have hlength : v.toList.length = n := v.length_toList
  unfold take
  rw [dif_pos (by rw [List.length_append]; omega)]
  have hfront : (v.toList ++ rest).take n = v.toList := List.take_left' hlength
  have hrest : (v.toList ++ rest).drop n = rest := List.drop_left' hlength
  simp only [hfront, hrest]
  rfl

/-- An unsigned integer of some bytes. -/
def uint (n : ℕ) (toNat : α → ℕ) (ofNat : ℕ → α) : Format ErrorKind P α where
  write x := toLeBytes n (toNat x)
  read bytes := do
    let (v, rest) ← take n bytes
    return (ofNat (ofLeBytes v.toList), rest)

theorem uint_read {n : ℕ} {toNat : α → ℕ} {ofNat : ℕ → α} {bytes : List UInt8}
    (h : bytes.length = n) (rest : List UInt8) :
    (uint (P := P) n toNat ofNat).read (bytes ++ rest) = .ok (ofNat (ofLeBytes bytes), rest) := by
  have htake := take_append (P := P) ⟨bytes.toArray, h⟩ rest
  show (do
    let (v, rest) ← take n (bytes ++ rest)
    return (ofNat (ofLeBytes v.toList), rest)) = _
  rw [show take (P := P) n (bytes ++ rest) = _ from htake]
  rfl

def u8 : Format ErrorKind P UInt8 where
  write b := [b]
  read
    | [] => .error (.error .unexpectedEof)
    | b :: rest => .ok (b, rest)

def pair (f : Format ErrorKind P α) (g : Format ErrorKind P β) : Format ErrorKind P (α × β) where
  write x := f.write x.1 ++ g.write x.2
  read bytes := do
    let (x, bytes) ← f.read bytes
    let (y, rest) ← g.read bytes
    return ((x, y), rest)

def vec (f : Format ErrorKind P α) : Format ErrorKind P (List α) where
  write xs := toLeBytes 8 (UInt64.ofNat xs.length).toNat ++ xs.flatMap f.write
  read bytes := do
    let (n, bytes) ← (uint 8 UInt64.toNat UInt64.ofNat).read bytes
    f.readMany n.toNat bytes

def fromUtf8 (bytes : List UInt8) : Except (Failure ErrorKind P) String :=
  match String.fromUTF8? ⟨bytes.toArray⟩ with
  | some s => .ok s
  | none => .error (.error .invalidUtf8Encoding)

def enumWrite : List (Variant ErrorKind P α) → ℕ → α → List UInt8
  | [], _, _ => []
  | v :: vs, i, x =>
      match v.content x with
      | some y => toLeBytes 4 (UInt32.ofNat i).toNat ++ v.format.write y
      | none => enumWrite vs (i + 1) x

theorem enumWrite_build {vs : List (Variant ErrorKind P α)} (hvs : Disjoint vs) {i : ℕ}
    {v : Variant ErrorKind P α} (hget : vs[i]? = some v) (y : v.Content) (n : ℕ) :
    enumWrite vs n (v.build y) = toLeBytes 4 (UInt32.ofNat (n + i)).toNat ++ v.format.write y := by
  induction vs generalizing n i with
  | nil => cases hget
  | cons w vs ih =>
      obtain ⟨hfirst, hvs⟩ := List.pairwise_cons.mp hvs
      unfold enumWrite
      cases i with
      | zero =>
          obtain rfl : w = v := Option.some.inj hget
          rw [(w.content_eq_some _ y).mpr rfl]
          rfl
      | succ i =>
          rw [List.getElem?_cons_succ] at hget
          rw [hfirst v (List.mem_of_getElem? hget) y]
          show enumWrite vs (n + 1) (v.build y) = _
          rw [ih hvs hget (n + 1), Nat.add_assoc, Nat.add_comm 1]

end Standard

open Standard in
/-- A crate that writes and reads as documented. -/
def standard (P : Type) : Crate P where
  ErrorKind := ErrorKind
  custom _ := .custom
  invalidUtf8Encoding := .invalidUtf8Encoding
  invalidValue := .invalidValue
  u8 := Standard.u8
  u32 := uint 4 UInt32.toNat UInt32.ofNat
  u64 := uint 8 UInt64.toNat UInt64.ofNat
  array n := { write := Vector.toList, read := take n }
  string := (Standard.vec Standard.u8).convert (fun s => s.toUTF8.data.toList) fromUtf8
  pair := Standard.pair
  vec := Standard.vec
  btreeSet f := (Standard.vec f).convert BTreeSet.toList fun xs => .ok (BTreeSet.ofList xs)
  btreeMap f g := (Standard.vec (Standard.pair f g)).convert BTreeMap.entries fun es =>
    .ok (BTreeMap.collect es)
  enum vs := {
    write := enumWrite vs 0
    read := fun bytes => do
      let (tag, bytes) ← (uint 4 UInt32.toNat UInt32.ofNat).read bytes
      readVariant .invalidValue vs tag bytes }

theorem documented_standard (P : Type) : (standard P).Documented where
  u8_write _ := rfl
  u8_read _ _ := rfl
  u32_write _ := rfl
  u32_read _ rest h := Standard.uint_read h rest
  u64_write _ := rfl
  u64_read _ rest h := Standard.uint_read h rest
  u64_eof := ⟨_, rfl⟩
  array_write _ := rfl
  array_read v rest := Standard.take_append v rest
  string := rfl
  pair_write _ _ _ := rfl
  pair_read _ _ _ := rfl
  vec_write _ _ := rfl
  vec_read _ _ := rfl
  btreeSet _ := rfl
  btreeMap _ _ := rfl
  enum_write vs hvs i v y hget := by
    have hwrite := Standard.enumWrite_build hvs hget y 0
    rw [Nat.zero_add] at hwrite
    exact hwrite
  enum_read _ _ := rfl

end Mrv.Bincode
