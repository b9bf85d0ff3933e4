/-
  Mrv.Primary.Hashing — what the primary needs of the hash.

  Header ids and certificate digests are hashes of byte strings, and headers and
  certificates share one store that is keyed by them.  `Hashing` is the assumption on the
  hash: no two of the strings hashed for the headers at hand collide.  It is an assumption
  on the headers that are let in only (`Header.Genuine`), because what is stopped at the
  door may well spell the string of a genesis certificate.

  The rest is read off the strings.  A certificate's string has a fixed layout, so that
  its digest tells header id, round and author.  A header's string tells author and
  round, but not where its payload ends: headers of one id have the same content if they
  have the same number of batches, and `Unambiguous` sets says that they have.

    * `Hashing.separated` — what digests tell apart.
-/
import Mrv.Commitment
import Mrv.Primary.Verify

namespace Mrv

open Encoding (FixedWidth)

variable [Crypto]

/-! ## §1. The headers that are let in. -/

/-- A header of the committee that hashes to its id, or is taken for genesis. -/
def Header.Genuine (committee : Committee) (h : Header) : Prop :=
  (h.digest = h.id ∧ h.author ∈ committee.members) ∨ (h.id = Digest.default ∧ h.round = 0)

/-- Headers of the same content, whatever their signatures. -/
structure Header.Same (x y : Header) : Prop where
  id : x.id = y.id
  author : x.author = y.author
  round : x.round = y.round
  payload : x.payload = y.payload
  parents : x.parents = y.parents

/-- The bytes hashed for the certificates of a header. -/
def Header.certifiedInput (h : Header) : List UInt8 :=
  h.id.toVec ++ toLeBytes 8 h.round ++ h.author.toVec

/-- The digest of the certificates of a header. -/
def Header.certified (h : Header) : Digest := certifiedDigest h.id h.round h.author

section

variable {h x y z : Header} {c : Certificate} {committee : Committee}

theorem Certificate.digest_eq (c : Certificate) : c.digest = c.header.certified := rfl

theorem Header.certified_eq (h : Header) : h.certified = Crypto.sha512 h.certifiedInput := rfl

omit [Crypto] in
theorem Header.Same.refl (h : Header) : h.Same h := ⟨rfl, rfl, rfl, rfl, rfl⟩

omit [Crypto] in
theorem Header.Same.symm (h : x.Same y) : y.Same x :=
  ⟨h.id.symm, h.author.symm, h.round.symm, h.payload.symm, h.parents.symm⟩

omit [Crypto] in
theorem Header.Same.trans (h : x.Same y) (h' : y.Same z) : x.Same z :=
  ⟨h.id.trans h'.id, h.author.trans h'.author, h.round.trans h'.round,
    h.payload.trans h'.payload, h.parents.trans h'.parents⟩

theorem Header.Same.certified (h : x.Same y) : x.certified = y.certified := by
  unfold Header.certified
  rw [h.id, h.round, h.author]

/-- A header that passes its own check hashes to its id. -/
theorem Header.digest_of_verify (hok : h.verify committee = .ok ()) : h.digest = h.id := by
  unfold Header.verify at hok
  rw [ensure_bind_eq_ok, decide_eq_true_eq] at hok
  exact hok.1

/-- Its author has stake. -/
theorem Header.member_of_verify (hok : h.verify committee = .ok ()) :
    h.author ∈ committee.members := by
  unfold Header.verify at hok
  obtain ⟨_, hok⟩ := ensure_bind_eq_ok.mp hok
  have hstake := UInt32.lt_iff_toNat_lt.mp (of_decide_eq_true (ensure_bind_eq_ok.mp hok).1)
  exact Committee.member_of_weight hstake

/-- A header of ours hashes to its id. -/
theorem Header.digest_new (author : PublicKey) (round : ℕ) (payload : BTreeMap Digest WorkerId)
    (parents : BTreeSet Digest) :
    (Header.new author round payload parents).digest
      = (Header.new author round payload parents).id := rfl

theorem Header.genuine_default : Header.default.Genuine committee := Or.inr ⟨rfl, rfl⟩

theorem Header.Admitted.genuine (hadmitted : h.Admitted committee) : h.Genuine committee := by
  obtain hok | ⟨hid, hround, _⟩ := hadmitted
  · exact Or.inl ⟨Header.digest_of_verify hok, Header.member_of_verify hok⟩
  · exact Or.inr ⟨hid, hround⟩

/-- Above round 0 nothing is taken for genesis. -/
theorem Header.Genuine.hashed (hgenuine : h.Genuine committee) (hround : 0 < h.round) :
    h.digest = h.id := by
  obtain ⟨hdigest, _⟩ | ⟨_, hzero⟩ := hgenuine
  · exact hdigest
  · omega

end

/-! ## §2. The assumption. -/

/-- The headers of a set and those of the genesis certificates. -/
def withGenesisHeaders (committee : Committee) (X : Set Header) : Set Header :=
  X ∪ {h | ∃ g ∈ Certificate.genesis committee, g.header = h}

/-- The strings hashed for the headers of a set: for the headers that hash to their ids, and
for the certificates. -/
def hashedStrings (committee : Committee) (X : Set Header) : Set (List UInt8) :=
  {bytes | (∃ x ∈ X, x.digest = x.id ∧ x.digestInput = bytes) ∨
    ∃ y ∈ withGenesisHeaders committee X, y.certifiedInput = bytes}

/-- **The hash has no collisions** on the headers of a set. -/
structure Hashing (committee : Committee) (X : Set Header) : Prop where
  /-- No two of the strings have one hash. -/
  injective : Set.InjOn Crypto.sha512 (hashedStrings committee X)
  /-- No certificate hashes to the zero digest. -/
  nonzero : ∀ y ∈ withGenesisHeaders committee X, y.certified ≠ Digest.default
  /-- No header without batches is by an author whose key is the id of a header. -/
  keys : ∀ x ∈ X, x.digest = x.id → x.payload.entries = [] →
    ∀ y ∈ withGenesisHeaders committee X, x.author.toVec ≠ y.id.toVec
  /-- Rounds are of 64 bits. -/
  rounds : ∀ x ∈ X, x.round < 2 ^ 64

/-- Headers of one id in a set have as many batches, so that the id commits to the content. -/
def Unambiguous (Y : Set Header) : Prop :=
  ∀ x ∈ Y, ∀ y ∈ Y, x.digest = x.id → y.digest = y.id → x.id = y.id →
    x.payload.entries.length = y.payload.entries.length

/-! ## §3. What digests tell apart. -/

/-- What the digests of headers and certificates tell apart. -/
structure Separated (committee : Committee) (X : Set Header) : Prop where
  certified : ∀ x ∈ withGenesisHeaders committee X, ∀ y ∈ withGenesisHeaders committee X,
    x.certified = y.certified → x.id = y.id ∧ x.round = y.round ∧ x.author = y.author
  apart : ∀ x ∈ X, ∀ y ∈ withGenesisHeaders committee X, x.id ≠ y.certified
  identified : ∀ x ∈ X, ∀ y ∈ X, x.digest = x.id → y.digest = y.id → x.id = y.id →
    x.author = y.author ∧ x.round = y.round
  committed : ∀ x ∈ X, ∀ y ∈ X, x.digest = x.id → y.digest = y.id → x.id = y.id →
    x.payload.entries.length = y.payload.entries.length → x.Same y

section

variable {committee : Committee} {X Y : Set Header} {x y : Header}

omit [Crypto] in
/-- A certificate's string can be read off. -/
theorem Header.certifiedInput_inj (hx : x.round < 2 ^ 64) (hy : y.round < 2 ^ 64)
    (heq : x.certifiedInput = y.certifiedInput) :
    x.id = y.id ∧ x.round = y.round ∧ x.author = y.author := by
  unfold certifiedInput at heq
  rw [List.append_assoc, List.append_assoc] at heq
  obtain ⟨hid, heq⟩ := fixedWidth_digest.append_inj heq
  obtain ⟨hbytes, hauthor⟩ := List.append_inj heq (by rw [length_toLeBytes, length_toLeBytes])
  exact ⟨hid, toLeBytes_inj (k := 8) hx hy hbytes, PublicKey.toVec_injective hauthor⟩

omit [Crypto] in
/-- A header's string is that of a certificate only without batches, with the author's key in
the place of the id. -/
theorem Header.eq_of_digestInput (heq : x.digestInput = y.certifiedInput) :
    x.payload.entries = [] ∧ x.author.toVec = y.id.toVec := by
  unfold digestInput certifiedInput at heq
  have hlength := congrArg List.length heq
  simp only [List.append_assoc, List.length_append, PublicKey.length_toVec, Digest.length_toVec,
    length_toLeBytes, fixedWidth_payload.length_flatMap] at hlength
  refine ⟨List.eq_nil_of_length_eq_zero (by omega), ?_⟩
  simp only [List.append_assoc] at heq
  exact (List.append_inj heq (by rw [PublicKey.length_toVec, Digest.length_toVec])).1

omit [Crypto] in
theorem withGenesisHeaders_mono (hsub : X ⊆ Y) :
    withGenesisHeaders committee X ⊆ withGenesisHeaders committee Y :=
  Set.union_subset_union_left _ hsub

/-- A set with fewer headers. -/
theorem Hashing.mono (h : Hashing committee Y) (hsub : X ⊆ Y) : Hashing committee X := by
  have hmem : withGenesisHeaders committee X ⊆ withGenesisHeaders committee Y :=
    withGenesisHeaders_mono hsub
  refine ⟨h.injective.mono ?_, fun y hy => h.nonzero y (hmem hy),
    fun x hx hdigest hnone y hy => h.keys x (hsub hx) hdigest hnone y (hmem hy),
    fun x hx => h.rounds x (hsub hx)⟩
  rintro bytes (⟨x, hx, hdigest, hbytes⟩ | ⟨y, hy, hbytes⟩)
  · exact Or.inl ⟨x, hsub hx, hdigest, hbytes⟩
  · exact Or.inr ⟨y, hmem hy, hbytes⟩

theorem Hashing.rounds_withGenesis (h : Hashing committee X) :
    ∀ y ∈ withGenesisHeaders committee X, y.round < 2 ^ 64 := by
  rintro y (hy | ⟨g, hg, rfl⟩)
  · exact h.rounds y hy
  · rw [show g.header.round = 0 from Certificate.round_of_mem_genesis hg]
    decide

/-- Headers that hash to one id have one string. -/
theorem Hashing.digestInput_eq (h : Hashing committee X) (hx : x ∈ X) (hy : y ∈ X)
    (hxd : x.digest = x.id) (hyd : y.digest = y.id) (hid : x.id = y.id) :
    x.digestInput = y.digestInput :=
  h.injective (Or.inl ⟨x, hx, hxd, rfl⟩) (Or.inl ⟨y, hy, hyd, rfl⟩)
    (hxd.trans (hid.trans hyd.symm))

/-- **What digests tell apart**: certificates of different headers, authors or rounds,
certificates and headers, headers of different authors or rounds, and those of different
content that have the same number of batches. -/
theorem Hashing.separated (h : Hashing committee X) (honly : ∀ x ∈ X, x.Genuine committee) :
    Separated committee X where
  certified := fun x hx y hy heq => by
    rw [x.certified_eq, y.certified_eq] at heq
    have hinput := h.injective (Or.inr ⟨x, hx, rfl⟩) (Or.inr ⟨y, hy, rfl⟩) heq
    exact Header.certifiedInput_inj (h.rounds_withGenesis x hx) (h.rounds_withGenesis y hy) hinput
  apart := fun x hx y hy heq => by
    obtain ⟨hdigest, _⟩ | ⟨hzero, _⟩ := honly x hx
    · rw [← hdigest, y.certified_eq] at heq
      have hinput := h.injective (Or.inl ⟨x, hx, hdigest, rfl⟩) (Or.inr ⟨y, hy, rfl⟩) heq
      obtain ⟨hnone, hkey⟩ := Header.eq_of_digestInput hinput
      exact h.keys x hx hdigest hnone y hy hkey
    · exact h.nonzero y hy (heq.symm.trans hzero)
  identified := fun x hx y hy hxd hyd hid => by
    have hinput := h.digestInput_eq hx hy hxd hyd hid
    obtain ⟨hauthor, hround, _⟩ := Header.digestInput_inj (h.rounds x hx) (h.rounds y hy) hinput
    exact ⟨hauthor, hround⟩
  committed := fun x hx y hy hxd hyd hid hlength => by
    have hinput := h.digestInput_eq hx hy hxd hyd hid
    have hsame := Header.sameContent_of_length (h.rounds x hx) (h.rounds y hy) hinput hlength
    exact ⟨hid, hsame.author, hsame.round, hsame.payload, hsame.parents⟩

/-- The headers of a list and those of the genesis certificates. -/
def headersWithGenesis (committee : Committee) (l : List Header) : List Header :=
  l ++ (Certificate.genesis committee).map Certificate.header

/-- The strings hashed for the headers of a list. -/
def stringsOf (committee : Committee) (l : List Header) : List (List UInt8) :=
  (l.filter (fun x => decide (x.digest = x.id))).map Header.digestInput
    ++ (headersWithGenesis committee l).map Header.certifiedInput

omit [Crypto] in
theorem mem_headersWithGenesis {l : List Header} :
    ∀ y ∈ withGenesisHeaders committee {x | x ∈ l}, y ∈ headersWithGenesis committee l := by
  rintro y (hy | ⟨g, hg, rfl⟩)
  · exact List.mem_append_left _ hy
  · exact List.mem_append_right _ (List.mem_map_of_mem hg)

/-- The assumption on a list of headers, tested. -/
theorem hashing_of_list {l : List Header}
    (hinjective : ∀ s ∈ stringsOf committee l, ∀ t ∈ stringsOf committee l,
      Crypto.sha512 s = Crypto.sha512 t → s = t)
    (hnonzero : ∀ y ∈ headersWithGenesis committee l, y.certified ≠ Digest.default)
    (hkeys : ∀ x ∈ l, x.digest = x.id → x.payload.entries = [] →
      ∀ y ∈ headersWithGenesis committee l, x.author.toVec ≠ y.id.toVec)
    (hrounds : ∀ x ∈ l, x.round < 2 ^ 64) : Hashing committee {x | x ∈ l} := by
  have hmem : ∀ bytes ∈ hashedStrings committee {x | x ∈ l}, bytes ∈ stringsOf committee l := by
    rintro bytes (⟨x, hx, hdigest, rfl⟩ | ⟨y, hy, rfl⟩)
    · refine List.mem_append_left _ (List.mem_map_of_mem (List.mem_filter.mpr ⟨hx, ?_⟩))
      exact decide_eq_true hdigest
    · exact List.mem_append_right _ (List.mem_map_of_mem (mem_headersWithGenesis y hy))
  exact ⟨fun s hs t ht => hinjective s (hmem s hs) t (hmem t ht),
    fun y hy => hnonzero y (mem_headersWithGenesis y hy),
    fun x hx hdigest hnone y hy => hkeys x hx hdigest hnone y (mem_headersWithGenesis y hy),
    hrounds⟩

theorem Separated.mono (h : Separated committee Y) (hsub : X ⊆ Y) : Separated committee X := by
  have hmem : withGenesisHeaders committee X ⊆ withGenesisHeaders committee Y :=
    withGenesisHeaders_mono hsub
  exact ⟨fun x hx y hy => h.certified x (hmem hx) y (hmem hy),
    fun x hx y hy => h.apart x (hsub hx) y (hmem hy),
    fun x hx y hy => h.identified x (hsub hx) y (hsub hy),
    fun x hx y hy => h.committed x (hsub hx) y (hsub hy)⟩

/-- Headers that are certified alike are of one round and author, and have the same content
where that is unambiguous. -/
theorem Separated.same_of_certified (h : Separated committee X)
    (honly : ∀ x ∈ X, x.Genuine committee) (hYX : Y ⊆ X) (hunambiguous : Unambiguous Y)
    (hx : x ∈ Y) (hy : y ∈ Y) (hround : 0 < y.round) (hcertified : x.certified = y.certified) :
    x.Same y := by
  obtain ⟨hid, hrounds, _⟩ := h.certified x (Or.inl (hYX hx)) y (Or.inl (hYX hy)) hcertified
  have hxd := (honly x (hYX hx)).hashed (hrounds ▸ hround)
  have hyd := (honly y (hYX hy)).hashed hround
  exact h.committed x (hYX hx) y (hYX hy) hxd hyd hid (hunambiguous x hx y hy hxd hyd hid)

end

end Mrv
