/-
  Mrv.Commitment — what a header id commits to.

  `Header::digest` hashes the author, the round, the payload records of 36 bytes and the
  parents of 32 bytes, one after the other and without their numbers.  Eight records are
  as long as nine parents, so one string can be that of two headers.  It is that of one
  header among those with the same number of payload entries (`header_committed_iff`).
-/
import Mrv.Messages
import Mrv.Lib.Encoding

namespace Mrv

open Encoding (FixedWidth)

/-! ## §1. The parts of the string. -/

theorem fixedWidth_publicKey : FixedWidth PublicKey.toVec 32 :=
  ⟨PublicKey.length_toVec, PublicKey.toVec_injective⟩

theorem fixedWidth_digest : FixedWidth Digest.toVec 32 :=
  ⟨Digest.length_toVec, Digest.toVec_injective⟩

theorem fixedWidth_workerId : FixedWidth (fun id : WorkerId => toLeBytes 4 id.toNat) 4 where
  length := fun id => length_toLeBytes 4 id.toNat
  injective := by
    intro a b h
    have hbound : ∀ id : WorkerId, id.toNat < 256 ^ 4 := fun id => id.toNat_lt
    exact UInt32.toNat_inj.mp (toLeBytes_inj (hbound a) (hbound b) h)

/-- The records of the payload: digest and worker id. -/
theorem fixedWidth_payload :
    FixedWidth (fun e : Digest × WorkerId => e.1.toVec ++ toLeBytes 4 e.2.toNat) 36 :=
  fixedWidth_digest.pair fixedWidth_workerId

/-! ## §2. Headers. -/

namespace Header

variable {h h' : Header}

/-- Author, round, payload and parents are the same. -/
structure SameContent (h h' : Header) : Prop where
  author : h.author = h'.author
  round : h.round = h'.round
  payload : h.payload = h'.payload
  parents : h.parents = h'.parents

/-- The author and the round are always fixed; payload and parents share the rest of the
string. -/
theorem digestInput_inj (hround : h.round < 2 ^ 64) (hround' : h'.round < 2 ^ 64)
    (heq : h.digestInput = h'.digestInput) :
    h.author = h'.author ∧ h.round = h'.round ∧
      h.payload.entries.flatMap (fun e => e.1.toVec ++ toLeBytes 4 e.2.toNat) ++
          h.parents.toList.flatMap Digest.toVec =
        h'.payload.entries.flatMap (fun e => e.1.toVec ++ toLeBytes 4 e.2.toNat) ++
          h'.parents.toList.flatMap Digest.toVec := by
  unfold digestInput at heq
  simp only [List.append_assoc] at heq
  obtain ⟨hauthor, heq⟩ := fixedWidth_publicKey.append_inj heq
  obtain ⟨hbytes, heq⟩ := List.append_inj heq (by rw [length_toLeBytes, length_toLeBytes])
  exact ⟨hauthor, toLeBytes_inj (k := 8) hround hround' hbytes, heq⟩

/-- The numbers of payload entries of two headers with one string differ by a multiple of
eight, those of parents by the same multiple of nine. -/
theorem counts_of_digestInput_eq (hround : h.round < 2 ^ 64) (hround' : h'.round < 2 ^ 64)
    (heq : h.digestInput = h'.digestInput) :
    36 * h.payload.entries.length + 32 * h.parents.toList.length =
      36 * h'.payload.entries.length + 32 * h'.parents.toList.length :=
  fixedWidth_payload.length_tradeoff fixedWidth_digest (digestInput_inj hround hround' heq).2.2

/-- With as many payload entries in the one as in the other, the string can be read off. -/
theorem sameContent_of_length (hround : h.round < 2 ^ 64) (hround' : h'.round < 2 ^ 64)
    (heq : h.digestInput = h'.digestInput)
    (hlength : h.payload.entries.length = h'.payload.entries.length) : SameContent h h' := by
  obtain ⟨hauthor, hround, hrest⟩ := digestInput_inj hround hround' heq
  obtain ⟨hpayload, hparents⟩ := fixedWidth_payload.flatMap_append_inj hlength hrest
  have hdigests := fixedWidth_digest.flatMap_injective (by decide) hparents
  exact ⟨hauthor, hround, BTreeMap.ext hpayload, BTreeSet.ext hdigests⟩

/-- **When a header id commits to the content**: two headers with one hashed string have the
same content exactly if they have the same number of payload entries. -/
theorem header_committed_iff (hround : h.round < 2 ^ 64) (hround' : h'.round < 2 ^ 64)
    (heq : h.digestInput = h'.digestInput) :
    SameContent h h' ↔ h.payload.entries.length = h'.payload.entries.length := by
  constructor
  · intro hsame
    rw [hsame.payload]
  · exact sameContent_of_length hround hround' heq

/-! ## §3. A string of two headers. -/

/-- A header for examples: eight batches and no parents. -/
def sampleBatches : Header :=
  { default with
    round := 1
    payload := ⟨(List.range 8).map (fun i =>
      (⟨BitVec.ofNat 256 (i * 2 ^ 248 + i * 2 ^ (32 * i - 8))⟩, 0)), by decide +kernel⟩ }

/-- A header for examples: nine parents and no batch. -/
def sampleParents : Header :=
  { default with
    round := 1
    parents := ⟨(List.range 9).map (fun j =>
      ⟨BitVec.ofNat 256 ((j - 1) * 2 ^ 248 + j % 8 * 2 ^ (248 - 32 * j))⟩), by decide +kernel⟩ }

set_option maxRecDepth 10000 in
theorem digestInput_sampleBatches : sampleBatches.digestInput = sampleParents.digestInput := by
  decide +kernel

/-- The two headers differ in the number of payload entries. -/
theorem header_committed_iff_sample : ¬ SameContent sampleBatches sampleParents := by
  rw [header_committed_iff (by decide) (by decide) digestInput_sampleBatches]
  decide

/-- One string is hashed for two headers. -/
theorem header_ambiguous :
    ¬ ∀ h h' : Header, h.round < 2 ^ 64 → h'.round < 2 ^ 64 →
      h.digestInput = h'.digestInput → SameContent h h' := by
  intro hclaim
  have hsame := hclaim sampleBatches sampleParents (by decide) (by decide) digestInput_sampleBatches
  exact absurd (congrArg (fun m => m.entries.length) hsame.payload) (by decide)

end Header

end Mrv
