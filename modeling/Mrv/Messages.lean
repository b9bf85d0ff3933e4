/-
  Mrv.Messages — headers, votes, certificates (`primary/src/messages.rs`).

  A digest is the hash of a byte string, and the byte strings are spelled out
  below field by field.  A certificate's digest covers the id, the round and the
  author of its header, and the hand-written equality compares the same three.

  Rounds (`Round = u64`) are natural numbers: the additions on them stay far from
  the limit of the type, and a subtraction below zero is treated where it occurs.
-/
import Mrv.Config
import Mrv.Lib.HashMap
import Mrv.Lib.Except

namespace Mrv

/-! ## §1. Errors (`primary/src/error.rs`). -/

inductive DagError where
  /-- Invalid signature. -/
  | invalidSignature
  /-- Serialization error. -/
  | serializationError
  /-- Invalid header id. -/
  | invalidHeaderId
  /-- Malformed header. -/
  | malformedHeader (id : Digest)
  /-- Received message from unknown authority. -/
  | unknownAuthority (name : PublicKey)
  /-- Authority appears in quorum more than once. -/
  | authorityReuse (name : PublicKey)
  /-- Received unexpected vote for header. -/
  | unexpectedVote (id : Digest)
  /-- Received certificate without a quorum. -/
  | certificateRequiresQuorum
  /-- Parents of header are not a quorum. -/
  | headerRequiresQuorum (id : Digest)
  /-- Message too old. -/
  | tooOld (id : Digest) (round : ℕ)
  deriving DecidableEq

/-! ## §2. Headers. -/

structure Header where
  author : PublicKey
  round : ℕ
  payload : BTreeMap Digest WorkerId
  parents : BTreeSet Digest
  id : Digest
  signature : Signature
  deriving DecidableEq

namespace Header

/-- `Header::default()`. -/
def default : Header :=
  { author := PublicKey.default, round := 0, payload := ∅, parents := ∅,
    id := Digest.default, signature := Signature.default }

instance : Inhabited Header := ⟨default⟩

variable [Crypto]

/-- The bytes `Header::digest` feeds to the hash. -/
def digestInput (h : Header) : List UInt8 :=
  h.author.toVec ++ toLeBytes 8 h.round
    ++ h.payload.entries.flatMap (fun e => e.1.toVec ++ toLeBytes 4 e.2.toNat)
    ++ h.parents.toList.flatMap Digest.toVec

def digest (h : Header) : Digest := Crypto.sha512 h.digestInput

/-- `Header::new`: a header of ours, hashed and signed. -/
def new (author : PublicKey) (round : ℕ) (payload : BTreeMap Digest WorkerId)
    (parents : BTreeSet Digest) : Header :=
  let header : Header :=
    { author, round, payload, parents, id := Digest.default, signature := Signature.default }
  { header with id := header.digest, signature := Crypto.sign author header.digest }

/-- Ensure all worker ids are correct. -/
def verifyWorkers (h : Header) (committee : Committee) : Except DagError Unit :=
  h.payload.values.forM (fun workerId =>
    match committee.worker h.author workerId with
    | .ok _ => .ok ()
    | .error _ => .error (.malformedHeader h.id))

def verify (h : Header) (committee : Committee) : Except DagError Unit := do
  -- Ensure the header id is well formed.
  ensure (decide (h.digest = h.id)) .invalidHeaderId
  -- Ensure the authority has voting rights.
  ensure (decide (0 < committee.stake h.author)) (.unknownAuthority h.author)
  h.verifyWorkers committee
  -- Check the signature.
  ensure (Crypto.verify h.signature h.id h.author) .invalidSignature

end Header

/-! ## §3. Votes. -/

structure Vote where
  id : Digest
  round : ℕ
  origin : PublicKey
  author : PublicKey
  signature : Signature
  deriving DecidableEq

/-- The digest a vote or a certificate signs: header id, round, header author. -/
def certifiedDigest [Crypto] (id : Digest) (round : ℕ) (origin : PublicKey) : Digest :=
  Crypto.sha512 (id.toVec ++ toLeBytes 8 round ++ origin.toVec)

namespace Vote

variable [Crypto]

def digest (v : Vote) : Digest := certifiedDigest v.id v.round v.origin

/-- `Vote::new`: our vote for a header, signed by us. -/
def new (header : Header) (author : PublicKey) : Vote :=
  { id := header.id, round := header.round, origin := header.author, author := author,
    signature := Crypto.sign author (certifiedDigest header.id header.round header.author) }

def verify (v : Vote) (committee : Committee) : Except DagError Unit := do
  -- Ensure the authority has voting rights.
  ensure (decide (0 < committee.stake v.author)) (.unknownAuthority v.author)
  -- Check the signature.
  ensure (Crypto.verify v.signature v.digest v.author) .invalidSignature

end Vote

/-! ## §4. Certificates. -/

structure Certificate where
  header : Header
  votes : List (PublicKey × Signature)
  deriving DecidableEq

namespace Certificate

/-- The certificate of round 0 of an authority. -/
def genesisOf (name : PublicKey) : Certificate :=
  { header := { Header.default with author := name }, votes := [] }

/-- One certificate of round 0 per authority. -/
def genesis (committee : Committee) : List Certificate :=
  committee.authorities.keys.map genesisOf

def round (c : Certificate) : ℕ := c.header.round

def origin (c : Certificate) : PublicKey := c.header.author

/-- `impl PartialEq for Certificate`. -/
def eq (c other : Certificate) : Bool :=
  decide (c.header.id = other.header.id) && decide (c.round = other.round)
    && decide (c.origin = other.origin)

theorem eq_iff {c other : Certificate} :
    c.eq other = true ↔
      c.header.id = other.header.id ∧ c.round = other.round ∧ c.origin = other.origin := by
  simp [eq, and_assoc]

@[simp] theorem eq_self (c : Certificate) : c.eq c = true := by simp [eq]

variable [Crypto]

def digest (c : Certificate) : Digest := certifiedDigest c.header.id c.round c.origin

/-- The loop of `verify` over the votes: no authority twice, all with stake; the
weight wraps as `u32` addition does. -/
def verifyVotes (committee : Committee) :
    List (PublicKey × Signature) → Stake → Finset PublicKey → Except DagError Stake
  | [], weight, _ => .ok weight
  | (name, _) :: votes, weight, used => do
      ensure (decide (name ∉ used)) (.authorityReuse name)
      let votingRights := committee.stake name
      ensure (decide (0 < votingRights)) (.unknownAuthority name)
      verifyVotes committee votes (weight + votingRights) (insert name used)

/-- The checks of `verify` on a certificate that is not let through as genesis. -/
def verifyQuorum (c : Certificate) (committee : Committee) : Except DagError Unit := do
  -- Check the embedded header.
  c.header.verify committee
  -- Ensure the certificate has a quorum.
  let weight ← verifyVotes committee c.votes 0 ∅
  ensure (decide (committee.quorumThreshold ≤ weight)) .certificateRequiresQuorum
  -- Check the signatures.
  ensure (Crypto.verifyBatch c.digest c.votes) .invalidSignature

def verify (c : Certificate) (committee : Committee) : Except DagError Unit :=
  -- Genesis certificates are always valid.
  if (genesis committee).any (fun g => g.eq c) then .ok () else c.verifyQuorum committee

end Certificate

/-! ## §5. Genesis certificates. -/

namespace Certificate

@[simp] theorem round_genesisOf (name : PublicKey) : (genesisOf name).round = 0 := rfl

@[simp] theorem origin_genesisOf (name : PublicKey) : (genesisOf name).origin = name := rfl

theorem mem_genesis {committee : Committee} {g : Certificate} :
    g ∈ genesis committee ↔ ∃ name ∈ committee.members, g = genesisOf name := by
  simp [genesis, Committee.members, eq_comm]

theorem round_of_mem_genesis {committee : Committee} {g : Certificate}
    (h : g ∈ genesis committee) : g.round = 0 := by
  obtain ⟨name, _, rfl⟩ := mem_genesis.mp h
  rfl

theorem parents_of_mem_genesis {committee : Committee} {g : Certificate}
    (h : g ∈ genesis committee) : g.header.parents = ∅ := by
  obtain ⟨name, _, rfl⟩ := mem_genesis.mp h
  rfl

/-- A certificate for examples: of a round and an author, with parents by the given
authors in the round below. -/
def sample (round author : ℕ) (parents : List ℕ) : Certificate :=
  { header := {
      author := sampleKey author
      round := round
      payload := ∅
      parents := BTreeSet.ofList (parents.map (sampleDigest (round - 1)))
      id := sampleDigest round author
      signature := Signature.default }
    votes := [] }

end Certificate

end Mrv
