/-
  Mrv.Primary.State — what the core of a primary keeps
  (`primary/src/core.rs`, `aggregators.rs`, `store/src/lib.rs`).

  The store maps byte strings to byte strings.  Three kinds of values are written
  to it: a header under its id, a certificate under its digest, and nothing under
  the digest of a batch followed by the id of the worker that holds it.  A value
  is kept as what was serialized; reading a certificate where something else was
  written is a serialization error.

  Left out: the signature service (signing is `Crypto.sign`), the handles of
  messages being sent (`cancel_handlers`), logging, and failures of the database,
  which stop the node.
-/
import Mrv.Primary.Verify
import Mrv.Lib.Handler

namespace Mrv

/-! ## §1. The store. -/

abbrev Key := List UInt8

/-- A value of the store. -/
inductive Record where
  | header (header : Header)
  | certificate (certificate : Certificate)
  /-- The empty value: one of our workers has the batch. -/
  | batch
  deriving DecidableEq

/-- `bincode::deserialize` where a certificate is expected. -/
def Record.toCertificate : Record → Except DagError Certificate
  | .certificate c => .ok c
  | _ => .error .serializationError

abbrev Store := HashMap Key Record

/-- The key under which a worker's batch is noted. -/
def batchKey (digest : Digest) (workerId : WorkerId) : Key :=
  digest.toVec ++ toLeBytes 4 workerId.toNat

theorem length_batchKey (digest : Digest) (workerId : WorkerId) :
    (batchKey digest workerId).length = 36 := by
  simp [batchKey, Digest.length_toVec, length_toLeBytes]

/-- The key of a batch is longer than a digest. -/
theorem toVec_ne_batchKey (d digest : Digest) (workerId : WorkerId) :
    d.toVec ≠ batchKey digest workerId := by
  intro h
  have hlength := congrArg List.length h
  rw [Digest.length_toVec, length_batchKey] at hlength
  omega

/-! ## §2. Aggregators. -/

/-- Aggregates votes for a particular header into a certificate. -/
structure VotesAggregator where
  weight : Stake
  votes : List (PublicKey × Signature)
  used : Finset PublicKey

namespace VotesAggregator

def new : VotesAggregator := { weight := 0, votes := [], used := ∅ }

/-- Adds a vote; the second component is the aggregator it leaves. -/
def append (a : VotesAggregator) (vote : Vote) (committee : Committee) (header : Header) :
    Except DagError (Option Certificate) × VotesAggregator :=
  -- Ensure it is the first time this authority votes.
  if vote.author ∈ a.used then (.error (.authorityReuse vote.author), a)
  else
    let votes := a.votes ++ [(vote.author, vote.signature)]
    let used := insert vote.author a.used
    let weight := a.weight + committee.stake vote.author
    if committee.quorumThreshold ≤ weight then
      -- The weight is reset, so that a quorum is reached once.
      (.ok (some { header, votes }), { weight := 0, votes, used })
    else (.ok none, { weight, votes, used })

end VotesAggregator

/-- Aggregate certificates and check if we reach a quorum. -/
structure CertificatesAggregator where
  weight : Stake
  certificates : List Digest
  used : Finset PublicKey

namespace CertificatesAggregator

def new : CertificatesAggregator := { weight := 0, certificates := [], used := ∅ }

/-- Adds a certificate; the first component is the quorum it completes, if it does. -/
def append [Crypto] (a : CertificatesAggregator) (certificate : Certificate)
    (committee : Committee) : Option (List Digest) × CertificatesAggregator :=
  if certificate.origin ∈ a.used then (none, a)
  else
    let certificates := a.certificates ++ [certificate.digest]
    let used := insert certificate.origin a.used
    let weight := a.weight + committee.stake certificate.origin
    if committee.quorumThreshold ≤ weight then
      (some certificates, { weight := 0, certificates := [], used })
    else (none, { weight, certificates, used })

end CertificatesAggregator

/-! ## §3. The core. -/

/-- The messages between primaries that reach the core. -/
inductive PrimaryMessage where
  | header (header : Header)
  | vote (vote : Vote)
  | certificate (certificate : Certificate)
  deriving DecidableEq

/-- The commands that can be sent to the `HeaderWaiter`. -/
inductive WaiterMessage where
  /-- The missing batches, a map from digest to worker. -/
  | syncBatches (missing : List (Digest × WorkerId)) (header : Header)
  | syncParents (missing : List Digest) (header : Header)

/-- The header a command is about. -/
def WaiterMessage.header : WaiterMessage → Header
  | .syncBatches _ header => header
  | .syncParents _ header => header

/-- Why the core stops. -/
inductive CorePanic where
  /-- Failed to process our own vote. -/
  | ownVote
  /-- Failed to process valid certificate. -/
  | validCertificate
  /-- Author of valid header is not in the committee. -/
  | notInCommittee
  /-- The bound on the nesting of handlers was exceeded; `Core.processHeader_depth`
  shows that this does not happen. -/
  | outOfFuel
  deriving DecidableEq

/-- How a handler of the core fails. -/
inductive Fault where
  | error (e : DagError)
  | panic (p : CorePanic)
  deriving DecidableEq

/-- An error that meets an `expect` is a panic; a panic goes on. -/
def Fault.expected (p : CorePanic) : Fault → Fault
  | .error _ => .panic p
  | .panic q => .panic q

/-- What does not change: our name, the committee, the depth of the collector. -/
structure Core where
  name : PublicKey
  committee : Committee
  gcDepth : ℕ

/-- A vote as it was created: the header it is for, the store at that moment, and the
certificates that had been accepted (stored, and sent to the consensus layer). -/
structure Cast where
  vote : Vote
  header : Header
  store : Store
  accepted : List Certificate

/-- The core's own data, the store, and what was sent on its channels. -/
structure Core.State where
  /-- The last garbage collected round. -/
  gcRound : ℕ
  /-- The authors of the last voted headers. -/
  lastVoted : HashMap ℕ (Finset PublicKey)
  /-- The set of headers we are currently processing. -/
  processing : HashMap ℕ (Finset Digest)
  /-- The last header we proposed (for which we are waiting votes). -/
  currentHeader : Header
  votesAggregator : VotesAggregator
  certificatesAggregators : HashMap ℕ CertificatesAggregator
  store : Store
  /-- Commands the `HeaderWaiter` has not taken yet. -/
  txHeaderWaiter : List WaiterMessage
  /-- Certificates the `CertificateWaiter` has not taken yet. -/
  txCertificateWaiter : List Certificate
  /-- All that was sent to the `Proposer`. -/
  txProposer : List (List Digest × ℕ)
  /-- All certificates sent to the consensus layer. -/
  txConsensus : List Certificate
  /-- All votes created. -/
  cast : List Cast
  /-- All messages sent to other primaries, with their addresses. -/
  network : List (List SocketAddr × PrimaryMessage)

/-- `Core::spawn`, over an empty store. -/
def Core.State.new : Core.State :=
  { gcRound := 0, lastVoted := ∅, processing := ∅, currentHeader := Header.default,
    votesAggregator := VotesAggregator.new, certificatesAggregators := ∅, store := ∅,
    txHeaderWaiter := [], txCertificateWaiter := [], txProposer := [], txConsensus := [],
    cast := [], network := [] }

/-- The authors whose header of a round we voted for, as far as remembered. -/
def Core.State.voted (s : Core.State) (round : ℕ) : Finset PublicKey :=
  (s.lastVoted.lookup round).getD ∅

/-- The ids of the headers of a round that we are processing. -/
def Core.State.inProcess (s : Core.State) (round : ℕ) : Finset Digest :=
  (s.processing.lookup round).getD ∅

end Mrv
