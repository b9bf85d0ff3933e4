/-
  Mrv.Primary.Core — the handlers of the core (`primary/src/core.rs`,
  `primary/src/synchronizer.rs`).

  `process_header`, `process_vote` and `process_certificate` call each other.  Each
  is defined here in terms of the one it calls, and `processHeader` ties the knot
  with a bound on the nesting.  A vote of our own closes the only cycle, and the
  aggregator takes one vote of ours, so two levels are enough
  (`processHeader_depth`).
-/
import Mrv.Primary.State

namespace Mrv

variable [Crypto]

namespace Core

abbrev Handler (α : Type) := Mrv.Handler State Fault α

variable (self : Core)

/-! ## §1. The synchronizer. -/

/-- The genesis and its digests. -/
def genesis : List (Digest × Certificate) :=
  (Certificate.genesis self.committee).map (fun x => (x.digest, x))

/-- The parents at hand, and the digests of the missing ones. -/
def findParents (store : Store) : List Digest → Except DagError (List Certificate × List Digest)
  | [] => .ok ([], [])
  | digest :: digests =>
      match self.genesis.find? (fun x => decide (x.1 = digest)) with
      | some (_, genesis) => do
          let (parents, missing) ← findParents store digests
          return (genesis :: parents, missing)
      | none =>
          match store.lookup digest.toVec with
          | some record => do
              let certificate ← record.toCertificate
              let (parents, missing) ← findParents store digests
              return (certificate :: parents, missing)
          | none => do
              let (parents, missing) ← findParents store digests
              return (parents, digest :: missing)

/-- `tx_header_waiter.send`. -/
def syncHeader (message : WaiterMessage) : Handler Unit :=
  modify (fun s => { s with txHeaderWaiter := s.txHeaderWaiter ++ [message] })

/-- Returns the parents of a header if we have them all, else an empty vector. -/
def getParents (header : Header) : Handler (List Certificate) := do
  let s ← get
  let (parents, missing) ← .ofExcept Fault.error (self.findParents s.store header.parents.toList)
  if missing = [] then pure parents
  else do
    syncHeader (.syncParents missing header)
    pure []

/-- The batches of a header that no worker has. -/
def missingBatches (store : Store) (header : Header) : List (Digest × WorkerId) :=
  header.payload.entries.filter (fun e => (store.lookup (batchKey e.1 e.2)).isNone)

/-- Whether part of the payload is missing; if so the `HeaderWaiter` will ask for it. -/
def missingPayload (header : Header) : Handler Bool :=
  -- We don't store the payload of our own workers.
  if header.author = self.name then pure false
  else do
    let s ← get
    if missingBatches s.store header = [] then pure false
    else do
      syncHeader (.syncBatches (missingBatches s.store header) header)
      pure true

/-- Whether a digest is one of genesis or a key of the store. -/
def hasParent (store : Store) (digest : Digest) : Bool :=
  self.genesis.any (fun x => decide (x.1 = digest)) || (store.lookup digest.toVec).isSome

/-- Whether we have all the parents of the certificate; if not it goes to the
`CertificateWaiter`. -/
def deliverCertificate (certificate : Certificate) : Handler Bool := do
  let s ← get
  if certificate.header.parents.toList.all (self.hasParent s.store) then pure true
  else do
    modify (fun s => { s with txCertificateWaiter := s.txCertificateWaiter ++ [certificate] })
    pure false

/-! ## §2. Steps of the handlers. -/

/-- Indicate that we are processing a header. -/
def markProcessing (header : Header) : Handler Unit :=
  modify (fun s => { s with
    processing := s.processing.insert header.round
      (insert header.id (s.inProcess header.round)) })

/-- The loop over the parents: all are from the previous round; returns their stake. -/
def checkParents (header : Header) : List Certificate → Stake → Except DagError Stake
  | [], stake => .ok stake
  | x :: parents, stake => do
      ensure (decide (x.round + 1 = header.round)) (.malformedHeader header.id)
      checkParents header parents (stake + self.committee.stake x.origin)

/-- `store.write`. -/
def write (key : Key) (record : Record) : Handler Unit :=
  modify (fun s => { s with store := s.store.insert key record })

/-- `last_voted.entry(round).insert(author)`: whether the author was not in it. -/
def takeVote (header : Header) : Handler Bool :=
  modifyGet (fun s => (decide (header.author ∉ s.voted header.round),
    { s with
      lastVoted := s.lastVoted.insert header.round
        (insert header.author (s.voted header.round)) }))

/-- Our vote for a header, as it is created now. -/
def castNow (header : Header) (s : State) : Cast :=
  { vote := Vote.new header self.name, header, store := s.store, accepted := s.txConsensus }

/-- Make a vote. -/
def createVote (header : Header) : Handler Vote :=
  modifyGet (fun s => (Vote.new header self.name,
    { s with cast := s.cast ++ [self.castNow header s] }))

/-- Send a message to other primaries. -/
def send (addresses : List SocketAddr) (message : PrimaryMessage) : Handler Unit :=
  modify (fun s => { s with network := s.network ++ [(addresses, message)] })

/-- The addresses of all other primaries. -/
def others : List SocketAddr :=
  (self.committee.othersPrimaries self.name).map (fun x => x.2.primaryToPrimary)

/-- Add a vote to the votes' aggregator. -/
def appendVote (vote : Vote) : Handler (Option Certificate) := do
  let result ← modifyGet (fun s =>
    let (result, votesAggregator) :=
      s.votesAggregator.append vote self.committee s.currentHeader
    (result, { s with votesAggregator }))
  .ofExcept Fault.error result

/-- Add a certificate to the aggregator of its round. -/
def appendCertificate (certificate : Certificate) : Handler (Option (List Digest)) :=
  modifyGet (fun s =>
    let aggregator := (s.certificatesAggregators.lookup certificate.round).getD .new
    let (quorum, aggregator) := aggregator.append certificate self.committee
    (quorum, { s with
      certificatesAggregators := s.certificatesAggregators.insert certificate.round aggregator }))

/-- `tx_proposer.send`, when there are enough certificates to enter a new dag round. -/
def sendProposer (round : ℕ) : Option (List Digest) → Handler Unit
  | none => pure ()
  | some parents => modify (fun s => { s with txProposer := s.txProposer ++ [(parents, round)] })

/-- `tx_consensus.send`. -/
def sendConsensus (certificate : Certificate) : Handler Unit :=
  modify (fun s => { s with txConsensus := s.txConsensus ++ [certificate] })

/-! ## §3. The handlers. -/

/-- Send our vote on a header to its author. -/
def sendVote (header : Header) (vote : Vote) : Handler Unit :=
  match self.committee.primary header.author with
  | .ok address => send [address.primaryToPrimary] (.vote vote)
  | .error _ => throw (.panic .notInCommittee)

/-- The last part of `process_header`: vote, unless we voted for this author and
round before. -/
def voteWith (processVote : Vote → Handler Unit) (header : Header) : Handler Unit := do
  let fresh ← takeVote header
  if fresh = true then do
    -- Make a vote and send it to the header's creator.
    let vote ← self.createVote header
    if vote.origin = self.name then .expect (processVote vote) (.expected .ownVote)
    else self.sendVote header vote
  else pure ()

/-- `process_header`, in terms of `process_vote`. -/
def processHeaderWith (processVote : Vote → Handler Unit) (header : Header) : Handler Unit := do
  -- Indicate that we are processing this header.
  markProcessing header
  -- Ensure we have the parents.
  let parents ← self.getParents header
  if parents = [] then pure ()
  else do
    -- Ensure the parents form a quorum and are all from the previous round.
    let stake ← .ofExcept Fault.error (self.checkParents header parents 0)
    .ofExcept Fault.error
      (ensure (decide (self.committee.quorumThreshold ≤ stake)) (.headerRequiresQuorum header.id))
    -- Ensure we have the payload.
    let missing ← self.missingPayload header
    if missing = true then pure ()
    else do
      -- Store the header.
      write header.id.toVec (.header header)
      -- Check if we can vote for this header.
      self.voteWith processVote header

/-- `process_vote`, in terms of `process_certificate`. -/
def processVoteWith (processCertificate : Certificate → Handler Unit) (vote : Vote) :
    Handler Unit := do
  let assembled ← self.appendVote vote
  match assembled with
  | none => pure ()
  | some certificate => do
      -- Broadcast the certificate.
      send self.others (.certificate certificate)
      -- Process the new certificate.
      .expect (processCertificate certificate) (.expected .validCertificate)

/-- The last part of `process_certificate`: store the certificate and pass it on. -/
def acceptCertificate (certificate : Certificate) : Handler Unit := do
  -- Store the certificate.
  write certificate.digest.toVec (.certificate certificate)
  -- Check if we have enough certificates to enter a new dag round and propose a header.
  let quorum ← self.appendCertificate certificate
  sendProposer certificate.round quorum
  -- Send it to the consensus layer.
  sendConsensus certificate

/-- Process the header embedded in a certificate if we haven't already voted for it. -/
def embeddedHeaderWith (processHeader : Header → Handler Unit) (certificate : Certificate) :
    Handler Unit := do
  let s ← get
  if certificate.header.id ∈ s.inProcess certificate.header.round then pure ()
  else processHeader certificate.header

/-- `process_certificate`, in terms of `process_header`. -/
def processCertificateWith (processHeader : Header → Handler Unit) (certificate : Certificate) :
    Handler Unit := do
  embeddedHeaderWith processHeader certificate
  -- Ensure we have all the ancestors of this certificate yet.
  let delivered ← self.deliverCertificate certificate
  if delivered = true then self.acceptCertificate certificate else pure ()

/-- `process_header`, nested to a depth. -/
def processHeader : ℕ → Header → Handler Unit
  | 0, _ => throw (.panic .outOfFuel)
  | depth + 1, header =>
      self.processHeaderWith
        (self.processVoteWith (self.processCertificateWith (processHeader depth))) header

/-- The nesting that occurs. -/
def depth : ℕ := 2

def processCertificate (certificate : Certificate) : Handler Unit :=
  self.processCertificateWith (self.processHeader depth) certificate

def processVote (vote : Vote) : Handler Unit :=
  self.processVoteWith self.processCertificate vote

/-- `process_own_header`. -/
def processOwnHeader (header : Header) : Handler Unit := do
  -- Reset the votes aggregator.
  modify (fun s => { s with currentHeader := header, votesAggregator := .new })
  -- Broadcast the new header.
  send self.others (.header header)
  -- Process the header.
  self.processHeader depth header

/-! ## §4. The checks on messages from the network. -/

def sanitizeHeader (s : State) (header : Header) : Except DagError Unit := do
  ensure (decide (s.gcRound ≤ header.round)) (.tooOld header.id header.round)
  -- Verify the header's signature.
  header.verify self.committee

def sanitizeVote (s : State) (vote : Vote) : Except DagError Unit := do
  ensure (decide (s.currentHeader.round ≤ vote.round)) (.tooOld vote.digest vote.round)
  -- Ensure we receive a vote on the expected header.
  ensure (decide (vote.id = s.currentHeader.id ∧ vote.origin = s.currentHeader.author ∧
    vote.round = s.currentHeader.round)) (.unexpectedVote vote.id)
  -- Verify the vote.
  vote.verify self.committee

def sanitizeCertificate (s : State) (certificate : Certificate) : Except DagError Unit := do
  ensure (decide (s.gcRound ≤ certificate.round)) (.tooOld certificate.digest certificate.round)
  -- Verify the certificate (and the embedded header).
  certificate.verify self.committee

/-! ## §5. The main loop. -/

/-- What the main loop takes from its channels. -/
inductive Input where
  /-- A message from another primary. -/
  | message (message : PrimaryMessage)
  /-- A header looped back by the `HeaderWaiter`. -/
  | loopbackHeader (header : Header)
  /-- A certificate looped back by the `CertificateWaiter`. -/
  | loopbackCertificate (certificate : Certificate)
  /-- A header created by the `Proposer`. -/
  | ownHeader (header : Header)

/-- Handle a message of another primary. -/
def handleMessage (message : PrimaryMessage) : Handler Unit := do
  let s ← get
  match message with
  | .header header => do
      .ofExcept Fault.error (self.sanitizeHeader s header)
      self.processHeader depth header
  | .vote vote => do
      .ofExcept Fault.error (self.sanitizeVote s vote)
      self.processVote vote
  | .certificate certificate => do
      .ofExcept Fault.error (self.sanitizeCertificate s certificate)
      self.processCertificate certificate

def handle : Input → Handler Unit
  | .message message => self.handleMessage message
  | .loopbackHeader header => self.processHeader depth header
  | .loopbackCertificate certificate => self.processCertificate certificate
  | .ownHeader header => self.processOwnHeader header

/-- Cleanup of the internal state after each input. -/
def cleanup (consensusRound : ℕ) (s : State) : State :=
  if self.gcDepth < consensusRound then
    let gcRound := consensusRound - self.gcDepth
    { s with
      lastVoted := s.lastVoted.retain (fun k v => if gcRound ≤ k then some v else none)
      processing := s.processing.retain (fun k v => if gcRound ≤ k then some v else none)
      certificatesAggregators :=
        s.certificatesAggregators.retain (fun k v => if gcRound ≤ k then some v else none)
      gcRound }
  else s

/-- One iteration of the main loop: an error is logged, a panic stops the core. -/
def iterate (consensusRound : ℕ) (input : Input) (s : State) : State × Option CorePanic :=
  match (self.handle input).exec s with
  | (.error (.panic p), s') => (s', some p)
  | (_, s') => (self.cleanup consensusRound s', none)

end Core

end Mrv
