/-
  Mrv.Primary.Proposer — the headers a primary proposes (`primary/src/proposer.rs`).

  The core counts the certificates of each round and tells the proposer when a
  round has a quorum; the proposer also gets the digests of our workers' batches,
  and a timer.  It makes a header when it has parents and either enough digests or
  no more time.

  The two are put together here as one system, with a queue in between.  An
  aggregator passes a quorum on once (`Collected.append`), and the proposer drops
  what is behind its round, so that its rounds increase, its parents are quorums of
  the round before, and no digest is lost (`headers_well_formed`).

  Time is an event: the timer may expire at any moment.
-/
import Mrv.Primary.Growth
import Mrv.Primary.Run

namespace Mrv

open Quorum (Counted)

variable [Crypto]

/-! ## §1. The proposer. -/

/-- What does not change: our name and the size of the headers' payload. -/
structure Proposer where
  name : PublicKey
  headerSize : ℕ

namespace Proposer

structure State where
  /-- The current round of the dag. -/
  round : ℕ
  /-- The certificates' ids waiting to be included in the next header. -/
  lastParents : List Digest
  /-- The batches' digests waiting to be included in the next header. -/
  digests : List (Digest × WorkerId)
  /-- The size (in bytes) of the batches' digests received so far. -/
  payloadSize : ℕ
  /-- Whether the timer has expired. -/
  elapsed : Bool

/-- The digests of the genesis certificates. -/
def genesisDigests (committee : Committee) : List Digest :=
  (Certificate.genesis committee).map Certificate.digest

/-- `Proposer::spawn`. -/
def State.new (committee : Committee) : State :=
  { round := 1, lastParents := genesisDigests committee, digests := [], payloadSize := 0,
    elapsed := false }

variable (self : Proposer)

/-- The header that `make_header` makes. -/
def makeHeader (s : State) : Header :=
  Header.new self.name s.round (BTreeMap.collect s.digests) (BTreeSet.ofList s.lastParents)

/-- The condition to propose: enough parents, and enough digests or the timer expired. -/
def ready (s : State) : Bool :=
  (s.elapsed || decide (self.headerSize ≤ s.payloadSize)) && decide (s.lastParents ≠ [])

/-- The proposer after it made a header, its timer rescheduled. -/
def drained (s : State) : State :=
  { s with lastParents := [], digests := [], payloadSize := 0, elapsed := false }

/-- Parents from the core, with their round. -/
def receiveParents (parents : List Digest) (round : ℕ) (s : State) : State :=
  if round < s.round then s
  -- Advance to the next round.
  else { s with round := round + 1, lastParents := parents }

/-- A digest from our workers. -/
def receiveDigest (digest : Digest) (workerId : WorkerId) (s : State) : State :=
  { s with
    payloadSize := s.payloadSize + digest.toVec.length
    digests := s.digests ++ [(digest, workerId)] }

end Proposer

/-! ## §2. The core and the proposer. -/

/-- What the proposer takes in and sends out. -/
inductive Event where
  | received (digest : Digest)
  | created (header : Header)

/-- The core, the proposer and the channel between them. -/
structure Proposing where
  core : Core.State
  /-- How many messages of the core the proposer has taken. -/
  taken : ℕ
  proposer : Proposer.State
  /-- The digests received and the headers sent, in order. -/
  log : List Event

namespace Proposing

def new (committee : Committee) : Proposing :=
  { core := Core.State.new, taken := 0, proposer := Proposer.State.new committee, log := [] }

inductive Action where
  /-- The core accepts a certificate. -/
  | accept (certificate : Certificate)
  /-- The core cleans up. -/
  | cleanup (consensusRound : ℕ)
  /-- The timer expires. -/
  | elapse
  /-- The proposer takes parents. -/
  | parents
  /-- The proposer takes a digest. -/
  | digest (digest : Digest) (workerId : WorkerId)
  /-- The proposer is woken by its timer. -/
  | timer

variable (core : Core) (proposer : Proposer)

/-- The first part of an iteration of the proposer: a header is made if it can be. -/
def propose (n : Proposing) : Proposing :=
  if proposer.ready n.proposer = true then
    { n with
      proposer := Proposer.drained n.proposer
      log := n.log ++ [.created (proposer.makeHeader n.proposer)] }
  else n

def next (n : Proposing) : Action → Option Proposing
  | .accept certificate => some { n with core := ((core.acceptCertificate certificate).exec n.core).2 }
  | .cleanup consensusRound => some { n with core := core.cleanup consensusRound n.core }
  | .elapse => some { n with proposer := { n.proposer with elapsed := true } }
  | .parents =>
      match n.core.txProposer[n.taken]? with
      | none => none
      | some (parents, round) =>
          let n := propose proposer n
          some { n with
            taken := n.taken + 1
            proposer := Proposer.receiveParents parents round n.proposer }
  | .digest digest workerId =>
      let n := propose proposer n
      some { n with
        proposer := Proposer.receiveDigest digest workerId n.proposer
        log := n.log ++ [.received digest] }
  | .timer =>
      let n := propose proposer n
      some { n with proposer := { n.proposer with elapsed := true } }

/-- A core and a proposer as a transition system. -/
def system : System Proposing Action :=
  { init := Proposing.new core.committee, next := Proposing.next core proposer }

end Proposing

/-! ## §3. Quorums of certificates. -/

/-- Certificates of a round, accepted, by distinct authorities. -/
structure Distinct (accepted : List Certificate) (round : ℕ) (certificates : List Certificate) :
    Prop where
  accepted : ∀ c ∈ certificates, c ∈ accepted
  round : ∀ c ∈ certificates, c.round = round
  distinct : (certificates.map Certificate.origin).Nodup

/-- Digests of certificates of a round, accepted, by distinct authorities that hold a
quorum together. -/
def QuorumOf (committee : Committee) (accepted : List Certificate) (round : ℕ)
    (digests : List Digest) : Prop :=
  ∃ certificates, digests = certificates.map Certificate.digest ∧
    Distinct accepted round certificates ∧
    committee.quorumThreshold.toNat
      ≤ (certificates.map (fun c => committee.weight c.origin)).sum

/-- What an aggregator keeps: the stake of the authorities used, counted, and until they
are a quorum the digests of their certificates. -/
structure Collected (committee : Committee) (accepted : List Certificate) (round : ℕ)
    (a : CertificatesAggregator) : Prop where
  counted : Counted committee.quorumThreshold.toNat (∑ b ∈ a.used, committee.weight b)
    a.weight.toNat
  certificates : ∑ b ∈ a.used, committee.weight b < committee.quorumThreshold.toNat →
    ∃ certificates, a.certificates = certificates.map Certificate.digest ∧
      Distinct accepted round certificates ∧
      (certificates.map Certificate.origin).toFinset = a.used

variable {committee : Committee} {accepted accepted' : List Certificate} {round : ℕ}
  {a : CertificatesAggregator} {c : Certificate} {digests : List Digest}

omit [Crypto] in
theorem Distinct.mono {certificates : List Certificate} (h : Distinct accepted round certificates)
    (hsub : accepted ⊆ accepted') : Distinct accepted' round certificates :=
  ⟨fun c hc => hsub (h.accepted c hc), h.round, h.distinct⟩

theorem QuorumOf.mono (h : QuorumOf committee accepted round digests)
    (hsub : accepted ⊆ accepted') : QuorumOf committee accepted' round digests := by
  obtain ⟨certificates, heq, hdistinct, hstake⟩ := h
  exact ⟨certificates, heq, hdistinct.mono hsub, hstake⟩

theorem Collected.mono (h : Collected committee accepted round a)
    (hsub : accepted ⊆ accepted') : Collected committee accepted' round a := by
  refine ⟨h.counted, fun hlt => ?_⟩
  obtain ⟨certificates, heq, hdistinct, hused⟩ := h.certificates hlt
  exact ⟨certificates, heq, hdistinct.mono hsub, hused⟩

theorem Collected.new : Collected committee accepted round .new := by
  refine ⟨Counted.zero committee.quorumThreshold_pos, fun _ => ⟨[], rfl, ?_, rfl⟩⟩
  exact ⟨fun c hc => absurd hc List.not_mem_nil, fun c hc => absurd hc List.not_mem_nil,
    List.nodup_nil⟩

omit [Crypto] in
theorem Distinct.concat {certificates : List Certificate} {used : Finset PublicKey}
    (h : Distinct accepted round certificates)
    (hused : (certificates.map Certificate.origin).toFinset = used)
    (hnew : c.origin ∉ used) (hround : c.round = round) :
    Distinct (accepted ++ [c]) round (certificates ++ [c]) ∧
      ((certificates ++ [c]).map Certificate.origin).toFinset = insert c.origin used := by
  refine ⟨⟨?_, ?_, ?_⟩, ?_⟩
  · intro x hx
    obtain hold | hlast := List.mem_append.mp hx
    · exact List.mem_append_left _ (h.accepted x hold)
    · exact List.mem_append_right _ hlast
  · intro x hx
    obtain hold | hlast := List.mem_append.mp hx
    · exact h.round x hold
    · rw [List.mem_singleton.mp hlast]
      exact hround
  · rw [List.map_append, List.nodup_append]
    refine ⟨h.distinct, List.nodup_singleton _, fun x hx y hy => ?_⟩
    rw [List.map_singleton, List.mem_singleton] at hy
    rw [hy]
    intro heq
    rw [heq] at hx
    exact hnew (hused ▸ List.mem_toFinset.mpr hx)
  · rw [← hused]
    ext name
    simp only [List.map_append, List.map_singleton, List.mem_toFinset, List.mem_append,
      List.mem_singleton, Finset.mem_insert]
    exact or_comm

/-- **One certificate**: what an aggregator passes on is a quorum of its round. -/
theorem Collected.append (hfit : 2 * committee.totalStake < 2 ^ 32)
    (h : Collected committee accepted round a) (hround : c.round = round) :
    Collected committee (accepted ++ [c]) round (a.append c committee).2 ∧
      ∀ parents, (a.append c committee).1 = some parents →
        QuorumOf committee (accepted ++ [c]) round parents := by
  unfold CertificatesAggregator.append
  by_cases hused : c.origin ∈ a.used
  · rw [if_pos hused]
    refine ⟨h.mono (List.subset_append_left _ _), fun parents hnone => ?_⟩
    simp at hnone
  rw [if_neg hused]
  have hsum : ∑ b ∈ insert c.origin a.used, committee.weight b
      = ∑ b ∈ a.used, committee.weight b + committee.weight c.origin := by
    rw [Finset.sum_insert hused, add_comm]
  have hle := committee.sum_weight_le_totalStake (insert c.origin a.used)
  rw [hsum] at hle
  have hT := Committee.totalStake_lt_two_quorums hfit
  have hweight := Committee.toNat_add_stake hfit hused h.counted.le
  have hreached := h.counted.reached_iff hT hle
  dsimp only
  split
  · next hq =>
    rw [UInt32.le_iff_toNat_le, hweight] at hq
    obtain ⟨hlt, hge⟩ := hreached.mp hq
    obtain ⟨certificates, heq, hdistinct, hnames⟩ := h.certificates hlt
    obtain ⟨hdistinct', hnames'⟩ := hdistinct.concat hnames hused hround
    refine ⟨⟨?_, fun hlow => ?_⟩, fun parents hparents => ?_⟩
    · show Counted _ (∑ b ∈ insert c.origin a.used, _) 0
      rw [hsum]
      exact h.counted.reset hT hle hq
    · rw [hsum] at hlow
      omega
    · refine ⟨certificates ++ [c], ?_, hdistinct', ?_⟩
      · rw [← Option.some.inj hparents, heq, List.map_append]
        rfl
      · have hall : ((certificates ++ [c]).map (fun x => committee.weight x.origin)).sum
            = ∑ b ∈ insert c.origin a.used, committee.weight b := by
          rw [← hnames', List.sum_toFinset _ hdistinct'.distinct, List.map_map]
          rfl
        rw [hall, hsum]
        exact hge
  · next hq =>
    rw [UInt32.le_iff_toNat_le, hweight] at hq
    refine ⟨⟨?_, fun hlow => ?_⟩, fun parents hnone => ?_⟩
    · show Counted _ (∑ b ∈ insert c.origin a.used, _) (a.weight + _).toNat
      rw [hsum, hweight]
      exact h.counted.add hq
    · rw [hsum] at hlow
      obtain ⟨certificates, heq, hdistinct, hnames⟩ := h.certificates (by omega)
      obtain ⟨hdistinct', hnames'⟩ := hdistinct.concat hnames hused hround
      refine ⟨certificates ++ [c], ?_, hdistinct', hnames'⟩
      rw [heq, List.map_append]
      rfl
    · simp at hnone

/-! ## §4. The core's side. -/

/-- The aggregators of the core, and the quorums it passed on. -/
structure Supplies (core : Core) (s : Core.State) : Prop where
  aggregators : ∀ round a, s.certificatesAggregators.lookup round = some a →
    Collected core.committee s.txConsensus round a
  quorums : ∀ m ∈ s.txProposer, QuorumOf core.committee s.txConsensus m.2 m.1

variable {core : Core} {proposer : Proposer} {s : Core.State}

theorem Supplies.new : Supplies core Core.State.new := by
  refine ⟨fun round a h => ?_, fun m hm => absurd hm List.not_mem_nil⟩
  have hnone : (∅ : HashMap ℕ CertificatesAggregator).lookup round = none := AList.lookup_empty _
  rw [show Core.State.new.certificatesAggregators = ∅ from rfl, hnone] at h
  exact absurd h.symm (Option.some_ne_none a)

theorem Supplies.cleanup (h : Supplies core s) (consensusRound : ℕ) :
    Supplies core (core.cleanup consensusRound s) := by
  unfold Core.cleanup
  split
  · refine ⟨fun round a hlookup => ?_, h.quorums⟩
    rw [AList.lookup_retain] at hlookup
    obtain ⟨b, hb, hkept⟩ := Option.bind_eq_some_iff.mp hlookup
    split at hkept
    · rw [← Option.some.inj hkept]
      exact h.aggregators round b hb
    · simp at hkept
  · exact h

theorem Supplies.accept (hfit : 2 * core.committee.totalStake < 2 ^ 32) (h : Supplies core s)
    (c : Certificate) :
    Supplies core ((core.acceptCertificate c).exec s).2 ∧
      s.txConsensus ⊆ ((core.acceptCertificate c).exec s).2.txConsensus := by
  rw [Core.exec_acceptCertificate]
  have hmore : s.txConsensus ⊆ s.txConsensus ++ [c] := List.subset_append_left _ _
  have hold : Collected core.committee s.txConsensus c.round
      ((s.certificatesAggregators.lookup c.round).getD .new) := by
    cases hlookup : s.certificatesAggregators.lookup c.round with
    | none => exact Collected.new
    | some a => exact h.aggregators c.round a hlookup
  obtain ⟨hnew, hquorum⟩ := hold.append hfit rfl
  refine ⟨⟨fun round a hlookup => ?_, fun m hm => ?_⟩, hmore⟩
  · dsimp only at hlookup ⊢
    rw [AList.lookup_insert_eq_ite] at hlookup
    by_cases hround : round = c.round
    · rw [if_pos hround, Option.some.injEq] at hlookup
      rw [hround, ← hlookup]
      exact hnew
    · rw [if_neg hround] at hlookup
      exact (h.aggregators round a hlookup).mono hmore
  · obtain hbefore | hlast := List.mem_append.mp hm
    · exact (h.quorums m hbefore).mono hmore
    · rw [Option.mem_toList, Option.map_eq_some_iff] at hlast
      obtain ⟨parents, hparents, rfl⟩ := hlast
      exact hquorum parents hparents

/-! ## §5. The proposer's side. -/

/-- The headers of a log. -/
def created (log : List Event) : List Header :=
  log.filterMap fun
    | .created header => some header
    | .received _ => none

/-- The digests received since the last header. -/
def pending (log : List Event) : List Digest :=
  log.foldl (fun digests event =>
    match event with
    | .received digest => digests ++ [digest]
    | .created _ => []) []

/-- The parents of a header of a round: genesis for round 1, a quorum of the round before
for the others. -/
def ParentsFor (committee : Committee) (accepted : List Certificate) (round : ℕ)
    (parents : List Digest) : Prop :=
  (round = 1 ∧ parents = Proposer.genesisDigests committee) ∨
    (1 < round ∧ QuorumOf committee accepted (round - 1) parents)

/-- The payload of each header is what was received since the one before. -/
def Loaded (log : List Event) : Prop :=
  ∀ l₁ header l₂, log = l₁ ++ .created header :: l₂ →
    ∀ d, d ∈ header.payload.keys ↔ d ∈ pending l₁

/-- The invariant of the core and the proposer. -/
structure WellFormed (core : Core) (n : Proposing) : Prop where
  supplies : Supplies core n.core
  /-- Parents that wait for a header are of the current round. -/
  lastParents : n.proposer.lastParents ≠ [] →
    ParentsFor core.committee n.core.txConsensus n.proposer.round n.proposer.lastParents
  round : 1 ≤ n.proposer.round
  digests : n.proposer.digests.map Prod.fst = pending n.log
  increasing : ((created n.log).map Header.round).Pairwise (· < ·)
  /-- No header is above the current round, and none is of it while parents wait. -/
  behind : ∀ h ∈ created n.log, h.round ≤ n.proposer.round ∧
    (n.proposer.lastParents ≠ [] → h.round < n.proposer.round)
  parents : ∀ h ∈ created n.log, ∃ parents, h.parents = BTreeSet.ofList parents ∧
    ParentsFor core.committee n.core.txConsensus h.round parents
  loaded : Loaded n.log

variable {n n' : Proposing} {log : List Event}

omit [Crypto] in
@[simp] theorem created_received (d : Digest) : created (log ++ [.received d]) = created log := by
  simp [created]

omit [Crypto] in
@[simp] theorem created_created (h : Header) :
    created (log ++ [.created h]) = created log ++ [h] := by
  simp [created]

omit [Crypto] in
@[simp] theorem pending_received (d : Digest) :
    pending (log ++ [.received d]) = pending log ++ [d] := by
  simp [pending]

omit [Crypto] in
@[simp] theorem pending_created (h : Header) : pending (log ++ [.created h]) = [] := by
  simp [pending]

theorem ParentsFor.mono {parents : List Digest}
    (h : ParentsFor committee accepted round parents) (hsub : accepted ⊆ accepted') :
    ParentsFor committee accepted' round parents := by
  obtain hgenesis | ⟨hround, hquorum⟩ := h
  · exact Or.inl hgenesis
  · exact Or.inr ⟨hround, hquorum.mono hsub⟩

omit [Crypto] in
/-- One more event, which is not a header or is one with the right payload. -/
theorem Loaded.concat {event : Event} (h : Loaded log)
    (hnew : ∀ header, event = .created header →
      ∀ d, d ∈ header.payload.keys ↔ d ∈ pending log) : Loaded (log ++ [event]) := by
  intro l₁ header l₂ heq
  obtain hnil | ⟨l₃, last, hlast⟩ := List.eq_nil_or_concat' l₂
  · rw [hnil] at heq
    obtain ⟨hl, hx⟩ := List.append_inj' heq rfl
    rw [← hl]
    exact hnew header (List.cons.inj hx).1
  · have hsplit : log ++ [event] = (l₁ ++ .created header :: l₃) ++ [last] := by
      rw [heq, hlast]
      simp
    exact h l₁ header l₃ (List.append_inj' hsplit rfl).1

/-- More accepted certificates do not disturb the proposer. -/
theorem WellFormed.setCore {s : Core.State} (h : WellFormed core n) (hs : Supplies core s)
    (hsub : n.core.txConsensus ⊆ s.txConsensus) : WellFormed core { n with core := s } := by
  refine ⟨hs, fun hne => (h.lastParents hne).mono hsub, h.round, h.digests, h.increasing,
    h.behind, fun header hheader => ?_, h.loaded⟩
  obtain ⟨parents, heq, hparents⟩ := h.parents header hheader
  exact ⟨parents, heq, hparents.mono hsub⟩

/-- **Making a header.** -/
theorem WellFormed.propose (h : WellFormed core n) : WellFormed core (n.propose proposer) := by
  unfold Proposing.propose
  split
  · next hready =>
    unfold Proposer.ready at hready
    have hne : n.proposer.lastParents ≠ [] := of_decide_eq_true ((Bool.and_eq_true _ _).mp hready).2
    have hparents := h.lastParents hne
    refine ⟨h.supplies, fun hnil => absurd rfl hnil, h.round, ?_, ?_, ?_, ?_, ?_⟩
    · dsimp only [Proposer.drained]
      rw [pending_created]
      rfl
    · rw [created_created, List.map_append, List.pairwise_append]
      refine ⟨h.increasing, List.pairwise_singleton _ _, fun r hr r' hr' => ?_⟩
      obtain ⟨header, hheader, rfl⟩ := List.mem_map.mp hr
      rw [List.map_singleton, List.mem_singleton] at hr'
      rw [hr']
      exact (h.behind header hheader).2 hne
    · intro header hheader
      rw [created_created, List.mem_append, List.mem_singleton] at hheader
      refine ⟨?_, fun hnil => absurd rfl hnil⟩
      obtain hold | rfl := hheader
      · exact (h.behind header hold).1
      · exact Nat.le_refl n.proposer.round
    · intro header hheader
      rw [created_created, List.mem_append, List.mem_singleton] at hheader
      obtain hold | rfl := hheader
      · exact h.parents header hold
      · exact ⟨n.proposer.lastParents, rfl, hparents⟩
    · refine h.loaded.concat fun header heq d => ?_
      obtain rfl := Event.created.inj heq
      show d ∈ (BTreeMap.collect n.proposer.digests).keys ↔ _
      rw [BTreeMap.mem_keys_collect, h.digests]
  · exact h

theorem core_propose (proposer : Proposer) (n : Proposing) :
    (n.propose proposer).core = n.core := by
  unfold Proposing.propose
  split <;> rfl

/-- Taking parents from the core. -/
theorem WellFormed.receiveParents {parents : List Digest} {taken : ℕ} (h : WellFormed core n)
    (hmem : (parents, round) ∈ n.core.txProposer) :
    WellFormed core { n with
      taken, proposer := Proposer.receiveParents parents round n.proposer } := by
  unfold Proposer.receiveParents
  split
  · exact ⟨h.supplies, h.lastParents, h.round, h.digests, h.increasing, h.behind, h.parents,
      h.loaded⟩
  · next hround =>
    have hpos := h.round
    refine ⟨h.supplies, fun _ => Or.inr ⟨?_, ?_⟩, ?_, h.digests, h.increasing, ?_, h.parents,
      h.loaded⟩
    · show 1 < round + 1
      omega
    · exact h.supplies.quorums _ hmem
    · show 1 ≤ round + 1
      omega
    · intro header hheader
      have hle := (h.behind header hheader).1
      show header.round ≤ round + 1 ∧ (parents ≠ [] → header.round < round + 1)
      omega

/-- Taking a digest from a worker. -/
theorem WellFormed.receiveDigest (h : WellFormed core n) (digest : Digest) (workerId : WorkerId) :
    WellFormed core { n with
      proposer := Proposer.receiveDigest digest workerId n.proposer
      log := n.log ++ [.received digest] } := by
  refine ⟨h.supplies, h.lastParents, h.round, ?_, ?_, ?_, ?_, ?_⟩
  · rw [pending_received, ← h.digests]
    exact List.map_append
  · rw [created_received]
    exact h.increasing
  · rw [created_received]
    exact h.behind
  · rw [created_received]
    exact h.parents
  · exact h.loaded.concat fun _ heq => Event.noConfusion heq

/-- Time passes. -/
theorem WellFormed.elapse (h : WellFormed core n) :
    WellFormed core { n with proposer := { n.proposer with elapsed := true } } :=
  ⟨h.supplies, h.lastParents, h.round, h.digests, h.increasing, h.behind, h.parents, h.loaded⟩

/-! ## §6. Runs. -/

theorem WellFormed.new : WellFormed core (Proposing.new core.committee) := by
  refine ⟨Supplies.new, fun _ => Or.inl ⟨rfl, rfl⟩, Nat.le_refl 1, rfl, List.Pairwise.nil,
    fun _ hh => absurd hh List.not_mem_nil, fun _ hh => absurd hh List.not_mem_nil, ?_⟩
  intro l₁ header l₂ heq
  have hlength := congrArg List.length heq
  simp [Proposing.new] at hlength

/-- **One step of the core or the proposer.** -/
theorem WellFormed.next (hfit : 2 * core.committee.totalStake < 2 ^ 32) (h : WellFormed core n)
    {a : Proposing.Action} (hnext : Proposing.next core proposer n a = some n') :
    WellFormed core n' := by
  have hproposed : WellFormed core (n.propose proposer) := h.propose
  cases a with
  | accept certificate =>
      obtain ⟨hs, hsub⟩ := h.supplies.accept hfit certificate
      rw [← Option.some.inj hnext]
      exact h.setCore hs hsub
  | cleanup consensusRound =>
      rw [← Option.some.inj hnext]
      apply h.setCore (h.supplies.cleanup consensusRound)
      unfold Core.cleanup
      split <;> exact List.Subset.refl _
  | elapse =>
      rw [← Option.some.inj hnext]
      exact h.elapse
  | parents =>
      unfold Proposing.next at hnext
      cases hmessage : n.core.txProposer[n.taken]? with
      | none =>
          rw [hmessage] at hnext
          simp at hnext
      | some m =>
          obtain ⟨parents, round⟩ := m
          rw [hmessage] at hnext
          rw [← Option.some.inj hnext]
          apply hproposed.receiveParents
          rw [core_propose]
          exact List.mem_of_getElem? hmessage
  | digest digest workerId =>
      rw [← Option.some.inj hnext]
      exact hproposed.receiveDigest digest workerId
  | timer =>
      rw [← Option.some.inj hnext]
      exact hproposed.elapse

/-- A proposer for examples: one digest is enough for a header. -/
def sampleProposer : Proposer := { name := sampleKey 3, headerSize := 32 }

/-- A digest, a quorum of certificates of round 1, and the end of the waiting time. -/
def sampleProposals : List Proposing.Action :=
  [.digest (Core.sampleBatch 7) 0, .timer, .accept (Core.sampleCertificate 1 0 [1, 2, 3]),
    .accept (Core.sampleCertificate 1 1 [1, 2, 3]), .accept (Core.sampleCertificate 1 2 [1, 2, 3]),
    .parents, .timer]

omit [Crypto] in
set_option maxRecDepth 10000 in
theorem exists_proposals :
    letI := sampleCrypto
    ∃ es n, (Proposing.system Core.sampleCore sampleProposer).Run es n ∧
      (created n.log).map Header.round = [1, 2] :=
  let _ := sampleCrypto
  let ⟨es, n, hrun, hcheck⟩ := System.exec_check
    (Proposing.system Core.sampleCore sampleProposer) sampleProposals
    (fun _ n => decide ((created n.log).map Header.round = [1, 2])) (by decide +kernel)
  ⟨es, n, hrun, of_decide_eq_true hcheck⟩

end Mrv
