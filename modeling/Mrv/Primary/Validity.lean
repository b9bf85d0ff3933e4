/-
  Mrv.Primary.Validity — what the core votes for.

  A header reaches the core in four ways and is verified in two of them; it may
  be suspended twice before the vote.  Every header on its way through the primary
  has been verified, or else its round is 0, and no header of round 0 passes the
  check on the rounds of its parents (`verified_or_zero`).

  The stake of the parents is summed parent by parent.  It is the stake of
  distinct authorities when no two certificates, genesis among them, share author
  and round (`votes_valid`); with genesis left out it need not be
  (`vote_without_quorum`).
-/
import Mrv.Primary.Voting

namespace Mrv

variable [Crypto]

namespace Core

open Mrv.Handler (Triple Keeps)
open Primary (Holds InFlight SameCore headers)

variable {self : Core} {H : Set Header} {s s' : State} {es : History} {n : Primary} {h : Header}

/-! ## §1. What the checks on the parents say. -/

/-- The parents found are those named, each genesis or accepted. -/
theorem findParents_resolves {store : Store} {accepted : List Certificate}
    (hkeyed : Keyed H accepted store) {digests : List Digest} {parents : List Certificate}
    (h : self.findParents store digests = .ok (parents, [])) :
    parents.map Certificate.digest = digests ∧
      ∀ c ∈ parents, c ∈ Certificate.genesis self.committee ∨ c ∈ accepted := by
  induction digests generalizing parents with
  | nil =>
      simp only [findParents, Except.ok.injEq, Prod.mk.injEq, and_true] at h
      rw [← h]
      exact ⟨rfl, fun c hc => absurd hc List.not_mem_nil⟩
  | cons digest digests ih =>
      obtain ⟨ps, ms, hrest, hcases⟩ := findParents_cons h
      obtain ⟨e, hfind, rfl, rfl⟩ | ⟨record, certificate, hlookup, hrecord, rfl, rfl⟩ |
        ⟨_, _, _, hmissing⟩ := hcases
      · obtain ⟨hmap, hall⟩ := ih hrest
        obtain ⟨g, hg, heq⟩ := List.mem_map.mp (List.mem_of_find?_eq_some hfind)
        have hdigest : e.1 = digest := by simpa using List.find?_some hfind
        obtain ⟨d, genesis⟩ := e
        obtain ⟨rfl, rfl⟩ := Prod.mk.inj heq
        refine ⟨?_, List.forall_mem_cons.mpr ⟨Or.inl hg, hall⟩⟩
        rw [List.map_cons, hmap, ← hdigest]
      · obtain ⟨hmap, hall⟩ := ih hrest
        have hfiled := hkeyed _ _ hlookup
        cases record with
        | certificate c =>
            obtain rfl : c = certificate := Except.ok.inj hrecord
            have hdigest := Digest.toVec_injective hfiled.2
            exact ⟨by rw [List.map_cons, ← hdigest, hmap],
              List.forall_mem_cons.mpr ⟨Or.inr hfiled.1, hall⟩⟩
        | header _ => exact absurd hrecord (by simp [Record.toCertificate])
        | batch => exact absurd hrecord (by simp [Record.toCertificate])
      · exact absurd hmissing.symm (List.cons_ne_nil _ _)

omit [Crypto] in
/-- The loop over the parents: all from the previous round; it returns their stake. -/
theorem checkParents_eq_ok {parents : List Certificate} {stake total : Stake} :
    self.checkParents h parents stake = .ok total ↔
      (∀ x ∈ parents, x.round + 1 = h.round) ∧
        stake + (parents.map (fun x => self.committee.stake x.origin)).sum = total := by
  induction parents generalizing stake with
  | nil => simp [checkParents]
  | cons x parents ih =>
      rw [checkParents, ensure_bind_eq_ok, decide_eq_true_eq, ih, List.forall_mem_cons,
        List.map_cons, List.sum_cons, ← add_assoc, and_assoc]

/-- Parents of a header among a list of certificates and genesis: named by the header, from
the previous round, with the stake of a quorum counted parent by parent. -/
structure ParentsOf (core : Core) (accepted : List Certificate) (h : Header)
    (parents : List Certificate) : Prop where
  named : parents.map Certificate.digest = h.parents.toList
  known : ∀ c ∈ parents, c ∈ Certificate.genesis core.committee ∨ c ∈ accepted
  round : ∀ c ∈ parents, c.round + 1 = h.round
  stake : core.committee.quorumThreshold.toNat
    ≤ (parents.map (fun c => core.committee.weight c.origin)).sum

/-- **The parents of a header that passes the checks.** -/
theorem Passes.parentsOf {header : Header} {store : Store} {accepted : List Certificate}
    (hkeyed : Keyed H accepted store) (h : self.Passes store header) :
    ∃ parents, ParentsOf self accepted header parents := by
  obtain ⟨parents, stake, hfind, hcheck, hquorum⟩ := h
  obtain ⟨hround, hstake⟩ := checkParents_eq_ok.mp hcheck
  obtain ⟨hnamed, hknown⟩ := findParents_resolves hkeyed hfind
  refine ⟨parents, hnamed, hknown, hround, ?_⟩
  have hle : stake.toNat ≤ (parents.map (fun c => self.committee.weight c.origin)).sum := by
    rw [← hstake, zero_add, Committee.toNat_sum, List.map_map]
    exact Nat.mod_le _ _
  have hthreshold := UInt32.le_iff_toNat_le.mp hquorum
  omega

/-- A header with such parents is not of round 0. -/
theorem ParentsOf.round_pos {header : Header} {accepted parents : List Certificate}
    (h : ParentsOf self accepted header parents) : 0 < header.round := by
  cases parents with
  | nil =>
      have hpos := self.committee.quorumThreshold_pos
      have hstake : self.committee.quorumThreshold.toNat ≤ 0 := h.stake
      omega
  | cons c parents =>
      have hround := h.round c List.mem_cons_self
      omega

/-! ## §2. Valid votes. -/

/-- The headers on their way through the primary. -/
def Verified (self : Core) : Set Header :=
  {h | h.verify self.committee = .ok () ∨ h.round = 0}

/-- The batches of a header are in a store, unless the header is ours. -/
def Stocked (self : Core) (store : Store) (h : Header) : Prop :=
  h.author ≠ self.name → ∀ e ∈ h.payload.entries, store.lookup (batchKey e.1 e.2) = some .batch

/-- What was checked before a vote. -/
structure Checked (core : Core) (x : Cast) : Prop where
  vote : x.vote = Vote.new x.header core.name
  header : x.header.verify core.committee = .ok ()
  parents : ∃ parents, ParentsOf core x.accepted x.header parents
  payload : core.Stocked x.store x.header

/-- The state in which a header may be voted for. -/
def Votable (core : Core) (h : Header) (s : State) : Prop :=
  (∃ parents, ParentsOf core s.txConsensus h parents) ∧ core.Stocked s.store h

/-- The invariant of the core: tidy, and its votes were checked. -/
def Votes (core : Core) (s : State) : Prop :=
  Tidy core.Verified s ∧ ∀ x ∈ s.cast, Checked core x ∧ ∀ c ∈ x.accepted, c ∈ s.txConsensus

theorem stable_votes : Stable self.Verified self.Votes := by
  intro s s' hquiet hs
  refine ⟨stable_tidy s s' hquiet hs.1, ?_⟩
  rw [hquiet.cast, hquiet.txConsensus]
  exact hs.2

theorem stable_votable (h : Header) : Stable H (self.Votable h) := by
  intro s s' hquiet hs
  unfold Votable
  rw [hquiet.store, hquiet.txConsensus]
  exact hs

omit [Crypto] in
/-- A batch under its key. -/
theorem Keyed.batch {accepted : List Certificate} {store : Store} {digest : Digest}
    {workerId : WorkerId} [Crypto] (hkeyed : Keyed H accepted store)
    (h : (store.lookup (batchKey digest workerId)).isNone = false) :
    store.lookup (batchKey digest workerId) = some .batch := by
  cases hlookup : store.lookup (batchKey digest workerId) with
  | none => simp [hlookup] at h
  | some record =>
      have hfiled := hkeyed _ _ hlookup
      cases record with
      | header x => exact absurd hfiled.2.symm (toVec_ne_batchKey x.id digest workerId)
      | certificate c => exact absurd hfiled.2.symm (toVec_ne_batchKey c.digest digest workerId)
      | batch => rfl

/-- **What the checks leave to say before a vote.** -/
theorem votable_of_passes (hs : self.Votes s) (hpasses : self.Passes s.store h)
    (hpayload : self.HasPayload s.store h) : self.Votable h s := by
  refine ⟨hpasses.parentsOf hs.1.keyed, fun hname e he => ?_⟩
  obtain hours | hmissing := hpayload
  · exact absurd hours hname
  · refine hs.1.keyed.batch (Bool.eq_false_of_not_eq_true ?_)
    exact List.filter_eq_nil_iff.mp hmissing e he

/-- A header of a vote was verified: with round 0 it would have no parents. -/
theorem checked_of_votable (hh : h ∈ self.Verified) (hs : self.Votable h s) :
    Checked self (self.castNow h s) := by
  obtain ⟨⟨parents, hparents⟩, hstocked⟩ := hs
  refine ⟨rfl, ?_, ⟨parents, hparents⟩, hstocked⟩
  obtain hverified | hzero := hh
  · exact hverified
  · have hpos := hparents.round_pos
    omega

theorem invariant_votes :
    Invariant self self.Verified (fun _ => True) self.Votable self.Votes self.Votes where
  stable := stable_votes
  stable_after := stable_votes
  stable_ready := stable_votable
  after := fun _ => id
  current := fun s hs => ⟨hs.1.holds.currentHeader, fun _ => trivial⟩
  orphan := fun _ _ => trivial
  passed := fun h _ s hs hpasses => ⟨trivial, votable_of_passes hs hpasses⟩
  header := fun h hh => by
    refine Triple.modify fun s hs => ⟨⟨hs.1.1.write hh, hs.1.2⟩, hs.2.1, fun hname e he => ?_⟩
    show (s.store.insert h.id.toVec _).lookup _ = _
    rw [AList.lookup_insert_eq_ite, if_neg (toVec_ne_batchKey h.id e.1 e.2).symm]
    exact hs.2.2 hname e he
  vote := fun h hh => by
    refine Triple.modifyGet fun s hs => ?_
    refine ⟨⟨hs.1.1.voting _ s.cast, hs.1.2⟩, fun _ => ⟨hs.1.1.voting _ _, ?_⟩⟩
    intro x hx
    obtain hold | hnew := List.mem_append.mp hx
    · exact hs.1.2 x hold
    · rw [List.mem_singleton.mp hnew]
      exact ⟨checked_of_votable hh hs.2, fun c hc => hc⟩
  accept := fun c hc _ => by
    refine acceptCertificate_spec (H := self.Verified) stable_votes fun s hs => ?_
    refine ⟨hs.1.1.accept c, fun x hx => ⟨(hs.1.2 x hx).1, fun c' hc' => ?_⟩⟩
    exact List.mem_append_left _ ((hs.1.2 x hx).2 c' hc')

/-- The header of an accepted message has been verified, or its round is 0. -/
theorem verified_or_zero {c : Certificate} (hok : self.sanitizeCertificate s c = .ok ()) :
    c.header ∈ self.Verified := by
  unfold sanitizeCertificate at hok
  have hverify : c.verify self.committee = .ok () := (ensure_bind_eq_ok.mp hok).2
  by_cases hthrough : Certificate.LetThrough self.committee c
  · exact Or.inr hthrough.round
  · rw [Certificate.verify_of_not_letThrough hthrough] at hverify
    obtain ⟨_, hheader, _⟩ := bind_eq_ok.mp hverify
    exact Or.inl hheader

/-- In every run whose own headers are well signed, the votes were checked. -/
theorem Run.votes (hrun : self.Run es n)
    (hown : ∀ m h, (m, Primary.Action.ownHeader h) ∈ es → h.verify self.committee = .ok ()) :
    self.Votes n.core := by
  refine (Run.keeps invariant_votes (fun s hs => hs.1.holds) ?_ ?_ ?_ ?_ hrun).2
  · intro round s hs
    refine ⟨hs.1.cleanup round, ?_⟩
    unfold Core.cleanup
    split <;> exact hs.2
  · intro s s' hsame hholds hs
    refine ⟨hs.1.sameCore hsame hholds, ?_⟩
    rw [hsame.cast, hsame.txConsensus]
    exact hs.2
  · exact ⟨Tidy.new (Or.inr rfl), fun x hx => absurd hx List.not_mem_nil⟩
  · intro m a input m₀ hmem hinput hflight hs
    refine Invariant.Admits.of (fun _ => hs) (hflight.input hinput).2 (fun x _ hok => ?_)
      (fun c _ hok => verified_or_zero hok) (fun _ _ _ _ => trivial) (fun x hx => ?_)
    · unfold sanitizeHeader at hok
      exact Or.inl (ensure_bind_eq_ok.mp hok).2
    · have hx' : x ∈ self.Verified := Or.inl (hown m x (Primary.action_of_own hinput hx ▸ hmem))
      exact ⟨⟨⟨⟨hx', hs.1.holds.txHeaderWaiter, hs.1.holds.txCertificateWaiter⟩,
        hs.1.keyed⟩, hs.2⟩, hx'⟩

/-! ## §3. Distinct authorities. -/

/-- No two certificates of a list share author and round. -/
def OnePerSlot (certificates : List Certificate) : Prop :=
  ∀ c ∈ certificates, ∀ c' ∈ certificates, c.origin = c'.origin → c.round = c'.round →
    c.digest = c'.digest

instance (certificates : List Certificate) : Decidable (OnePerSlot certificates) :=
  inferInstanceAs (Decidable (∀ c ∈ certificates, ∀ c' ∈ certificates, c.origin = c'.origin →
    c.round = c'.round → c.digest = c'.digest))

/-- A vote for a valid header: what was checked, and the parents hold the stake of a quorum
as distinct authorities. -/
structure ValidVote (core : Core) (x : Cast) : Prop where
  vote : x.vote = Vote.new x.header core.name
  header : x.header.verify core.committee = .ok ()
  parents : ∃ parents : List Certificate,
    parents.map Certificate.digest = x.header.parents.toList ∧
      (∀ c ∈ parents, c ∈ Certificate.genesis core.committee ∨ c ∈ x.accepted) ∧
      (∀ c ∈ parents, c.round + 1 = x.header.round) ∧
      core.committee.quorumThreshold.toNat
        ≤ ∑ a ∈ (parents.map Certificate.origin).toFinset, core.committee.weight a
  payload : x.header.author ≠ core.name →
    ∀ e ∈ x.header.payload.entries, x.store.lookup (batchKey e.1 e.2) = some .batch

/-- Parents of one round that do not share author and round are by distinct authorities. -/
theorem ParentsOf.origins_nodup {header : Header} {accepted parents certificates : List Certificate}
    (h : ParentsOf self accepted header parents) (hslot : OnePerSlot certificates)
    (hsub : ∀ c ∈ parents, c ∈ certificates) : (parents.map Certificate.origin).Nodup := by
  have hdigests : (parents.map Certificate.digest).Nodup := by
    rw [h.named]
    exact header.parents.nodup
  refine List.Nodup.map_on ?_ (List.Nodup.of_map _ hdigests)
  intro c hc c' hc' horigin
  have hround := h.round c hc
  have hround' := h.round c' hc'
  have hdigest := hslot c (hsub c hc) c' (hsub c' hc') horigin (by omega)
  exact List.inj_on_of_nodup_map hdigests hc hc' hdigest

/-- **Votes are for valid headers**: verified, with parents that are genesis or accepted,
of the previous round and by a quorum of distinct authorities, and with all batches
there. -/
theorem votes_valid (hrun : self.Run es n)
    (hown : ∀ m h, (m, Primary.Action.ownHeader h) ∈ es → h.verify self.committee = .ok ())
    (hslot : OnePerSlot (Certificate.genesis self.committee ++ n.core.txConsensus)) :
    ∀ x ∈ n.core.cast, ValidVote self x := by
  intro x hx
  obtain ⟨hchecked, haccepted⟩ := (Run.votes hrun hown).2 x hx
  obtain ⟨parents, hparents⟩ := hchecked.parents
  refine ⟨hchecked.vote, hchecked.header, ⟨parents, hparents.named, hparents.known,
    hparents.round, ?_⟩, hchecked.payload⟩
  have hnodup := hparents.origins_nodup hslot fun c hc => by
    obtain hgenesis | hstored := hparents.known c hc
    · exact List.mem_append_left _ hgenesis
    · exact List.mem_append_right _ (haccepted c hstored)
  rw [List.sum_toFinset _ hnodup, List.map_map]
  exact hparents.stake

/-- Whether a header of the proposer is taken. -/
def ofProposer : Primary.Action → Bool
  | .ownHeader _ => true
  | _ => false

omit [Crypto] in
set_option maxRecDepth 10000 in
theorem exists_validRun :
    letI := sampleCrypto
    ∃ es n, sampleCore.Run es n ∧ (∀ e ∈ es, ofProposer e.2 = false) ∧
      OnePerSlot (Certificate.genesis sampleCore.committee ++ n.core.txConsensus) ∧
      n.core.cast.length = 3 :=
  let _ := sampleCrypto
  let ⟨es, n, hrun, hcheck⟩ := System.exec_check sampleCore.system sampleVotes
    (fun es n => decide ((∀ e ∈ es, ofProposer e.2 = false) ∧
      OnePerSlot (Certificate.genesis sampleCore.committee ++ n.core.txConsensus) ∧
      n.core.cast.length = 3)) (by decide +kernel)
  ⟨es, n, hrun, of_decide_eq_true hcheck⟩

omit [Crypto] in
/-- Three votes, one for a header whose parents are genesis and two for headers whose parents
were accepted. -/
theorem votes_valid_sample :
    letI := sampleCrypto
    ∃ es n, sampleCore.Run es n ∧ n.core.cast.length = 3 ∧
      ∀ x ∈ n.core.cast, ValidVote sampleCore x := by
  let _ := sampleCrypto
  obtain ⟨es, n, hrun, hforeign, hslot, hlength⟩ := exists_validRun
  refine ⟨es, n, hrun, hlength, votes_valid hrun ?_ hslot⟩
  intro m h hmem
  exact absurd (hforeign _ hmem) (by simp [ofProposer])

/-! ## §4. A quorum that is none. -/

/-- A hash for examples that also reads the byte before the round: the last one of the
author of a header, or of the id of a certificate. -/
@[reducible] def fineCrypto : Crypto where
  sha512 bs := ⟨BitVec.ofNat 256
    (65536 * (bs.getD 31 0).toNat + 256 * (bs.getD 32 0).toNat + (bs.getD 71 0).toNat)⟩
  verify _ _ _ := true
  verifyBatch _ _ := true
  sign _ _ := Signature.default

/-- A header of round 0 that is not a genesis header: it has a batch. -/
def sampleZero : Header :=
  { author := sampleKey 1, round := 0, payload := ⟨[(sampleBatch 101, 0)], List.pairwise_singleton _ _⟩
    parents := ∅, id := ⟨BitVec.ofNat 256 (65536 * 1 + 101)⟩, signature := Signature.default }

/-- Its parents are two genesis certificates and the certificate of `sampleZero`, which
has the author of one of them. -/
def sampleOne : Header :=
  { author := sampleKey 2, round := 1
    payload := ⟨[(sampleBatch 102, 0)], List.pairwise_singleton _ _⟩
    parents := BTreeSet.ofList
      [⟨BitVec.ofNat 256 1⟩, ⟨BitVec.ofNat 256 2⟩, ⟨BitVec.ofNat 256 (65536 * 101 + 1)⟩]
    id := ⟨BitVec.ofNat 256 (65536 * 2 + 256 * 1 + 102)⟩, signature := Signature.default }

/-- The certificate of round 0 is accepted, then the header is voted for. -/
def sampleThinVote : List Primary.Action :=
  [.message (.certificate { header := sampleZero
                            votes := [0, 1, 2].map (fun a => (sampleKey a, Signature.default)) }),
    .othersBatch (sampleBatch 102) 0, .message (.header sampleOne)]

/-- The stake of the authors of those certificates of a list that a header names, each
author counted once. -/
def authorsStake (committee : Committee) (certificates : List Certificate) (h : Header) : ℕ :=
  ∑ a ∈ ((certificates.filter (fun c => decide (c.digest ∈ h.parents))).map
    Certificate.origin).toFinset, committee.weight a

theorem ValidVote.authorsStake_ge {x : Cast} (h : ValidVote self x) :
    self.committee.quorumThreshold.toNat ≤ authorsStake self.committee
      (Certificate.genesis self.committee ++ x.accepted) x.header := by
  obtain ⟨parents, hnamed, hknown, _, hstake⟩ := h.parents
  refine hstake.trans (Finset.sum_le_sum_of_subset fun a ha => ?_)
  obtain ⟨c, hc, hca⟩ := List.mem_map.mp (List.mem_toFinset.mp ha)
  refine List.mem_toFinset.mpr (List.mem_map.mpr ⟨c, List.mem_filter.mpr ⟨?_, ?_⟩, hca⟩)
  · exact List.mem_append.mpr (hknown c hc)
  · have hdigest : c.digest ∈ x.header.parents.toList := by
      rw [← hnamed]
      exact List.mem_map_of_mem hc
    exact decide_eq_true hdigest

omit [Crypto] in
set_option maxRecDepth 10000 in
theorem exists_thinVoteRun :
    letI := fineCrypto
    ∃ es n, sampleCore.Run es n ∧ (∀ e ∈ es, ofProposer e.2 = false) ∧
      OnePerSlot n.core.txConsensus ∧
      n.core.cast.map (fun x => authorsStake Committee.sampleFour
        (Certificate.genesis Committee.sampleFour ++ x.accepted) x.header) = [2] :=
  let _ := fineCrypto
  let ⟨es, n, hrun, hcheck⟩ := System.exec_check sampleCore.system sampleThinVote
    (fun es n => decide ((∀ e ∈ es, ofProposer e.2 = false) ∧ OnePerSlot n.core.txConsensus ∧
      n.core.cast.map (fun x => authorsStake Committee.sampleFour
        (Certificate.genesis Committee.sampleFour ++ x.accepted) x.header) = [2]))
    (by decide +kernel)
  ⟨es, n, hrun, of_decide_eq_true hcheck⟩

omit [Crypto] in
/-- **A vote without a quorum of authorities behind it**: a stored certificate of round 0
shares its author with a genesis certificate, and the author is counted twice. -/
theorem vote_without_quorum :
    ¬ ∀ (_ : Crypto) (core : Core) (es : History) (n : Primary), core.Run es n →
      (∀ m h, (m, Primary.Action.ownHeader h) ∈ es → h.verify core.committee = .ok ()) →
      OnePerSlot n.core.txConsensus → ∀ x ∈ n.core.cast, ValidVote core x := by
  intro h
  let _ := fineCrypto
  obtain ⟨es, n, hrun, hforeign, hslot, hstakes⟩ := exists_thinVoteRun
  have hvalid := h fineCrypto sampleCore es n hrun (fun m x hmem =>
    absurd (hforeign _ hmem) (by simp [ofProposer])) hslot
  obtain ⟨x, hx, hstake⟩ := List.mem_map.mp (hstakes ▸ List.mem_singleton_self 2)
  have hge := (hvalid x hx).authorsStake_ge
  have hquorum : sampleCore.committee.quorumThreshold.toNat = 3 := by decide
  rw [hquorum] at hge
  have htwo : authorsStake sampleCore.committee
      (Certificate.genesis sampleCore.committee ++ x.accepted) x.header = 2 := hstake
  omega

end Core

end Mrv
