/-
  Mrv.Protocol.Uniqueness — one certificate for each author and round.

  A certificate that a good authority accepts has the votes of a quorum, and the good
  ones among the voters, at least f + 1 of the stake, voted for a header of its
  content.  Two certificates of one author and round share a good voter, who votes once:

    * `accepted_supported`   — behind each accepted certificate there are good authorities
                               with f + 1 of the stake that checked parents and batches,
    * `certificates_unique`  — good authorities never accept different certificates of one
                               author and round.
-/
import Mrv.Primary.Validity
import Mrv.Primary.Voting
import Mrv.Protocol.Network
import Mrv.Thresholds

namespace Mrv

open Mrv.Core (Incoming Backed Honest ParentsOf Stocked)

variable [Crypto]

/-! ## §1. Good voters. -/

namespace Committee

variable {c : Committee} {good S T : Finset PublicKey}

omit [Crypto] in
/-- **The good part of a quorum**: if the others have less than f + 1 of the stake, the good
members of a quorum have at least f + 1. -/
theorem validity_le_of_quorum (hfit : 2 * c.totalStake < 2 ^ 32)
    (hminority : ∑ a ∈ c.members \ good, c.weight a < c.validityThreshold.toNat)
    (hS : c.quorumThreshold.toNat ≤ ∑ a ∈ S, c.weight a) :
    c.validityThreshold.toNat ≤ ∑ a ∈ S ∩ good, c.weight a := by
  have hsplit : ∑ a ∈ S ∩ good, c.weight a + ∑ a ∈ S \ good, c.weight a = ∑ a ∈ S, c.weight a :=
    Finset.sum_inter_add_sum_sdiff S good c.weight
  have hbad : ∑ a ∈ S \ good, c.weight a ≤ ∑ a ∈ c.members \ good, c.weight a := by
    refine Finset.sum_le_sum_of_ne_zero fun a ha hne => ?_
    refine Finset.mem_sdiff.mpr ⟨?_, (Finset.mem_sdiff.mp ha).2⟩
    by_contra hmember
    exact hne (weight_eq_zero hmember)
  rw [quorumThreshold_toNat hfit] at hS
  rw [validityThreshold_toNat hfit] at hminority ⊢
  omega

end Committee

/-- The authorities whose votes are on a certificate. -/
def Certificate.voters (c : Certificate) : Finset PublicKey := (c.votes.map Prod.fst).toFinset

/-- The voters of a certificate are a quorum. -/
theorem Core.Backed.quorum_le {committee : Committee}
    {A : PublicKey → Digest → Signature → Prop} {c : Certificate} (h : Backed committee A c) :
    committee.quorumThreshold.toNat ≤ ∑ a ∈ c.voters, committee.weight a := by
  have hquorum := h.quorum
  unfold Certificate.voters
  rw [List.sum_toFinset _ h.distinct, List.map_map]
  exact hquorum

namespace Network

variable {self : Network} {es : History} {s : PublicKey → Process} {name : PublicKey}
  {c : Certificate}

/-- What an authority accepted came in. -/
theorem Run.accepted_mem {X : Set Header} (hfit : 2 * self.committee.totalStake < 2 ^ 32)
    (hhash : Separated self.committee X) (hrun : self.Run es s)
    (hin : Incoming (self.config name).core X (self.primaryHistory name es))
    (hc : c ∈ (s name).primary.core.txConsensus) : c.header ∈ X := by
  have hfit' : 2 * (self.config name).core.committee.totalStake < 2 ^ 32 := hfit
  have hhash' : Separated (self.config name).core.committee X := hhash
  exact (Core.Run.supplied hfit' hhash' (hrun.primary name) hin).2.headers c hc

section

variable (h : Assumptions self es s) (hrun : self.Run es s) (hgood : name ∈ self.good)

include h hrun hgood

/-- What a good authority accepted came in. -/
theorem Assumptions.accepted_mem (hc : c ∈ (s name).primary.core.txConsensus) :
    c.header ∈ self.headers es :=
  hrun.accepted_mem h.fit (h.separated hrun) (h.incoming hrun hgood) hc

omit hgood in
/-- What good authorities voted for or accepted came in. -/
theorem Assumptions.endorsed_subset : self.endorsed s ⊆ self.headers es := by
  rintro x ⟨name, hgood, ⟨x, hx, rfl⟩ | ⟨c, hc, rfl⟩⟩
  · exact ((h.honest hrun hgood).cast x hx).1
  · exact h.accepted_mem hrun hgood hc

omit hgood in
/-- Above round 0, what good authorities voted for or accepted and is certified alike has the
same content. -/
theorem Assumptions.same_of_certified {x y : Header} (hx : x ∈ self.endorsed s)
    (hy : y ∈ self.endorsed s) (hround : 0 < y.round) (hcertified : x.certified = y.certified) :
    x.Same y :=
  (h.separated hrun).same_of_certified (hrun.genuine h.positive) (h.endorsed_subset hrun)
    h.unambiguous hx hy hround hcertified

/-- **A good voter of an accepted certificate voted for its header.** -/
theorem Assumptions.certified (hc : c ∈ (s name).primary.core.txConsensus)
    (hnot : ¬ Certificate.LetThrough self.committee c)
    {voter : PublicKey} (hvoter : voter ∈ self.good) (hmem : voter ∈ c.voters) :
    ∃ x ∈ (s voter).primary.core.cast, x.header ∈ self.headers es ∧
      x.header.certified = c.header.certified ∧ x.vote = Vote.new x.header voter := by
  have hbacked := (h.standing hrun hgood).upright.backed c hc hnot
  have hX := h.accepted_mem hrun hgood hc
  obtain ⟨⟨signer, signature⟩, hvote, rfl⟩ := List.mem_map.mp (List.mem_toFinset.mp hmem)
  have hmade : c.digest ∈ (s signer).published := hbacked.signed _ hvote hvoter
  obtain ⟨x, hx, hid⟩ | ⟨x, hx, hdigest⟩ :=
    (ProcessConfig.mem_published (h.promised hrun hvoter).1).mp hmade
  · -- the id of a header is not the digest of a certificate
    obtain ⟨m, hown⟩ := Core.mem_ownHeaders.mp hx
    have hin := h.incoming hrun hvoter
    exact absurd hid ((h.separated hrun).apart x (hin.own m x hown).1 c.header (Or.inl hX))
  · obtain ⟨hxX, heq⟩ := (h.honest hrun hvoter).cast x hx
    refine ⟨x, hx, hxX, ?_, heq⟩
    rw [heq] at hdigest
    exact hdigest

/-- The good voters of an accepted certificate have f + 1 of the stake. -/
theorem Assumptions.voters_le (hc : c ∈ (s name).primary.core.txConsensus)
    (hnot : ¬ Certificate.LetThrough self.committee c) :
    self.committee.validityThreshold.toNat
      ≤ ∑ a ∈ c.voters ∩ self.good, self.committee.weight a :=
  Committee.validity_le_of_quorum h.fit h.minority
    ((h.standing hrun hgood).upright.backed c hc hnot).quorum_le

/-- An accepted certificate has a good voter. -/
theorem Assumptions.exists_voter (hc : c ∈ (s name).primary.core.txConsensus)
    (hnot : ¬ Certificate.LetThrough self.committee c) : ∃ voter ∈ self.good, voter ∈ c.voters := by
  obtain ⟨voter, hvoter, hgood'⟩ := Committee.exists_common_of_thresholds h.fit
    (h.voters_le hrun hgood hc hnot)
    ((h.standing hrun hgood).upright.backed c hc hnot).quorum_le
  exact ⟨voter, (Finset.mem_inter.mp hvoter).2, hgood'⟩

end

omit [Crypto] in
/-- A certificate above round 0 is not let through as genesis. -/
theorem not_letThrough_of_pos {committee : Committee} (hround : 0 < c.round) :
    ¬ Certificate.LetThrough committee c := fun h => by
  have hzero := h.round
  omega

section

variable (h : Assumptions self es s) (hrun : self.Run es s) (hgood : name ∈ self.good)

include h hrun hgood

theorem Assumptions.voted (hc : c ∈ (s name).primary.core.txConsensus) (hround : 0 < c.round)
    {voter : PublicKey} (hvoter : voter ∈ self.good) (hmem : voter ∈ c.voters) :
    ∃ x ∈ (s voter).primary.core.cast, x.header ∈ self.headers es ∧ x.header.Same c.header ∧
      x.vote = Vote.new x.header voter := by
  obtain ⟨x, hx, hxX, hcertified, hvote⟩ :=
    h.certified hrun hgood hc (not_letThrough_of_pos hround) hvoter hmem
  exact ⟨x, hx, hxX, h.same_of_certified hrun ⟨voter, hvoter, Or.inl ⟨x, hx, rfl⟩⟩
    ⟨name, hgood, Or.inr ⟨c, hc, rfl⟩⟩ hround hcertified, hvote⟩

end

/-! ## §2. Uniqueness. -/

/-- Certificates of one author and round that good authorities accepted have one header. -/
theorem FreshAssumptions.unique (h : FreshAssumptions self es s) (hrun : self.Run es s)
    {name' : PublicKey} {c' : Certificate} (hgood : name ∈ self.good) (hgood' : name' ∈ self.good)
    (hc : c ∈ (s name).primary.core.txConsensus) (hc' : c' ∈ (s name').primary.core.txConsensus)
    (hpos : 0 < c.round) (hround : c.round = c'.round) (horigin : c.origin = c'.origin) :
    c.header.Same c'.header := by
  have hpos' : 0 < c'.round := hround ▸ hpos
  -- a good authority voted for both
  obtain ⟨voter, hvoter, hvoter'⟩ := Committee.exists_common_of_thresholds h.fit
    (h.voters_le hrun hgood hc (not_letThrough_of_pos hpos))
    ((h.standing hrun hgood').upright.backed c' hc' (not_letThrough_of_pos hpos')).quorum_le
  obtain ⟨hmem, hin⟩ := Finset.mem_inter.mp hvoter
  obtain ⟨x, hx, hxX, hsame, hvote⟩ := h.voted hrun hgood hc hpos hin hmem
  obtain ⟨x', hx', hxX', hsame', hvote'⟩ := h.voted hrun hgood' hc' hpos' hin hvoter'
  have honce := (Core.Run.once (hrun.primary voter) (h.fresh voter hin)).1.once x hx x' hx'
  rw [hvote, hvote'] at honce
  have hrounds : x.header.round = x'.header.round :=
    hsame.round.trans (hround.trans hsame'.round.symm)
  have hauthors : x.header.author = x'.header.author :=
    hsame.author.trans (horigin.trans hsame'.author.symm)
  have hid : x.header.id = x'.header.id := honce hauthors hrounds
  have hcertified : x.header.certified = x'.header.certified := by
    unfold Header.certified
    rw [hid, hrounds, hauthors]
  have hxx' : x.header.Same x'.header := h.same_of_certified hrun
    ⟨voter, hin, Or.inl ⟨x, hx, rfl⟩⟩ ⟨voter, hin, Or.inl ⟨x', hx', rfl⟩⟩
    (hsame'.round ▸ hpos') hcertified
  exact (hsame.symm.trans hxx').trans hsame'

/-! ## §3. Availability. -/

/-- The headers of a good authority pass the check of the others. -/
theorem Assumptions.own_verified (h : Assumptions self es s) (hrun : self.Run es s)
    (hgood : name ∈ self.good) {m : Primary} {x : Header}
    (hmem : (m, Primary.Action.ownHeader x) ∈ self.primaryHistory name es) :
    x.verify self.committee = .ok () := by
  have hpositive : 0 < (self.config name).core.committee.weight (self.config name).core.name :=
    h.positive name hgood
  have hpromised := (h.promised hrun hgood).1
  have hx : x ∈ created (s name).log := by
    have hown : x ∈ Core.ownHeaders (self.primaryHistory name es) :=
      Core.mem_ownHeaders.mpr ⟨m, hmem⟩
    change x ∈ Core.ownHeaders ((self.config name).primaryHistory (self.history name es)) at hown
    rw [hpromised.taken, List.mem_reverse] at hown
    exact List.mem_of_mem_take hown
  obtain ⟨payload, parents, hmade⟩ := ProcessConfig.Run.made (hrun.party name) x hx
  -- the workers of a good authority are those of the committee
  have hworkers := (ProcessConfig.Run.loads (hrun.party name)
    (B := fun e => (self.committee.worker name e.2).toBool = true)
    fun n d workerId hdigest => by
      obtain ⟨t, ht, _⟩ := mem_history.mp hdigest
      obtain ⟨later, earlier, t', hsplit, hrun', hnext⟩ := System.Run.at_entry hrun ht
      have hallows := (next_cases hnext).1
      unfold allows at hallows
      exact ((Bool.and_eq_true _ _).mp hallows).2).2 x hx
  rw [hmade] at hworkers ⊢
  exact ProcessConfig.verify_new hpositive (h.signs name hgood) hworkers

/-- A good authority checked what it voted for. -/
theorem Assumptions.checked (h : Assumptions self es s) (hrun : self.Run es s)
    (hgood : name ∈ self.good) {x : Cast} (hx : x ∈ (s name).primary.core.cast) :
    Core.Checked (self.config name).core x ∧
      ∀ d ∈ x.accepted, d ∈ (s name).primary.core.txConsensus :=
  (Core.Run.votes (hrun.primary name) fun _ _ hy => h.own_verified hrun hgood hy).2 x hx

/-- **Accepted certificates of round 0 are let through as genesis**: nobody good votes for a
header of round 0. -/
theorem Assumptions.letThrough_of_zero (h : Assumptions self es s) (hrun : self.Run es s)
    (hgood : name ∈ self.good) (hc : c ∈ (s name).primary.core.txConsensus) (hzero : c.round = 0) :
    Certificate.LetThrough self.committee c := by
  by_contra hnot
  obtain ⟨voter, hvoter, hmem⟩ := h.exists_voter hrun hgood hc hnot
  obtain ⟨x, hx, hxX, hcertified, _⟩ := h.certified hrun hgood hc hnot hvoter hmem
  obtain ⟨hchecked, _⟩ := h.checked hrun hvoter hx
  obtain ⟨parents, hparents⟩ := hchecked.parents
  have hpos := hparents.round_pos
  obtain ⟨_, hround, _⟩ := (h.separated hrun).certified _ (Or.inl hxX) _
    (Or.inl (h.accepted_mem hrun hgood hc)) hcertified
  have hczero : c.header.round = 0 := hzero
  omega

/-- What an authority checked before it voted for the header of a certificate. -/
structure Supports (network : Network) (s : PublicKey → Process) (c : Certificate)
    (voter : PublicKey) : Prop where
  good : voter ∈ network.good
  voted : ∃ x ∈ (s voter).primary.core.cast, x.header.Same c.header ∧
    x.vote = Vote.new x.header voter ∧ (network.config voter).core.Stocked x.store c.header
  parents : ∃ parents,
    ParentsOf (network.config voter).core (s voter).primary.core.txConsensus c.header parents

/-- A good voter of an accepted certificate supports it. -/
theorem Assumptions.supports (h : Assumptions self es s) (hrun : self.Run es s)
    (hgood : name ∈ self.good) (hc : c ∈ (s name).primary.core.txConsensus) (hround : 0 < c.round)
    {voter : PublicKey} (hvoter : voter ∈ self.good) (hmem : voter ∈ c.voters) :
    self.Supports s c voter := by
  obtain ⟨x, hx, _, hsame, hvote⟩ := h.voted hrun hgood hc hround hvoter hmem
  obtain ⟨hchecked, haccepted⟩ := h.checked hrun hvoter hx
  obtain ⟨parents, hparents⟩ := hchecked.parents
  refine ⟨hvoter, ⟨x, hx, hsame, hvote, fun hauthor e he => ?_⟩, parents, ?_⟩
  · exact hchecked.payload (hsame.author ▸ hauthor) e (hsame.payload ▸ he)
  · exact ⟨hsame.parents ▸ hparents.named,
      fun d hd => (hparents.known d hd).imp_right (haccepted d),
      hsame.round ▸ hparents.round, hparents.stake⟩

/-- **Each accepted certificate is available**: good authorities with at least f + 1 of the
stake voted for a header of its content.  When they did they had its batches, unless they
are its author, and they have accepted certificates of a quorum as its parents. -/
theorem accepted_supported (h : Assumptions self es s) (hrun : self.Run es s)
    (hgood : name ∈ self.good) (hc : c ∈ (s name).primary.core.txConsensus) (hround : 0 < c.round) :
    ∃ S : Finset PublicKey,
      self.committee.validityThreshold.toNat ≤ ∑ a ∈ S, self.committee.weight a ∧
        ∀ voter ∈ S, self.Supports s c voter :=
  ⟨_, h.voters_le hrun hgood hc (not_letThrough_of_pos hround), fun _ hvoter =>
    h.supports hrun hgood hc hround (Finset.mem_inter.mp hvoter).2 (Finset.mem_inter.mp hvoter).1⟩

/-- **Certificates are unique**: if two good authorities accept certificates of one author
and round, above round 0, their headers have the same content, as long as no good
authority processes a stale header. -/
theorem certificates_unique (h : FreshAssumptions self es s) (hrun : self.Run es s)
    {name' : PublicKey} {c' : Certificate} (hgood : name ∈ self.good) (hgood' : name' ∈ self.good)
    (hc : c ∈ (s name).primary.core.txConsensus) (hc' : c' ∈ (s name').primary.core.txConsensus)
    (hpos : 0 < c.round) (hround : c.round = c'.round) (horigin : c.origin = c'.origin) :
    c.header.Same c'.header ∧ c.digest = c'.digest := by
  have hsame := h.unique hrun hgood hgood' hc hc' hpos hround horigin
  exact ⟨hsame, hsame.certified⟩

/-! ## §4. A network for examples. -/

/-- A header that an action brings may be met: it is let in, or comes from the proposer. -/
def metBy (committee : Committee) (a : Primary.Action) (h : Header) : Bool :=
  decide (h.Admitted committee) || decide (Core.ownHeaderOf a = some h)

/-- Nothing was collected, and only headers of a list came to the authorities, those that are
stopped at the door aside. -/
def calm (network : Network) (headers : List Header) (es : History) : Bool :=
  es.all fun e => decide ((e.1 e.2.1).primary.core.gcRound = 0) &&
    (ProcessConfig.primaryLabel (e.1 e.2.1) e.2.2).all fun a =>
      a.headers.all fun h => !metBy network.committee a h || decide (h ∈ headers)

/-- The assumptions on a run in which nothing was collected, and each header has as many
batches. -/
theorem assumptions_of_calm {headers : List Header} {k : ℕ}
    (hfit : 2 * self.committee.totalStake < 2 ^ 32)
    (hminority : ∑ a ∈ self.committee.members \ self.good, self.committee.weight a
      < self.committee.validityThreshold.toNat)
    (hpositive : ∀ name ∈ self.good, 0 < self.committee.weight name)
    (hbatch : Crypto.BatchExact) (hsigns : ∀ name ∈ self.good, (self.config name).core.SignsWell)
    (hhash : Hashing self.committee {x | x ∈ headers}) (hdefault : Header.default ∈ headers)
    (hbatches : ∀ x ∈ headers, x.digest = x.id → x.payload.entries.length = k)
    (hcalm : calm self headers es = true) (hrun : self.Run es s) :
    FreshAssumptions self es s := by
  have hentry : ∀ {name : PublicKey} {m : Primary} {a : Primary.Action},
      (m, a) ∈ self.primaryHistory name es → m.core.gcRound = 0 ∧
        ∀ x ∈ a.headers, metBy self.committee a x = true → x ∈ headers := by
    intro name m a hmem
    obtain ⟨n, b, hn, hlabel, rfl⟩ := (self.config name).primaryView.mem_history.mp hmem
    obtain ⟨t, ht, rfl⟩ := mem_history.mp hn
    obtain ⟨hgc, hheaders⟩ := (Bool.and_eq_true _ _).mp (List.all_eq_true.mp hcalm _ ht)
    refine ⟨of_decide_eq_true hgc, fun x hx hmet => ?_⟩
    change (ProcessConfig.primaryLabel (t name) b).all _ = true at hheaders
    rw [show ProcessConfig.primaryLabel (t name) b = some a from hlabel] at hheaders
    have hone := List.all_eq_true.mp hheaders x hx
    rw [hmet, Bool.not_true, Bool.false_or] at hone
    exact of_decide_eq_true hone
  have hsub : self.headers es ⊆ {x | x ∈ headers} := by
    rintro x (rfl | ⟨name, _, ⟨m, a⟩, hmem, ⟨hx, hadmitted⟩ | hown⟩)
    · exact hdefault
    · refine (hentry hmem).2 x hx ?_
      unfold metBy
      rw [decide_eq_true hadmitted, Bool.true_or]
    · dsimp only at hown
      subst hown
      refine (hentry hmem).2 x List.mem_cons_self ?_
      unfold metBy
      rw [decide_eq_true (show Core.ownHeaderOf (.ownHeader x) = some x from rfl), Bool.or_true]
  have hseparated := (hhash.mono hsub).separated (hrun.genuine hpositive)
  refine ⟨⟨hfit, hminority, hpositive, hbatch, hsigns, hhash.mono hsub, ?_⟩, fun name _ => ?_⟩
  · have hknown : ∀ x ∈ self.endorsed s, x ∈ headers := by
      rintro x ⟨name, hgood, ⟨x, hx, rfl⟩ | ⟨c, hc, rfl⟩⟩
      · exact hsub ((hrun.honest hfit hseparated (hrun.incoming hpositive hgood)).cast x hx).1
      · exact hsub (hrun.accepted_mem hfit hseparated (hrun.incoming hpositive hgood) hc)
    intro x hx y hy hxd hyd _
    rw [hbatches x (hknown x hx) hxd, hbatches y (hknown y hy) hyd]
  · intro m a input m₀ hmem _ x _ hstale
    have hbelow := hstale.below
    rw [(hentry hmem).1] at hbelow
    omega

open Mrv.Core (sampleBatch sampleHash sampleHeaders sampleOwn sampleMimic)

/-- Four authorities, of which the third does not run the program. -/
def sampleNetwork : Network :=
  { committee := Committee.sampleFour, gcDepth := 50, headerSize := 1000
    good := {sampleKey 0, sampleKey 1, sampleKey 3} }

/-- The certificate of the header that the fourth authority proposes first. -/
def sampleCertified : Certificate :=
  letI := sampleHash
  { header := sampleOwn
    votes := [3, 0, 1].map fun a => (sampleKey a, Crypto.sign (sampleKey a) sampleOwn.certified) }

/-- The same with the votes in another order. -/
def sampleReordered : Certificate :=
  { sampleCertified with votes := sampleCertified.votes.reverse }

/-- The fourth authority makes a header.  The first two vote for it when they have its batch,
the fourth assembles the certificate, and the first two accept it.  One of them was sent a
header that it refuses. -/
def sampleSteps : List (PublicKey × Process.Action) :=
  letI := sampleHash
  [(sampleKey 3, .digest (sampleBatch 103) 0), (sampleKey 3, .elapse), (sampleKey 3, .timer),
    (sampleKey 3, .header),
    (sampleKey 0, .primary (.message (.header sampleMimic))),
    (sampleKey 0, .primary (.othersBatch (sampleBatch 103) 0)),
    (sampleKey 0, .primary (.message (.header sampleOwn))),
    (sampleKey 1, .primary (.othersBatch (sampleBatch 103) 0)),
    (sampleKey 1, .primary (.message (.header sampleOwn))),
    (sampleKey 3, .primary (.message (.vote (Vote.new sampleOwn (sampleKey 0))))),
    (sampleKey 3, .primary (.message (.vote (Vote.new sampleOwn (sampleKey 1))))),
    (sampleKey 0, .primary (.message (.certificate sampleCertified))),
    (sampleKey 1, .primary (.message (.certificate sampleReordered)))]

omit [Crypto] in
set_option maxRecDepth 10000 in
theorem exists_sampleRun :
    letI := sampleHash
    ∃ es s, sampleNetwork.Run es s ∧ FreshAssumptions sampleNetwork es s ∧
      sampleCertified ∈ (s (sampleKey 0)).primary.core.txConsensus ∧
      sampleReordered ∈ (s (sampleKey 1)).primary.core.txConsensus := by
  let _ := sampleHash
  obtain ⟨es, s, hrun, hcheck⟩ := System.exec_check sampleNetwork.system sampleSteps
    (fun es s => calm sampleNetwork sampleHeaders es &&
      decide (sampleCertified ∈ (s (sampleKey 0)).primary.core.txConsensus ∧
        sampleReordered ∈ (s (sampleKey 1)).primary.core.txConsensus)) (by decide +kernel)
  obtain ⟨hcalm, haccepted⟩ := (Bool.and_eq_true _ _).mp hcheck
  refine ⟨es, s, hrun, ?_, of_decide_eq_true haccepted⟩
  exact assumptions_of_calm (by decide) (by decide) (by decide) Core.batchExact_sampleHash
    (fun name _ => Core.signsWell_sampleHash _) Core.hashing_sampleHeaders List.mem_cons_self
    Core.batches_sampleHeaders hcalm hrun

omit [Crypto] in
/-- The certificate is backed by good authorities that have half of the stake. -/
theorem accepted_supported_sample :
    letI := sampleHash
    ∃ es s, sampleNetwork.Run es s ∧ ∃ S : Finset PublicKey,
      sampleNetwork.committee.validityThreshold.toNat
        ≤ ∑ a ∈ S, sampleNetwork.committee.weight a ∧
        ∀ voter ∈ S, sampleNetwork.Supports s sampleCertified voter := by
  let _ := sampleHash
  obtain ⟨es, s, hrun, h, hfirst, _⟩ := exists_sampleRun
  exact ⟨es, s, hrun, accepted_supported h.toAssumptions hrun (by decide) hfirst (by decide)⟩

omit [Crypto] in
/-- Two authorities accept a certificate of the fourth one of round 1, with its votes in
different orders. -/
theorem certificates_unique_sample :
    letI := sampleHash
    ∃ es s c c', sampleNetwork.Run es s ∧ c ∈ (s (sampleKey 0)).primary.core.txConsensus ∧
      c' ∈ (s (sampleKey 1)).primary.core.txConsensus ∧ c ≠ c' ∧
      c.header.Same c'.header ∧ c.digest = c'.digest := by
  let _ := sampleHash
  obtain ⟨es, s, hrun, h, hfirst, hlast⟩ := exists_sampleRun
  exact ⟨es, s, sampleCertified, sampleReordered, hrun, hfirst, hlast, by decide +kernel,
    certificates_unique h hrun (by decide) (by decide) hfirst hlast (by decide) rfl rfl⟩

end Network

end Mrv
