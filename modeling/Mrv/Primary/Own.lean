/-
  Mrv.Primary.Own — a primary and its own headers.

  The proposer makes a header of parents that the core passed on to it, in a round
  above those of the headers before.  Such a header passes all checks when the core
  takes it (`Supplied.finds`), so that the core votes for it at once and counts the
  vote, without an error that would stop it (`exec_processOwnHeader`).
-/
import Mrv.Primary.Supply
import Mrv.Primary.Validity
import Mrv.Primary.Aggregation

namespace Mrv

variable [Crypto]

namespace Core

variable {self : Core} {X : Set Header} {s : State} {h : Header}

/-! ## §1. A header of ours passes. -/

/-- Certificates of the round before a given one, genesis or accepted, by distinct
authorities that hold a quorum. -/
structure Cites (core : Core) (accepted : List Certificate) (round : ℕ)
    (certificates : List Certificate) : Prop where
  known : ∀ c ∈ certificates, c ∈ Certificate.genesis core.committee ∨ c ∈ accepted
  round : ∀ c ∈ certificates, c.round + 1 = round
  distinct : (certificates.map Certificate.origin).Nodup
  quorum : core.committee.quorumThreshold.toNat
    ≤ (certificates.map (fun c => core.committee.weight c.origin)).sum

omit [Crypto] in
theorem Cites.mono {accepted accepted' : List Certificate} {round : ℕ}
    {certificates : List Certificate} (hcites : Cites self accepted round certificates)
    (hsub : accepted ⊆ accepted') : Cites self accepted' round certificates :=
  ⟨fun c hc => (hcites.known c hc).imp_right fun hmem => hsub hmem, hcites.round, hcites.distinct,
    hcites.quorum⟩

/-- The parents of a header are such certificates. -/
def Sourced (core : Core) (accepted : List Certificate) (h : Header) : Prop :=
  ∃ certificates, h.parents = BTreeSet.ofList (certificates.map Certificate.digest) ∧
    Cites core accepted h.round certificates

theorem Sourced.mono {accepted accepted' : List Certificate} (hs : Sourced self accepted h)
    (hsub : accepted ⊆ accepted') : Sourced self accepted' h := by
  obtain ⟨certificates, heq, hcites⟩ := hs
  exact ⟨certificates, heq, hcites.mono hsub⟩

omit [Crypto] in
theorem sum_genesis (committee : Committee) :
    ((Certificate.genesis committee).map (fun c => committee.weight c.origin)).sum
      = committee.totalStake := by
  unfold Committee.totalStake Committee.members Certificate.genesis
  rw [List.sum_toFinset _ committee.authorities.keys_nodup, List.map_map]
  rfl

omit [Crypto] in
/-- All authorities together are a quorum. -/
theorem quorumThreshold_le_totalStake {committee : Committee}
    (hfit : 2 * committee.totalStake < 2 ^ 32) (hpos : 0 < committee.totalStake) :
    committee.quorumThreshold.toNat ≤ committee.totalStake := by
  rw [committee.quorumThreshold_toNat hfit]
  omega

/-- What the proposer takes as parents are certificates by a quorum. -/
theorem cites_of_parentsFor (hfit : 2 * self.committee.totalStake < 2 ^ 32)
    (hpos : 0 < self.committee.totalStake) {accepted : List Certificate} {round : ℕ}
    {parents : List Digest} (hparents : ParentsFor self.committee accepted round parents) :
    ∃ certificates, parents = certificates.map Certificate.digest ∧
      Cites self accepted round certificates := by
  obtain ⟨rfl, rfl⟩ | ⟨hround, certificates, heq, hdistinct, hquorum⟩ := hparents
  · refine ⟨Certificate.genesis self.committee, rfl, fun c hc => Or.inl hc, fun c hc => ?_, ?_, ?_⟩
    · rw [Certificate.round_of_mem_genesis hc]
    · have hkeys : (Certificate.genesis self.committee).map Certificate.origin
          = self.committee.authorities.keys := by
        unfold Certificate.genesis
        rw [List.map_map]
        exact List.map_id _
      rw [hkeys]
      exact self.committee.authorities.keys_nodup
    · rw [sum_genesis]
      exact quorumThreshold_le_totalStake hfit hpos
  · refine ⟨certificates, heq, fun c hc => Or.inr (hdistinct.accepted c hc), fun c hc => ?_,
      hdistinct.distinct, hquorum⟩
    rw [hdistinct.round c hc]
    omega

/-- Digests that are genesis, or of certificates in the store, are found. -/
theorem exists_findParents {store : Store} {digests : List Digest}
    (hall : ∀ d ∈ digests, (∃ g ∈ Certificate.genesis self.committee, g.digest = d) ∨
      ∃ c, store.lookup d.toVec = some (.certificate c)) :
    ∃ parents, self.findParents store digests = .ok (parents, []) := by
  induction digests with
  | nil => exact ⟨[], rfl⟩
  | cons d digests ih =>
      obtain ⟨hd, hrest⟩ := List.forall_mem_cons.mp hall
      obtain ⟨parents, hparents⟩ := ih hrest
      unfold findParents
      cases hfind : self.genesis.find? (fun x => decide (x.1 = d)) with
      | some e =>
          simp only [hparents]
          exact ⟨e.2 :: parents, rfl⟩
      | none =>
          obtain ⟨g, hg, hdigest⟩ | ⟨c, hlookup⟩ := hd
          · have hmem : (g.digest, g) ∈ self.genesis := List.mem_map.mpr ⟨g, hg, rfl⟩
            have hne := List.find?_eq_none.mp hfind _ hmem
            exact absurd (decide_eq_true hdigest) hne
          · simp only [hlookup, Record.toCertificate, hparents]
            exact ⟨c :: parents, rfl⟩

/-- Genesis and accepted certificates with one digest are of one round and author. -/
theorem Supplied.eq_of_digest (hs : Supplied self X s) (hhash : Separated self.committee X)
    {c c' : Certificate}
    (hc : c ∈ Certificate.genesis self.committee ∨ c ∈ s.txConsensus)
    (hc' : c' ∈ Certificate.genesis self.committee ∨ c' ∈ s.txConsensus)
    (heq : c.digest = c'.digest) : c.round = c'.round ∧ c.origin = c'.origin := by
  have hknown : ∀ x, (x ∈ Certificate.genesis self.committee ∨ x ∈ s.txConsensus) →
      x.header ∈ withGenesisHeaders self.committee X := by
    intro x hx
    obtain hg | ha := hx
    · exact Or.inr ⟨x, hg, rfl⟩
    · exact Or.inl (hs.headers x ha)
  exact (hhash.certified _ (hknown c hc) _ (hknown c' hc') heq).2

omit [Crypto] in
/-- The stake of distinct authors, added up along a list or over the set of them. -/
theorem sum_weight_origins {l : List Certificate} (hl : (l.map Certificate.origin).Nodup) :
    (l.map (fun c => self.committee.weight c.origin)).sum
      = ∑ a ∈ (l.map Certificate.origin).toFinset, self.committee.weight a := by
  rw [List.sum_toFinset _ hl, List.map_map]
  rfl

/-- The parents found have the rounds and the authors of the certificates cited. -/
theorem Supplied.cited (hs : Supplied self X s) (hhash : Separated self.committee X)
    {certificates parents : List Certificate} {round : ℕ}
    (hcites : Cites self s.txConsensus round certificates)
    (hdigests : (parents.map Certificate.digest).Nodup)
    (hknown : ∀ p ∈ parents, p ∈ Certificate.genesis self.committee ∨ p ∈ s.txConsensus)
    (hnamed : ∀ d, d ∈ parents.map Certificate.digest ↔ ∃ c ∈ certificates, c.digest = d) :
    (∀ p ∈ parents, p.round + 1 = round) ∧ (parents.map Certificate.origin).Nodup ∧
      (parents.map Certificate.origin).toFinset
        = (certificates.map Certificate.origin).toFinset := by
  -- each parent found is one of the certificates cited, as far as round and author go
  have hcited : ∀ p ∈ parents, ∃ c ∈ certificates, c.digest = p.digest ∧ p.round = c.round ∧
      p.origin = c.origin := by
    intro p hp
    obtain ⟨c, hc, heq⟩ := (hnamed _).mp (List.mem_map_of_mem hp)
    exact ⟨c, hc, heq, hs.eq_of_digest hhash (hknown p hp) (hcites.known c hc) heq.symm⟩
  refine ⟨fun p hp => ?_, ?_, ?_⟩
  · obtain ⟨c, hc, _, hpc, _⟩ := hcited p hp
    rw [hpc]
    exact hcites.round c hc
  · refine List.Nodup.map_on ?_ (List.Nodup.of_map _ hdigests)
    intro p hp p' hp' horigin
    obtain ⟨c, hc, hd, _, ho⟩ := hcited p hp
    obtain ⟨c', hc', hd', _, ho'⟩ := hcited p' hp'
    have hsame : c = c' := List.inj_on_of_nodup_map hcites.distinct hc hc'
      (ho.symm.trans (horigin.trans ho'))
    exact List.inj_on_of_nodup_map hdigests hp hp' (by rw [← hd, ← hd', hsame])
  · ext name
    simp only [List.mem_toFinset, List.mem_map]
    constructor
    · rintro ⟨p, hp, rfl⟩
      obtain ⟨c, hc, _, _, ho⟩ := hcited p hp
      exact ⟨c, hc, ho.symm⟩
    · rintro ⟨c, hc, rfl⟩
      obtain ⟨p, hp, heq⟩ := List.mem_map.mp ((hnamed _).mpr ⟨c, hc, rfl⟩)
      exact ⟨p, hp, (hs.eq_of_digest hhash (hknown p hp) (hcites.known c hc) heq).2⟩

/-- **The parents of a header of ours are found, and pass the checks.** -/
theorem Supplied.finds (hfit : 2 * self.committee.totalStake < 2 ^ 32)
    (hs : Supplied self X s) (hhash : Separated self.committee X)
    (hsourced : Sourced self s.txConsensus h) : ∃ parents stake,
      self.findParents s.store h.parents.toList = .ok (parents, []) ∧
      parents ≠ [] ∧ self.checkParents h parents 0 = .ok stake ∧
      self.committee.quorumThreshold ≤ stake := by
  obtain ⟨certificates, hparents, hcites⟩ := hsourced
  have hmem : ∀ d, d ∈ h.parents.toList ↔ ∃ c ∈ certificates, c.digest = d := by
    intro d
    rw [hparents, ← BTreeSet.mem_iff, BTreeSet.mem_ofList, List.mem_map]
  obtain ⟨parents, hfind⟩ : ∃ parents,
      self.findParents s.store h.parents.toList = .ok (parents, []) := by
    refine exists_findParents fun d hd => ?_
    obtain ⟨c, hc, rfl⟩ := (hmem d).mp hd
    obtain hg | ha := hcites.known c hc
    · exact Or.inl ⟨c, hg, rfl⟩
    · exact Or.inr (hs.kept c ha)
  obtain ⟨hnamed, hknown⟩ := findParents_resolves hs.keyed hfind
  obtain ⟨hround, hnodup, hnames⟩ := hs.cited hhash hcites (hnamed ▸ h.parents.nodup) hknown
    (fun d => hnamed ▸ hmem d)
  have hsum : (parents.map (fun c => self.committee.weight c.origin)).sum
      = (certificates.map (fun c => self.committee.weight c.origin)).sum := by
    rw [sum_weight_origins hnodup, sum_weight_origins hcites.distinct, hnames]
  have hquorum := hcites.quorum
  have hpos := self.committee.quorumThreshold_pos
  refine ⟨parents, _, hfind, ?_, checkParents_eq_ok.mpr ⟨hround, rfl⟩, ?_⟩
  · rintro rfl
    rw [← hsum] at hquorum
    simp at hquorum
    omega
  · have hle : (parents.map (fun c => self.committee.weight c.origin)).sum
        ≤ self.committee.totalStake := by
      rw [sum_weight_origins hnodup]
      exact Committee.sum_weight_le_totalStake _
    rw [UInt32.le_iff_toNat_le, zero_add, Committee.toNat_sum, List.map_map]
    show _ ≤ (parents.map (fun c => self.committee.weight c.origin)).sum % 2 ^ 32
    rw [Nat.mod_eq_of_lt (by omega), hsum]
    exact hquorum

/-! ## §2. A header of ours is voted for at once. -/

/-- A header is stored under its id. -/
def stored (h : Header) (s : State) : State :=
  { s with store := s.store.insert h.id.toVec (.header h) }

omit [Crypto] in
theorem voted_spent (h : Header) (s : State) (round : ℕ) :
    (spent h s).voted round
      = if round = h.round then insert h.author (s.voted h.round) else s.voted round :=
  voted_insert s h.round round _

/-- The parents of a header that are all there. -/
theorem exec_getParents {parents : List Certificate}
    (hfind : self.findParents s.store h.parents.toList = .ok (parents, [])) :
    (self.getParents h).exec s = (.ok parents, s) := by
  unfold getParents
  rw [Handler.exec_bind, Handler.exec_get]
  dsimp only
  rw [hfind, Handler.exec_bind]
  rfl

omit [Crypto] in
/-- The payload of a header of ours is our workers' own. -/
theorem exec_missingPayload (hname : h.author = self.name) :
    (self.missingPayload h).exec s = (.ok false, s) := by
  unfold missingPayload
  rw [if_pos hname]
  rfl

/-- A header of ours that passes the checks leads to our vote for it. -/
theorem exec_processHeaderWith {processVote : Vote → Handler Unit} {parents : List Certificate}
    {stake : Stake} (hfind : self.findParents s.store h.parents.toList = .ok (parents, []))
    (hne : parents ≠ []) (hcheck : self.checkParents h parents 0 = .ok stake)
    (hquorum : self.committee.quorumThreshold ≤ stake) (hname : h.author = self.name)
    (hfresh : h.author ∉ s.voted h.round) :
    (self.processHeaderWith processVote h).exec s
      = ((processVote (Vote.new h self.name)).expect (.expected .ownVote)).exec
          (self.polled h (stored h (marked h s))) := by
  have hensure : (ensure (decide (self.committee.quorumThreshold ≤ stake))
      (DagError.headerRequiresQuorum h.id) : Except DagError Unit) = .ok () :=
    ensure_eq_ok.mpr (decide_eq_true hquorum)
  have htake : (takeVote h).exec (stored h (marked h s))
      = (.ok true, spent h (stored h (marked h s))) := by
    unfold takeVote
    rw [Handler.exec_modifyGet]
    have hvoted : h.author ∉ (stored h (marked h s)).voted h.round := hfresh
    rw [decide_eq_true hvoted]
    rfl
  unfold processHeaderWith
  rw [Handler.exec_bind]
  show ((self.getParents h >>= _).exec (marked h s)) = _
  rw [Handler.exec_bind, exec_getParents (s := marked h s) hfind]
  dsimp only
  rw [if_neg hne, hcheck, Handler.exec_bind]
  show ((Handler.ofExcept Fault.error _ >>= _).exec (marked h s)) = _
  rw [hensure, Handler.exec_bind]
  show ((self.missingPayload h >>= _).exec (marked h s)) = _
  rw [Handler.exec_bind, exec_missingPayload hname]
  dsimp only
  rw [if_neg Bool.false_ne_true, Handler.exec_bind]
  show ((self.voteWith processVote h).exec (stored h (marked h s))) = _
  unfold voteWith
  rw [Handler.exec_bind, htake]
  dsimp only
  rw [if_pos rfl, Handler.exec_bind]
  show (Handler.exec (if h.author = self.name then _ else _) _) = _
  rw [if_pos hname]
  rfl

/-- **A certificate whose header is marked and whose parents are there is accepted**,
however headers are processed. -/
theorem exec_processCertificateWith (processHeader : Header → Handler Unit) {c : Certificate}
    (hmarked : Marked c.header s) (hparents : self.HasParents s.store c.header) :
    (self.processCertificateWith processHeader c).exec s = (self.acceptCertificate c).exec s := by
  have hembedded : (embeddedHeaderWith processHeader c).exec s = (.ok (), s) := by
    unfold embeddedHeaderWith
    rw [Handler.exec_bind, Handler.exec_get]
    dsimp only
    unfold Marked at hmarked
    rw [if_pos hmarked, Handler.exec_pure]
  have hdelivered : (self.deliverCertificate c).exec s = (.ok true, s) := by
    unfold deliverCertificate
    rw [Handler.exec_bind, Handler.exec_get]
    dsimp only
    rw [if_pos (List.all_eq_true.mpr hparents), Handler.exec_pure]
  unfold processCertificateWith
  rw [Handler.exec_bind, hembedded]
  dsimp only
  rw [Handler.exec_bind, hdelivered]
  rfl

/-- The state after a vote was counted. -/
def counted (core : Core) (vote : Vote) (s : State) : State :=
  { s with
    votesAggregator := (s.votesAggregator.append vote core.committee s.currentHeader).2 }

omit [Crypto] in
theorem exec_appendVote {vote : Vote} {r : Option Certificate}
    (hr : (s.votesAggregator.append vote self.committee s.currentHeader).1 = .ok r) :
    (self.appendVote vote).exec s = (.ok r, self.counted vote s) := by
  unfold appendVote
  rw [Handler.exec_bind, Handler.exec_modifyGet]
  dsimp only
  rw [hr]
  rfl

/-- **Counting a vote**: if the current header is marked and has its parents, nothing fails
after the vote was counted. -/
theorem exec_processVoteWith (processHeader : Header → Handler Unit) {vote : Vote}
    {r : Option Certificate}
    (hr : (s.votesAggregator.append vote self.committee s.currentHeader).1 = .ok r)
    (hmarked : Marked s.currentHeader s) (hparents : self.HasParents s.store s.currentHeader) :
    ∃ s', (self.processVoteWith (self.processCertificateWith processHeader) vote).exec s
        = (.ok (), s') ∧ s'.lastVoted = s.lastVoted ∧ s'.cast = s.cast ∧
      s'.processing = s.processing ∧
      s'.votesAggregator = (self.counted vote s).votesAggregator := by
  unfold processVoteWith
  rw [Handler.exec_bind, exec_appendVote hr]
  cases r with
  | none => exact ⟨_, rfl, rfl, rfl, rfl, rfl⟩
  | some c =>
      have hheader := header_of_append hr
      dsimp only
      let t : State := { self.counted vote s with
        network := s.network ++ [(self.others, PrimaryMessage.certificate c)] }
      have hmarked' : Marked c.header t := by
        rw [hheader]
        exact hmarked
      have hparents' : self.HasParents t.store c.header := by
        rw [hheader]
        exact hparents
      have hexec := exec_processCertificateWith processHeader hmarked' hparents'
      rw [exec_acceptCertificate] at hexec
      rw [Handler.exec_bind]
      show ∃ s', ((self.processCertificateWith processHeader c).expect _).exec t = _ ∧ _
      rw [Handler.exec_expect, hexec]
      exact ⟨_, rfl, rfl, rfl, rfl, rfl⟩

omit [Crypto] in
/-- The first vote is counted. -/
theorem append_new (vote : Vote) (committee : Committee) (header : Header) :
    ∃ r, (VotesAggregator.new.append vote committee header).1 = .ok r ∧
      (VotesAggregator.new.append vote committee header).2.used = {vote.author} := by
  unfold VotesAggregator.append VotesAggregator.new
  rw [if_neg (Finset.notMem_empty _)]
  dsimp only
  split
  · exact ⟨_, rfl, rfl⟩
  · exact ⟨_, rfl, rfl⟩

/-- Parents that were found are there. -/
theorem hasParents_of_findParents {store : Store} {parents : List Certificate}
    (hfind : self.findParents store h.parents.toList = .ok (parents, [])) :
    self.HasParents store h := by
  intro p hp
  have hall : ∀ {digests : List Digest} {parents : List Certificate},
      self.findParents store digests = .ok (parents, []) →
        ∀ d ∈ digests, self.hasParent store d = true := by
    intro digests
    induction digests with
    | nil => exact fun _ d hd => absurd hd List.not_mem_nil
    | cons d digests ih =>
        intro parents hfind
        obtain ⟨ps, ms, hrest, hcases⟩ := findParents_cons hfind
        unfold hasParent
        obtain ⟨e, he, _, hms⟩ | ⟨record, c, hlookup, _, _, hms⟩ | ⟨_, _, _, hms⟩ := hcases
        · rw [← hms] at hrest
          refine List.forall_mem_cons.mpr ⟨?_, ih hrest⟩
          have hany : self.genesis.any (fun x => decide (x.1 = d)) = true :=
            List.any_eq_true.mpr ⟨e, List.mem_of_find?_eq_some he,
              List.find?_some (p := fun x : Digest × Certificate => decide (x.1 = d)) he⟩
          rw [hany, Bool.true_or]
        · rw [← hms] at hrest
          refine List.forall_mem_cons.mpr ⟨?_, ih hrest⟩
          rw [hlookup, Option.isSome_some, Bool.or_true]
        · exact absurd hms.symm (List.cons_ne_nil _ _)
  exact hall hfind p hp

/-- What is there stays there when something is stored. -/
theorem HasParents.insert {store : Store} {key : Key} {record : Record}
    (hparents : self.HasParents store h) : self.HasParents (store.insert key record) h := by
  intro p hp
  have hold := hparents p hp
  unfold hasParent at hold ⊢
  obtain hgenesis | hstore := (Bool.or_eq_true _ _).mp hold
  · rw [hgenesis, Bool.true_or]
  · rw [AList.lookup_insert_eq_ite]
    split
    · rw [Option.isSome_some, Bool.or_true]
    · rw [hstore, Bool.or_true]

/-- **A header of ours is voted for at once**, and the vote is counted. -/
theorem exec_processOwnHeader {parents : List Certificate} {stake : Stake}
    (hfind : self.findParents s.store h.parents.toList = .ok (parents, [])) (hne : parents ≠ [])
    (hcheck : self.checkParents h parents 0 = .ok stake)
    (hquorum : self.committee.quorumThreshold ≤ stake) (hname : h.author = self.name)
    (hfresh : self.name ∉ s.voted h.round) :
    ∃ s', (self.processOwnHeader h).exec s = (.ok (), s') ∧ self.name ∈ s'.voted h.round ∧
      (∃ x ∈ s'.cast, x.header = h ∧ x.vote = Vote.new h self.name) ∧
      self.name ∈ s'.votesAggregator.used ∧ Marked h s' := by
  -- the state in which the header is processed
  let t : State := { s with
    currentHeader := h, votesAggregator := .new
    network := s.network ++ [(self.others, .header h)] }
  have hvoted : h.author ∉ t.voted h.round := by
    rw [hname]
    exact hfresh
  have hexec : (self.processOwnHeader h).exec s
      = ((self.processVoteWith (self.processCertificateWith (self.processHeader 1))
          (Vote.new h self.name)).expect (.expected .ownVote)).exec
            (self.polled h (stored h (marked h t))) := by
    rw [← exec_processHeaderWith (s := t) hfind hne hcheck hquorum hname hvoted]
    rfl
  have hmarked : Marked h (self.polled h (stored h (marked h t))) := by
    show h.id ∈ State.inProcess (marked h t) h.round
    unfold marked
    rw [inProcess_insert, if_pos rfl]
    exact Finset.mem_insert_self _ _
  obtain ⟨r, hr, hused⟩ := append_new (Vote.new h self.name) self.committee h
  obtain ⟨s', hs', hlast, hcast, hprocessing, haggregator⟩ := exec_processVoteWith
    (s := self.polled h (stored h (marked h t))) (self.processHeader 1) hr hmarked
    (HasParents.insert (hasParents_of_findParents hfind))
  refine ⟨s', ?_, ?_, ?_, ?_, ?_⟩
  · rw [hexec, Handler.exec_expect, hs']
  · have hnow : self.name ∈ State.voted (self.polled h (stored h (marked h t))) h.round := by
      show self.name ∈ (spent h (stored h (marked h t))).voted h.round
      rw [voted_spent, if_pos rfl, ← hname]
      exact Finset.mem_insert_self _ _
    unfold State.voted at hnow ⊢
    rw [hlast]
    exact hnow
  · rw [hcast]
    exact ⟨_, List.mem_append_right _ List.mem_cons_self, rfl, rfl⟩
  · rw [haggregator]
    show self.name ∈ (VotesAggregator.new.append (Vote.new h self.name) self.committee h).2.used
    rw [hused]
    exact Finset.mem_singleton_self _
  · unfold Marked State.inProcess at hmarked ⊢
    rw [hprocessing]
    exact hmarked

end Core

end Mrv
