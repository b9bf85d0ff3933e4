/-
  Mrv.Protocol.Agreement — good authorities commit the same leaders.

  What the cores of the good authorities accepted is one DAG, up to the votes on the
  certificates and the signatures on their headers, which consensus does not read
  (`quorumDag_dag`): certificates are unique, and each has a quorum of parents, since a
  good authority checked them.  Each core feeds its consensus task from this DAG, in causal
  order (`Assumptions.fedFrom`), for the ids of headers are no parents.  So the commit rule
  does what it was made for:

    * `committed_leaders_prefix` — the leaders that two good authorities committed are
                                   prefixes of one another, at any time.
-/
import Mrv.Consensus.Agreement
import Mrv.Consensus.Relabel
import Mrv.Protocol.Uniqueness

namespace Mrv

open Mrv.Consensus (leaders Ledger FedFrom CausalDelivery delivered bareHistory)
open Mrv.Core (ParentsOf)

variable [Crypto]

/-! ## §1. Tasks. -/

namespace Consensus

variable {task : Consensus} {D : Set Certificate} {es : History} {n n' : Node}

/-- A task that stopped put out nothing in its last step. -/
theorem Run.live (hrun : task.Run es n) : ∃ later earlier m, es = later ++ earlier ∧
    task.Run earlier m ∧ m.panic = none ∧ m.output = n.output := by
  cases hpanic : n.panic with
  | none => exact ⟨[], es, n, rfl, hrun, hpanic, rfl⟩
  | some e =>
      cases hrun with
      | init => exact absurd hpanic.symm (Option.some_ne_none e)
      | @step es m _ a hrun hnext =>
          refine ⟨[(m, a)], es, m, rfl, hrun, ?_, ?_⟩
          · cases a with
            | receive c => exact (next_receive hnext).1
            | commit =>
                obtain ⟨_, _, hlive, _⟩ := next_commit hnext
                exact hlive
          · cases a with
            | receive c =>
                obtain ⟨_, _, rfl⟩ := next_receive hnext
                exact (output_receive m c).symm
            | commit =>
                obtain ⟨leader, rest, hlive, _, rfl⟩ := next_commit hnext
                unfold commit at hpanic ⊢
                split at hpanic
                · rfl
                · split at hpanic
                  · exact absurd (hlive.symm.trans hpanic) (Option.some_ne_none e).symm
                  · exact absurd (hlive.symm.trans hpanic) (Option.some_ne_none e).symm

/-- **Leaders of two ledgers of one DAG** are prefixes of one another. -/
theorem leaders_prefix_of_ledgers (hfit : 2 * task.committee.totalStake < 2 ^ 32)
    (hD : QuorumDag task.committee D) (h : Ledger task D n) (h' : Ledger task D n') :
    leaders n <+: leaders n' ∨ leaders n' <+: leaders n := by
  have hpart : ∀ {m : Node} {x : Certificate},
      leaders m ++ m.pending.map leaderKey = (chain task D x).reverse.map leaderKey →
        leaders m <+: (chain task D x).reverse.map leaderKey := by
    intro m x heq
    rw [← heq]
    exact List.prefix_append _ _
  obtain ⟨hout, _⟩ | ⟨x, hx, hchain⟩ := h
  · unfold leaders
    rw [hout]
    exact Or.inl List.nil_prefix
  obtain ⟨hout, _⟩ | ⟨y, hy, hchain'⟩ := h'
  · unfold leaders
    rw [hout]
    exact Or.inr List.nil_prefix
  obtain hxy | hyx := chain_prefix hfit hD hx hy
  · exact List.prefix_or_prefix_of_prefix ((hpart hchain).trans (hxy.map leaderKey)) (hpart hchain')
  · exact List.prefix_or_prefix_of_prefix (hpart hchain) ((hpart hchain').trans (hyx.map leaderKey))

/-- A sequence in which each certificate comes after its parents, read backward. -/
theorem causalDelivery_of_sent {committee : Committee} {sent : List Certificate}
    (h : ∀ l₁ c l₂, sent = l₁ ++ c :: l₂ → ∀ p ∈ c.header.parents,
      (∃ g ∈ Certificate.genesis committee, g.digest = p) ∨ ∃ c' ∈ l₁, c'.digest = p) :
    CausalDelivery committee sent.reverse := by
  induction sent using List.reverseRecOn with
  | nil => exact trivial
  | append_singleton sent c ih =>
      rw [List.reverse_append]
      refine ⟨ih fun l₁ x l₂ heq => h l₁ x (l₂ ++ [c]) (by rw [heq]; simp), fun p hp => ?_⟩
      obtain hgenesis | ⟨x, hx, hdigest⟩ := h sent c [] rfl p hp
      · exact Or.inl hgenesis
      · exact Or.inr ⟨x, List.mem_reverse.mpr hx, hdigest⟩

/-- The order does not depend on votes and signatures. -/
theorem CausalDelivery.bare {committee : Committee} {cs : List Certificate}
    (h : CausalDelivery committee cs) : CausalDelivery committee (cs.map Certificate.bare) := by
  induction cs with
  | nil => exact trivial
  | cons c cs ih =>
      refine ⟨ih h.1, fun p hp => ?_⟩
      obtain hgenesis | ⟨x, hx, hdigest⟩ := h.2 p hp
      · exact Or.inl hgenesis
      · exact Or.inr ⟨x.bare, List.mem_map_of_mem hx, hdigest⟩

end Consensus

omit [Crypto] in
/-- Certificates of headers of one content are the same but for votes and signatures. -/
theorem Certificate.bare_eq_of_same {c c' : Certificate} (h : c.header.Same c'.header) :
    c.bare = c'.bare := by
  obtain ⟨hid, hauthor, hround, hpayload, hparents⟩ := h
  obtain ⟨⟨author, round, payload, parents, id, signature⟩, votes⟩ := c
  obtain ⟨⟨author', round', payload', parents', id', signature'⟩, votes'⟩ := c'
  dsimp only at hid hauthor hround hpayload hparents
  subst hid hauthor hround hpayload hparents
  rfl

namespace Network

variable {self : Network} {es : History} {s : PublicKey → Process} {name : PublicKey}
  {c : Certificate}

/-! ## §2. The DAG. -/

/-- The certificates above round 0 that good authorities accepted, without votes and
signatures. -/
def dag (network : Network) (s : PublicKey → Process) : Set Certificate :=
  {x | ∃ name ∈ network.good, ∃ c ∈ (s name).primary.core.txConsensus, 0 < c.round ∧ c.bare = x}

/-- The consensus task of every authority. -/
def task (network : Network) : Consensus :=
  { committee := network.committee, gcDepth := network.gcDepth }

section

variable (h : Assumptions self es s) (hrun : self.Run es s)

include h hrun

/-- A parent of round 0 has the digest of a genesis certificate. -/
theorem Assumptions.genesis_of_zero (hgood : name ∈ self.good)
    (hc : c ∈ Certificate.genesis self.committee ∨ c ∈ (s name).primary.core.txConsensus)
    (hzero : c.round = 0) : ∃ g ∈ Certificate.genesis self.committee,
      g.origin = c.origin ∧ g.digest = c.digest := by
  obtain hgenesis | haccepted := hc
  · exact ⟨c, hgenesis, rfl, rfl⟩
  · have hthrough := h.letThrough_of_zero hrun hgood haccepted hzero
    refine ⟨Certificate.genesisOf c.origin, Certificate.mem_genesis.mpr ⟨_, hthrough.origin, rfl⟩,
      rfl, ?_⟩
    have hround : c.round = 0 := hthrough.round
    unfold Certificate.digest
    rw [hthrough.id, hround]
    rfl

omit h in
/-- Parents by one author have one digest. -/
theorem FreshAssumptions.parent_unique (h : FreshAssumptions self es s) (hgood : name ∈ self.good)
    {header : Header}
    {parents : List Certificate}
    (hparents : ParentsOf (self.config name).core (s name).primary.core.txConsensus header parents)
    {p p' : Certificate} (hp : p ∈ parents) (hp' : p' ∈ parents) (horigin : p.origin = p'.origin) :
    p.digest = p'.digest := by
  have hknown := hparents.known p hp
  have hknown' := hparents.known p' hp'
  have hround := hparents.round p hp
  have hround' := hparents.round p' hp'
  obtain hzero | hpos := Nat.eq_zero_or_pos p.round
  · obtain ⟨g, hg, hgorigin, hgdigest⟩ := h.genesis_of_zero hrun hgood hknown hzero
    obtain ⟨g', hg', hgorigin', hgdigest'⟩ :=
      h.genesis_of_zero hrun hgood hknown' (by omega)
    obtain ⟨a, _, rfl⟩ := Certificate.mem_genesis.mp hg
    obtain ⟨a', _, rfl⟩ := Certificate.mem_genesis.mp hg'
    have ha : a = a' := hgorigin.trans (horigin.trans hgorigin'.symm)
    rw [← hgdigest, ← hgdigest', ha]
  · have haccepted : ∀ q : Certificate, 0 < q.round →
        (q ∈ Certificate.genesis self.committee ∨ q ∈ (s name).primary.core.txConsensus) →
          q ∈ (s name).primary.core.txConsensus := by
      intro q hq hknown
      obtain hgenesis | haccepted := hknown
      · have hzero := Certificate.round_of_mem_genesis hgenesis
        omega
      · exact haccepted
    exact (h.unique hrun hgood hgood (haccepted p hpos hknown)
      (haccepted p' (by omega) hknown') hpos (by omega) horigin).certified

omit h in
/-- **What good authorities accepted is a DAG of quorums.** -/
theorem FreshAssumptions.quorumDag_dag (h : FreshAssumptions self es s) :
    QuorumDag self.committee (self.dag s) where
  round_pos := by
    rintro _ ⟨name, _, c, _, hpos, rfl⟩
    exact hpos
  unique := by
    rintro _ ⟨name, hgood, c, hc, hpos, rfl⟩ _ ⟨name', hgood', c', hc', _, rfl⟩ hround horigin
    exact Certificate.bare_eq_of_same (h.unique hrun hgood hgood' hc hc' hpos hround horigin)
  quorum := by
    rintro _ ⟨name, hgood, c, hc, hpos, rfl⟩
    obtain ⟨voter, hvoter, hmem⟩ := h.exists_voter hrun hgood hc (not_letThrough_of_pos hpos)
    obtain ⟨_, _, parents, hparents⟩ := h.supports hrun hgood hc hpos hvoter hmem
    have hdigests : (parents.map Certificate.digest).Nodup := by
      rw [hparents.named]
      exact BTreeSet.nodup _
    have horigins : (parents.map Certificate.origin).Nodup := by
      refine List.Nodup.map_on (fun p hp p' hp' horigin => ?_) (List.Nodup.of_map _ hdigests)
      exact List.inj_on_of_nodup_map hdigests hp hp'
        (h.parent_unique hrun hvoter hparents hp hp' horigin)
    refine ⟨(parents.map Certificate.origin).toFinset, ?_, fun a ha => ?_⟩
    · rw [List.sum_toFinset _ horigins, List.map_map]
      exact hparents.stake
    · obtain ⟨p, hp, rfl⟩ := List.mem_map.mp (List.mem_toFinset.mp ha)
      have hround : p.round + 1 = c.round := hparents.round p hp
      have hnames : p.digest ∈ c.header.parents := by
        show p.digest ∈ c.header.parents.toList
        rw [← hparents.named]
        exact List.mem_map_of_mem hp
      obtain hzero | hpos' := Nat.eq_zero_or_pos p.round
      · obtain ⟨g, hg, horigin, hdigest⟩ :=
          h.genesis_of_zero hrun hvoter (hparents.known p hp) hzero
        refine ⟨g, Or.inr hg, horigin, ?_, ?_⟩
        · show g.digest ∈ c.header.parents
          rw [hdigest]
          exact hnames
        · rw [Certificate.round_of_mem_genesis hg, ← hzero]
          exact hround
      · obtain hgenesis | haccepted := hparents.known p hp
        · have hzero := Certificate.round_of_mem_genesis hgenesis
          omega
        · exact ⟨p.bare, Or.inl ⟨voter, hvoter, p, haccepted, hpos', rfl⟩, rfl, hnames, hround⟩

/-- Digests tell the certificates of the DAG apart. -/
theorem Assumptions.injOn_dag :
    Set.InjOn Certificate.digest (WithGenesis self.committee (self.dag s)) := by
  have hseparated := h.separated hrun
  have hX : ∀ x ∈ WithGenesis self.committee (self.dag s),
      (∃ c : Certificate, c.header ∈ self.endorsed s ∧ 0 < c.round ∧ c.bare = x) ∨
        ∃ a, x = Certificate.genesisOf a ∧ x ∈ Certificate.genesis self.committee := by
    rintro x (⟨name, hgood, c, hc, hpos, rfl⟩ | hgenesis)
    · exact Or.inl ⟨c, ⟨name, hgood, Or.inr ⟨c, hc, rfl⟩⟩, hpos, rfl⟩
    · obtain ⟨a, _, rfl⟩ := Certificate.mem_genesis.mp hgenesis
      exact Or.inr ⟨a, rfl, hgenesis⟩
  intro x hx y hy hdigest
  obtain ⟨c, hc, hpos, rfl⟩ | ⟨a, rfl, ha⟩ := hX x hx
  · obtain ⟨c', hc', hpos', rfl⟩ | ⟨a', rfl, ha'⟩ := hX y hy
    · exact Certificate.bare_eq_of_same (h.same_of_certified hrun hc hc' hpos' hdigest)
    · obtain ⟨_, hround, _⟩ := hseparated.certified c.header
        (Or.inl (h.endorsed_subset hrun hc)) (Certificate.genesisOf a').header
        (Or.inr ⟨_, ha', rfl⟩) hdigest
      have hzero : c.round = 0 := hround
      omega
  · obtain ⟨c', hc', hpos', rfl⟩ | ⟨a', rfl, ha'⟩ := hX y hy
    · obtain ⟨_, hround, _⟩ := hseparated.certified (Certificate.genesisOf a).header
        (Or.inr ⟨_, ha, rfl⟩) c'.header (Or.inl (h.endorsed_subset hrun hc')) hdigest
      have hzero : 0 = c'.round := hround
      omega
    · obtain ⟨_, _, hauthor⟩ := hseparated.certified (Certificate.genesisOf a).header
        (Or.inr ⟨_, ha, rfl⟩) (Certificate.genesisOf a').header (Or.inr ⟨_, ha', rfl⟩) hdigest
      have heq : a = a' := hauthor
      rw [heq]

end

/-! ## §3. How consensus is fed. -/

theorem Run.consensus (hrun : self.Run es s) (name : PublicKey) :
    self.task.Run ((self.config name).consensusHistory (self.history name es))
      (s name).consensus :=
  (self.config name).consensusView.run (hrun.party name)

/-- What the consensus task took is the beginning of what the core sent. -/
theorem Run.delivered_eq_take {later earlier : Consensus.History}
    (hrun : self.Run es s) (name : PublicKey)
    (hhistory : (self.config name).consensusHistory (self.history name es) = later ++ earlier) :
    delivered earlier
      = ((s name).primary.core.txConsensus.take (delivered earlier).length).reverse := by
  have hdelivered := (ProcessConfig.Run.channels (hrun.party name)).delivered
  rw [hhistory, Consensus.delivered_append] at hdelivered
  have hsuffix : delivered earlier <:+
      ((s name).primary.core.txConsensus.take (s name).certificates).reverse := by
    rw [← hdelivered]
    exact List.suffix_append _ _
  have hfront := List.reverse_prefix.mpr hsuffix
  rw [List.reverse_reverse] at hfront
  have hwhole := List.prefix_iff_eq_take.mp (hfront.trans (List.take_prefix _ _))
  rw [List.length_reverse] at hwhole
  rw [← hwhole, List.reverse_reverse]

section

variable (h : Assumptions self es s) (hrun : self.Run es s) (hgood : name ∈ self.good)

include h hrun hgood

/-- The id of a header is no parent of an accepted certificate. -/
theorem Assumptions.id_not_mem_parents (hc : c ∈ (s name).primary.core.txConsensus)
    (hpos : 0 < c.round) {x : Header} (hx : x ∈ self.headers es) : x.id ∉ c.header.parents := by
  intro hid
  obtain ⟨voter, hvoter, hmem⟩ := h.exists_voter hrun hgood hc (not_letThrough_of_pos hpos)
  obtain ⟨_, _, parents, hparents⟩ := h.supports hrun hgood hc hpos hvoter hmem
  have hdigest : x.id ∈ parents.map Certificate.digest := by
    rw [hparents.named]
    exact hid
  obtain ⟨p, hp, heq⟩ := List.mem_map.mp hdigest
  have hpX : p.header ∈ withGenesisHeaders self.committee (self.headers es) := by
    obtain hgenesis | haccepted := hparents.known p hp
    · exact Or.inr ⟨p, hgenesis, rfl⟩
    · exact Or.inl (h.accepted_mem hrun hvoter haccepted)
  exact (h.separated hrun).apart x hx p.header hpX heq.symm

/-- **Consensus is fed in causal order.** -/
theorem Assumptions.sent_causally (l₁ : List Certificate) (c : Certificate)
    (l₂ : List Certificate) (hsent : (s name).primary.core.txConsensus = l₁ ++ c :: l₂)
    (hpos : 0 < c.round) : ∀ p ∈ c.header.parents,
      (∃ g ∈ Certificate.genesis self.committee, g.digest = p) ∨ ∃ c' ∈ l₁, c'.digest = p := by
  intro p hp
  have hc : c ∈ (s name).primary.core.txConsensus := by
    rw [hsent]
    exact List.mem_append_right _ List.mem_cons_self
  obtain hgenesis | ⟨x, hx, rfl, _⟩ | hearlier :=
    Core.Run.causal (hrun.primary name) (h.incoming hrun hgood) l₁ c l₂ hsent p hp
  · exact Or.inl hgenesis
  · exact absurd hp (h.id_not_mem_parents hrun hgood hc hpos hx)
  · exact Or.inr hearlier

/-- Each consensus task takes certificates after their parents, as long as it takes none of
round 0. -/
theorem Assumptions.causalDelivery {later earlier : Consensus.History}
    (hhistory : (self.config name).consensusHistory (self.history name es) = later ++ earlier)
    (hpos : ∀ c ∈ delivered earlier, 0 < c.round) :
    CausalDelivery self.committee (delivered earlier) := by
  have hk := hrun.delivered_eq_take name hhistory
  set k := (delivered earlier).length
  rw [hk] at hpos ⊢
  refine Consensus.causalDelivery_of_sent fun l₁ c l₂ hsplit => ?_
  refine h.sent_causally hrun hgood l₁ c (l₂ ++ (s name).primary.core.txConsensus.drop k) ?_
    (hpos c (List.mem_reverse.mpr ?_))
  · rw [← List.cons_append, ← List.append_assoc, ← hsplit, List.take_append_drop]
  · rw [hsplit]
    exact List.mem_append_right _ List.mem_cons_self

omit h hgood in
theorem Run.accepted_of_delivered {later earlier : Consensus.History}
    (hhistory : (self.config name).consensusHistory (self.history name es) = later ++ earlier)
    (hc : c ∈ delivered earlier) : c ∈ (s name).primary.core.txConsensus := by
  rw [hrun.delivered_eq_take name hhistory] at hc
  exact List.mem_of_mem_take (List.mem_reverse.mp hc)

/-- **Each consensus task is fed from the DAG**, each certificate after its parents, as long as
it takes none of round 0. -/
theorem Assumptions.fedFrom {later earlier : Consensus.History}
    (hhistory : (self.config name).consensusHistory (self.history name es) = later ++ earlier)
    (hpos : ∀ c ∈ delivered earlier, 0 < c.round) :
    FedFrom self.task (self.dag s) (bareHistory earlier) := by
  refine ⟨fun x hx => ?_, ?_⟩
  · rw [Consensus.delivered_bareHistory] at hx
    obtain ⟨c, hc, rfl⟩ := List.mem_map.mp hx
    exact ⟨name, hgood, c, hrun.accepted_of_delivered hhistory hc, hpos c hc, rfl⟩
  · rw [Consensus.delivered_bareHistory]
    exact Consensus.CausalDelivery.bare (h.causalDelivery hrun hgood hhistory hpos)

omit h in
/-- The leaders of a good authority are a chain of the DAG. -/
theorem FreshAssumptions.ledger (h : FreshAssumptions self es s) :
    ∃ m : Node, Ledger self.task (self.dag s) m ∧ leaders m = leaders (s name).consensus := by
  obtain ⟨later, earlier, m, hhistory, hrun', hlive, houtput⟩ :=
    Consensus.Run.live (hrun.consensus name)
  have hfed := h.fedFrom hrun hgood hhistory ((Consensus.Run.inv hrun').delivered_pos hlive)
  have hfit : 2 * self.task.committee.totalStake < 2 ^ 32 := h.fit
  refine ⟨m.bare, Consensus.Run.ledger hfit (h.quorumDag_dag hrun) (h.injOn_dag hrun)
    (Consensus.Run.bare hrun') hfed, ?_⟩
  have hbatches : m.bare.output.map Consensus.batchKey = m.output.map Consensus.batchKey := by
    show (m.output.map CommittedSubDag.bare).map Consensus.batchKey = _
    rw [List.map_map]
    rfl
  unfold leaders
  rw [hbatches, houtput]

end

/-! ## §4. Agreement. -/

/-- **Agreement**: the leaders that two good authorities committed are prefixes of one
another, whatever the other authorities send, in whatever order messages arrive and
however far each authority got, as long as no good authority processes a stale header. -/
theorem committed_leaders_prefix (h : FreshAssumptions self es s) (hrun : self.Run es s)
    {name' : PublicKey} (hgood : name ∈ self.good) (hgood' : name' ∈ self.good) :
    leaders (s name).consensus <+: leaders (s name').consensus ∨
      leaders (s name').consensus <+: leaders (s name).consensus := by
  obtain ⟨m, hledger, hleaders⟩ := h.ledger hrun hgood
  obtain ⟨m', hledger', hleaders'⟩ := h.ledger hrun hgood'
  have hfit : 2 * self.task.committee.totalStake < 2 ^ 32 := h.fit
  rw [← hleaders, ← hleaders']
  exact Consensus.leaders_prefix_of_ledgers hfit (h.quorumDag_dag hrun) hledger hledger'

open Mrv.Core (sampleHash sampleMimic)

/-- Two authorities, of which the first is a quorum by itself. -/
def samplePair : Network :=
  { committee := ⟨⟨[(sampleKey 1, { stake := 3, primary := ⟨"", ""⟩, workers := [0] }),
      (sampleKey 2, { stake := 1, primary := ⟨"", ""⟩, workers := [0] })], by decide⟩⟩
    gcDepth := 50, headerSize := 1000, good := {sampleKey 1, sampleKey 2} }

/-- The certificate that the first authority makes in each round, on its own one of the
round before. -/
def sampleTower : ℕ → Certificate
  | 0 =>
      letI := sampleHash
      let header := Header.new (sampleKey 1) 1 ∅
        (BTreeSet.ofList (Proposer.genesisDigests samplePair.committee))
      { header, votes := [(sampleKey 1, Crypto.sign (sampleKey 1) header.certified)] }
  | r + 1 =>
      letI := sampleHash
      let header := Header.new (sampleKey 1) (r + 2) ∅ (BTreeSet.ofList [(sampleTower r).digest])
      { header, votes := [(sampleKey 1, Crypto.sign (sampleKey 1) header.certified)] }

/-- The first authority makes five headers, which it certifies itself.  The second refuses a
header each time, and accepts the certificates.  The consensus tasks of both take them, and
commit the leader of round 2. -/
def samplePairSteps : List (PublicKey × Process.Action) :=
  (List.range 5).flatMap (fun r =>
      (if r = 0 then [] else [(sampleKey 1, .parents)]) ++
        [(sampleKey 1, .elapse), (sampleKey 1, .timer), (sampleKey 1, .header),
          (sampleKey 2, .primary (.message (.header sampleMimic))),
          (sampleKey 2, .primary (.message (.certificate (sampleTower r)))),
          (sampleKey 1, .certificate), (sampleKey 2, .certificate)]) ++
    [(sampleKey 1, .commit), (sampleKey 2, .commit)]

/-- The headers that are let in. -/
def sampleTowerHeaders : List Header :=
  Header.default :: (List.range 5).map (fun r => (sampleTower r).header)

omit [Crypto] in
set_option maxRecDepth 10000 in
theorem hashing_samplePair :
    letI := sampleHash
    Hashing samplePair.committee {x | x ∈ sampleTowerHeaders} :=
  let _ := sampleHash
  hashing_of_list (by decide +kernel) (by decide +kernel) (by decide +kernel) (by decide +kernel)

omit [Crypto] in
theorem batches_samplePair :
    letI := sampleHash
    ∀ x ∈ sampleTowerHeaders, x.digest = x.id → x.payload.entries.length = 0 := by
  decide +kernel

omit [Crypto] in
set_option maxRecDepth 10000 in
theorem exists_samplePairRun :
    letI := sampleHash
    ∃ es s, samplePair.Run es s ∧ FreshAssumptions samplePair es s ∧
      ∀ name ∈ samplePair.good, leaders (s name).consensus = [(2, (sampleTower 1).digest)] ∧
        (s name).primary.core.txConsensus = (List.range 5).map sampleTower ∧
        (s name).certificates = 5 ∧ (s name).consensus.panic = none := by
  let _ := sampleHash
  obtain ⟨es, s, hrun, hcheck⟩ := System.exec_check samplePair.system samplePairSteps
    (fun es s => calm samplePair sampleTowerHeaders es &&
      decide (∀ name ∈ samplePair.good, leaders (s name).consensus = [(2, (sampleTower 1).digest)] ∧
        (s name).primary.core.txConsensus = (List.range 5).map sampleTower ∧
        (s name).certificates = 5 ∧ (s name).consensus.panic = none)) (by decide +kernel)
  obtain ⟨hcalm, hleaders⟩ := (Bool.and_eq_true _ _).mp hcheck
  refine ⟨es, s, hrun, ?_, of_decide_eq_true hleaders⟩
  exact assumptions_of_calm (by decide) (by decide) (by decide) Core.batchExact_sampleHash
    (fun name _ => Core.signsWell_sampleHash _) hashing_samplePair List.mem_cons_self
    batches_samplePair hcalm hrun

omit [Crypto] in
/-- Both authorities commit the leader of round 2. -/
theorem committed_leaders_prefix_sample :
    letI := sampleHash
    ∃ es s, samplePair.Run es s ∧ leaders (s (sampleKey 1)).consensus = [(2, (sampleTower 1).digest)] ∧
      (leaders (s (sampleKey 1)).consensus <+: leaders (s (sampleKey 2)).consensus ∨
        leaders (s (sampleKey 2)).consensus <+: leaders (s (sampleKey 1)).consensus) := by
  let _ := sampleHash
  obtain ⟨es, s, hrun, h, hleaders⟩ := exists_samplePairRun
  exact ⟨es, s, hrun, (hleaders _ (by decide)).1,
    committed_leaders_prefix h hrun (by decide) (by decide)⟩

end Network

end Mrv
