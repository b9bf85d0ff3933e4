/-
  Mrv.Primary.Backing — what stands behind the certificates a primary accepts.

  A header of ours passes all checks at once, so that none is ever suspended and every
  vote of ours that is counted is for the current header.  Therefore a certificate
  assembled from the votes counted carries the valid signatures of a quorum, like the
  certificates of others, which were verified: all that is accepted is `Backed`, but for
  what is let through as genesis.

    * `Run.standing`        — the invariant of a primary in every run,
    * `own_header_voted`    — each header of the proposer is voted for at once,
    * `accepted_backed`     — each accepted certificate has the signatures of a quorum.
-/
import Mrv.Primary.Own

namespace Mrv

open VotesAggregator (appendAll voters votersStake Completes completes_iff)

variable [Crypto]

namespace Core

open Mrv.Handler (Triple Keeps)
open Primary (Carries Queues Aside)

variable {self : Core} {X : Set Header} {s s' : State} {es : History} {n n' : Primary}
  {h : Header}

/-! ## §1. The votes counted. -/

/-- A certificate by distinct authorities that have stake and are a quorum together, with
signatures that meet a condition. -/
structure Backed (committee : Committee) (A : PublicKey → Digest → Signature → Prop)
    (c : Certificate) : Prop where
  distinct : (c.votes.map Prod.fst).Nodup
  positive : ∀ v ∈ c.votes, 0 < committee.weight v.1
  quorum : committee.quorumThreshold.toNat ≤ (c.votes.map (fun v => committee.weight v.1)).sum
  signed : ∀ v ∈ c.votes, A v.1 c.digest v.2

/-- A vote that counts for a header. -/
structure Ballot (committee : Committee) (A : PublicKey → Digest → Signature → Prop)
    (header : Header) (v : Vote) : Prop where
  positive : 0 < committee.weight v.author
  signed : A v.author header.certified v.signature

variable {A : PublicKey → Digest → Signature → Prop}

/-- **What the aggregator makes of votes that count is backed.** -/
theorem backed_of_completes {committee : Committee}
    (hfit : 2 * committee.totalStake < 2 ^ 32) {header : Header} {vs : List Vote} {v : Vote}
    {c : Certificate} (hvotes : ∀ w ∈ vs ++ [v], Ballot committee A header w)
    (hc : Completes committee header vs v c) : Backed committee A c := by
  obtain ⟨hheader, hcvotes⟩ := hc.eq
  have htallied : VotesAggregator.Tallied committee (vs ++ [v])
      (appendAll committee header (vs ++ [v])) := VotesAggregator.tallied_appendAll hfit _
  have hballot : ∀ e ∈ c.votes, 0 < committee.weight e.1 ∧ A e.1 c.digest e.2 := by
    intro e he
    rw [hcvotes] at he
    obtain ⟨w, hw, rfl⟩ := htallied.voted e he
    rw [c.digest_eq, hheader]
    exact ⟨(hvotes w hw).positive, (hvotes w hw).signed⟩
  refine ⟨?_, fun e he => (hballot e he).1, ?_, fun e he => (hballot e he).2⟩
  · rw [hcvotes]
    exact htallied.names
  · have hcross := ((completes_iff hfit).mp ⟨c, hc⟩).2
    show _ ≤ (c.votes.map (fun e => committee.weight e.1)).sum
    rw [hcvotes, htallied.sum_weight]
    exact hcross

/-- A certificate that passed the ordinary checks. -/
theorem backed_of_certified {committee : Committee} {c : Certificate}
    (h : Certificate.Certified committee c)
    (hA : ∀ e ∈ c.votes, Crypto.verify e.2 c.digest e.1 = true → A e.1 c.digest e.2) :
    Backed committee A c :=
  ⟨h.distinct, h.positive, h.quorum, fun v hv => hA v hv (h.signed v hv)⟩

/-! ## §2. What the handlers keep. -/

/-- What is known of the headers of ours while an input is handled: those taken from the
proposer, the current header, and whether our vote for it was counted. -/
structure Ours where
  taken : List Header
  current : Header
  counted : Prop

/-- The headers that may be processed: ours are of a round for which one was taken, and
unless our vote for the current header was counted they are that header. -/
def Ours.headers (core : Core) (X : Set Header) (o : Ours) : Set Header :=
  {h | h ∈ X ∧ (h.author = core.name → 0 < h.round →
    (∃ x ∈ o.taken, x.round = h.round) ∧ (o.counted ∨ o.current = h))}

/-- The certificates that may be processed. -/
def Ours.certificates (core : Core) (X : Set Header)
    (A : PublicKey → Digest → Signature → Prop) (o : Ours) : Set Certificate :=
  {c | c.header ∈ o.headers core X ∧
    (¬ Certificate.LetThrough core.committee c → Backed core.committee A c)}

/-- The votes that may be processed: they count for the current header, or are a second one
of ours. -/
def Ours.votes (core : Core) (A : PublicKey → Digest → Signature → Prop) (o : Ours) : Set Vote :=
  {v | Ballot core.committee A o.current v ∨ (o.counted ∧ v.author = core.name)}

/-- The headers that are suspended: ours are of a round for which one was taken. -/
def Foreign (core : Core) (taken : List Header) : Set Header :=
  {h | h.author = core.name → 0 < h.round → ∃ x ∈ taken, x.round = h.round}

/-- The certificates that are suspended. -/
def ForeignCertificates (core : Core) (A : PublicKey → Digest → Signature → Prop)
    (taken : List Header) : Set Certificate :=
  {c | c.header ∈ Foreign core taken ∧
    (¬ Certificate.LetThrough core.committee c → Backed core.committee A c)}

/-- The invariant of the handlers. -/
structure Upright (core : Core) (X : Set Header) (A : PublicKey → Digest → Signature → Prop)
    (o : Ours) (s : State) : Prop where
  supplied : Supplied core X s
  current : s.currentHeader = o.current
  queues : Queues (Foreign core o.taken) (ForeignCertificates core A o.taken) s
  used : o.counted → core.name ∈ s.votesAggregator.used
  /-- We voted for headers of ours only. -/
  only : ∀ round, core.name ∈ s.voted round → ∃ x ∈ o.taken, x.round = round
  sourced : ∀ x ∈ o.taken, core.Sourced s.txConsensus x
  ballots : ∃ votes, s.votesAggregator = appendAll core.committee o.current votes ∧
    ∀ v ∈ votes, Ballot core.committee A o.current v
  backed : ∀ c ∈ s.txConsensus, ¬ Certificate.LetThrough core.committee c → Backed core.committee A c

/-- What the core may be given. -/
abbrev Ours.Admits (core : Core) (X : Set Header) (A : PublicKey → Digest → Signature → Prop)
    (o : Ours) (s : State) (input : Input) : Prop :=
  Moves.Admits core (o.headers core X) (o.certificates core X A) (o.votes core A)
    (Upright core X A o) s input

omit [Crypto] in
theorem Ours.headers_subset {o : Ours} : o.headers self X ⊆ Foreign self o.taken :=
  fun _ hh hname hround => (hh.2 hname hround).1

/-- A header that passed the checks on its parents is not of round 0. -/
theorem Passed.round_pos (hpassed : self.Passed h) : 0 < h.round := by
  obtain ⟨store, parents, stake, _, hcheck, hquorum⟩ := hpassed
  obtain ⟨hround, hstake⟩ := checkParents_eq_ok.mp hcheck
  cases parents with
  | nil =>
      have hpos := self.committee.quorumThreshold_pos
      have hle := UInt32.le_iff_toNat_le.mp hquorum
      rw [← hstake] at hle
      have hzero : ((0 : Stake) + ([].map fun x : Certificate => self.committee.stake x.origin).sum).toNat
          = 0 := rfl
      omega
  | cons c parents =>
      have hone := hround c List.mem_cons_self
      omega

omit [Crypto] in
/-- Who voted stays recorded. -/
theorem used_append_subset (v : Vote) :
    s.votesAggregator.used ⊆
      (s.votesAggregator.append v self.committee s.currentHeader).2.used := by
  unfold VotesAggregator.append
  split
  · exact Finset.Subset.refl _
  · dsimp only
    split <;> exact Finset.subset_insert _ _

omit [Crypto] in
/-- A second vote of an authority changes nothing. -/
theorem append_of_used {a : VotesAggregator} {v : Vote} (hused : v.author ∈ a.used) :
    a.append v self.committee h = (.error (.authorityReuse v.author), a) := by
  unfold VotesAggregator.append
  rw [if_pos hused]

variable {o : Ours}

/-- An update of fields that nothing here mentions. -/
theorem Upright.of_eq (hs : Upright self X A o s) (hsupplied : Supplied self X s')
    (hcurrent : s'.currentHeader = s.currentHeader)
    (hlast : s'.lastVoted = s.lastVoted)
    (haggregator : s'.votesAggregator = s.votesAggregator)
    (hconsensus : s'.txConsensus = s.txConsensus)
    (hqueues : Queues (Foreign self o.taken) (ForeignCertificates self A o.taken) s') :
    Upright self X A o s' := by
  refine ⟨hsupplied, hcurrent.trans hs.current, hqueues, fun hcounted => ?_,
    fun round hround => hs.only round ?_, ?_, ?_, ?_⟩
  · rw [haggregator]
    exact hs.used hcounted
  · unfold State.voted at hround ⊢
    rw [hlast] at hround
    exact hround
  · rw [hconsensus]
    exact hs.sourced
  · rw [haggregator]
    exact hs.ballots
  · rw [hconsensus]
    exact hs.backed

/-- Taking a vote of a header that passed. -/
theorem Upright.taken (hs : Upright self X A o s) (hh : h ∈ o.headers self X)
    (hpassed : self.Passed h) (cast : List Cast) :
    Upright self X A o { Core.spent h s with cast } := by
  have hsupplied : Supplied self X { Core.spent h s with cast } :=
    hs.supplied.of_eq rfl rfl rfl rfl hs.supplied.currentHeader
      ⟨hs.supplied.queues.txHeaderWaiter, hs.supplied.queues.txCertificateWaiter⟩
  have hvoted : ∀ round, State.voted { Core.spent h s with cast } round
      = if round = h.round then insert h.author (s.voted h.round) else s.voted round :=
    voted_spent h s
  refine ⟨hsupplied, hs.current, ⟨hs.queues.txHeaderWaiter, hs.queues.txCertificateWaiter⟩,
    hs.used, fun round hround => ?_, hs.sourced, hs.ballots, hs.backed⟩
  rw [hvoted] at hround
  split at hround
  · next heq =>
    obtain hname | hold := Finset.mem_insert.mp hround
    · obtain ⟨x, hx, hsame⟩ := (hh.2 hname.symm hpassed.round_pos).1
      exact ⟨x, hx, hsame.trans heq.symm⟩
    · rw [heq]
      exact hs.only _ hold
  · exact hs.only round hround

/-- Counting a vote for the current header. -/
theorem Upright.count (hfit : 2 * self.committee.totalStake < 2 ^ 32)
    (hhash : Separated self.committee X)
    (hs : Upright self X A o s) {v : Vote} (hv : Ballot self.committee A o.current v) :
    Upright self X A o (self.counted v s) ∧
      ∀ c, (s.votesAggregator.append v self.committee s.currentHeader).1 = .ok (some c) →
        Backed self.committee A c := by
  obtain ⟨votes, heq, hvotes⟩ := hs.ballots
  have hall : ∀ w ∈ votes ++ [v], Ballot self.committee A o.current w := by
    intro w hw
    obtain hold | hlast := List.mem_append.mp hw
    · exact hvotes w hold
    · rw [List.mem_singleton.mp hlast]
      exact hv
  refine ⟨⟨((moves_supplied hfit hhash).tally v trivial s hs.supplied).1, hs.current,
    ⟨hs.queues.txHeaderWaiter, hs.queues.txCertificateWaiter⟩,
    fun hcounted => used_append_subset v (hs.used hcounted), hs.only, hs.sourced,
    ⟨votes ++ [v], ?_, hall⟩, hs.backed⟩, fun c hc => ?_⟩
  · show (s.votesAggregator.append v self.committee s.currentHeader).2 = _
    rw [VotesAggregator.appendAll_concat, ← heq, ← hs.current]
  · rw [heq, hs.current] at hc
    exact backed_of_completes hfit hall hc

/-- The moves of the handlers keep the invariant, if the current header is ours. -/
theorem moves_upright (hfit : 2 * self.committee.totalStake < 2 ^ 32)
    (hhash : Separated self.committee X)
    (hpositive : 0 < self.committee.weight self.name)
    (hcurrent : 0 < o.current.round → o.current ∈ o.taken ∧
      A self.name o.current.certified (Crypto.sign self.name o.current.certified)) :
    Moves self (o.headers self X) (o.certificates self X A) (o.votes self A)
      (Upright self X A o) where
  frame := fun s s' hframe hs => by
    have hsupplied := (moves_supplied hfit hhash).frame s s' hframe hs.supplied
    refine hs.of_eq hsupplied hframe.currentHeader hframe.lastVoted hframe.votesAggregator
      hframe.txConsensus ⟨?_, ?_⟩
    · rw [hframe.txHeaderWaiter]
      exact hs.queues.txHeaderWaiter
    · rw [hframe.txCertificateWaiter]
      exact hs.queues.txCertificateWaiter
  mark := fun x hx s hs =>
    hs.of_eq ((moves_supplied hfit hhash).mark x hx.1 s hs.supplied) rfl rfl rfl rfl
      ⟨hs.queues.txHeaderWaiter, hs.queues.txCertificateWaiter⟩
  header := fun x hx s hs =>
    ⟨(moves_supplied hfit hhash).header x hx.1 s hs.supplied, hs.current,
      ⟨hs.queues.txHeaderWaiter, hs.queues.txCertificateWaiter⟩, hs.used, hs.only, hs.sourced,
      hs.ballots, hs.backed⟩
  sync := fun m s hm hmissing hs => by
    refine hs.of_eq ((moves_supplied hfit hhash).sync m s hm.1 hmissing hs.supplied) rfl rfl
      rfl rfl ⟨fun x hx => ?_, hs.queues.txCertificateWaiter⟩
    obtain hold | hlast := List.mem_append.mp hx
    · exact hs.queues.txHeaderWaiter x hold
    · rw [List.mem_singleton.mp hlast]
      exact Ours.headers_subset hm
  vote := fun x hx hpassed s hs => by
    refine ⟨hs.taken hx hpassed s.cast, fun hfresh => ⟨hs.taken hx hpassed _, fun hname => ?_⟩⟩
    obtain ⟨_, hcounted | rfl⟩ := hx.2 hname hpassed.round_pos
    · exact Or.inr ⟨hcounted, rfl⟩
    · exact Or.inl ⟨hpositive, (hcurrent hpassed.round_pos).2⟩
  tally := fun v hv s hs => by
    obtain hballot | ⟨hcounted, hours⟩ := hv
    · obtain ⟨hup, hbacked⟩ := hs.count hfit hhash hballot
      refine ⟨hup, fun c hc => ⟨?_, fun _ => hbacked c hc⟩⟩
      rw [(header_of_append hc).trans hs.current]
      refine ⟨hs.current ▸ hs.supplied.currentHeader, fun _ hround => ?_⟩
      exact ⟨⟨_, (hcurrent hround).1, rfl⟩, Or.inr rfl⟩
    · -- a second vote of ours is refused
      rw [append_of_used (hours ▸ hs.used hcounted)]
      exact ⟨hs, fun c hc => by cases hc⟩
  embedded := fun _ hc => hc.1
  suspend := fun c hc s hmissing hs => by
    refine hs.of_eq ((moves_supplied hfit hhash).suspend c hc.1.1 s hmissing hs.supplied) rfl
      rfl rfl rfl ⟨hs.queues.txHeaderWaiter, fun x hx => ?_⟩
    obtain hold | hlast := List.mem_append.mp hx
    · exact hs.queues.txCertificateWaiter x hold
    · rw [List.mem_singleton.mp hlast]
      exact ⟨Ours.headers_subset hc.1, hc.2⟩
  accept := fun c hc s hparents hs => by
    have hsupplied := (moves_supplied hfit hhash).accept c hc.1.1 s hparents hs.supplied
    rw [exec_acceptCertificate] at hsupplied ⊢
    refine ⟨hsupplied, hs.current, ⟨hs.queues.txHeaderWaiter, hs.queues.txCertificateWaiter⟩,
      hs.used, hs.only, fun y hy => (hs.sourced y hy).mono (List.subset_append_left _ _),
      hs.ballots, fun x hx => ?_⟩
    obtain hold | hlast := List.mem_append.mp hx
    · exact hs.backed x hold
    · rw [List.mem_singleton.mp hlast]
      exact hc.2

/-! ## §3. Runs. -/

/-- The header of the proposer that the core is given. -/
def ownHeaderOf : Primary.Action → Option Header
  | .ownHeader header => some header
  | _ => none

/-- The headers of the proposer that the core took, latest first. -/
def ownHeaders (es : History) : List Header := es.filterMap fun e => ownHeaderOf e.2

/-- What is known of the headers of ours between two steps. -/
abbrev Ours.of (es : History) (s : State) : Ours :=
  ⟨ownHeaders es, s.currentHeader, ownHeaders es ≠ []⟩

/-- What the proposer makes of what the core passed on: a header in a round above the
earlier ones, whose parents are genesis or a quorum of accepted certificates. -/
structure Proposed (core : Core) (s : State) (earlier : List Header) (h : Header) : Prop where
  made : ∃ payload parents, h = Header.new core.name h.round payload (BTreeSet.ofList parents) ∧
    ParentsFor core.committee s.txConsensus h.round parents
  later : ∀ x ∈ earlier, x.round < h.round

/-- All headers of ours come from the proposer. -/
def Proposes (core : Core) : History → Prop
  | [] => True
  | (m, a) :: es => Proposes core es ∧ ∀ h, a = .ownHeader h → Proposed core m.core (ownHeaders es) h

/-- Nobody else signs headers for us. -/
def Recognises (core : Core) : History → Prop
  | [] => True
  | (m, a) :: es => Recognises core es ∧ ∀ h ∈ a.headers, h.verify core.committee = .ok () →
      h.author = core.name → ∃ x ∈ ownHeaders ((m, a) :: es), x.id = h.id

/-- The signatures that come in, and those on our own votes, meet a condition if they are
valid. -/
structure Vouched (core : Core) (A : PublicKey → Digest → Signature → Prop) (es : History) :
    Prop where
  votes : ∀ m v, (m, Primary.Action.message (.vote v)) ∈ es →
    Crypto.verify v.signature v.digest v.author = true → A v.author v.digest v.signature
  certificates : ∀ m c, (m, Primary.Action.message (.certificate c)) ∈ es → ∀ e ∈ c.votes,
    Crypto.verify e.2 c.digest e.1 = true → A e.1 c.digest e.2
  own : ∀ h ∈ ownHeaders es, A core.name h.certified (Crypto.sign core.name h.certified)

theorem Vouched.tail {e : Primary × Primary.Action} (h : Vouched self A (e :: es)) :
    Vouched self A es := by
  refine ⟨fun m v hmem => h.votes m v (List.mem_cons_of_mem _ hmem),
    fun m c hmem => h.certificates m c (List.mem_cons_of_mem _ hmem), fun x hx => h.own x ?_⟩
  obtain ⟨e', he', heq⟩ := List.mem_filterMap.mp hx
  exact List.mem_filterMap.mpr ⟨e', List.mem_cons_of_mem _ he', heq⟩

/-- Every signature that is valid meets the condition of being valid. -/
theorem vouched_verify (hsigns : self.SignsWell) (es : History) :
    Vouched self (fun name digest signature => Crypto.verify signature digest name = true) es :=
  ⟨fun _ _ _ => id, fun _ _ _ _ _ => id, fun _ _ => hsigns _⟩

omit [Crypto] in
theorem mem_ownHeaders {x : Header} :
    x ∈ ownHeaders es ↔ ∃ m, (m, Primary.Action.ownHeader x) ∈ es := by
  unfold ownHeaders
  rw [List.mem_filterMap]
  constructor
  · rintro ⟨⟨m, a⟩, hmem, heq⟩
    cases a <;> simp only [ownHeaderOf, reduceCtorEq, Option.some.injEq] at heq
    rw [heq] at hmem
    exact ⟨m, hmem⟩
  · exact fun ⟨m, hmem⟩ => ⟨_, hmem, rfl⟩

omit [Crypto] in
@[simp] theorem ownHeaders_cons (m : Primary) (h : Header) (es : History) :
    ownHeaders ((m, .ownHeader h) :: es) = h :: ownHeaders es := rfl

/-- What holds of a primary throughout: what is suspended of ours is of a round for which a
header was taken, and the votes counted are for the current header. -/
structure Standing (core : Core) (X : Set Header) (A : PublicKey → Digest → Signature → Prop)
    (es : History) (n : Primary) : Prop where
  carries : Carries (Foreign core (ownHeaders es)) (ForeignCertificates core A (ownHeaders es)) n
  incoming : Carries X {c | c.header ∈ X} n
  upright : Upright core X A (.of es n.core) n.core
  current : 0 < n.core.currentHeader.round → n.core.currentHeader ∈ ownHeaders es

theorem Upright.cleanup (hs : Upright self X A o s) (round : ℕ) :
    Upright self X A o (self.cleanup round s) := by
  have hsupplied := hs.supplied.cleanup round
  unfold Core.cleanup at hsupplied ⊢
  split at hsupplied
  · next hround =>
    rw [if_pos hround]
    have hvoted : ∀ r, self.name ∈ State.voted { s with
        lastVoted := s.lastVoted.retain
          (fun k v => if round - self.gcDepth ≤ k then some v else none) } r →
        self.name ∈ s.voted r := by
      intro r
      unfold State.voted
      rw [AList.lookup_retain]
      cases s.lastVoted.lookup r with
      | none => simp
      | some authors => by_cases hle : round - self.gcDepth ≤ r <;> simp [hle]
    exact ⟨hsupplied, hs.current, ⟨hs.queues.txHeaderWaiter, hs.queues.txCertificateWaiter⟩,
      hs.used, fun r hr => hs.only r (hvoted r hr), hs.sourced, hs.ballots, hs.backed⟩
  · next hround =>
    rw [if_neg hround]
    exact hs

theorem Upright.aside (hs : Upright self X A o s) (haside : Aside s s')
    (hsupplied : Supplied self X s')
    (hqueues : Queues (Foreign self o.taken) (ForeignCertificates self A o.taken) s') :
    Upright self X A o s' :=
  hs.of_eq hsupplied haside.currentHeader haside.lastVoted haside.votesAggregator
    haside.txConsensus hqueues

/-- **The parents of a header of the proposer are by a quorum.** -/
theorem Proposed.sourced (hfit : 2 * self.committee.totalStake < 2 ^ 32)
    (hpositive : 0 < self.committee.weight self.name) {earlier : List Header}
    (hproposed : Proposed self s earlier h) :
    h.author = self.name ∧ self.Sourced s.txConsensus h := by
  obtain ⟨payload, parents, hmade, hparents⟩ := hproposed.made
  have htotal : 0 < self.committee.totalStake := by
    have hle := self.committee.sum_weight_le_totalStake {self.name}
    rw [Finset.sum_singleton] at hle
    omega
  obtain ⟨certificates, heq, hcites⟩ := cites_of_parentsFor hfit htotal hparents
  refine ⟨by rw [hmade]; rfl, certificates, ?_, hcites⟩
  rw [← heq]
  exact congrArg Header.parents hmade

omit [Crypto] in
/-- The more headers are taken, the more of ours may be suspended. -/
theorem foreign_mono {taken taken' : List Header} (hsub : taken ⊆ taken') :
    Foreign self taken ⊆ Foreign self taken' := fun _ hh hname hround =>
  let ⟨x, hx, heq⟩ := hh hname hround
  ⟨x, hsub hx, heq⟩

theorem foreignCertificates_mono {taken taken' : List Header} (hsub : taken ⊆ taken') :
    ForeignCertificates self A taken ⊆ ForeignCertificates self A taken' :=
  fun _ hc => ⟨foreign_mono hsub hc.1, hc.2⟩

/-- Once our vote for the current header is counted. -/
theorem Upright.voted (hs : Upright self X A o s) (hused : self.name ∈ s.votesAggregator.used)
    (counted : Prop) : Upright self X A { o with counted := counted } s :=
  ⟨hs.supplied, hs.current, hs.queues, fun _ => hused, hs.only, hs.sourced, hs.ballots, hs.backed⟩

/-- The state in which a header of ours is taken. -/
theorem Upright.renew (hs : Upright self X A o s) (hX : h ∈ X)
    (hsourced : self.Sourced s.txConsensus h) :
    Upright self X A ⟨h :: o.taken, h, False⟩
      { s with currentHeader := h, votesAggregator := .new } := by
  have hsub : o.taken ⊆ h :: o.taken := fun _ => List.mem_cons_of_mem _
  refine ⟨hs.supplied.of_eq rfl rfl rfl rfl hX
      ⟨hs.supplied.queues.txHeaderWaiter, hs.supplied.queues.txCertificateWaiter⟩, rfl,
    ⟨fun m hm => foreign_mono hsub (hs.queues.txHeaderWaiter m hm),
      fun c hc => foreignCertificates_mono hsub (hs.queues.txCertificateWaiter c hc)⟩,
    False.elim, fun round hround => ?_, List.forall_mem_cons.mpr ⟨hsourced, hs.sourced⟩,
    ⟨[], rfl, fun v hv => absurd hv List.not_mem_nil⟩, hs.backed⟩
  obtain ⟨x, hx, heq⟩ := hs.only round hround
  exact ⟨x, List.mem_cons_of_mem _ hx, heq⟩

section

variable (hfit : 2 * self.committee.totalStake < 2 ^ 32) (hhash : Separated self.committee X)
  (hpositive : 0 < self.committee.weight self.name)

include hfit hhash hpositive

/-- **Taking a header of the proposer**: nothing fails, and our vote for the header is made
and counted. -/
theorem Standing.exec_own (hst : Standing self X A es n)
    (hproposed : Proposed self n.core (ownHeaders es) h) :
    ∃ s', (self.handle (.ownHeader h)).exec n.core = (.ok (), s') ∧
      self.name ∈ s'.voted h.round ∧
      (∃ x ∈ s'.cast, x.header = h ∧ x.vote = Vote.new h self.name) ∧
      self.name ∈ s'.votesAggregator.used ∧ Marked h s' := by
  obtain ⟨hname, hsourced⟩ := hproposed.sourced hfit hpositive
  obtain ⟨parents, stake, hfind, hne, hcheck, hquorum⟩ :=
    hst.upright.supplied.finds hfit hhash hsourced
  refine exec_processOwnHeader hfind hne hcheck hquorum hname fun hvoted => ?_
  -- an earlier vote of ours in this round would be for a header of this round
  obtain ⟨x, hx, hround⟩ := hst.upright.only h.round hvoted
  have hlater := hproposed.later x hx
  omega

/-- The core handles a header of ours. -/
theorem Standing.handle_own (hst : Standing self X A es n)
    (hproposed : Proposed self n.core (ownHeaders es) h) (hX : h ∈ X)
    (hA : A self.name h.certified (Crypto.sign self.name h.certified)) :
    Upright self X A ⟨h :: ownHeaders es, h, False⟩
      ((self.handle (.ownHeader h)).exec n.core).2 := by
  let o : Ours := ⟨h :: ownHeaders es, h, False⟩
  have hadmits : Ours.Admits self X A o n.core (.ownHeader h) :=
    ⟨hst.upright.renew hX (hproposed.sourced hfit hpositive).2,
      hX, fun _ _ => ⟨⟨h, List.mem_cons_self, rfl⟩, Or.inr rfl⟩⟩
  have hmoves : Moves self _ _ _ (Upright self X A o) :=
    moves_upright hfit hhash hpositive fun _ => ⟨List.mem_cons_self, hA⟩
  exact hmoves.handle hadmits

/-- One step: the core takes a header of ours. -/
theorem Standing.turn_own (hst : Standing self X A es n)
    (hproposed : Proposed self n.core (ownHeaders es) h) (hX : h ∈ X)
    (hA : A self.name h.certified (Crypto.sign self.name h.certified)) :
    Standing self X A ((n, .ownHeader h) :: es) (self.turn n (.ownHeader h)) := by
  have hhandled := hst.handle_own hfit hhash hpositive hproposed hX hA
  obtain ⟨s', hexec, _, _, hused, _⟩ := hst.exec_own hfit hhash hpositive hproposed
  rw [hexec] at hhandled
  have hcleaned : Upright self X A ⟨h :: ownHeaders es, h, h :: ownHeaders es ≠ []⟩
      (self.cleanup n.consensusRound s') := (hhandled.voted hused _).cleanup _
  have hcore : (self.turn n (.ownHeader h)).core = self.cleanup n.consensusRound s' := by
    unfold turn iterate
    rw [hexec]
  have hcurrent : (self.turn n (.ownHeader h)).core.currentHeader = h := by
    rw [hcore]
    exact hcleaned.current
  have hsub : ownHeaders es ⊆ h :: ownHeaders es := fun _ => List.mem_cons_of_mem _
  refine ⟨(hst.carries.mono (foreign_mono hsub) (foreignCertificates_mono hsub)).turn ?_,
    hst.incoming.turn ?_, ?_, fun _ => ?_⟩
  · rw [hcore]
    exact hcleaned.queues
  · rw [hcore]
    exact hcleaned.supplied.queues
  · unfold Ours.of
    rw [hcurrent, hcore]
    exact hcleaned
  · rw [hcurrent]
    exact List.mem_cons_self

end

/-- A header of ours that comes in from outside is of a round for which we made one. -/
theorem Incoming.identified (hin : Incoming self X es) (hhash : Separated self.committee X)
    (hX : h ∈ X) (hdigest : h.digest = h.id) (hours : ∃ x ∈ ownHeaders es, x.id = h.id) :
    ∃ x ∈ ownHeaders es, x.round = h.round := by
  obtain ⟨x, hx, hid⟩ := hours
  obtain ⟨m, hmem⟩ := mem_ownHeaders.mp hx
  obtain ⟨hxX, hown⟩ := hin.own m x hmem
  exact ⟨x, hx, (hhash.identified x hxX h hX hown hdigest hid).2⟩

omit [Crypto] in
/-- What may be suspended may come in. -/
theorem mem_headers_of_foreign (hX : h ∈ X) (hforeign : h ∈ Foreign self (ownHeaders es)) :
    h ∈ Ours.headers self X (.of es s) := by
  refine ⟨hX, fun hname hround => ?_⟩
  obtain ⟨x, hx, heq⟩ := hforeign hname hround
  exact ⟨⟨x, hx, heq⟩, Or.inl (List.ne_nil_of_mem hx)⟩

/-- What comes in, if it passes the checks at the door. -/
theorem Standing.admits {a : Primary.Action} {input : Input} {n₀ : Primary}
    (hhash : Separated self.committee X) (hbatch : Crypto.BatchExact)
    (hst : Standing self X A es n) (hin : Incoming self X ((n, a) :: es))
    (hrec : Recognises self ((n, a) :: es)) (hvouch : Vouched self A ((n, a) :: es))
    (hinput : n.input a = some (input, n₀)) (hnot : ∀ x, input ≠ .ownHeader x) :
    Ours.Admits self X A (.of es n.core) n.core input := by
  have hup := hst.upright
  obtain ⟨_, hforeign⟩ := hst.carries.input hinput
  obtain ⟨_, hX⟩ := hst.incoming.input hinput
  cases Primary.feeds_of_input hinput with
  | message message =>
    -- a verified header of ours has the id of one we made
    have hours : ∀ x ∈ (Primary.Action.message message).headers,
        x.verify self.committee = .ok () → x ∈ Ours.headers self X (.of es n.core) := by
      intro x hx hverify
      have hxX := hin.admitted n _ List.mem_cons_self x hx (Or.inl hverify)
      refine mem_headers_of_foreign hxX fun hname _ => ?_
      exact hin.identified hhash hxX (Header.digest_of_verify hverify) (hrec.2 x hx hverify hname)
    cases message with
    | header x =>
        refine ⟨hup, fun hok => ?_⟩
        unfold sanitizeHeader at hok
        exact hours x List.mem_cons_self (ensure_bind_eq_ok.mp hok).2
    | vote v =>
        refine ⟨hup, fun hok => Or.inl ?_⟩
        unfold sanitizeVote at hok
        obtain ⟨_, hok⟩ := ensure_bind_eq_ok.mp hok
        obtain ⟨hexpected, hok⟩ := ensure_bind_eq_ok.mp hok
        obtain ⟨hid, horigin, hround⟩ := of_decide_eq_true hexpected
        unfold Vote.verify at hok
        obtain ⟨hstake, hok⟩ := ensure_bind_eq_ok.mp hok
        have hsigned := hvouch.votes n v List.mem_cons_self (ensure_eq_ok.mp hok)
        unfold Vote.digest at hsigned
        rw [hid, horigin, hround] at hsigned
        exact ⟨UInt32.lt_iff_toNat_lt.mp (of_decide_eq_true hstake), hsigned⟩
    | certificate c =>
        refine ⟨hup, fun hok => ?_⟩
        unfold sanitizeCertificate at hok
        obtain ⟨_, hverify⟩ := ensure_bind_eq_ok.mp hok
        by_cases hthrough : Certificate.LetThrough self.committee c
        · have hzero : c.header.round = 0 := hthrough.round
          refine ⟨mem_headers_of_foreign ?_ fun _ hpos => ?_, fun hnot => absurd hthrough hnot⟩
          · exact hin.admitted n _ List.mem_cons_self c.header List.mem_cons_self
              (Certificate.admitted_of_verify hverify)
          · omega
        · rw [Certificate.verify_of_not_letThrough hthrough] at hverify
          have hcertified := Certificate.certified_of_verifyQuorum hbatch hverify
          exact ⟨hours c.header List.mem_cons_self hcertified.header,
            fun _ => backed_of_certified hcertified
              (hvouch.certificates n c List.mem_cons_self)⟩
  | loopbackHeader x rest hrx => exact ⟨hup, mem_headers_of_foreign hX hforeign⟩
  | loopbackCertificate c rest hrx =>
      exact ⟨hup, mem_headers_of_foreign hX hforeign.1, hforeign.2⟩
  | ownHeader x => exact absurd rfl (hnot x)

omit [Crypto] in
theorem ownHeaders_of_input {a : Primary.Action} {input : Input} {n₀ : Primary}
    (hinput : n.input a = some (input, n₀)) (hnot : ∀ x, input ≠ .ownHeader x) :
    ownHeaders ((n, a) :: es) = ownHeaders es := by
  cases Primary.feeds_of_input hinput with
  | ownHeader x => exact absurd rfl (hnot x)
  | _ => rfl

section

variable (hfit : 2 * self.committee.totalStake < 2 ^ 32) (hhash : Separated self.committee X)
  (hpositive : 0 < self.committee.weight self.name) (hbatch : Crypto.BatchExact)

include hfit hhash hpositive hbatch

/-- One step: the core handles another input. -/
theorem Standing.turn_other {a : Primary.Action} {input : Input} {n₀ : Primary}
    (hst : Standing self X A es n) (hin : Incoming self X ((n, a) :: es))
    (hrec : Recognises self ((n, a) :: es)) (hvouch : Vouched self A ((n, a) :: es))
    (hinput : n.input a = some (input, n₀)) (hnot : ∀ x, input ≠ .ownHeader x) :
    Standing self X A ((n, a) :: es) (self.turn n₀ input) := by
  have hadmits := hst.admits hhash hbatch hin hrec hvouch hinput hnot
  have hmoves : Moves self _ _ _ (Upright self X A (.of es n.core)) :=
    moves_upright hfit hhash hpositive fun hpos => by
      have hcurrent := hst.current hpos
      exact ⟨hcurrent, hvouch.tail.own _ hcurrent⟩
  have hup : Upright self X A (.of es n.core) (self.turn n₀ input).core := by
    show Upright self X A (.of es n.core) (self.iterate n₀.consensusRound input n₀.core).1
    rw [(Primary.of_input hinput).1]
    exact iterate_keeps (fun round s hs => hs.cleanup round) (hmoves.handle hadmits) _
  refine ⟨?_, (hst.incoming.input hinput).1.turn hup.supplied.queues, ?_, fun hpos => ?_⟩
  · rw [ownHeaders_of_input hinput hnot]
    exact (hst.carries.input hinput).1.turn hup.queues
  · unfold Ours.of
    rw [ownHeaders_of_input hinput hnot, hup.current]
    exact hup
  · rw [ownHeaders_of_input hinput hnot]
    rw [hup.current] at hpos ⊢
    exact hst.current hpos

omit hfit hhash hpositive hbatch in
/-- The other tasks. -/
theorem Standing.background {a : Primary.Action} (hst : Standing self X A es n)
    (h : n.background self.gcDepth a = some n') : Standing self X A ((n, a) :: es) n' := by
  have haside := Primary.aside_of_background h
  have hcarries := hst.carries.background h
  have hincoming := hst.incoming.background h
  have hown : ownHeaders ((n, a) :: es) = ownHeaders es := by
    cases Primary.works_of_background h <;> rfl
  rw [← hown] at hcarries
  refine ⟨hcarries, hincoming, ?_, fun hpos => ?_⟩
  · unfold Ours.of
    rw [hown] at hcarries ⊢
    rw [haside.currentHeader]
    exact hst.upright.aside haside (hst.upright.supplied.aside haside hincoming.queues)
      hcarries.queues
  · rw [hown]
    rw [haside.currentHeader] at hpos ⊢
    exact hst.current hpos

/-- **In every run of a primary** whose headers come from the proposer, whatever the other
authorities send. -/
theorem Run.standing (hrun : self.Run es n) (hin : Incoming self X es)
    (hproposes : Proposes self es) (hrec : Recognises self es) (hvouch : Vouched self A es) :
    Standing self X A es n := by
  refine System.Run.invariant (P := fun es n => Incoming self X es → Proposes self es →
    Recognises self es → Vouched self A es → Standing self X A es n) ?_ ?_ hrun hin hproposes hrec
    hvouch
  · intro hin _ _ _
    refine ⟨Carries.new, Carries.new, ?_, fun hpos => absurd hpos (Nat.lt_irrefl 0)⟩
    have hvoted : ∀ round, State.voted State.new round = ∅ := by
      intro round
      unfold State.voted
      rw [show State.new.lastVoted = ∅ from rfl, AList.lookup_empty]
      rfl
    refine ⟨Supplied.new hin.default, rfl, Carries.new.queues, fun hne => absurd rfl hne,
      fun round hround => ?_, fun x hx => absurd hx List.not_mem_nil,
      ⟨[], rfl, fun v hv => absurd hv List.not_mem_nil⟩, fun c hc => absurd hc List.not_mem_nil⟩
    change self.name ∈ State.new.voted round at hround
    rw [hvoted] at hround
    exact absurd hround (Finset.notMem_empty _)
  · intro es n a n' _ ih hnext hin hproposes hrec hvouch
    have hst := ih hin.tail hproposes.1 hrec.1 hvouch.tail
    obtain ⟨input, n₀, hinput, _, rfl⟩ | hbackground := next_cases hnext
    · by_cases hown : ∃ x, input = .ownHeader x
      · obtain ⟨x, rfl⟩ := hown
        cases Primary.feeds_of_input hinput with
        | ownHeader _ =>
          exact hst.turn_own hfit hhash hpositive (hproposes.2 x rfl)
            (hin.own n x List.mem_cons_self).1 (hvouch.own x List.mem_cons_self)
      · exact hst.turn_other hfit hhash hpositive hbatch hin hrec hvouch hinput
          fun x hx => hown ⟨x, hx⟩
    · exact hst.background hbackground

/-- The header of each vote we made came in, and the vote is as it should be. -/
structure Honest (core : Core) (X : Set Header) (s : State) : Prop where
  current : s.currentHeader ∈ X
  cast : ∀ x ∈ s.cast, x.header ∈ X ∧ x.vote = Vote.new x.header core.name

omit hfit hhash hpositive hbatch in
theorem moves_honest : Moves self X {c | c.header ∈ X} Set.univ (Honest self X) where
  frame := fun s s' hframe hs => ⟨hframe.currentHeader ▸ hs.current, hframe.cast ▸ hs.cast⟩
  mark := fun _ _ _ hs => ⟨hs.current, hs.cast⟩
  header := fun _ _ _ hs => ⟨hs.current, hs.cast⟩
  sync := fun _ _ _ _ hs => ⟨hs.current, hs.cast⟩
  vote := fun h hh _ s hs => by
    refine ⟨⟨hs.current, hs.cast⟩, fun _ => ⟨⟨hs.current, fun x hx => ?_⟩, fun _ => Set.mem_univ _⟩⟩
    obtain hold | hlast := List.mem_append.mp hx
    · exact hs.cast x hold
    · rw [List.mem_singleton.mp hlast]
      exact ⟨hh, rfl⟩
  tally := fun _ _ s hs => by
    refine ⟨⟨hs.current, hs.cast⟩, fun c hc => ?_⟩
    show c.header ∈ X
    rw [header_of_append hc]
    exact hs.current
  embedded := fun _ hc => hc
  suspend := fun _ _ _ _ hs => ⟨hs.current, hs.cast⟩
  accept := fun c _ s _ hs => by
    rw [exec_acceptCertificate]
    exact ⟨hs.current, hs.cast⟩

omit hpositive hbatch in
/-- **Our votes are for headers that came in.** -/
theorem Run.honest (hrun : self.Run es n) (hin : Incoming self X es) : Honest self X n.core := by
  refine System.Run.invariant (P := fun es n => Incoming self X es → Honest self X n.core) ?_ ?_
    hrun hin
  · exact fun hin => ⟨hin.default, fun x hx => absurd hx List.not_mem_nil⟩
  · intro es n a n' hrun ih hnext hin
    have hs := ih hin.tail
    obtain ⟨input, n₀, hinput, _, rfl⟩ | hbackground := next_cases hnext
    · obtain ⟨_, hback⟩ := (Run.supplied hfit hhash hrun hin.tail).1.input hinput
      have hadmits : Moves.Admits self X {c | c.header ∈ X} Set.univ (Honest self X) n.core
          input := hin.admits hinput hback (fun _ => hs) fun x hx => ⟨hx, hs.cast⟩
      show Honest self X (self.iterate n₀.consensusRound input n₀.core).1
      rw [(Primary.of_input hinput).1]
      refine iterate_keeps (fun round s hs => ?_) (moves_honest.handle hadmits) _
      unfold Core.cleanup
      split <;> exact ⟨hs.current, hs.cast⟩
    · have haside := Primary.aside_of_background hbackground
      exact ⟨haside.currentHeader ▸ hs.current, haside.cast ▸ hs.cast⟩

omit hfit hhash hpositive hbatch in
/-- Nothing is asked of a signature. -/
theorem vouched_true (es : History) : Vouched self (fun _ _ _ => True) es :=
  ⟨fun _ _ _ _ => trivial, fun _ _ _ _ _ _ => trivial, fun _ _ => trivial⟩

/-- The core after it took a header of the proposer. -/
theorem Run.took (hrun : self.Run es n) (hin : Incoming self X es)
    (hproposes : Proposes self es) (hrec : Recognises self es)
    (hproposed : Proposed self n.core (ownHeaders es) h)
    (hnext : self.next n (.ownHeader h) = some n') :
    n'.panic = none ∧ (∃ x ∈ n'.core.cast, x.header = h ∧ x.vote = Vote.new h self.name) ∧
      self.name ∈ n'.core.votesAggregator.used := by
  have hst := Run.standing hfit hhash hpositive hbatch hrun hin hproposes hrec (vouched_true es)
  obtain ⟨s', hexec, _, hcast, hused, _⟩ := hst.exec_own hfit hhash hpositive hproposed
  have hturn : n' = self.turn n (.ownHeader h) := by
    unfold next at hnext
    dsimp only [Primary.input] at hnext
    split at hnext
    · exact (Option.some.inj hnext).symm
    · exact absurd hnext.symm (Option.some_ne_none n')
  have hiterate : self.iterate n.consensusRound (.ownHeader h) n.core
      = (self.cleanup n.consensusRound s', none) := by
    unfold iterate
    rw [hexec]
  rw [hturn]
  unfold turn
  rw [hiterate]
  refine ⟨rfl, ?_, ?_⟩ <;> unfold Core.cleanup <;> split <;> assumption

/-- Our vote for each header of the proposer was made. -/
theorem Run.own_cast (hrun : self.Run es n) (hin : Incoming self X es) (hproposes : Proposes self es)
    (hrec : Recognises self es) : ∀ h ∈ ownHeaders es,
      ∃ x ∈ n.core.cast, x.header = h ∧ x.vote = Vote.new h self.name := by
  refine System.Run.invariant (P := fun es n => Incoming self X es → Proposes self es →
    Recognises self es → ∀ h ∈ ownHeaders es,
      ∃ x ∈ n.core.cast, x.header = h ∧ x.vote = Vote.new h self.name) ?_ ?_ hrun hin hproposes hrec
  · exact fun _ _ _ h hh => absurd hh List.not_mem_nil
  · intro es n a n' hrun ih hnext hin hproposes hrec h hh
    obtain ⟨m, hmem⟩ := mem_ownHeaders.mp hh
    obtain heq | hmem := List.mem_cons.mp hmem
    · obtain ⟨rfl, rfl⟩ := Prod.mk.inj heq
      exact (Run.took hfit hhash hpositive hbatch hrun hin.tail hproposes.1 hrec.1
        (hproposes.2 h rfl) hnext).2.1
    · obtain ⟨x, hx, heq⟩ := ih hin.tail hproposes.1 hrec.1 h (mem_ownHeaders.mpr ⟨m, hmem⟩)
      exact ⟨x, (extends_of_next hnext).cast.subset hx, heq⟩

end

section

variable (hfit : 2 * self.committee.totalStake < 2 ^ 32) (hhash : Hashing self.committee X)
  (hpositive : 0 < self.committee.weight self.name) (hbatch : Crypto.BatchExact)

include hfit hhash hpositive hbatch

/-- **Each header of the proposer is voted for at once**: whatever came in before, the core
does not stop when it takes the header, our vote for it is made, and it is counted. -/
theorem own_header_voted (hrun : self.Run es n) (hin : Incoming self X es)
    (hproposes : Proposes self es) (hrec : Recognises self es)
    (hproposed : Proposed self n.core (ownHeaders es) h)
    (hnext : self.next n (.ownHeader h) = some n') :
    n'.panic = none ∧ (∃ x ∈ n'.core.cast, x.header = h ∧ x.vote = Vote.new h self.name) ∧
      self.name ∈ n'.core.votesAggregator.used :=
  Run.took hfit (hhash.separated hin.only) hpositive hbatch hrun hin hproposes hrec hproposed hnext

/-- **Each accepted certificate has the signatures of a quorum**: whether it was verified or
assembled here, its votes are valid signatures over its digest, by distinct authorities that
have stake and are a quorum together; what is let through as genesis aside. -/
theorem accepted_backed (hsigns : self.SignsWell) (hrun : self.Run es n) (hin : Incoming self X es)
    (hproposes : Proposes self es) (hrec : Recognises self es) :
    ∀ c ∈ n.core.txConsensus, ¬ Certificate.LetThrough self.committee c →
      Backed self.committee
        (fun name digest signature => Crypto.verify signature digest name = true) c :=
  (Run.standing hfit (hhash.separated hin.only) hpositive hbatch hrun hin hproposes hrec
    (vouched_verify hsigns es)).upright.backed

end

/-! ## §4. A primary that proposes. -/

/-- A hash for examples that reads all of its input, so that examples do not collide;
signatures spell the key and the digest. -/
@[reducible] def sampleHash : Crypto where
  sha512 bs := ⟨BitVec.ofNat 256 (bs.foldl (fun hash byte => 257 * hash + byte.toNat) bs.length)⟩
  verify signature digest name := decide (signature = ⟨name.bytes, digest.bytes⟩)
  verifyBatch digest votes := votes.all fun v => decide (v.2 = ⟨v.1.bytes, digest.bytes⟩)
  sign name digest := ⟨name.bytes, digest.bytes⟩

omit [Crypto] in
theorem batchExact_sampleHash : letI := sampleHash; Crypto.BatchExact :=
  fun _ _ => List.all_eq_true

omit [Crypto] in
theorem signsWell_sampleHash (self : Core) : letI := sampleHash; self.SignsWell :=
  fun _ => decide_eq_true rfl

/-- A header of an author, with one batch and the given parents. -/
def sampleProposed (round author : ℕ) (parents : List Digest) : Header :=
  letI := sampleHash
  Header.new (sampleKey author) round ⟨[(sampleBatch (100 + author), 0)], List.pairwise_singleton _ _⟩
    (BTreeSet.ofList parents)

/-- The header of round 1 of the fourth of four authorities. -/
def sampleOwn : Header :=
  letI := sampleHash
  sampleProposed 1 3 (Proposer.genesisDigests Committee.sampleFour)

/-- The header of round 1 of another authority, and its certificate. -/
def sampleOther (author : ℕ) : Header :=
  letI := sampleHash
  sampleProposed 1 author (Proposer.genesisDigests Committee.sampleFour)

def sampleOtherCertificate (author : ℕ) : Certificate :=
  letI := sampleHash
  { header := sampleOther author
    votes := [0, 1, 2].map fun a =>
      (sampleKey a, Crypto.sign (sampleKey a) (sampleOther author).certified) }

/-- A header that spells the string of a genesis certificate.  It is not signed. -/
def sampleMimic : Header :=
  letI := sampleHash
  let header : Header := { Header.default with
    author := sampleKey 0, parents := BTreeSet.ofList [⟨(sampleKey 1).bytes⟩] }
  { header with id := header.digest }

/-- The header of round 2 of the fourth authority, after its own certificate and two others. -/
def sampleNext : Header :=
  letI := sampleHash
  sampleProposed 2 3 ([sampleOwn, sampleOther 0, sampleOther 1].map Header.certified)

/-- The headers that are let in. -/
def sampleHeaders : List Header :=
  [Header.default, sampleOwn, sampleOther 0, sampleOther 1, sampleNext]

/-- A header of ours is taken, one is refused, two others vote for ours, and certificates of
theirs come in. -/
def sampleProposal : List Primary.Action :=
  letI := sampleHash
  [.ownHeader sampleOwn, .message (.header sampleMimic),
    .message (.vote (Vote.new sampleOwn (sampleKey 0))),
    .message (.vote (Vote.new sampleOwn (sampleKey 1))),
    .message (.certificate (sampleOtherCertificate 0)),
    .message (.certificate (sampleOtherCertificate 1))]

omit [Crypto] in
set_option maxRecDepth 10000 in
theorem hashing_sampleHeaders :
    letI := sampleHash
    Hashing sampleCore.committee {x | x ∈ sampleHeaders} :=
  let _ := sampleHash
  hashing_of_list (by decide +kernel) (by decide +kernel) (by decide +kernel) (by decide +kernel)

omit [Crypto] in
theorem batches_sampleHeaders :
    letI := sampleHash
    ∀ x ∈ sampleHeaders, x.digest = x.id → x.payload.entries.length = 1 := by
  decide +kernel

omit [Crypto] in
theorem genuine_sampleHeaders :
    letI := sampleHash
    ∀ h ∈ {x | x ∈ sampleHeaders}, h.Genuine sampleCore.committee := by
  let _ := sampleHash
  refine List.forall_mem_cons.mpr ⟨Header.genuine_default, fun h hh => Or.inl ?_⟩
  have hmade : ∀ h ∈ sampleHeaders.tail, h.digest = h.id ∧ h.author ∈ sampleCore.committee.members := by
    decide +kernel
  exact hmade h hh

/-- An action that brings nothing of ours, and whose headers are in a list if they are let in. -/
def foreignTo (core : Core) (l : List Header) (a : Primary.Action) : Bool :=
  decide (ownHeaderOf a = none ∧
    ∀ x ∈ a.headers, x.Admitted core.committee → x ∈ l ∧ x.author ≠ core.name)

/-- Steps that bring in nothing of ours ask for little. -/
theorem hypotheses_of_foreign {later : History}
    (hforeign : ∀ e ∈ later, ownHeaderOf e.2 = none ∧
      ∀ x ∈ e.2.headers, x.Admitted self.committee → x ∈ X ∧ x.author ≠ self.name)
    (h : Incoming self X es ∧ Proposes self es ∧ Recognises self es) :
    Incoming self X (later ++ es) ∧ Proposes self (later ++ es) ∧ Recognises self (later ++ es) := by
  induction later with
  | nil => exact h
  | cons e later ih =>
      obtain ⟨m, a⟩ := e
      obtain ⟨⟨hnone, ha⟩, hlater⟩ := List.forall_mem_cons.mp hforeign
      have hnot : ∀ x, a ≠ .ownHeader x := by
        rintro x rfl
        exact Option.some_ne_none _ hnone
      obtain ⟨hin, hproposes, hrec⟩ := ih hlater
      refine ⟨⟨hin.only, hin.default, fun m' b hmem x hx hadmitted => ?_, fun m' x hmem => ?_⟩,
        ⟨hproposes, fun x hx => absurd hx (hnot x)⟩, hrec, fun x hx hverify hname => ?_⟩
      · obtain heq | hmem := List.mem_cons.mp hmem
        · obtain ⟨rfl, rfl⟩ := Prod.mk.inj heq
          exact (ha x hx hadmitted).1
        · exact hin.admitted m' b hmem x hx hadmitted
      · obtain heq | hmem := List.mem_cons.mp hmem
        · exact absurd (Prod.mk.inj heq).2.symm (hnot x)
        · exact hin.own m' x hmem
      · exact absurd hname (ha x hx (Or.inl hverify)).2

omit [Crypto] in
/-- What a run needs that starts with a header of ours, from the labels of its steps. -/
theorem sampleProposal_hypotheses {es : History} {labels : List Primary.Action}
    (hforeign : letI := sampleHash; labels.all (foreignTo sampleCore sampleHeaders) = true)
    (h : es.map Prod.snd = (.ownHeader sampleOwn :: labels).reverse) :
    letI := sampleHash
    Incoming sampleCore {x | x ∈ sampleHeaders} es ∧ Proposes sampleCore es ∧
      Recognises sampleCore es := by
  let _ := sampleHash
  rw [List.reverse_cons] at h
  obtain ⟨later, first, rfl, hlater, hfirst⟩ := List.map_eq_append_iff.mp h
  obtain ⟨⟨m, a⟩, rest, rfl, rfl, hrest⟩ := List.map_eq_cons_iff.mp hfirst
  obtain rfl := List.map_eq_nil_iff.mp hrest
  have hlabel : ∀ e ∈ later, e.2 ∈ labels := fun e he =>
    List.mem_reverse.mp (hlater ▸ List.mem_map_of_mem he)
  refine hypotheses_of_foreign
    (fun e he => of_decide_eq_true (List.all_eq_true.mp hforeign _ (hlabel e he)))
    ⟨⟨genuine_sampleHeaders, List.mem_cons_self, fun m' b hmem x hx _ => ?_,
      fun m' x hmem => ?_⟩, ⟨trivial, fun x hx => ?_⟩, ⟨trivial, fun x hx _ _ => ?_⟩⟩
  · rw [(Prod.mk.inj (List.mem_singleton.mp hmem)).2] at hx
    rw [List.mem_singleton.mp hx]
    exact List.mem_cons_of_mem _ List.mem_cons_self
  · obtain rfl := Primary.Action.ownHeader.inj (Prod.mk.inj (List.mem_singleton.mp hmem)).2
    exact ⟨List.mem_cons_of_mem _ List.mem_cons_self, Header.digest_new _ _ _ _⟩
  · rw [← Primary.Action.ownHeader.inj hx]
    exact ⟨⟨_, _, rfl, Or.inl ⟨rfl, rfl⟩⟩, fun _ hx => absurd hx List.not_mem_nil⟩
  · exact ⟨sampleOwn, List.mem_cons_self, by rw [List.mem_singleton.mp hx]⟩

omit [Crypto] in
set_option maxRecDepth 10000 in
/-- The refused header aside, what comes in is by the others. -/
theorem foreign_sampleProposal :
    letI := sampleHash
    sampleProposal.tail.all (foreignTo sampleCore sampleHeaders) = true := by
  decide +kernel

omit [Crypto] in
set_option maxRecDepth 10000 in
theorem exists_proposalRun :
    letI := sampleHash
    ∃ es n, sampleCore.Run es n ∧ es.map Prod.snd = sampleProposal.reverse ∧ n.panic = none ∧
      n.core.txConsensus.map Certificate.header = [sampleOwn, sampleOther 0, sampleOther 1] :=
  let _ := sampleHash
  let ⟨es, n, hrun, hlabels, hcheck⟩ := System.exec_check_labels sampleCore.system sampleProposal
    (fun n => decide (n.panic = none ∧
      n.core.txConsensus.map Certificate.header = [sampleOwn, sampleOther 0, sampleOther 1]))
    (by decide +kernel)
  ⟨es, n, hrun, hlabels, of_decide_eq_true hcheck⟩

omit [Crypto] in
/-- Three certificates were accepted, one of them assembled here. -/
theorem accepted_backed_sample :
    letI := sampleHash
    ∃ es n, sampleCore.Run es n ∧
      n.core.txConsensus.map Certificate.header = [sampleOwn, sampleOther 0, sampleOther 1] ∧
      ∀ c ∈ n.core.txConsensus, Backed sampleCore.committee
        (fun name digest signature => Crypto.verify signature digest name = true) c := by
  let _ := sampleHash
  obtain ⟨es, n, hrun, hlabels, _, hsent⟩ := exists_proposalRun
  obtain ⟨hin, hproposes, hrec⟩ := sampleProposal_hypotheses foreign_sampleProposal hlabels
  refine ⟨es, n, hrun, hsent, fun c hc => ?_⟩
  refine accepted_backed (by decide) (hashing_sampleHeaders) (by decide)
    batchExact_sampleHash (signsWell_sampleHash _) hrun hin hproposes hrec c hc fun hthrough => ?_
  have hheader : c.header ∈ [sampleOwn, sampleOther 0, sampleOther 1] :=
    hsent ▸ List.mem_map_of_mem hc
  have hround : ∀ h ∈ [sampleOwn, sampleOther 0, sampleOther 1], h.round = 1 := by decide +kernel
  have hzero : c.header.round = 0 := hthrough.round
  rw [hround _ hheader] at hzero
  exact absurd hzero Nat.one_ne_zero

omit [Crypto] in
/-- The proposer makes a header of the three certificates. -/
theorem proposed_sampleNext {n : Primary} {es : History}
    (hlabels : letI := sampleHash; es.map Prod.snd = sampleProposal.reverse)
    (hsent : n.core.txConsensus.map Certificate.header
      = [sampleOwn, sampleOther 0, sampleOther 1]) :
    letI := sampleHash
    Proposed sampleCore n.core (ownHeaders es) sampleNext := by
  let _ := sampleHash
  have hmem : ∀ c ∈ n.core.txConsensus,
      c.header ∈ [sampleOwn, sampleOther 0, sampleOther 1] := fun c hc =>
    hsent ▸ List.mem_map_of_mem hc
  have hrounds : ∀ h ∈ [sampleOwn, sampleOther 0, sampleOther 1], h.round = 1 := by decide +kernel
  have horigins : n.core.txConsensus.map Certificate.origin
      = [sampleOwn, sampleOther 0, sampleOther 1].map Header.author := by
    rw [← hsent, List.map_map]
    rfl
  have hdigests : [sampleOwn, sampleOther 0, sampleOther 1].map Header.certified
      = n.core.txConsensus.map Certificate.digest := by
    rw [← hsent, List.map_map]
    rfl
  refine ⟨⟨_, _, rfl, Or.inr ⟨by decide, n.core.txConsensus, hdigests, ⟨fun _ => id,
    fun c hc => hrounds _ (hmem c hc), ?_⟩, ?_⟩⟩, fun x hx => ?_⟩
  · rw [horigins]
    decide +kernel
  · have hweights : n.core.txConsensus.map (fun c => sampleCore.committee.weight c.origin)
        = [sampleOwn, sampleOther 0, sampleOther 1].map
            (fun x => sampleCore.committee.weight x.author) := by
      rw [← hsent, List.map_map]
      rfl
    rw [hweights]
    decide +kernel
  · obtain ⟨m, hmem⟩ := mem_ownHeaders.mp hx
    have hlabel : Primary.Action.ownHeader x ∈ sampleProposal := by
      rw [← List.mem_reverse, ← hlabels]
      exact List.mem_map_of_mem hmem
    simp only [sampleProposal, List.mem_cons, Primary.Action.ownHeader.injEq, reduceCtorEq,
      List.not_mem_nil, or_false] at hlabel
    rw [hlabel]
    decide

omit [Crypto] in
/-- The core takes the next header after all that came in. -/
theorem own_header_voted_sample :
    letI := sampleHash
    ∃ es n n', sampleCore.Run es n ∧ es.map Prod.snd = sampleProposal.reverse ∧
      sampleCore.next n (.ownHeader sampleNext) = some n' ∧ n'.panic = none ∧
      (∃ x ∈ n'.core.cast, x.header = sampleNext ∧ x.vote = Vote.new sampleNext sampleCore.name) ∧
      sampleCore.name ∈ n'.core.votesAggregator.used := by
  let _ := sampleHash
  obtain ⟨es, n, hrun, hlabels, hpanic, hsent⟩ := exists_proposalRun
  obtain ⟨hin, hproposes, hrec⟩ := sampleProposal_hypotheses foreign_sampleProposal hlabels
  have hnext : sampleCore.next n (.ownHeader sampleNext)
      = some (sampleCore.turn n (.ownHeader sampleNext)) := by
    unfold next
    rw [hpanic]
    rfl
  exact ⟨es, n, _, hrun, hlabels, hnext, own_header_voted (by decide) hashing_sampleHeaders
    (by decide) batchExact_sampleHash hrun hin hproposes hrec
    (proposed_sampleNext hlabels hsent) hnext⟩

end Core

end Mrv
