/-
  Mrv.Primary.Panic — when the core of a primary stops.

  Four `expect`s of the core could fail.  Three never do: a header that is voted for has
  been verified, so that its author is in the committee, and a header of ours is voted for
  without an error.  The fourth is on the certificate assembled from the votes for the
  current header, whose header is looked at again.  While its round is not collected the
  header is marked as being processed, and nothing happens.  Once its round is collected
  the mark and our vote are forgotten: we vote for our header again, the aggregator
  refuses the second vote, and the core stops.

    * `panics_iff` — the core stops exactly if a vote completes a collected header.
-/
import Mrv.Primary.Steady

namespace Mrv

variable [Crypto]

namespace Core

open Mrv.Handler (Triple Keeps)
open Primary (Carries Queues Aside)

variable {self : Core} {X : Set Header} {A : PublicKey → Digest → Signature → Prop}
  {s s' : State} {es : History} {n n' : Primary} {h : Header} {c : Certificate} {r : Records}

/-! ## §1. Handlers that do not panic. -/

/-- A handler that keeps a property if it returns, and fails with an error only. -/
def Calm {α : Type} (P : State → Prop) (x : Handler α) : Prop :=
  Triple P x (fun _ s => P s) (fun e _ => ∃ d, e = .error d)

section

variable {α β : Type} {P : State → Prop}

omit [Crypto] in
theorem Calm.bind {x : Handler α} {f : α → Handler β} (hx : Calm P x) (hf : ∀ a, Calm P (f a)) :
    Calm P (x >>= f) :=
  Triple.bind hx hf

omit [Crypto] in
theorem Calm.pure (a : α) : Calm P (pure a : Handler α) := Triple.pure fun _ hs => hs

omit [Crypto] in
theorem Calm.get : Calm P (get : Handler State) := Triple.get fun _ hs => hs

omit [Crypto] in
theorem Calm.modify {f : State → State} (h : ∀ s, P s → P (f s)) :
    Calm P (modify f : Handler PUnit) :=
  Triple.modify h

omit [Crypto] in
theorem Calm.ite {p : Prop} [Decidable p] {x y : Handler α} (hx : Calm P x) (hy : Calm P y) :
    Calm P (if p then x else y) :=
  Triple.ite (fun _ => hx) (fun _ => hy)

omit [Crypto] in
/-- What a calm handler returns is not a panic. -/
theorem Calm.ne_panic {x : Handler α} (hx : Calm P x) (hs : P s) (p : CorePanic) :
    (x.exec s).1 ≠ .error (.panic p) := by
  have hmid := hx s hs
  rcases hexec : x.exec s with ⟨r, s'⟩
  rw [hexec] at hmid
  cases r with
  | ok a => exact fun hne => by cases hne
  | error e =>
      obtain ⟨d, rfl⟩ := hmid
      exact fun hne => by cases hne

end

/-- Our vote in the slot of a header of ours is remembered. -/
def Remembered (core : Core) (h : Header) (s : State) : Prop :=
  0 < h.round → h.author = core.name → core.name ∈ s.voted h.round

/-- The author of a header, if it passes the checks, is in the committee. -/
def Addressed (core : Core) (h : Header) : Prop :=
  core.Passed h → ∃ address, core.committee.primary h.author = .ok address

/-- The parents of a header are found, or the header is suspended. -/
theorem calm_getParents :
    Triple (Remembered self h) (self.getParents h)
      (fun parents s => Remembered self h s ∧
        (parents ≠ [] → self.findParents s.store h.parents.toList = .ok (parents, [])))
      (fun e _ => ∃ d, e = .error d) := by
  unfold getParents
  refine Triple.bind (Triple.get (Q := fun s t => Remembered self h t ∧ s = t)
    fun s hs => ⟨hs, rfl⟩) fun s => ?_
  refine Triple.bind (Q := fun r t => (Remembered self h t ∧ s = t) ∧
      self.findParents s.store h.parents.toList = .ok r)
    (Triple.ofExcept (fun r hr t ht => ⟨ht, hr⟩) (fun d t _ => ⟨d, rfl⟩)) fun r => ?_
  obtain ⟨parents, missing⟩ := r
  refine Triple.ite (fun hmissing => Triple.pure fun t ht => ?_) (fun _ => ?_)
  · obtain ⟨⟨hP, rfl⟩, hfind⟩ := ht
    rw [hmissing] at hfind
    exact ⟨hP, fun _ => hfind⟩
  · refine Triple.bind (Q := fun _ t => Remembered self h t) (Triple.modify fun t ht => ht.1.1)
      fun _ => ?_
    exact Triple.pure fun t ht => ⟨ht, fun hnil => absurd rfl hnil⟩

omit [Crypto] in
theorem calm_missingPayload : Calm (Remembered self h) (self.missingPayload h) := by
  unfold missingPayload syncHeader
  refine Calm.ite (Calm.pure _) (Calm.get.bind fun s => Calm.ite (Calm.pure _) ?_)
  exact Calm.bind (Calm.modify fun _ hs => hs) fun _ => Calm.pure _

/-- The vote on a header that is not ours, or whose vote is remembered. -/
theorem calm_voteWith {processVote : Vote → Handler Unit} (hround : 0 < h.round)
    (haddress : ∃ address, self.committee.primary h.author = .ok address) :
    Calm (Remembered self h) (self.voteWith processVote h) := by
  unfold voteWith
  refine Triple.bind (Q := fun fresh s => Remembered self h s ∧
      (fresh = true → h.author ≠ self.name)) (Triple.modifyGet fun s hs => ?_) fun fresh => ?_
  · refine ⟨fun _ hname => ?_, fun hfresh hname => ?_⟩
    · rw [show State.voted { s with lastVoted := _ } h.round = _ from voted_spent h s h.round,
        if_pos rfl]
      exact Finset.mem_insert_of_mem (hs hround hname)
    · have hnot : h.author ∉ s.voted h.round := of_decide_eq_true hfresh
      rw [hname] at hnot
      exact hnot (hs hround hname)
  refine Triple.ite (fun hfresh => ?_) fun _ => Triple.pure fun s hs => hs.1
  refine Triple.bind (Q := fun v s => Remembered self h s ∧ v.origin ≠ self.name)
    (Triple.modifyGet fun s hs => ⟨hs.1, hs.2 hfresh⟩) fun v => ?_
  refine Triple.ite (fun hours => fun s hs => absurd hours hs.2) fun _ => ?_
  unfold sendVote send
  obtain ⟨address, hok⟩ := haddress
  rw [hok]
  exact Triple.modify fun s hs => hs.1

theorem calm_processHeaderWith {processVote : Vote → Handler Unit} (haddress : Addressed self h) :
    Calm (Remembered self h) (self.processHeaderWith processVote h) := by
  unfold processHeaderWith markProcessing
  refine Calm.bind (Calm.modify fun s hs => hs) fun _ => ?_
  refine Triple.bind calm_getParents fun parents => ?_
  refine Triple.ite (fun _ => Triple.pure fun s hs => hs.1) fun hne => ?_
  refine Triple.bind (Q := fun stake s => (Remembered self h s ∧
      self.findParents s.store h.parents.toList = .ok (parents, [])) ∧
      self.checkParents h parents 0 = .ok stake)
    (Triple.ofExcept (fun _ hr s hs => ⟨⟨hs.1, hs.2 hne⟩, hr⟩) fun d _ _ => ⟨d, rfl⟩)
    fun stake => ?_
  refine Triple.bind (Q := fun _ s => Remembered self h s ∧ self.Passed h)
    (Triple.ofExcept (fun _ hr s hs => ?_) fun d _ _ => ⟨d, rfl⟩) fun _ => ?_
  · have hquorum := of_decide_eq_true (ensure_eq_ok.mp hr)
    exact ⟨hs.1.1, s.store, parents, stake, hs.1.2, hs.2, hquorum⟩
  refine Triple.of_forall fun s hs => ?_
  obtain ⟨hremembered, hpassed⟩ := hs
  refine Triple.conseq (P := Remembered self h) (Q := fun _ s => Remembered self h s)
    (E := fun e _ => ∃ d, e = .error d) ?_ (fun t ht => ht ▸ hremembered) (fun _ _ => id)
    (fun _ _ => id)
  refine Calm.bind calm_missingPayload fun missing => Calm.ite (Calm.pure _) ?_
  refine Calm.bind ?_ fun _ => calm_voteWith hpassed.round_pos (haddress hpassed)
  unfold write
  exact Calm.modify fun s hs => hs

/-- **Processing a header** that is not ours, or whose vote is remembered. -/
theorem calm_processHeader (haddress : Addressed self h) :
    Calm (Remembered self h) (self.processHeader depth h) :=
  calm_processHeaderWith haddress

theorem calm_processCertificate (haddress : Addressed self c.header) :
    Calm (Remembered self c.header) (self.processCertificate c) := by
  unfold processCertificate processCertificateWith embeddedHeaderWith deliverCertificate
  refine Calm.bind (Calm.get.bind fun s => Calm.ite (Calm.pure _) (calm_processHeader haddress))
    fun _ => ?_
  refine Calm.bind (Calm.get.bind fun s => Calm.ite (Calm.pure _)
    (Calm.bind (Calm.modify fun s hs => hs) fun _ => Calm.pure _)) fun delivered => ?_
  refine Calm.ite (fun s hs => ?_) (Calm.pure _)
  rw [exec_acceptCertificate]
  exact hs

/-! ## §2. The current header. -/

/-- What the core remembers of its current header: everything while its round is not
collected, and nothing from then on; our vote for it was counted. -/
structure Tracked (core : Core) (s : State) : Prop where
  alive : s.gcRound ≤ s.currentHeader.round → Marked s.currentHeader s
  buried : s.currentHeader.round < s.gcRound →
    ¬ Marked s.currentHeader s ∧ core.name ∉ s.voted s.currentHeader.round
  counted : core.name ∈ s.votesAggregator.used

/-- The current header is ours and tracked, unless none was proposed yet. -/
def Follows (core : Core) (s : State) : Prop :=
  s.currentHeader = Header.default ∨ (0 < s.currentHeader.round ∧ Tracked core s)

omit [Crypto] in
theorem Tracked.of_eq (ht : Tracked self s) (hgc : s'.gcRound = s.gcRound)
    (hcurrent : s'.currentHeader = s.currentHeader) (hprocessing : s'.processing = s.processing)
    (hlast : s'.lastVoted = s.lastVoted)
    (hused : s.votesAggregator.used ⊆ s'.votesAggregator.used) : Tracked self s' := by
  have hmarked : ∀ x : Header, Marked x s' ↔ Marked x s := by
    intro x
    unfold Marked State.inProcess
    rw [hprocessing]
  have hvoted : ∀ round, s'.voted round = s.voted round := by
    intro round
    unfold State.voted
    rw [hlast]
  refine ⟨fun hle => ?_, fun hlt => ?_, hused ht.counted⟩
  · rw [hgc, hcurrent] at hle
    rw [hcurrent, hmarked]
    exact ht.alive hle
  · rw [hgc, hcurrent] at hlt
    rw [hcurrent, hmarked, hvoted]
    exact ht.buried hlt

omit [Crypto] in
/-- Cleaning up forgets the current header if its round is collected, and only then. -/
theorem tracked_cleanup (halive : s.gcRound ≤ s.currentHeader.round → Marked s.currentHeader s)
    (hcounted : self.name ∈ s.votesAggregator.used) {round : ℕ}
    (hgc : s.gcRound ≤ round - self.gcDepth) : Tracked self (self.cleanup round s) := by
  unfold Core.cleanup
  split
  · have hmarked : ∀ x : Header, Marked x { s with
        processing := s.processing.retain
          (fun k v => if round - self.gcDepth ≤ k then some v else none) } ↔
        Marked x s ∧ round - self.gcDepth ≤ x.round := by
      intro x
      unfold Marked State.inProcess
      rw [AList.lookup_retain]
      cases s.processing.lookup x.round with
      | none => simp
      | some ids => by_cases hle : round - self.gcDepth ≤ x.round <;> simp [hle]
    have hvoted : ∀ r, self.name ∈ State.voted { s with
        lastVoted := s.lastVoted.retain
          (fun k v => if round - self.gcDepth ≤ k then some v else none) } r →
        round - self.gcDepth ≤ r := by
      intro r
      unfold State.voted
      rw [AList.lookup_retain]
      cases s.lastVoted.lookup r with
      | none => simp
      | some authors => by_cases hle : round - self.gcDepth ≤ r <;> simp [hle]
    refine ⟨fun hle => ?_, fun hlt => ⟨fun hmark => ?_, fun hvote => ?_⟩, hcounted⟩
    · change round - self.gcDepth ≤ s.currentHeader.round at hle
      exact (hmarked s.currentHeader).mpr ⟨halive (hgc.trans hle), hle⟩
    · change s.currentHeader.round < round - self.gcDepth at hlt
      exact absurd ((hmarked s.currentHeader).mp hmark).2 (Nat.not_le.mpr hlt)
    · change s.currentHeader.round < round - self.gcDepth at hlt
      exact absurd (hvoted _ hvote) (Nat.not_le.mpr hlt)
  · next hround =>
    -- nothing is collected yet
    exact ⟨halive, fun hlt => by omega, hcounted⟩

/-- What comes in keeps track of the current header, votes aside. -/
theorem moves_tracked (hfit : 2 * self.committee.totalStake < 2 ^ 32)
    (hhash : Separated self.committee X) (honly : ∀ x ∈ X, x.Genuine self.committee)
    (hsub : ∀ x ∈ r.remembered, x ∈ r.taken) (hcurrent : r.current ∈ r.taken)
    (hname : r.current.author = self.name) (hround : 0 < r.current.round) :
    Moves self (r.settled self X) {c | c.header ∈ r.settled self X} ∅
      (fun s => Steady self X r s ∧ Tracked self s) := by
  have hmoves := moves_steady hfit hhash fun _ => hcurrent
  have hin : r.settled self X ⊆ r.headers self X := Records.settled_subset hsub
  refine
    { frame := fun s s' hframe hs => ⟨hmoves.frame s s' hframe hs.1,
        hs.2.of_eq hframe.gcRound hframe.currentHeader hframe.processing hframe.lastVoted
          (hframe.votesAggregator ▸ Finset.Subset.refl _)⟩
      mark := fun x hx s hs => ⟨hmoves.mark x (hin hx) s hs.1, ?_⟩
      header := fun x hx s hs => ⟨hmoves.header x (hin hx) s hs.1,
        hs.2.of_eq rfl rfl rfl rfl (Finset.Subset.refl _)⟩
      sync := fun m s hm hmissing hs => ⟨hmoves.sync m s (hin hm) hmissing hs.1,
        hs.2.of_eq rfl rfl rfl rfl (Finset.Subset.refl _)⟩
      vote := fun x hx hpassed s hs => ?_
      tally := fun v hv => absurd hv (Set.notMem_empty v)
      embedded := fun c hc => hc
      suspend := fun c hc s hmissing hs => ⟨hmoves.suspend c (hin hc) s hmissing hs.1,
        hs.2.of_eq rfl rfl rfl rfl (Finset.Subset.refl _)⟩
      accept := fun c hc s hparents hs => ⟨hmoves.accept c (hin hc) s hparents hs.1, ?_⟩ }
  · have hmarked : Marked s.currentHeader (marked x s) ↔ Marked s.currentHeader s ∨
        (s.currentHeader.round = x.round ∧ s.currentHeader.id = x.id) := by
      show s.currentHeader.id ∈ State.inProcess { s with processing := _ } s.currentHeader.round ↔ _
      rw [inProcess_insert]
      unfold Marked
      split
      · next heq =>
        rw [Finset.mem_insert, heq]
        tauto
      · tauto
    refine ⟨fun hle => hmarked.mpr (Or.inl (hs.2.alive hle)), fun hlt => ⟨fun hmark => ?_, ?_⟩,
      hs.2.counted⟩
    · change s.currentHeader.round < s.gcRound at hlt
      obtain hold | ⟨hr, hid⟩ := hmarked.mp hmark
      · exact (hs.2.buried hlt).1 hold
      · -- a header with the mark of the current one is ours, so that its round is not collected
        have hX : r.current ∈ X := hs.1.current ▸ hs.1.supplied.currentHeader
        rw [hs.1.current] at hr hid hlt
        have hpos : 0 < x.round := hr ▸ hround
        have hauthor := (hhash.identified _ hX x hx.1 ((honly _ hX).hashed hround)
          ((honly x hx.1).hashed hpos) hid).1
        have hle := (hs.1.voted_of_settled hx (hauthor ▸ hname) hpos).1
        omega
    · exact (hs.2.buried hlt).2
  · -- no vote for a header of ours is there to be taken
    obtain ⟨htaken, hvote⟩ := hmoves.vote x (hin hx) hpassed s hs.1
    have hours (hname : x.author = self.name) : s.gcRound ≤ x.round ∧ self.name ∈ s.voted x.round :=
      hs.1.voted_of_settled hx hname hpassed.round_pos
    have htracked : ∀ cast : List Cast, Tracked self { spent x s with cast } := by
      intro cast
      refine ⟨hs.2.alive, fun hlt => ⟨(hs.2.buried hlt).1, fun hmem => ?_⟩, hs.2.counted⟩
      change s.currentHeader.round < s.gcRound at hlt
      change self.name ∈ (spent x s).voted s.currentHeader.round at hmem
      rw [voted_spent] at hmem
      split at hmem
      · next heq =>
        obtain hx' | hold := Finset.mem_insert.mp hmem
        · have hle := (hours hx'.symm).1
          omega
        · exact (hs.2.buried hlt).2 (heq ▸ hold)
      · exact (hs.2.buried hlt).2 hmem
    refine ⟨⟨htaken, htracked s.cast⟩, fun hfresh => ⟨⟨(hvote hfresh).1, htracked _⟩, fun hx' => ?_⟩⟩
    rw [hx'] at hfresh
    exact absurd (hours hx').2 hfresh
  · rw [exec_acceptCertificate]
    exact hs.2.of_eq rfl rfl rfl rfl (Finset.Subset.refl _)

/-! ## §3. The votes for the current header. -/

/-- A certificate for the current header while its round is not collected. -/
theorem exec_processVote_alive {v : Vote} {r : Option Certificate} (ht : Tracked self s)
    (hr : (s.votesAggregator.append v self.committee s.currentHeader).1 = .ok r)
    (halive : s.gcRound ≤ s.currentHeader.round)
    (hparents : self.HasParents s.store s.currentHeader) :
    ∃ s', (self.processVote v).exec s = (.ok (), s') ∧ s'.processing = s.processing ∧
      s.votesAggregator.used ⊆ s'.votesAggregator.used := by
  obtain ⟨s', hexec, _, _, hprocessing, haggregator⟩ :=
    exec_processVoteWith (self.processHeader depth) hr (ht.alive halive) hparents
  refine ⟨s', hexec, hprocessing, ?_⟩
  rw [haggregator]
  exact used_append_subset v

/-- A certificate for the current header once its round is collected: we vote for our header
again, and the aggregator refuses the vote. -/
theorem exec_processVote_buried {v : Vote} {c : Certificate} {parents : List Certificate}
    {stake : Stake} (ht : Tracked self s)
    (hr : (s.votesAggregator.append v self.committee s.currentHeader).1 = .ok (some c))
    (hburied : s.currentHeader.round < s.gcRound) (hname : s.currentHeader.author = self.name)
    (hfind : self.findParents s.store s.currentHeader.parents.toList = .ok (parents, []))
    (hne : parents ≠ []) (hcheck : self.checkParents s.currentHeader parents 0 = .ok stake)
    (hquorum : self.committee.quorumThreshold ≤ stake) :
    ((self.processVote v).exec s).1 = .error (.panic .ownVote) := by
  obtain ⟨hunmarked, hfresh⟩ := ht.buried hburied
  have hheader := header_of_append hr
  let t : State := { self.counted v s with
    network := s.network ++ [(self.others, PrimaryMessage.certificate c)] }
  -- our second vote is refused
  have hvote : ∃ s', (self.processHeader depth c.header).exec t = (.error (.panic .ownVote), s') := by
    have hfresh' : c.header.author ∉ t.voted c.header.round := by
      rw [hheader, hname]
      exact hfresh
    rw [← hheader] at hfind hcheck hname
    have hexec : (self.processHeaderWith (self.processVoteWith
        (self.processCertificateWith (self.processHeader 1))) c.header).exec t = _ :=
      exec_processHeaderWith hfind hne hcheck hquorum hname hfresh'
    have hused : (Vote.new c.header self.name).author ∈
        (self.polled c.header (stored c.header (marked c.header t))).votesAggregator.used :=
      used_append_subset v ht.counted
    rw [Handler.exec_expect, processVoteWith_of_used hused] at hexec
    exact ⟨_, hexec⟩
  obtain ⟨s', hvote⟩ := hvote
  have hcertificate : (self.processCertificate c).exec t = (.error (.panic .ownVote), s') := by
    have hmem : c.header.id ∉ t.inProcess c.header.round := by
      rw [hheader]
      exact hunmarked
    unfold processCertificate processCertificateWith embeddedHeaderWith
    rw [Handler.exec_bind, Handler.exec_bind, Handler.exec_get]
    dsimp only
    rw [if_neg hmem, hvote]
  unfold processVote processVoteWith
  rw [Handler.exec_bind, exec_appendVote hr]
  dsimp only
  rw [Handler.exec_bind]
  show (((self.processCertificate c).expect _).exec t).1 = _
  rw [Handler.exec_expect, hcertificate]
  rfl

omit [Crypto] in
/-- Parents of a header without parents. -/
theorem exec_processHeaderWith_orphan [Crypto] {processVote : Vote → Handler Unit}
    (hparents : h.parents.toList = []) :
    (self.processHeaderWith processVote h).exec s = (.ok (), marked h s) := by
  have hfind : self.findParents (marked h s).store h.parents.toList = .ok ([], []) := by
    rw [hparents]
    rfl
  unfold processHeaderWith
  rw [Handler.exec_bind]
  show ((self.getParents h >>= _).exec (marked h s)) = _
  rw [Handler.exec_bind, exec_getParents hfind]
  rfl

/-- A certificate of a header without parents is accepted. -/
theorem exec_processCertificate_orphan (hparents : c.header.parents.toList = []) :
    ∃ s', (self.processCertificate c).exec s = (.ok (), s') := by
  obtain ⟨u, hembedded⟩ : ∃ u,
      (embeddedHeaderWith (self.processHeader depth) c).exec s = (.ok (), u) := by
    unfold embeddedHeaderWith
    rw [Handler.exec_bind, Handler.exec_get]
    dsimp only
    split
    · exact ⟨s, rfl⟩
    · exact ⟨_, exec_processHeaderWith_orphan hparents⟩
  have hdelivered : (self.deliverCertificate c).exec u = (.ok true, u) := by
    unfold deliverCertificate
    rw [Handler.exec_bind, Handler.exec_get]
    dsimp only
    rw [hparents]
    rfl
  unfold processCertificate processCertificateWith
  rw [Handler.exec_bind, hembedded]
  dsimp only
  rw [Handler.exec_bind, hdelivered]
  dsimp only
  rw [if_pos rfl, exec_acceptCertificate]
  exact ⟨_, rfl⟩

/-! ## §4. Runs. -/

/-- Headers whose author has an address, unless of round 0. -/
def Located (core : Core) : Set Header :=
  {h | 0 < h.round → ∃ address, core.committee.primary h.author = .ok address}

omit [Crypto] in
theorem located_of_weight (hpositive : 0 < self.committee.weight h.author) :
    h ∈ self.Located :=
  fun _ => Committee.mem_members_iff.mp (Committee.member_of_weight hpositive)

theorem located_of_verified (hverified : h ∈ self.Verified) : h ∈ self.Located := by
  obtain hverify | hzero := hverified
  · refine located_of_weight ?_
    unfold Header.verify at hverify
    obtain ⟨_, hverify⟩ := ensure_bind_eq_ok.mp hverify
    exact UInt32.lt_iff_toNat_lt.mp (of_decide_eq_true (ensure_bind_eq_ok.mp hverify).1)
  · exact fun hpos => by omega

theorem addressed_of_located (hlocated : h ∈ self.Located) : Addressed self h :=
  fun hpassed => hlocated hpassed.round_pos

/-- The author of each header on its way has an address. -/
theorem Run.located (hrun : self.Run es n)
    (hown : ∀ m h, (m, Primary.Action.ownHeader h) ∈ es → h ∈ self.Located) :
    Primary.InFlight self.Located n := by
  refine (Run.delivers hrun fun h hh => ?_).1
  obtain ⟨_, rfl | hproposer | hadmitted⟩ := hh
  · exact fun hpos => absurd hpos (Nat.lt_irrefl 0)
  · obtain ⟨⟨m, _⟩, hmem, rfl⟩ := List.mem_map.mp hproposer
    exact hown m h hmem
  · exact located_of_verified (hadmitted.imp_right fun hzero => hzero.2.1)

/-- A vote that completes the quorum for a header of ours whose round is collected. -/
def Late (core : Core) (s : State) (a : Primary.Action) : Prop :=
  ∃ v c, a = .message (.vote v) ∧ core.sanitizeVote s v = .ok () ∧
    (s.votesAggregator.append v core.committee s.currentHeader).1 = .ok (some c) ∧
    0 < c.round ∧ c.round < s.gcRound

/-- What is left of a current header while an input is handled. -/
def Attended (core : Core) (s : State) : Prop :=
  s.currentHeader = Header.default ∨ (0 < s.currentHeader.round ∧
    (s.gcRound ≤ s.currentHeader.round → Marked s.currentHeader s) ∧
    core.name ∈ s.votesAggregator.used)

omit [Crypto] in
theorem Follows.attended (hs : Follows self s) : Attended self s := by
  obtain hdefault | ⟨hround, ht⟩ := hs
  · exact Or.inl hdefault
  · exact Or.inr ⟨hround, ht.alive, ht.counted⟩

omit [Crypto] in
theorem Attended.cleanup (hs : Attended self s) {round : ℕ}
    (hgc : s.gcRound ≤ round - self.gcDepth) : Follows self (self.cleanup round s) := by
  have hsame : (self.cleanup round s).currentHeader = s.currentHeader := by
    unfold Core.cleanup
    split <;> rfl
  obtain hdefault | ⟨hround, halive, hcounted⟩ := hs
  · exact Or.inl (hsame.trans hdefault)
  · exact Or.inr ⟨hsame ▸ hround, tracked_cleanup halive hcounted hgc⟩

/-- A handler that does not stop the core. -/
def Settles (core : Core) (x : Handler Unit) (s : State) : Prop :=
  (∀ p, (x.exec s).1 ≠ .error (.panic p)) ∧ Attended core (x.exec s).2

omit [Crypto] in
/-- A handler after a check. -/
theorem checked_ne_panic {r : Except DagError Unit} {x : Handler Unit} (p : CorePanic)
    (hx : r = .ok () → (x.exec s).1 ≠ .error (.panic p)) :
    ((Mrv.Handler.ofExcept Fault.error r >>= fun _ => x).exec s).1 ≠ .error (.panic p) := by
  rw [Handler.exec_bind]
  cases r with
  | ok _ => exact hx rfl
  | error e => exact fun hne => by cases hne

/-- What comes in, votes aside, does not stop the core. -/
theorem Steady.ne_panic {input : Input} (hs : Steady self X r s)
    (hadmits : Moves.Admits self (r.settled self X ∩ self.Located)
      {c | c.header ∈ r.settled self X ∩ self.Located} ∅ (fun _ => True) s input)
    (hown : ∀ x, input ≠ .ownHeader x) (p : CorePanic) :
    ((self.handle input).exec s).1 ≠ .error (.panic p) := by
  have hremembered : ∀ x ∈ r.settled self X, Remembered self x s := fun x hx hround hname =>
    (hs.voted_of_settled hx hname hround).2
  have hheader : ∀ x ∈ r.settled self X ∩ self.Located,
      ((self.processHeader depth x).exec s).1 ≠ .error (.panic p) := fun x hx =>
    (calm_processHeader (addressed_of_located hx.2)).ne_panic (hremembered x hx.1) p
  have hcertificate : ∀ c : Certificate, c.header ∈ r.settled self X ∩ self.Located →
      ((self.processCertificate c).exec s).1 ≠ .error (.panic p) := fun c hc =>
    (calm_processCertificate (addressed_of_located hc.2)).ne_panic (hremembered _ hc.1) p
  cases input with
  | message message =>
      show ((self.handleMessage message).exec s).1 ≠ _
      unfold handleMessage
      rw [Handler.exec_bind, Handler.exec_get]
      cases message with
      | header x => exact checked_ne_panic p fun hok => hheader x (hadmits.2 hok)
      | vote v => exact checked_ne_panic p fun hok => absurd (hadmits.2 hok) (Set.notMem_empty v)
      | certificate c => exact checked_ne_panic p fun hok => hcertificate c (hadmits.2 hok)
  | loopbackHeader x => exact hheader x hadmits.2
  | loopbackCertificate c => exact hcertificate c hadmits.2
  | ownHeader x => exact absurd rfl (hown x)

section

variable (hfit : 2 * self.committee.totalStake < 2 ^ 32) (hhash : Separated self.committee X)
  (hpositive : 0 < self.committee.weight self.name) (hbatch : Crypto.BatchExact)

include hfit hhash hpositive

/-- The core takes a header of ours. -/
theorem Standing.settles_own (hst : Standing self X A es n)
    (hproposed : Proposed self n.core (ownHeaders es) h) (hX : h ∈ X)
    (hA : A self.name h.certified (Crypto.sign self.name h.certified)) :
    Settles self (self.handle (.ownHeader h)) n.core := by
  obtain ⟨s', hexec, _, _, hused, hmarked⟩ := hst.exec_own hfit hhash hpositive hproposed
  have hcurrent : s'.currentHeader = h := by
    have hhandled := hst.handle_own hfit hhash hpositive hproposed hX hA
    rw [hexec] at hhandled
    exact hhandled.current
  obtain ⟨parents, stake, hfind, _, hcheck, hquorum⟩ :=
    hst.upright.supplied.finds hfit hhash (hproposed.sourced hfit hpositive).2
  have hpassed : self.Passed h := ⟨n.core.store, parents, stake, hfind, hcheck, hquorum⟩
  unfold Settles Attended
  rw [hexec, hcurrent]
  refine ⟨fun p hne => ?_, Or.inr ⟨hpassed.round_pos, fun _ => hmarked, hused⟩⟩
  cases hne

omit hfit hhash hpositive in
/-- A vote that completes nothing is only counted. -/
theorem exec_processVote_counted {v : Vote} {r : Except DagError (Option Certificate)}
    (hr : (s.votesAggregator.append v self.committee s.currentHeader).1 = r)
    (hnot : ∀ c, r ≠ .ok (some c)) :
    (∀ p, ((self.processVote v).exec s).1 ≠ .error (.panic p)) ∧
      ((self.processVote v).exec s).2 = self.counted v s := by
  cases r with
  | error e =>
      have hexec : (self.processVote v).exec s = (.error (.error e), self.counted v s) := by
        unfold processVote processVoteWith
        rw [Handler.exec_bind]
        unfold appendVote
        rw [Handler.exec_bind, Handler.exec_modifyGet]
        dsimp only
        rw [hr]
        rfl
      rw [hexec]
      refine ⟨fun p hne => ?_, rfl⟩
      cases hne
  | ok r =>
      cases r with
      | none =>
          have hexec : (self.processVote v).exec s = (.ok (), self.counted v s) := by
            unfold processVote processVoteWith
            rw [Handler.exec_bind, exec_appendVote hr]
            rfl
          rw [hexec]
          refine ⟨fun p hne => ?_, rfl⟩
          cases hne
      | some c => exact absurd rfl (hnot c)

omit hfit hhash hpositive in
/-- Before a header was proposed, a certificate that is completed is accepted. -/
theorem exec_processVote_unproposed {v : Vote} {c : Certificate}
    (hdefault : s.currentHeader = Header.default)
    (hr : (s.votesAggregator.append v self.committee s.currentHeader).1 = .ok (some c)) :
    ∃ s', (self.processVote v).exec s = (.ok (), s') := by
  have hparents : c.header.parents.toList = [] := by
    rw [header_of_append hr, hdefault]
    rfl
  unfold processVote processVoteWith
  rw [Handler.exec_bind, exec_appendVote hr]
  dsimp only
  rw [Handler.exec_bind]
  show ∃ s', ((self.processCertificate c).expect _).exec { self.counted v s with
    network := s.network ++ [(self.others, PrimaryMessage.certificate c)] } = _
  obtain ⟨s', hcertificate⟩ : ∃ s', (self.processCertificate c).exec
      { self.counted v s with
        network := s.network ++ [(self.others, PrimaryMessage.certificate c)] }
        = (.ok (), s') := exec_processCertificate_orphan hparents
  rw [Handler.exec_expect, hcertificate]
  exact ⟨s', rfl⟩

omit hpositive in
/-- A late vote stops the core. -/
theorem Steady.late_stops {v : Vote} {c : Certificate} (hs : Steady self X r s)
    (hfollows : Follows self s)
    (hcurrent : 0 < s.currentHeader.round →
      s.currentHeader ∈ r.taken ∧ s.currentHeader.author = self.name)
    (hr : (s.votesAggregator.append v self.committee s.currentHeader).1 = .ok (some c))
    (hpos : 0 < c.round) (hlt : c.round < s.gcRound) :
    ((self.processVote v).exec s).1 = .error (.panic .ownVote) := by
  have hround : c.round = s.currentHeader.round := congrArg Header.round (header_of_append hr)
  rw [hround] at hpos hlt
  obtain hdefault | ⟨_, ht⟩ := hfollows
  · rw [hdefault] at hpos
    exact absurd hpos (Nat.lt_irrefl 0)
  · obtain ⟨htaken, hname⟩ := hcurrent hpos
    obtain ⟨parents, stake, hfind, hne, hcheck, hquorum⟩ :=
      hs.supplied.finds hfit hhash (hs.sourced _ htaken)
    exact exec_processVote_buried ht hr hlt hname hfind hne hcheck hquorum

omit hfit hhash hpositive in
/-- What was followed still is, where nothing was forgotten. -/
theorem Steady.attended {t : State} (hs : Steady self X r s) (ht : Steady self X r t)
    (hfollows : Follows self s) (hprocessing : t.processing = s.processing)
    (hused : s.votesAggregator.used ⊆ t.votesAggregator.used) : Attended self t := by
  have hsame := ht.current.trans hs.current.symm
  obtain hdefault | ⟨hround, htracked⟩ := hfollows
  · exact Or.inl (hsame.trans hdefault)
  · refine Or.inr ⟨hsame ▸ hround, fun hle => ?_, hused htracked.counted⟩
    rw [hsame, ht.gcRound, ← hs.gcRound] at hle
    have hmarked := htracked.alive hle
    unfold Marked State.inProcess at hmarked ⊢
    rw [hprocessing, hsame]
    exact hmarked

omit hpositive in
/-- The core counts a vote: it stops exactly if the vote is late. -/
theorem Steady.settles_processVote {v : Vote} (hs : Steady self X r s)
    (hfollows : Follows self s)
    (hcurrent : 0 < s.currentHeader.round →
      s.currentHeader ∈ r.taken ∧ s.currentHeader.author = self.name)
    (hhandled : Steady self X r ((self.processVote v).exec s).2) :
    (∀ c, (s.votesAggregator.append v self.committee s.currentHeader).1 = .ok (some c) →
      0 < c.round → c.round < s.gcRound →
        ((self.processVote v).exec s).1 = .error (.panic .ownVote)) ∧
    ((∀ c, (s.votesAggregator.append v self.committee s.currentHeader).1 = .ok (some c) →
      0 < c.round → s.gcRound ≤ c.round) → Settles self (self.processVote v) s) := by
  refine ⟨fun c hr hpos hlt => hs.late_stops hfit hhash hfollows hcurrent hr hpos hlt,
    fun hnot => ?_⟩
  by_cases hcompletes : ∃ c,
      (s.votesAggregator.append v self.committee s.currentHeader).1 = .ok (some c)
  · obtain ⟨c, hr⟩ := hcompletes
    obtain hdefault | ⟨hround, ht⟩ := id hfollows
    · -- no header was proposed yet
      obtain ⟨s', hexec⟩ := exec_processVote_unproposed hdefault hr
      refine ⟨fun p hne => ?_, Or.inl ?_⟩
      · rw [hexec] at hne
        cases hne
      · exact (hhandled.current.trans hs.current.symm).trans hdefault
    · have hround' : c.round = s.currentHeader.round := congrArg Header.round (header_of_append hr)
      have halive : s.gcRound ≤ s.currentHeader.round := hround' ▸ hnot c hr (hround' ▸ hround)
      obtain ⟨htaken, _⟩ := hcurrent hround
      obtain ⟨s', hexec, hprocessing, hused⟩ := exec_processVote_alive ht hr halive
        (hs.hasParents hfit hhash htaken (Header.Same.refl _))
      refine ⟨fun p hne => ?_, hs.attended hhandled hfollows ?_ ?_⟩ <;> rw [hexec] at *
      · cases hne
      · exact hprocessing
      · exact hused
  · obtain ⟨hruns, hstate⟩ := exec_processVote_counted rfl fun c hr => hcompletes ⟨c, hr⟩
    refine ⟨hruns, hs.attended hhandled hfollows ?_ ?_⟩ <;> rw [hstate]
    · rfl
    · exact used_append_subset v

omit hpositive in
/-- The core handles a vote. -/
theorem Undelayed.settles_vote {v : Vote} (hu : Undelayed self X es n)
    (hfollows : Follows self n.core)
    (hcurrent : 0 < n.core.currentHeader.round → n.core.currentHeader ∈ ownHeaders es)
    (hours : ∀ h ∈ ownHeaders es, h.author = self.name) :
    (Late self n.core (.message (.vote v)) →
      ∃ p, ((self.handle (.message (.vote v))).exec n.core).1 = .error (.panic p)) ∧
    (¬ Late self n.core (.message (.vote v)) →
      Settles self (self.handle (.message (.vote v))) n.core) := by
  have hexec : (self.handle (.message (.vote v))).exec n.core
      = (Mrv.Handler.ofExcept Fault.error (self.sanitizeVote n.core v) >>= fun _ =>
          self.processVote v).exec n.core := by
    show (self.handleMessage (.vote v)).exec n.core = _
    unfold handleMessage
    rw [Handler.exec_bind, Handler.exec_get]
  unfold Settles
  rw [hexec]
  cases hok : self.sanitizeVote n.core v with
  | error e =>
      refine ⟨fun hlate => ?_, fun _ => ⟨fun p hne => ?_, hfollows.attended⟩⟩
      · obtain ⟨v', c, heq, hok', _⟩ := hlate
        obtain rfl : v = v' := PrimaryMessage.vote.inj (Primary.Action.message.inj heq)
        rw [hok] at hok'
        cases hok'
      · cases hne
  | ok _ =>
      have hmoves : Moves self _ _ _ (Steady self X (.of es n.core)) :=
        moves_steady hfit hhash hcurrent
      have hhandled := (hmoves.processVote (Set.mem_univ v)).exec hu.steady
      obtain ⟨hlate, hnot⟩ := hu.steady.settles_processVote hfit hhash hfollows
        (fun hpos => ⟨hcurrent hpos, hours _ (hcurrent hpos)⟩) hhandled
      constructor
      · rintro ⟨v', c, heq, _, hr, hpos, hlt⟩
        obtain rfl : v = v' := PrimaryMessage.vote.inj (Primary.Action.message.inj heq)
        exact ⟨_, hlate c hr hpos hlt⟩
      · intro hnotlate
        refine hnot fun c hr hpos => ?_
        by_contra hlt
        exact hnotlate ⟨v, c, rfl, hok, hr, hpos, by omega⟩

omit hpositive in
/-- The core handles another input. -/
theorem Undelayed.settles_other {input : Input} (hu : Undelayed self X es n)
    (hfollows : Follows self n.core) (honly : ∀ x ∈ X, x.Genuine self.committee)
    (hcurrent : 0 < n.core.currentHeader.round → n.core.currentHeader ∈ ownHeaders es)
    (hlocated : LoopedBack self.Located input)
    (hadmits : Moves.Admits self (Records.settled self X (.of es n.core))
      {c | c.header ∈ Records.settled self X (.of es n.core)} Set.univ
      (Steady self X (.of es n.core)) n.core input)
    (hvote : ∀ v, input ≠ .message (.vote v)) (hown : ∀ x, input ≠ .ownHeader x)
    (hours : ∀ h ∈ ownHeaders es, h.author = self.name) :
    Settles self (self.handle input) n.core := by
  have hsettled : Records.settled self X (.of es n.core) ⊆ Records.headers self X (.of es n.core) :=
    Records.settled_subset fun _ => id
  refine ⟨hu.steady.ne_panic ?_ hown, ?_⟩
  · cases input with
    | message message =>
        cases message with
        | header x =>
            refine ⟨trivial, fun hok => ⟨hadmits.2 hok, located_of_verified (Or.inl ?_)⟩⟩
            unfold sanitizeHeader at hok
            exact (ensure_bind_eq_ok.mp hok).2
        | vote v => exact absurd rfl (hvote v)
        | certificate c =>
            exact ⟨trivial, fun hok =>
              ⟨hadmits.2 hok, located_of_verified (verified_or_zero hok)⟩⟩
    | loopbackHeader x => exact ⟨trivial, hadmits.2, hlocated⟩
    | loopbackCertificate c => exact ⟨trivial, hadmits.2, hlocated⟩
    | ownHeader x => exact absurd rfl (hown x)
  · have hmoves : Moves self _ _ _ (Steady self X (.of es n.core)) :=
      moves_steady hfit hhash hcurrent
    obtain hdefault | ⟨hround, ht⟩ := hfollows
    · have hhandled := hmoves.handle (hadmits.mono hsettled
        (fun _ hc => hsettled hc) (Set.Subset.refl _) fun _ => id)
      exact Or.inl (hhandled.current.trans hdefault)
    · have htaken := hcurrent hround
      have hboth := (moves_tracked hfit hhash honly (fun _ => id) htaken (hours _ htaken)
        hround).handle (hadmits.aside (V := ∅) ⟨hu.steady, ht⟩ hvote hown)
      have hsame := hboth.1.current
      exact Follows.attended (Or.inr ⟨hsame ▸ hround, hboth.2⟩)

omit hfit hhash in
/-- Headers of the proposer are ours. -/
theorem Proposes.author (hproposes : Proposes self es) (hfit : 2 * self.committee.totalStake < 2 ^ 32) :
    ∀ h ∈ ownHeaders es, h.author = self.name := by
  induction es with
  | nil => exact fun h hh => absurd hh List.not_mem_nil
  | cons e es ih =>
      obtain ⟨m, a⟩ := e
      intro h hh
      obtain ⟨m', hmem⟩ := mem_ownHeaders.mp hh
      obtain heq | hmem := List.mem_cons.mp hmem
      · obtain ⟨rfl, rfl⟩ := Prod.mk.inj heq
        exact ((hproposes.2 h rfl).sourced hfit hpositive).1
      · exact ih hproposes.1 h (mem_ownHeaders.mpr ⟨m', hmem⟩)

/-- One step: the core stops exactly if a vote is late. -/
theorem Standing.settles {a : Primary.Action} {input : Input} {n₀ : Primary}
    (hunambiguous : Unambiguous {x | x ∈ X ∧ x.author = self.name})
    (hst : Standing self X A es n) (hu : Undelayed self X es n) (hfollows : Follows self n.core)
    (hlocated : Primary.InFlight self.Located n) (hin : Incoming self X ((n, a) :: es))
    (hproposes : Proposes self ((n, a) :: es)) (hrec : Recognises self ((n, a) :: es))
    (hvouch : Vouched self A ((n, a) :: es)) (hinput : n.input a = some (input, n₀)) :
    (Late self n.core a → ∃ p, ((self.handle input).exec n.core).1 = .error (.panic p)) ∧
    (¬ Late self n.core a → Settles self (self.handle input) n.core) := by
  have hours := hproposes.1.author hpositive hfit
  have hback := (hlocated.input hinput).2
  -- whatever is neither a vote nor a header of ours
  have hother : (∀ v, a ≠ .message (.vote v)) → (∀ v, input ≠ .message (.vote v)) →
      (∀ x, input ≠ .ownHeader x) →
      (Late self n.core a → ∃ p, ((self.handle input).exec n.core).1 = .error (.panic p)) ∧
        (¬ Late self n.core a → Settles self (self.handle input) n.core) := by
    intro hlabel hvote hown
    have hadmits := hu.admits hhash hunambiguous hin hst.incoming hrec hinput fun x hx =>
      absurd hx (hown x)
    refine ⟨fun ⟨v, _, heq, _⟩ => absurd heq (hlabel v), fun _ => ?_⟩
    exact hu.settles_other hfit hhash hfollows hin.only hst.current hback hadmits hvote hown hours
  cases Primary.feeds_of_input hinput with
  | ownHeader x =>
      refine ⟨fun ⟨v, c, heq, _⟩ => Primary.Action.noConfusion heq, fun _ => ?_⟩
      exact hst.settles_own hfit hhash hpositive (hproposes.2 x rfl)
        (hin.own n x List.mem_cons_self).1 (hvouch.own x List.mem_cons_self)
  | message message =>
      cases message with
      | vote v => exact hu.settles_vote hfit hhash hfollows hst.current hours
      | header x =>
          exact hother (fun v heq => by cases heq) (fun v heq => by cases heq)
            (fun y heq => by cases heq)
      | certificate c =>
          exact hother (fun v heq => by cases heq) (fun v heq => by cases heq)
            (fun y heq => by cases heq)
  | loopbackHeader x rest hrx =>
      exact hother (fun v heq => by cases heq) (fun v heq => by cases heq)
        (fun y heq => by cases heq)
  | loopbackCertificate c rest hrx =>
      exact hother (fun v heq => by cases heq) (fun v heq => by cases heq)
        (fun y heq => by cases heq)

omit hfit hhash hpositive [Crypto] in
/-- What an iteration of the main loop leaves. -/
theorem Settles.iterate [Crypto] {input : Input} {round : ℕ}
    (h : Settles self (self.handle input) s)
    (hgc : ((self.handle input).exec s).2.gcRound ≤ round - self.gcDepth) :
    (self.iterate round input s).2 = none ∧ Follows self (self.iterate round input s).1 := by
  obtain ⟨hcalm, hattended⟩ := h
  unfold Core.iterate
  split
  · next p s' heq =>
    rw [heq] at hcalm
    exact absurd rfl (hcalm p)
  · next r s' hne heq =>
    rw [heq] at hattended hgc
    exact ⟨rfl, hattended.cleanup hgc⟩

omit hfit hhash hpositive [Crypto] in
/-- The main loop stops where a handler panics. -/
theorem iterate_of_panic [Crypto] {input : Input} {round : ℕ} {p : CorePanic}
    (hp : ((self.handle input).exec s).1 = .error (.panic p)) :
    (self.iterate round input s).2 = some p := by
  unfold Core.iterate
  rcases hexec : (self.handle input).exec s with ⟨r, s'⟩
  rw [hexec] at hp
  cases hp
  rfl

omit hfit hhash hpositive [Crypto] in
/-- A vote was late if the last one is, or one before. -/
theorem exists_late_cons [Crypto] {m : Primary} {a : Primary.Action} :
    (∃ m' b, (m', b) ∈ (m, a) :: es ∧ self.Late m'.core b) ↔
      self.Late m.core a ∨ ∃ m' b, (m', b) ∈ es ∧ self.Late m'.core b := by
  simp only [List.mem_cons, Prod.mk.injEq]
  constructor
  · rintro ⟨m', b, ⟨rfl, rfl⟩ | hmem, hlate⟩
    · exact Or.inl hlate
    · exact Or.inr ⟨m', b, hmem, hlate⟩
  · rintro (hlate | ⟨m', b, hmem, hlate⟩)
    · exact ⟨m, a, Or.inl ⟨rfl, rfl⟩, hlate⟩
    · exact ⟨m', b, Or.inr hmem, hlate⟩

omit hfit hhash hpositive [Crypto] in
/-- The core follows its header while others work. -/
theorem Follows.aside [Crypto] (h : Follows self s) (haside : Aside s s') : Follows self s' := by
  obtain hdefault | ⟨hround, ht⟩ := h
  · exact Or.inl (haside.currentHeader.trans hdefault)
  · refine Or.inr ⟨haside.currentHeader ▸ hround, ht.of_eq haside.gcRound haside.currentHeader
      haside.processing haside.lastVoted ?_⟩
    rw [haside.votesAggregator]

include hbatch

/-- While the core runs it follows its current header, and it stopped exactly if a vote was
late. -/
theorem Run.follows (hunambiguous : Unambiguous {x | x ∈ X ∧ x.author = self.name})
    (hrun : self.Run es n) (hin : Incoming self X es) (hproposes : Proposes self es)
    (hrec : Recognises self es) :
    (n.panic = none → Follows self n.core) ∧
      (n.panic ≠ none ↔ ∃ m a, (m, a) ∈ es ∧ self.Late m.core a) := by
  refine System.Run.invariant (P := fun es n => Incoming self X es → Proposes self es →
    Recognises self es → (n.panic = none → Follows self n.core) ∧
      (n.panic ≠ none ↔ ∃ m a, (m, a) ∈ es ∧ self.Late m.core a)) ?_ ?_ hrun hin hproposes hrec
  · exact fun _ _ _ => ⟨fun _ => Or.inl rfl,
      iff_of_false (fun hne => hne rfl) fun ⟨m, a, hmem, _⟩ => List.not_mem_nil hmem⟩
  · intro es n a n' hrun ih hnext hin hproposes hrec
    obtain ⟨hfollows, hiff⟩ := ih hin.tail hproposes.1 hrec.1
    have hst := Run.standing hfit hhash hpositive hbatch hrun hin.tail hproposes.1 hrec.1
      (vouched_true es)
    have hu := Run.steady hfit hhash hpositive hbatch hunambiguous hrun hin.tail hproposes.1 hrec.1
    have hlocated := Run.located hrun fun m h hmem => located_of_weight (by
      rw [hproposes.1.author hpositive hfit h (mem_ownHeaders.mpr ⟨m, hmem⟩)]
      exact hpositive)
    obtain ⟨input, n₀, hinput, hpanic, rfl⟩ | hbackground := next_cases hnext
    · obtain ⟨hcore₀, hround₀⟩ := Primary.of_input hinput
      obtain ⟨hlate, hnot⟩ := hst.settles hfit hhash hpositive hunambiguous hu (hfollows hpanic)
        hlocated hin hproposes hrec (vouched_true _) hinput
      have hquiet : ¬ ∃ m b, (m, b) ∈ es ∧ self.Late m.core b := fun h => hiff.mpr h hpanic
      rw [exists_late_cons, or_iff_left hquiet]
      show ((self.iterate n₀.consensusRound input n₀.core).2 = none →
          Follows self (self.iterate n₀.consensusRound input n₀.core).1) ∧
        ((self.iterate n₀.consensusRound input n₀.core).2 ≠ none ↔ _)
      rw [hcore₀, hround₀]
      by_cases h : self.Late n.core a
      · obtain ⟨p, hp⟩ := hlate h
        rw [iterate_of_panic hp]
        exact ⟨fun hne => absurd hne (Option.some_ne_none p),
          iff_of_true (Option.some_ne_none p) h⟩
      · have hgc : ((self.handle input).exec n.core).2.gcRound ≤ n.consensusRound - self.gcDepth := by
          rw [((growing_handle input).grows n.core).gcRound]
          exact Run.gcRound_le hrun
        obtain ⟨hnone, hfollows'⟩ := (hnot h).iterate hgc
        exact ⟨fun _ => hfollows', iff_of_false (fun hne => hne hnone) h⟩
    · have hpanic : n'.panic = n.panic := by
        cases Primary.works_of_background hbackground <;> rfl
      have hnot : ¬ self.Late n.core a := by
        rintro ⟨v, c, rfl, _⟩
        cases hbackground
      rw [exists_late_cons, or_iff_right hnot, hpanic]
      exact ⟨fun hnone => (hfollows hnone).aside (Primary.aside_of_background hbackground), hiff⟩

end

/-- **When the core stops**: in a run of a primary whose headers come from its proposer,
whatever the other authorities send, the core panicked exactly if it counted a vote that
completed the quorum for a header of ours whose round was already collected, as long as
nobody finds another header with the id of one of ours. -/
theorem panics_iff (hfit : 2 * self.committee.totalStake < 2 ^ 32)
    (hhash : Hashing self.committee X) (hpositive : 0 < self.committee.weight self.name)
    (hbatch : Crypto.BatchExact)
    (hunambiguous : Unambiguous {x | x ∈ X ∧ x.author = self.name})
    (hrun : self.Run es n) (hin : Incoming self X es) (hproposes : Proposes self es)
    (hrec : Recognises self es) :
    n.panic ≠ none ↔ ∃ m a, (m, a) ∈ es ∧ self.Late m.core a :=
  (Run.follows hfit (hhash.separated hin.only) hpositive hbatch hunambiguous hrun hin hproposes
    hrec).2

/-- The header of round 1 is collected before two others vote for it; a header that is refused
and a certificate of another authority come in too. -/
def sampleLate : List Primary.Action :=
  letI := sampleHash
  [.ownHeader sampleOwn, .message (.header sampleMimic),
    .message (.certificate (sampleOtherCertificate 0)), .committed (sampleCore.gcDepth + 10),
    .message (.vote (Vote.new sampleOwn (sampleKey 0))),
    .message (.vote (Vote.new sampleOwn (sampleKey 1)))]

omit [Crypto] in
set_option maxRecDepth 10000 in
theorem foreign_sampleLate :
    letI := sampleHash
    sampleLate.tail.all (foreignTo sampleCore sampleHeaders) = true := by
  decide +kernel

omit [Crypto] in
theorem unambiguous_sampleHeaders :
    letI := sampleHash
    Unambiguous {x | x ∈ {y | y ∈ sampleHeaders} ∧ x.author = sampleCore.name} := by
  let _ := sampleHash
  intro x hx y hy hxd hyd _
  rw [batches_sampleHeaders x hx.1 hxd, batches_sampleHeaders y hy.1 hyd]

omit [Crypto] in
/-- The second vote stops the core. -/
theorem panics_iff_sample :
    letI := sampleHash
    ∃ es n, sampleCore.Run es n ∧ n.panic ≠ none ∧
      ∃ m a, (m, a) ∈ es ∧ sampleCore.Late m.core a := by
  let _ := sampleHash
  obtain ⟨es, n, hrun, hlabels, hcheck⟩ := System.exec_check_labels sampleCore.system sampleLate
    (fun n => n.panic.isSome) (by decide +kernel)
  obtain ⟨hin, hproposes, hrec⟩ := sampleProposal_hypotheses foreign_sampleLate hlabels
  have hpanic : n.panic ≠ none := Option.isSome_iff_ne_none.mp hcheck
  exact ⟨es, n, hrun, hpanic, (panics_iff (by decide) hashing_sampleHeaders (by decide)
    batchExact_sampleHash unambiguous_sampleHeaders hrun hin hproposes hrec).mp hpanic⟩

end Core

end Mrv
