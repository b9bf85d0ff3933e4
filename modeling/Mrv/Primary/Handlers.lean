/-
  Mrv.Primary.Handlers — the rule of invariants for the handlers of the core.

  Most steps of the handlers are bookkeeping: they mark a header as being
  processed, count votes, pass a suspended header to a waiter, send a message.
  `Quiet` says what such a step may change.  A property that no bookkeeping
  touches has to be looked at in three places only, where a header is stored,
  where a vote is made and where a certificate is accepted.  `Invariant` names
  the three, and its lemmas carry the property through all handlers, however they
  are nested.

  The rule has two properties: `I` holds until a certificate is accepted and `K`
  from then on.  Between the checks on a header and the vote, and between the
  checks and the acceptance of a certificate, it hands on what was checked.

  `processHeader_depth` says that the bound on the nesting does not matter.
-/
import Mrv.Primary.Core

namespace Mrv

variable [Crypto]

namespace Core

open Mrv.Handler (Triple Keeps)

/-! ## §1. Bookkeeping. -/

/-- What bookkeeping may change, the headers it passes on being in `H`. -/
structure Quiet (H : Set Header) (s s' : State) : Prop where
  cast : s'.cast = s.cast
  lastVoted : s'.lastVoted = s.lastVoted
  gcRound : s'.gcRound = s.gcRound
  currentHeader : s'.currentHeader = s.currentHeader
  store : s'.store = s.store
  txConsensus : s'.txConsensus = s.txConsensus
  used : s.votesAggregator.used ⊆ s'.votesAggregator.used
  txHeaderWaiter : ∀ m ∈ s'.txHeaderWaiter, m ∈ s.txHeaderWaiter ∨ m.header ∈ H
  txCertificateWaiter : ∀ c ∈ s'.txCertificateWaiter, c ∈ s.txCertificateWaiter ∨ c.header ∈ H

/-- A property of the core that bookkeeping does not touch. -/
def Stable (H : Set Header) (P : State → Prop) : Prop := ∀ s s', Quiet H s s' → P s → P s'

variable {self : Core} {H : Set Header} {P : State → Prop} {header : Header}
  {certificate : Certificate} {vote : Vote}

omit [Crypto] in
/-- An update of the fields that no property here mentions. -/
theorem Quiet.of_eq {s s' : State} (hcast : s'.cast = s.cast)
    (hlast : s'.lastVoted = s.lastVoted) (hgc : s'.gcRound = s.gcRound)
    (hcurrent : s'.currentHeader = s.currentHeader) (hstore : s'.store = s.store)
    (hconsensus : s'.txConsensus = s.txConsensus)
    (hused : s.votesAggregator.used ⊆ s'.votesAggregator.used)
    (hheaders : s'.txHeaderWaiter = s.txHeaderWaiter)
    (hcertificates : s'.txCertificateWaiter = s.txCertificateWaiter) : Quiet H s s' :=
  ⟨hcast, hlast, hgc, hcurrent, hstore, hconsensus, hused,
    fun m hm => Or.inl (by rw [← hheaders]; exact hm),
    fun c hc => Or.inl (by rw [← hcertificates]; exact hc)⟩

omit [Crypto] in
theorem Stable.and {Q : State → Prop} (hP : Stable H P) (hQ : Stable H Q) :
    Stable H (fun s => P s ∧ Q s) :=
  fun s s' hquiet h => ⟨hP s s' hquiet h.1, hQ s s' hquiet h.2⟩

omit [Crypto] in
/-- A property of the store alone. -/
theorem Stable.of_store (Q : Store → Prop) : Stable H (fun s => Q s.store) := by
  intro s s' hquiet h
  rw [hquiet.store]
  exact h

omit [Crypto] in
theorem keeps_markProcessing (hP : Stable H P) : Keeps P (markProcessing header) :=
  Triple.modify fun s hs =>
    hP s _ (.of_eq rfl rfl rfl rfl rfl rfl (Finset.Subset.refl _) rfl rfl) hs

omit [Crypto] in
theorem keeps_send (hP : Stable H P) (addresses : List SocketAddr) (message : PrimaryMessage) :
    Keeps P (send addresses message) :=
  Triple.modify fun s hs =>
    hP s _ (.of_eq rfl rfl rfl rfl rfl rfl (Finset.Subset.refl _) rfl rfl) hs

omit [Crypto] in
/-- Sending to the proposer does not fail. -/
theorem sendProposer_spec {E : Fault → State → Prop} (hP : Stable H P) (round : ℕ)
    (quorum : Option (List Digest)) :
    Triple P (sendProposer round quorum) (fun _ s => P s) E := by
  cases quorum with
  | none => exact Triple.pure fun _ hs => hs
  | some parents =>
      exact Triple.modify fun s hs =>
        hP s _ (.of_eq rfl rfl rfl rfl rfl rfl (Finset.Subset.refl _) rfl rfl) hs

/-- Counting a certificate does not fail. -/
theorem appendCertificate_spec {E : Fault → State → Prop} (hP : Stable H P) :
    Triple P (self.appendCertificate certificate) (fun _ s => P s) E :=
  Triple.modifyGet fun s hs =>
    hP s _ (.of_eq rfl rfl rfl rfl rfl rfl (Finset.Subset.refl _) rfl rfl) hs

omit [Crypto] in
theorem keeps_syncHeader (hP : Stable H P) {message : WaiterMessage} (hm : message.header ∈ H) :
    Keeps P (syncHeader message) := by
  refine Triple.modify fun s hs => hP s _ ?_ hs
  refine ⟨rfl, rfl, rfl, rfl, rfl, rfl, Finset.Subset.refl _, ?_, fun _ => Or.inl⟩
  intro m hmem
  obtain hold | hnew := List.mem_append.mp hmem
  · exact Or.inl hold
  · rw [List.mem_singleton.mp hnew]
    exact Or.inr hm

/-! ## §2. What the checks establish. -/

/-- All parents of a header are genesis or in the store. -/
def HasParents (self : Core) (store : Store) (header : Header) : Prop :=
  ∀ p ∈ header.parents.toList, self.hasParent store p = true

/-- The parents of a header are there and pass the checks of `process_header`. -/
def Passes (self : Core) (store : Store) (header : Header) : Prop :=
  ∃ parents stake, self.findParents store header.parents.toList = .ok (parents, []) ∧
    self.checkParents header parents 0 = .ok stake ∧ self.committee.quorumThreshold ≤ stake

/-- The payload of a header is there, or not our workers' to fetch. -/
def HasPayload (self : Core) (store : Store) (header : Header) : Prop :=
  header.author = self.name ∨ missingBatches store header = []

/-- **One turn of the loop of `get_parents`**: the parent is genesis, stored or missing. -/
theorem findParents_cons {store : Store} {digest : Digest} {digests missing : List Digest}
    {parents : List Certificate}
    (h : self.findParents store (digest :: digests) = .ok (parents, missing)) :
    ∃ ps ms, self.findParents store digests = .ok (ps, ms) ∧
      ((∃ e, self.genesis.find? (fun x => decide (x.1 = digest)) = some e ∧
          parents = e.2 :: ps ∧ missing = ms) ∨
        (∃ record certificate, store.lookup digest.toVec = some record ∧
          record.toCertificate = .ok certificate ∧ parents = certificate :: ps ∧ missing = ms) ∨
        (self.genesis.find? (fun x => decide (x.1 = digest)) = none ∧
          store.lookup digest.toVec = none ∧ parents = ps ∧ missing = digest :: ms)) := by
  unfold findParents at h
  split at h
  · next e genesis hgenesis =>
    obtain ⟨⟨ps, ms⟩, hrest, hpure⟩ := bind_eq_ok.mp h
    obtain ⟨rfl, rfl⟩ := Prod.mk.inj (Except.ok.inj hpure)
    exact ⟨ps, _, hrest, Or.inl ⟨_, hgenesis, rfl, rfl⟩⟩
  · next hgenesis =>
    split at h
    · next record hlookup =>
      obtain ⟨certificate, hrecord, h⟩ := bind_eq_ok.mp h
      obtain ⟨⟨ps, ms⟩, hrest, hpure⟩ := bind_eq_ok.mp h
      obtain ⟨rfl, rfl⟩ := Prod.mk.inj (Except.ok.inj hpure)
      exact ⟨ps, _, hrest, Or.inr (Or.inl ⟨record, certificate, hlookup, hrecord, rfl, rfl⟩)⟩
    · next hlookup =>
      obtain ⟨⟨ps, ms⟩, hrest, hpure⟩ := bind_eq_ok.mp h
      obtain ⟨rfl, rfl⟩ := Prod.mk.inj (Except.ok.inj hpure)
      exact ⟨_, ms, hrest, Or.inr (Or.inr ⟨hgenesis, hlookup, rfl, rfl⟩)⟩

/-- The parents that `get_parents` finds, and those it misses, are those of the list. -/
theorem findParents_eq_ok {store : Store} {digests missing : List Digest}
    {parents : List Certificate} (h : self.findParents store digests = .ok (parents, missing)) :
    parents.length + missing.length = digests.length ∧
      ∀ p ∈ missing, p ∈ digests ∧ self.hasParent store p = false := by
  induction digests generalizing parents missing with
  | nil =>
      simp only [findParents, Except.ok.injEq, Prod.mk.injEq] at h
      obtain ⟨rfl, rfl⟩ := h
      simp
  | cons digest digests ih =>
      obtain ⟨ps, ms, hrest, hcases⟩ := findParents_cons h
      obtain ⟨hlength, hmissing⟩ := ih hrest
      have hlater : ∀ p ∈ ms, p ∈ digest :: digests ∧ self.hasParent store p = false :=
        fun p hp => ⟨List.mem_cons_of_mem _ (hmissing p hp).1, (hmissing p hp).2⟩
      simp only [List.length_cons]
      obtain ⟨e, _, rfl, rfl⟩ | ⟨record, certificate, _, _, rfl, rfl⟩ |
        ⟨hgenesis, hlookup, rfl, rfl⟩ := hcases
      · refine ⟨?_, hlater⟩
        rw [List.length_cons]
        omega
      · refine ⟨?_, hlater⟩
        rw [List.length_cons]
        omega
      · -- the first one is missing
        refine ⟨by rw [List.length_cons]; omega, List.forall_mem_cons.mpr ⟨?_, hlater⟩⟩
        refine ⟨List.mem_cons_self, ?_⟩
        have hnone : self.genesis.any (fun x => decide (x.1 = digest)) = false := by
          rw [List.any_eq_false]
          intro x hx
          exact List.find?_eq_none.mp hgenesis x hx
        simp [hasParent, hnone, hlookup]

/-- **The parents of a header**: those found, if none is missing; and without parents
the header has none, or one is missing. -/
theorem getParents_spec (hP : Stable H P) (hh : header ∈ H) :
    Triple P (self.getParents header)
      (fun parents s => P s ∧
        (parents = [] → header.parents.toList = [] ∨ ¬ self.HasParents s.store header) ∧
        (parents ≠ [] → self.findParents s.store header.parents.toList = .ok (parents, [])))
      (fun _ s => P s) := by
  unfold getParents
  refine Triple.bind (Triple.get (Q := fun s t => P t ∧ s = t) fun s hs => ⟨hs, rfl⟩) ?_
  intro s
  refine Triple.bind (Q := fun r t => (P t ∧ s = t) ∧
      self.findParents s.store header.parents.toList = .ok r)
    (Triple.ofExcept (fun r hr t ht => ⟨ht, hr⟩) (fun _ t ht => ht.1)) ?_
  intro r
  obtain ⟨parents, missing⟩ := r
  refine Triple.ite (fun hmissing => Triple.pure fun t ht => ?_) (fun hmissing => ?_)
  · obtain ⟨⟨hPt, rfl⟩, hfind⟩ := ht
    rw [hmissing] at hfind
    refine ⟨hPt, fun hnil => Or.inl ?_, fun _ => hfind⟩
    have hlength := (findParents_eq_ok hfind).1
    rw [hnil] at hlength
    exact List.eq_nil_of_length_eq_zero hlength.symm
  · -- a missing parent stays missing while the header is passed to the waiter
    have hsync : Stable H (fun t => P t ∧ ¬ self.HasParents t.store header) :=
      hP.and (Stable.of_store fun store => ¬ self.HasParents store header)
    have hkeeps : Keeps _ (syncHeader (.syncParents missing header)) := keeps_syncHeader hsync hh
    refine Triple.bind (hkeeps.conseq (fun t ht => ?_) (fun _ _ => id)
      (fun _ t ht => ht.1)) fun _ => ?_
    · obtain ⟨⟨hPt, rfl⟩, hfind⟩ := ht
      obtain ⟨p, hp⟩ := List.exists_mem_of_ne_nil missing hmissing
      obtain ⟨hmem, habsent⟩ := (findParents_eq_ok hfind).2 p hp
      refine ⟨hPt, fun hall => ?_⟩
      have hpresent := hall p hmem
      rw [habsent] at hpresent
      exact Bool.false_ne_true hpresent
    · exact Triple.pure fun t ht => ⟨ht.1, fun _ => Or.inr ht.2, fun h => absurd rfl h⟩

omit [Crypto] in
theorem missingPayload_spec (hP : Stable H P) (hh : header ∈ H) :
    Triple P (self.missingPayload header)
      (fun missing s => P s ∧ (missing = false → self.HasPayload s.store header))
      (fun _ s => P s) := by
  unfold missingPayload
  refine Triple.ite (fun hname => Triple.pure fun s hs => ⟨hs, fun _ => Or.inl hname⟩) fun _ => ?_
  refine Triple.bind (Triple.get (Q := fun s t => P t ∧ s = t) fun s hs => ⟨hs, rfl⟩) ?_
  intro s
  refine Triple.ite (fun hnone => Triple.pure fun t ht => ⟨ht.1, fun _ => Or.inr ?_⟩) fun _ => ?_
  · rw [← ht.2]
    exact hnone
  · have hsync : Keeps P (syncHeader (.syncBatches (missingBatches s.store header) header)) :=
      keeps_syncHeader hP hh
    refine Triple.bind (hsync.conseq (fun t ht => ht.1) (fun _ _ => id) (fun _ _ => id)) fun _ => ?_
    exact Triple.pure fun t ht => ⟨ht, fun h => absurd h.symm Bool.false_ne_true⟩

/-- A certificate is delivered when its parents are there. -/
theorem deliverCertificate_spec (hP : Stable H P) (hc : certificate.header ∈ H) :
    Triple P (self.deliverCertificate certificate)
      (fun delivered s => P s ∧ (delivered = true → self.HasParents s.store certificate.header))
      (fun _ s => P s) := by
  unfold deliverCertificate
  refine Triple.bind (Triple.get (Q := fun s t => P t ∧ s = t) fun s hs => ⟨hs, rfl⟩) ?_
  intro s
  refine Triple.ite (fun hall => Triple.pure fun t ht => ⟨ht.1, fun _ => ?_⟩) (fun _ => ?_)
  · rw [← ht.2]
    exact List.all_eq_true.mp hall
  · refine Triple.bind (Q := fun _ t => P t) (Triple.modify fun t ht => hP t _ ?_ ht.1) ?_
    · refine ⟨rfl, rfl, rfl, rfl, rfl, rfl, Finset.Subset.refl _, fun _ => Or.inl, ?_⟩
      intro c hmem
      obtain hold | hnew := List.mem_append.mp hmem
      · exact Or.inl hold
      · rw [List.mem_singleton.mp hnew]
        exact Or.inr hc
    · intro _
      exact Triple.pure fun t ht => ⟨ht, fun h => absurd h Bool.false_ne_true⟩

omit [Crypto] in
/-- What an aggregator returns is a certificate of the header it is given, and it
remembers all it used before. -/
theorem VotesAggregator.append_spec (a : VotesAggregator) (vote : Vote) (committee : Committee)
    (header : Header) :
    a.used ⊆ (a.append vote committee header).2.used ∧
      ∀ r, (a.append vote committee header).1 = .ok r →
        vote.author ∈ (a.append vote committee header).2.used ∧
          ∀ c, r = some c → c.header = header := by
  unfold Mrv.VotesAggregator.append
  by_cases hused : vote.author ∈ a.used
  · simp [hused]
  · rw [if_neg hused]
    dsimp only
    refine ⟨?_, ?_⟩
    · split <;> exact Finset.subset_insert _ _
    · intro r hr
      split at hr
      · next hq =>
        rw [if_pos hq]
        refine ⟨Finset.mem_insert_self _ _, fun c hc => ?_⟩
        rw [← Except.ok.inj hr] at hc
        rw [← Option.some.inj hc]
      · next hq =>
        rw [if_neg hq]
        refine ⟨Finset.mem_insert_self _ _, fun c hc => ?_⟩
        rw [← Except.ok.inj hr] at hc
        exact absurd hc.symm (Option.some_ne_none c)

omit [Crypto] in
/-- A certificate assembled from votes is one of the current header; its last vote
stays with the aggregator. -/
theorem appendVote_spec (hP : Stable H P) :
    Triple P (self.appendVote vote)
      (fun r s => P s ∧ vote.author ∈ s.votesAggregator.used ∧
        ∀ c, r = some c → c.header = s.currentHeader)
      (fun _ s => P s) := by
  unfold appendVote
  refine Triple.bind (Q := fun result s => P s ∧ ∀ r, result = .ok r →
    vote.author ∈ s.votesAggregator.used ∧ ∀ c, r = some c → c.header = s.currentHeader) ?_ ?_
  · refine Triple.modifyGet fun s hs => ?_
    obtain ⟨hused, hok⟩ :=
      VotesAggregator.append_spec s.votesAggregator vote self.committee s.currentHeader
    exact ⟨hP s _ (.of_eq rfl rfl rfl rfl rfl rfl hused rfl rfl) hs, hok⟩
  · intro result
    exact Triple.ofExcept (fun r hr s hs => ⟨hs.1, hs.2 r hr⟩) (fun _ s hs => hs.1)

/-! ## §3. The rule of invariants. -/

/-- What a property needs in order to be kept by every handler whose headers are in
`H`, besides not being touched by bookkeeping.  `Good` is what has to be known of a
header before its certificate may be accepted, `Ready` what is known when its vote is
made. -/
structure Invariant (core : Core) (H : Set Header) (Good : Header → Prop)
    (Ready : Header → State → Prop) (I K : State → Prop) : Prop where
  stable : Stable H I
  stable_after : Stable H K
  stable_ready : ∀ h, Stable H (Ready h)
  after : ∀ s, I s → K s
  current : ∀ s, I s → s.currentHeader ∈ H ∧
    (core.HasParents s.store s.currentHeader → Good s.currentHeader)
  /-- A header without parents is never refused. -/
  orphan : ∀ h, h.parents.toList = [] → Good h
  /-- A header that passes the checks. -/
  passed : ∀ h ∈ H, ∀ s, I s → core.Passes s.store h →
    Good h ∧ (core.HasPayload s.store h → Ready h s)
  /-- Storing a header. -/
  header : ∀ h ∈ H, Triple (fun s => I s ∧ Ready h s) (write h.id.toVec (.header h))
    (fun _ s => I s ∧ Ready h s) (fun _ s => K s)
  /-- Taking the vote of a slot and, if it was there to be taken, voting. -/
  vote : ∀ h ∈ H, Triple (fun s => I s ∧ Ready h s) (takeVote h)
    (fun fresh s => I s ∧
      (fresh = true → I { s with cast := s.cast ++ [core.castNow h s] }))
    (fun _ s => K s)
  /-- Accepting a certificate whose parents are there. -/
  accept : ∀ c, c.header ∈ H → Good c.header →
    Triple (fun s => K s ∧ core.HasParents s.store c.header) (core.acceptCertificate c)
      (fun _ s => K s) (fun _ s => K s)

/-- A header that is marked as being processed, and has its parents, is good. -/
def MarkedGood (self : Core) (Good : Header → Prop) (header : Header) (s : State) : Prop :=
  header.id ∈ s.inProcess header.round → self.HasParents s.store header → Good header

/-- A header that comes back to the core is one of a set. -/
def LoopedBack (H : Set Header) : Input → Prop
  | .loopbackHeader header => header ∈ H
  | .loopbackCertificate certificate => certificate.header ∈ H
  | _ => True

namespace Invariant

variable {Good : Header → Prop} {Ready : Header → State → Prop} {I K : State → Prop}
  (h : Invariant self H Good Ready I K)

include h

theorem voteWith {processVote : Vote → Handler Unit}
    (hvote : ∀ v, Triple I (processVote v) (fun _ s => K s) (fun _ s => K s)) (hh : header ∈ H) :
    Triple (fun s => I s ∧ Ready header s) (self.voteWith processVote header)
      (fun _ s => K s) (fun _ s => K s) := by
  unfold Core.voteWith
  refine Triple.bind (h.vote header hh) ?_
  intro fresh
  refine Triple.ite (fun hfresh => ?_) (fun _ => Triple.pure fun s hs => h.after s hs.1)
  refine Triple.bind (Q := fun _ s => I s) (Triple.modifyGet fun s hs => hs.2 hfresh) ?_
  intro vote
  refine Triple.ite (fun _ => Triple.expect (hvote vote)) (fun _ => ?_)
  unfold sendVote
  split
  · exact (keeps_send h.stable_after _ _).conseq h.after (fun _ _ => id) (fun _ _ => id)
  · exact Triple.throw h.after

/-- After a header was processed its certificate may be accepted, if its parents are
there. -/
theorem processHeaderWith {processVote : Vote → Handler Unit}
    (hvote : ∀ v, Triple I (processVote v) (fun _ s => K s) (fun _ s => K s)) (hh : header ∈ H) :
    Triple I (self.processHeaderWith processVote header)
      (fun _ s => K s ∧ (self.HasParents s.store header → Good header)) (fun _ s => K s) := by
  unfold Core.processHeaderWith
  refine Triple.bind ((keeps_markProcessing h.stable).conseq (fun _ => id) (fun _ _ => id)
    (fun _ => h.after)) fun _ => ?_
  refine Triple.bind ((getParents_spec h.stable hh).conseq (fun _ => id) (fun _ _ => id)
    (fun _ => h.after)) fun parents => ?_
  refine Triple.ite (fun hnil => Triple.pure fun s hs => ⟨h.after s hs.1, ?_⟩) fun hnil => ?_
  · -- suspended: there is nothing to check, or a parent is missing
    obtain hnone | hmissing := hs.2.1 hnil
    · exact fun _ => h.orphan header hnone
    · exact fun hall => absurd hall hmissing
  refine Triple.bind (Q := fun stake s => (I s ∧
      self.findParents s.store header.parents.toList = .ok (parents, [])) ∧
      self.checkParents header parents 0 = .ok stake)
    (Triple.ofExcept (fun _ hr s hs => ⟨⟨hs.1, hs.2.2 hnil⟩, hr⟩) fun _ s hs => h.after s hs.1)
    fun stake => ?_
  refine Triple.bind (Q := fun _ s => I s ∧ self.Passes s.store header)
    (Triple.ofExcept (fun _ hr s hs => ?_) fun _ s hs => h.after s hs.1.1) fun _ => ?_
  · have hquorum := of_decide_eq_true (ensure_eq_ok.mp hr)
    exact ⟨hs.1.1, parents, stake, hs.1.2, hs.2, hquorum⟩
  refine Triple.of_forall fun s₀ hs₀ => ?_
  have hgood : Good header := (h.passed header hh s₀ hs₀.1 hs₀.2).1
  refine Triple.conseq (P := fun s => I s ∧ self.Passes s.store header)
    (Q := fun _ s => K s) (E := fun _ s => K s) ?_ (fun s hs => hs ▸ hs₀)
    (fun _ s hs => ⟨hs, fun _ => hgood⟩) (fun _ _ => id)
  have hstable : Stable H (fun s => I s ∧ self.Passes s.store header) :=
    h.stable.and (Stable.of_store fun store => self.Passes store header)
  refine Triple.bind ((missingPayload_spec hstable hh).conseq (fun _ => id) (fun _ _ => id)
    (fun _ s hs => h.after s hs.1)) fun missing => ?_
  refine Triple.ite (fun _ => Triple.pure fun s hs => h.after s hs.1.1) fun hmissing => ?_
  refine Triple.bind ((h.header header hh).conseq (fun s hs => ⟨hs.1.1, ?_⟩) (fun _ _ => id)
    (fun _ _ => id)) fun _ => h.voteWith hvote hh
  exact (h.passed header hh s hs.1.1 hs.1.2).2 (hs.2 (Bool.eq_false_of_not_eq_true hmissing))

theorem processVoteWith {processCertificate : Certificate → Handler Unit}
    (hcertificate : ∀ c, c.header ∈ H →
      Triple (fun s => I s ∧ self.MarkedGood Good c.header s) (processCertificate c)
        (fun _ s => K s) (fun _ s => K s)) (vote : Vote) :
    Triple I (self.processVoteWith processCertificate vote) (fun _ s => K s)
      (fun _ s => K s) := by
  unfold Core.processVoteWith
  refine Triple.bind ((appendVote_spec h.stable).conseq (fun _ => id) (fun _ _ => id)
    (fun _ => h.after)) ?_
  intro assembled
  cases assembled with
  | none => exact Triple.pure fun s hs => h.after s hs.1
  | some certificate =>
      refine Triple.of_forall fun s hs => ?_
      have heq : certificate.header = s.currentHeader := hs.2.2 certificate rfl
      have hcurrent := h.current s hs.1
      rw [← heq] at hcurrent
      have hstable : Stable H (fun t => I t ∧ t.store = s.store) :=
        h.stable.and (Stable.of_store fun store => store = s.store)
      refine Triple.bind ((keeps_send hstable _ _).conseq (fun t ht => ?_) (fun _ _ => id)
        (fun _ t ht => h.after t ht.1)) fun _ => Triple.expect ?_
      · rw [ht]
        exact ⟨hs.1, rfl⟩
      · refine (hcertificate certificate hcurrent.1).conseq (fun t ht => ⟨ht.1, fun _ hall => ?_⟩)
          (fun _ _ => id) (fun _ _ => id)
        rw [ht.2] at hall
        exact hcurrent.2 hall

theorem processCertificateWith {processHeader : Header → Handler Unit}
    (hheader : ∀ x ∈ H, Triple I (processHeader x)
      (fun _ s => K s ∧ (self.HasParents s.store x → Good x)) (fun _ s => K s))
    (hc : certificate.header ∈ H) :
    Triple (fun s => I s ∧ self.MarkedGood Good certificate.header s)
      (self.processCertificateWith processHeader certificate)
      (fun _ s => K s) (fun _ s => K s) := by
  unfold Core.processCertificateWith
  refine Triple.bind (Q := fun _ s => K s ∧
    (self.HasParents s.store certificate.header → Good certificate.header)) ?_ fun _ => ?_
  · unfold embeddedHeaderWith
    refine Triple.bind (Triple.get (Q := fun s t => (I t ∧
      self.MarkedGood Good certificate.header t) ∧ s = t) fun s hs => ⟨hs, rfl⟩) fun s => ?_
    refine Triple.ite (fun hmarked => Triple.pure fun t ht => ⟨h.after t ht.1.1, ?_⟩) fun _ => ?_
    · rw [ht.2] at hmarked
      exact ht.1.2 hmarked
    · exact (hheader _ hc).conseq (fun t ht => ht.1.1) (fun _ _ => id) (fun _ _ => id)
  have hstable : Stable H (fun s => K s ∧
      (self.HasParents s.store certificate.header → Good certificate.header)) :=
    h.stable_after.and (Stable.of_store fun store =>
      self.HasParents store certificate.header → Good certificate.header)
  refine Triple.bind ((deliverCertificate_spec hstable hc).conseq (fun _ => id) (fun _ _ => id)
    (fun _ s hs => hs.1)) fun delivered => ?_
  refine Triple.ite (fun hd => ?_) (fun _ => Triple.pure fun _ hs => hs.1.1)
  refine Triple.of_forall fun s hs => ?_
  refine (h.accept certificate hc (hs.1.2 (hs.2 hd))).conseq (fun t ht => ?_) (fun _ _ => id)
    (fun _ _ => id)
  rw [ht]
  exact ⟨hs.1.1, hs.2 hd⟩

/-- A header, at any depth of nesting. -/
theorem processHeader (depth : ℕ) (hh : header ∈ H) :
    Triple I (self.processHeader depth header)
      (fun _ s => K s ∧ (self.HasParents s.store header → Good header)) (fun _ s => K s) := by
  induction depth generalizing header with
  | zero => exact Triple.throw h.after
  | succ depth ih =>
      exact h.processHeaderWith
        (h.processVoteWith fun c hc => h.processCertificateWith (fun x hx => ih hx) hc) hh

theorem processCertificate (hc : certificate.header ∈ H) :
    Triple (fun s => I s ∧ self.MarkedGood Good certificate.header s)
      (self.processCertificate certificate) (fun _ s => K s) (fun _ s => K s) :=
  h.processCertificateWith (fun _ hx => h.processHeader _ hx) hc

theorem processVote (vote : Vote) :
    Triple I (self.processVote vote) (fun _ s => K s) (fun _ s => K s) :=
  h.processVoteWith (fun _ hc => h.processCertificate hc) vote

/-- What the core may be given, from a state with the property: headers of `H` once they
passed the checks at the door, certificates whose header is good if it is marked.  An own
header becomes the current header first. -/
def Admits (core : Core) (H : Set Header) (Good : Header → Prop) (I : State → Prop)
    (s : State) : Input → Prop
  | .message (.header h) => I s ∧ (core.sanitizeHeader s h = .ok () → h ∈ H)
  | .message (.vote _) => I s
  | .message (.certificate c) => I s ∧ (core.sanitizeCertificate s c = .ok () →
      c.header ∈ H ∧ core.MarkedGood Good c.header s)
  | .loopbackHeader h => I s ∧ h ∈ H
  | .loopbackCertificate c => I s ∧ c.header ∈ H ∧ core.MarkedGood Good c.header s
  | .ownHeader h => I { s with currentHeader := h, votesAggregator := .new } ∧ h ∈ H

omit h in
/-- The inputs that the core is given, route by route. -/
theorem Admits.of {s : State} {input : Input} (hI : (∀ x, input ≠ .ownHeader x) → I s)
    (hback : LoopedBack H input)
    (hheader : ∀ x, input = .message (.header x) → self.sanitizeHeader s x = .ok () → x ∈ H)
    (hcertificate : ∀ c, input = .message (.certificate c) →
      self.sanitizeCertificate s c = .ok () → c.header ∈ H)
    (hmarked : ∀ c, input = .message (.certificate c) ∧ self.sanitizeCertificate s c = .ok () ∨
      input = .loopbackCertificate c → self.MarkedGood Good c.header s)
    (hown : ∀ x, input = .ownHeader x →
      I { s with currentHeader := x, votesAggregator := .new } ∧ x ∈ H) :
    Admits self H Good I s input := by
  cases input with
  | message message =>
      have hs : I s := hI fun _ hne => Input.noConfusion hne
      cases message with
      | header x => exact ⟨hs, hheader x rfl⟩
      | vote v => exact hs
      | certificate c =>
          exact ⟨hs, fun hok => ⟨hcertificate c rfl hok, hmarked c (Or.inl ⟨rfl, hok⟩)⟩⟩
  | loopbackHeader x => exact ⟨hI fun _ hne => Input.noConfusion hne, hback⟩
  | loopbackCertificate c =>
      exact ⟨hI fun _ hne => Input.noConfusion hne, hback, hmarked c (Or.inr rfl)⟩
  | ownHeader x => exact hown x rfl

/-- **The rule of invariants**: what the core is given, it handles keeping the
property. -/
theorem handle {s : State} {input : Input} (hadmits : Admits self H Good I s input) :
    K ((self.handle input).exec s).2 := by
  have hkeeps : Triple (fun t => t = s) (self.handle input) (fun _ t => K t) (fun _ t => K t) := by
    cases input with
    | message message =>
        show Triple _ (self.handleMessage message) _ _
        unfold handleMessage
        refine Triple.bind (Triple.get (Q := fun t u => u = s ∧ t = s) fun t ht => ⟨ht, ht⟩) ?_
        intro t
        cases message with
        | header header =>
            refine Triple.bind (Q := fun _ u => I u ∧ header ∈ H)
              (Triple.ofExcept (fun _ hr u hu => ?_) fun _ u hu => ?_) fun _ => ?_
            · rw [hu.2] at hr
              rw [hu.1]
              exact ⟨hadmits.1, hadmits.2 hr⟩
            · rw [hu.1]
              exact h.after s hadmits.1
            · refine Triple.of_forall fun u hu => ?_
              refine (h.processHeader depth hu.2).conseq (fun w hw => ?_) (fun _ w hw => hw.1)
                (fun _ _ => id)
              rw [hw]
              exact hu.1
        | vote vote =>
            refine Triple.bind (Q := fun _ u => I u)
              (Triple.ofExcept (fun _ _ u hu => ?_) fun _ u hu => ?_) fun _ => h.processVote vote
            · rw [hu.1]
              exact hadmits
            · rw [hu.1]
              exact h.after s hadmits
        | certificate certificate =>
            refine Triple.bind (Q := fun _ u => certificate.header ∈ H ∧ (I u ∧
                self.MarkedGood Good certificate.header u))
              (Triple.ofExcept (fun _ hr u hu => ?_) fun _ u hu => ?_) fun _ => ?_
            · rw [hu.2] at hr
              rw [hu.1]
              exact ⟨(hadmits.2 hr).1, hadmits.1, (hadmits.2 hr).2⟩
            · rw [hu.1]
              exact h.after s hadmits.1
            · refine Triple.of_forall fun u hu => ?_
              refine (h.processCertificate hu.1).conseq (fun w hw => ?_) (fun _ _ => id)
                (fun _ _ => id)
              rw [hw]
              exact hu.2
    | loopbackHeader header =>
        refine (h.processHeader depth hadmits.2).conseq (fun t ht => ?_) (fun _ t ht => ht.1)
          (fun _ _ => id)
        rw [ht]
        exact hadmits.1
    | loopbackCertificate certificate =>
        refine (h.processCertificate hadmits.2.1).conseq (fun t ht => ?_) (fun _ _ => id)
          (fun _ _ => id)
        rw [ht]
        exact ⟨hadmits.1, hadmits.2.2⟩
    | ownHeader header =>
        show Triple _ (self.processOwnHeader header) _ _
        unfold processOwnHeader
        refine Triple.bind (Q := fun _ u => I u) (Triple.modify fun u hu => ?_) fun _ => ?_
        · rw [hu]
          exact hadmits.1
        refine Triple.bind ((keeps_send h.stable _ _).conseq (fun _ => id) (fun _ _ => id)
          (fun _ => h.after)) fun _ => ?_
        exact (h.processHeader depth hadmits.2).conseq (fun _ => id) (fun _ u hu => hu.1)
          (fun _ _ => id)
  have hmid := hkeeps s rfl
  rcases hexec : (self.handle input).exec s with ⟨r, s'⟩
  rw [hexec] at hmid
  cases r with
  | ok a => exact hmid
  | error e => exact hmid

end Invariant

/-! ## §4. The depth of nesting. -/

/-- The authorities in `used` have voted for the current header. -/
def Used (used : Finset PublicKey) (s : State) : Prop := used ⊆ s.votesAggregator.used

variable {used : Finset PublicKey}

omit [Crypto] in
theorem stable_used (H : Set Header) : Stable H (Used used) :=
  fun _ _ hquiet hs => Finset.Subset.trans hs hquiet.used

/-- Two ways to process a vote of ours that agree wherever the header takes them. -/
theorem processHeaderWith_congr {processVote processVote' : Vote → Handler Unit}
    (h : ∀ vote s, Used used s → vote.author = self.name →
      (processVote vote).exec s = (processVote' vote).exec s) (header : Header) :
    ∀ s, Used used s →
      (self.processHeaderWith processVote header).exec s
        = (self.processHeaderWith processVote' header).exec s := by
  have hstable : Stable Set.univ (Used used) := stable_used _
  have hin := Set.mem_univ header
  unfold processHeaderWith
  refine Triple.exec_bind_congr (keeps_markProcessing hstable) fun _ => ?_
  refine Triple.exec_bind_congr (getParents_spec hstable hin) fun parents => ?_
  split
  · intro _ _
    rfl
  refine Triple.exec_bind_congr (Q := fun _ s => Used used s) (E := fun _ s => Used used s)
    (Triple.ofExcept (fun _ _ _ hs => hs.1) (fun _ _ hs => hs.1)) fun stake => ?_
  refine Triple.exec_bind_congr (Q := fun _ s => Used used s) (E := fun _ s => Used used s)
    (Triple.ofExcept (fun _ _ _ hs => hs) (fun _ _ hs => hs)) fun _ => ?_
  refine Triple.exec_bind_congr (missingPayload_spec hstable hin) fun missing => ?_
  split
  · intro _ _
    rfl
  refine Triple.exec_bind_congr (Q := fun _ s => Used used s) (E := fun _ s => Used used s)
    (Triple.modify fun _ hs => hs.1) fun _ => ?_
  unfold voteWith
  refine Triple.exec_bind_congr (Q := fun _ s => Used used s) (E := fun _ s => Used used s)
    (Triple.modifyGet fun _ hs => hs) fun fresh => ?_
  split
  · refine Triple.exec_bind_congr (Q := fun vote s => Used used s ∧ vote.author = self.name)
      (E := fun _ s => Used used s) (Triple.modifyGet fun _ hs => ⟨hs, rfl⟩) fun vote => ?_
    intro s hs
    split
    · rw [Handler.exec_expect, Handler.exec_expect, h vote s hs.1 hs.2]
    · rfl
  · intro _ _
    rfl

omit [Crypto] in
/-- A second vote of an authority fails at once. -/
theorem processVoteWith_of_used {processCertificate : Certificate → Handler Unit} {s : State}
    (h : vote.author ∈ s.votesAggregator.used) :
    (self.processVoteWith processCertificate vote).exec s
      = (.error (.error (.authorityReuse vote.author)), s) := by
  have happend : (self.appendVote vote).exec s
      = (.error (.error (.authorityReuse vote.author)), s) := by
    unfold appendVote
    rw [Handler.exec_bind, Handler.exec_modifyGet]
    simp only [Mrv.VotesAggregator.append, if_pos h]
    rfl
  unfold processVoteWith
  rw [Handler.exec_bind, happend]

/-- Once we voted for the current header, one level is enough. -/
theorem processHeader_of_used (d : ℕ) (header : Header) :
    ∀ s, Used {self.name} s →
      (self.processHeader (d + 1) header).exec s = (self.processHeader 1 header).exec s := by
  refine processHeaderWith_congr ?_ header
  intro vote s hs hauthor
  have hmem : vote.author ∈ s.votesAggregator.used := by
    rw [hauthor]
    exact hs (Finset.mem_singleton_self _)
  rw [processVoteWith_of_used hmem, processVoteWith_of_used hmem]

/-- **The bound on the nesting does not matter**: deeper nesting does not occur. -/
theorem processHeader_depth (d : ℕ) (header : Header) (s : State) :
    (self.processHeader (d + depth) header).exec s = (self.processHeader depth header).exec s := by
  have hstable : Stable Set.univ (Used {self.name}) := stable_used _
  have hnone : Used ∅ s := Finset.empty_subset _
  refine processHeaderWith_congr ?_ header s hnone
  intro vote s hs hauthor
  unfold processVoteWith
  refine Triple.exec_bind_congr (appendVote_spec (stable_used Set.univ)) ?_ s hs
  intro assembled
  cases assembled with
  | none =>
      intro _ _
      rfl
  | some certificate =>
      intro t ht
      have hused : Used {self.name} t := by
        rw [← hauthor]
        exact Finset.singleton_subset_iff.mpr ht.2.1
      -- our vote is counted now, so that the header of the certificate is the last level
      refine Triple.exec_bind_congr (keeps_send hstable _ _) (fun _ => ?_) t hused
      intro u hu
      rw [Handler.exec_expect, Handler.exec_expect]
      have hembedded : (embeddedHeaderWith (self.processHeader (d + 1)) certificate).exec u
          = (embeddedHeaderWith (self.processHeader 1) certificate).exec u := by
        refine Triple.exec_bind_congr (Q := fun _ s => Used {self.name} s)
          (E := fun _ s => Used {self.name} s) (Triple.get fun _ hs => hs) ?_ u hu
        intro v w hw
        split
        · rfl
        · exact processHeader_of_used _ _ w hw
      unfold processCertificateWith
      rw [Handler.exec_bind, Handler.exec_bind, hembedded]

end Core

end Mrv
