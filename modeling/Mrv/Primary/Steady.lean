/-
  Mrv.Primary.Steady — a primary does not wait for its own headers.

  A header of the proposer has its parents and its payload, so that it is never suspended,
  and our vote for it is remembered until its round is collected.  From outside our own
  headers only come back as they were, if their ids commit to their content.  Then nothing
  of ours is ever suspended or looped back, and what comes in of ours was voted for.

    * `Run.steady` — the invariant, in every run.
-/
import Mrv.Primary.Backing

namespace Mrv

variable [Crypto]

namespace Core

open Mrv.Handler (Triple Keeps)
open Primary (Carries Queues Aside)

variable {self : Core} {X : Set Header} {A : PublicKey → Digest → Signature → Prop}
  {s s' : State} {es : History} {n n' : Primary} {h : Header}

/-! ## §1. What the handlers keep. -/

/-- What is remembered of the headers of ours while an input is handled: those taken from the
proposer, those that were voted for, the collected round and the current header. -/
structure Records where
  taken : List Header
  remembered : List Header
  gcRound : ℕ
  current : Header

/-- The headers that may be processed: ours have the content of one that was taken. -/
def Records.headers (core : Core) (X : Set Header) (r : Records) : Set Header :=
  {h | h ∈ X ∧ (h.author = core.name → 0 < h.round → ∃ x ∈ r.taken, x.Same h)}

/-- The headers that come in: ours are remembered, and not below the collected round. -/
def Records.settled (core : Core) (X : Set Header) (r : Records) : Set Header :=
  {h | h ∈ X ∧ (h.author = core.name → 0 < h.round →
    r.gcRound ≤ h.round ∧ ∃ x ∈ r.remembered, x.Same h)}

/-- The headers of the others, and what is of round 0. -/
def Others (core : Core) : Set Header := {h | h.author = core.name → h.round = 0}

/-- The invariant of the handlers: nothing of ours is suspended. -/
structure Steady (core : Core) (X : Set Header) (r : Records) (s : State) : Prop where
  supplied : Supplied core X s
  gcRound : s.gcRound = r.gcRound
  current : s.currentHeader = r.current
  queues : Queues (Others core) {c | c.header ∈ Others core} s
  remembered : ∀ x ∈ r.remembered, r.gcRound ≤ x.round → core.name ∈ s.voted x.round
  sourced : ∀ x ∈ r.taken, core.Sourced s.txConsensus x

variable {r : Records}

omit [Crypto] in
theorem Records.settled_subset (hsub : ∀ x ∈ r.remembered, x ∈ r.taken) :
    r.settled self X ⊆ r.headers self X := by
  intro h hh
  refine ⟨hh.1, fun hname hround => ?_⟩
  obtain ⟨_, x, hx, hsame⟩ := hh.2 hname hround
  exact ⟨x, hsub x hx, hsame⟩

omit [Crypto] in
theorem Records.mem_settled_of_others (hX : h ∈ X) (hothers : h ∈ Others self) :
    h ∈ r.settled self X := by
  refine ⟨hX, fun hname hround => ?_⟩
  have hzero := hothers hname
  omega

theorem HasParents.of_same {store : Store} {x : Header} (hx : self.HasParents store x)
    (hsame : x.Same h) : self.HasParents store h := by
  unfold HasParents at hx ⊢
  rw [← hsame.parents]
  exact hx

/-- Our vote for a header of ours that comes in is remembered. -/
theorem Steady.voted_of_settled (hs : Steady self X r s) (hh : h ∈ r.settled self X)
    (hname : h.author = self.name) (hround : 0 < h.round) :
    s.gcRound ≤ h.round ∧ self.name ∈ s.voted h.round := by
  obtain ⟨hle, x, hx, hsame⟩ := hh.2 hname hround
  refine ⟨hs.gcRound ▸ hle, ?_⟩
  rw [← hsame.round]
  exact hs.remembered x hx (hsame.round ▸ hle)

/-- An update of fields that nothing here mentions. -/
theorem Steady.of_eq (hs : Steady self X r s) (hsupplied : Supplied self X s')
    (hgc : s'.gcRound = s.gcRound) (hcurrent : s'.currentHeader = s.currentHeader)
    (hlast : s'.lastVoted = s.lastVoted) (hconsensus : s'.txConsensus = s.txConsensus)
    (hqueues : Queues (Others self) {c | c.header ∈ Others self} s') : Steady self X r s' := by
  refine ⟨hsupplied, hgc.trans hs.gcRound, hcurrent.trans hs.current, hqueues,
    fun x hx hle => ?_, ?_⟩
  · have hold := hs.remembered x hx hle
    unfold State.voted at hold ⊢
    rw [hlast]
    exact hold
  · rw [hconsensus]
    exact hs.sourced

/-- Taking a vote. -/
theorem Steady.taken (hs : Steady self X r s) (h : Header) (cast : List Cast) :
    Steady self X r { Core.spent h s with cast } := by
  have hsupplied : Supplied self X { Core.spent h s with cast } :=
    hs.supplied.of_eq rfl rfl rfl rfl hs.supplied.currentHeader
      ⟨hs.supplied.queues.txHeaderWaiter, hs.supplied.queues.txCertificateWaiter⟩
  refine ⟨hsupplied, hs.gcRound, hs.current,
    ⟨hs.queues.txHeaderWaiter, hs.queues.txCertificateWaiter⟩, fun x hx hle => ?_, hs.sourced⟩
  have hold := hs.remembered x hx hle
  rw [show State.voted { Core.spent h s with cast } x.round = _ from voted_spent h s x.round]
  split
  · next heq =>
    rw [heq] at hold
    exact Finset.mem_insert_of_mem hold
  · exact hold

section

variable (hfit : 2 * self.committee.totalStake < 2 ^ 32) (hhash : Separated self.committee X)

include hfit hhash

/-- A header of ours has its parents. -/
theorem Steady.hasParents (hs : Steady self X r s) {x : Header} (hx : x ∈ r.taken)
    (hsame : x.Same h) : self.HasParents s.store h := by
  obtain ⟨parents, _, hfind, _⟩ := hs.supplied.finds hfit hhash (hs.sourced x hx)
  exact (hasParents_of_findParents hfind).of_same hsame

/-- A header that lacks a parent is not ours. -/
theorem Steady.others (hs : Steady self X r s) (hh : h ∈ r.headers self X)
    (hmissing : h.author = self.name → ¬ self.HasParents s.store h) : h ∈ Others self := by
  intro hname
  by_contra hround
  obtain ⟨x, hx, hsame⟩ := hh.2 hname (Nat.pos_of_ne_zero hround)
  exact hmissing hname (hs.hasParents hfit hhash hx hsame)

/-- The moves of the handlers keep the invariant. -/
theorem moves_steady (hcurrent : 0 < r.current.round → r.current ∈ r.taken) :
    Moves self (r.headers self X) {c | c.header ∈ r.headers self X} Set.univ (Steady self X r) where
  frame := fun s s' hframe hs => by
    have hsupplied := (moves_supplied hfit hhash).frame s s' hframe hs.supplied
    refine hs.of_eq hsupplied hframe.gcRound hframe.currentHeader hframe.lastVoted
      hframe.txConsensus ⟨?_, ?_⟩
    · rw [hframe.txHeaderWaiter]
      exact hs.queues.txHeaderWaiter
    · rw [hframe.txCertificateWaiter]
      exact hs.queues.txCertificateWaiter
  mark := fun x hx s hs =>
    hs.of_eq ((moves_supplied hfit hhash).mark x hx.1 s hs.supplied) rfl rfl rfl rfl
      ⟨hs.queues.txHeaderWaiter, hs.queues.txCertificateWaiter⟩
  header := fun x hx s hs =>
    hs.of_eq ((moves_supplied hfit hhash).header x hx.1 s hs.supplied) rfl rfl rfl rfl
      ⟨hs.queues.txHeaderWaiter, hs.queues.txCertificateWaiter⟩
  sync := fun m s hm hmissing hs => by
    refine hs.of_eq ((moves_supplied hfit hhash).sync m s hm.1 hmissing hs.supplied) rfl rfl rfl rfl
      ⟨fun x hx => ?_, hs.queues.txCertificateWaiter⟩
    obtain hold | hlast := List.mem_append.mp hx
    · exact hs.queues.txHeaderWaiter x hold
    · rw [List.mem_singleton.mp hlast]
      exact hs.others hfit hhash hm hmissing
  vote := fun x _ _ s hs => ⟨hs.taken x s.cast, fun _ => ⟨hs.taken x _, fun _ => trivial⟩⟩
  tally := fun v _ s hs => by
    refine ⟨hs.of_eq ((moves_supplied hfit hhash).tally v trivial s hs.supplied).1 rfl rfl rfl rfl
      ⟨hs.queues.txHeaderWaiter, hs.queues.txCertificateWaiter⟩, fun c hc => ?_⟩
    show c.header ∈ r.headers self X
    rw [(header_of_append hc).trans hs.current]
    refine ⟨hs.current ▸ hs.supplied.currentHeader, fun _ hround => ?_⟩
    exact ⟨_, hcurrent hround, Header.Same.refl _⟩
  embedded := fun _ hc => hc
  suspend := fun c hc s hmissing hs => by
    refine hs.of_eq ((moves_supplied hfit hhash).suspend c hc.1 s hmissing hs.supplied) rfl rfl rfl
      rfl ⟨hs.queues.txHeaderWaiter, fun x hx => ?_⟩
    obtain hold | hlast := List.mem_append.mp hx
    · exact hs.queues.txCertificateWaiter x hold
    · rw [List.mem_singleton.mp hlast]
      exact hs.others hfit hhash hc fun _ => hmissing
  accept := fun c hc s hparents hs => by
    have hsupplied := (moves_supplied hfit hhash).accept c hc.1 s hparents hs.supplied
    rw [exec_acceptCertificate] at hsupplied ⊢
    exact ⟨hsupplied, hs.gcRound, hs.current,
      ⟨hs.queues.txHeaderWaiter, hs.queues.txCertificateWaiter⟩, hs.remembered,
      fun y hy => (hs.sourced y hy).mono (List.subset_append_left _ _)⟩

end

/-! ## §2. Runs. -/

/-- What is remembered between two steps. -/
abbrev Records.of (es : History) (s : State) : Records :=
  ⟨ownHeaders es, ownHeaders es, s.gcRound, s.currentHeader⟩

/-- Nothing of ours is on its way through the waiters, and our votes are remembered. -/
structure Undelayed (core : Core) (X : Set Header) (es : History) (n : Primary) : Prop where
  carries : Carries (Others core) {c | c.header ∈ Others core} n
  steady : Steady core X (.of es n.core) n.core

theorem Steady.cleanup (hs : Steady self X r s) {round : ℕ}
    (hgc : s.gcRound ≤ round - self.gcDepth) :
    Steady self X { r with gcRound := (self.cleanup round s).gcRound }
      (self.cleanup round s) := by
  have hsupplied := hs.supplied.cleanup round
  unfold Core.cleanup at hsupplied ⊢
  split at hsupplied
  · next hround =>
    rw [if_pos hround]
    refine ⟨hsupplied, rfl, hs.current,
      ⟨hs.queues.txHeaderWaiter, hs.queues.txCertificateWaiter⟩, fun x hx hle => ?_, hs.sourced⟩
    have hle' : round - self.gcDepth ≤ x.round := hle
    have hold := hs.remembered x hx (by rw [← hs.gcRound]; omega)
    unfold State.voted at hold ⊢
    rw [AList.lookup_retain]
    cases hlookup : s.lastVoted.lookup x.round with
    | none =>
        rw [hlookup] at hold
        exact absurd hold (Finset.notMem_empty _)
    | some authors =>
        rw [hlookup] at hold
        simpa [hle'] using hold
  · next hround =>
    rw [if_neg hround, hs.gcRound]
    exact hs

/-- Once our vote for a header of ours is there, it is remembered. -/
theorem Steady.remember (hs : Steady self X r s) (hvoted : self.name ∈ s.voted h.round) :
    Steady self X { r with remembered := h :: r.remembered } s :=
  ⟨hs.supplied, hs.gcRound, hs.current, hs.queues,
    List.forall_mem_cons.mpr ⟨fun _ => hvoted, hs.remembered⟩, hs.sourced⟩

/-- The state in which a header of ours is taken. -/
theorem Steady.renew (hs : Steady self X r s) (hX : h ∈ X)
    (hsourced : self.Sourced s.txConsensus h) :
    Steady self X { r with taken := h :: r.taken, current := h }
      { s with currentHeader := h, votesAggregator := .new } :=
  ⟨hs.supplied.of_eq rfl rfl rfl rfl hX
      ⟨hs.supplied.queues.txHeaderWaiter, hs.supplied.queues.txCertificateWaiter⟩,
    hs.gcRound, rfl, ⟨hs.queues.txHeaderWaiter, hs.queues.txCertificateWaiter⟩, hs.remembered,
    List.forall_mem_cons.mpr ⟨hsourced, hs.sourced⟩⟩

/-- A header of ours that comes in from outside has the content of one we made. -/
theorem Incoming.same (hin : Incoming self X es) (hhash : Separated self.committee X)
    (hunambiguous : Unambiguous {x | x ∈ X ∧ x.author = self.name}) (hX : h ∈ X)
    (hname : h.author = self.name) (hdigest : h.digest = h.id)
    (hours : ∃ x ∈ ownHeaders es, x.id = h.id) : ∃ x ∈ ownHeaders es, x.Same h := by
  obtain ⟨x, hx, hid⟩ := hours
  obtain ⟨m, hmem⟩ := mem_ownHeaders.mp hx
  obtain ⟨hxX, hown⟩ := hin.own m x hmem
  have hauthor := (hhash.identified x hxX h hX hown hdigest hid).1
  have hlength := hunambiguous x ⟨hxX, hauthor.trans hname⟩ h ⟨hX, hname⟩ hown hdigest hid
  exact ⟨x, hx, hhash.committed x hxX h hX hown hdigest hid hlength⟩

/-- What comes in, if it passes the checks at the door. -/
theorem Undelayed.admits {a : Primary.Action} {input : Input} {n₀ : Primary}
    (hhash : Separated self.committee X)
    (hunambiguous : Unambiguous {x | x ∈ X ∧ x.author = self.name})
    (hu : Undelayed self X es n) (hin : Incoming self X ((n, a) :: es))
    (hincoming : Carries X {c | c.header ∈ X} n) (hrec : Recognises self ((n, a) :: es))
    (hinput : n.input a = some (input, n₀)) (hnot : ∀ x, input ≠ .ownHeader x) :
    Moves.Admits self (Records.settled self X (.of es n.core))
      {c | c.header ∈ Records.settled self X (.of es n.core)} Set.univ
      (Steady self X (.of es n.core)) n.core input := by
  have hs := hu.steady
  obtain ⟨_, hothers⟩ := hu.carries.input hinput
  obtain ⟨_, hX⟩ := hincoming.input hinput
  cases Primary.feeds_of_input hinput with
  | message message =>
    -- a verified header of ours is one we made, and not below the collected round
    have hours : ∀ x ∈ (Primary.Action.message message).headers,
        x.verify self.committee = .ok () → n.core.gcRound ≤ x.round →
        x ∈ Records.settled self X (.of es n.core) := by
      intro x hx hverify hround
      have hxX := hin.admitted n _ List.mem_cons_self x hx (Or.inl hverify)
      exact ⟨hxX, fun hname _ => ⟨hround, hin.same hhash hunambiguous hxX hname
        (Header.digest_of_verify hverify) (hrec.2 x hx hverify hname)⟩⟩
    cases message with
    | header x =>
        refine ⟨hs, fun hok => ?_⟩
        unfold sanitizeHeader at hok
        obtain ⟨hround, hverify⟩ := ensure_bind_eq_ok.mp hok
        exact hours x List.mem_cons_self hverify (of_decide_eq_true hround)
    | vote v => exact ⟨hs, fun _ => trivial⟩
    | certificate c =>
        refine ⟨hs, fun hok => ?_⟩
        unfold sanitizeCertificate at hok
        obtain ⟨hround, hverify⟩ := ensure_bind_eq_ok.mp hok
        obtain hheader | ⟨_, hzero, _⟩ := id (Certificate.admitted_of_verify hverify)
        · exact hours c.header List.mem_cons_self hheader (of_decide_eq_true hround)
        · refine Records.mem_settled_of_others ?_ fun _ => hzero
          exact hin.admitted n _ List.mem_cons_self c.header List.mem_cons_self
            (Certificate.admitted_of_verify hverify)
  | loopbackHeader x rest hrx => exact ⟨hs, Records.mem_settled_of_others hX hothers⟩
  | loopbackCertificate c rest hrx => exact ⟨hs, Records.mem_settled_of_others hX hothers⟩
  | ownHeader x => exact absurd rfl (hnot x)

section

variable (hfit : 2 * self.committee.totalStake < 2 ^ 32) (hhash : Separated self.committee X)
  (hpositive : 0 < self.committee.weight self.name)

include hfit hhash hpositive

/-- One step: the core takes a header of ours. -/
theorem Undelayed.turn_own (hu : Undelayed self X es n) (hst : Standing self X A es n)
    (hgc : n.core.gcRound ≤ n.consensusRound - self.gcDepth)
    (hproposed : Proposed self n.core (ownHeaders es) h) (hX : h ∈ X) :
    Undelayed self X ((n, .ownHeader h) :: es) (self.turn n (.ownHeader h)) := by
  let r : Records := ⟨h :: ownHeaders es, ownHeaders es, n.core.gcRound, h⟩
  have hmoves : Moves self (r.headers self X) _ _ (Steady self X r) :=
    moves_steady hfit hhash fun _ => List.mem_cons_self
  have hadmits : Moves.Admits self (r.headers self X) {c | c.header ∈ r.headers self X} Set.univ
      (Steady self X r) n.core (.ownHeader h) :=
    ⟨hu.steady.renew hX (hproposed.sourced hfit hpositive).2,
      hX, fun _ _ => ⟨h, List.mem_cons_self, Header.Same.refl h⟩⟩
  have hhandled := hmoves.handle hadmits
  obtain ⟨s', hexec, hvoted, _⟩ := hst.exec_own hfit hhash hpositive hproposed
  rw [hexec] at hhandled
  have hle : s'.gcRound ≤ n.consensusRound - self.gcDepth := by
    rw [hhandled.gcRound]
    exact hgc
  have hcleaned := (hhandled.remember hvoted).cleanup hle
  have hcore : (self.turn n (.ownHeader h)).core = self.cleanup n.consensusRound s' := by
    unfold turn iterate
    rw [hexec]
  refine ⟨hu.carries.turn ?_, ?_⟩
  · rw [hcore]
    exact hcleaned.queues
  · have hcurrent : (self.turn n (.ownHeader h)).core.currentHeader = h := by
      rw [hcore]
      exact hcleaned.current
    unfold Records.of
    rw [hcurrent, hcore]
    exact hcleaned

omit hpositive in
/-- One step: the core handles another input. -/
theorem Undelayed.turn_other {a : Primary.Action} {input : Input} {n₀ : Primary}
    (hunambiguous : Unambiguous {x | x ∈ X ∧ x.author = self.name})
    (hu : Undelayed self X es n) (hst : Standing self X A es n)
    (hgc : n.core.gcRound ≤ n.consensusRound - self.gcDepth)
    (hin : Incoming self X ((n, a) :: es)) (hrec : Recognises self ((n, a) :: es))
    (hinput : n.input a = some (input, n₀)) (hnot : ∀ x, input ≠ .ownHeader x) :
    Undelayed self X ((n, a) :: es) (self.turn n₀ input) := by
  obtain ⟨hcore₀, hround₀⟩ := Primary.of_input hinput
  have hsub : Records.settled self X (.of es n.core) ⊆ Records.headers self X (.of es n.core) :=
    Records.settled_subset fun _ => id
  have hadmits := hu.admits hhash hunambiguous hin hst.incoming hrec hinput hnot
  have hhandled := (moves_steady hfit hhash hst.current).handle
    (hadmits.mono hsub (fun _ hc => hsub hc) (Set.Subset.refl _) fun _ => id)
  have hle : ((self.handle input).exec n.core).2.gcRound ≤ n.consensusRound - self.gcDepth := by
    rw [hhandled.gcRound]
    exact hgc
  have hturn : Steady self X ⟨ownHeaders es, ownHeaders es, (self.turn n₀ input).core.gcRound,
      n.core.currentHeader⟩ (self.turn n₀ input).core := by
    show Steady self X ⟨ownHeaders es, ownHeaders es,
      (self.iterate n₀.consensusRound input n₀.core).1.gcRound, n.core.currentHeader⟩
      (self.iterate n₀.consensusRound input n₀.core).1
    rw [hcore₀, hround₀]
    unfold iterate
    split
    · next heq =>
      rw [heq] at hhandled
      rw [hhandled.gcRound]
      exact hhandled
    · next heq =>
      rw [heq] at hhandled hle
      exact hhandled.cleanup hle
  refine ⟨(hu.carries.input hinput).1.turn hturn.queues, ?_⟩
  unfold Records.of
  rw [ownHeaders_of_input hinput hnot, hturn.current]
  exact hturn

omit hfit hhash hpositive in
/-- The other tasks. -/
theorem Undelayed.background {a : Primary.Action} (hu : Undelayed self X es n)
    (hincoming : Carries X {c | c.header ∈ X} n)
    (h : n.background self.gcDepth a = some n') : Undelayed self X ((n, a) :: es) n' := by
  have haside := Primary.aside_of_background h
  have hcarries := hu.carries.background h
  have hown : ownHeaders ((n, a) :: es) = ownHeaders es := by
    cases Primary.works_of_background h <;> rfl
  refine ⟨hcarries, ?_⟩
  unfold Records.of
  rw [hown, haside.gcRound, haside.currentHeader]
  exact hu.steady.of_eq (hu.steady.supplied.aside haside (hincoming.background h).queues)
    haside.gcRound haside.currentHeader haside.lastVoted haside.txConsensus hcarries.queues

/-- **Nothing of ours is ever suspended**, and our votes for headers of ours are remembered
until their round is collected. -/
theorem Run.steady (hbatch : Crypto.BatchExact)
    (hunambiguous : Unambiguous {x | x ∈ X ∧ x.author = self.name})
    (hrun : self.Run es n) (hin : Incoming self X es) (hproposes : Proposes self es)
    (hrec : Recognises self es) : Undelayed self X es n := by
  refine System.Run.invariant (P := fun es n => Incoming self X es → Proposes self es →
    Recognises self es → Undelayed self X es n) ?_ ?_ hrun hin hproposes hrec
  · exact fun hin _ _ => ⟨Carries.new, Supplied.new hin.default, rfl, rfl, Carries.new.queues,
      fun x hx => absurd hx List.not_mem_nil, fun x hx => absurd hx List.not_mem_nil⟩
  · intro es n a n' hrun ih hnext hin hproposes hrec
    have hu := ih hin.tail hproposes.1 hrec.1
    have hst := Run.standing hfit hhash hpositive hbatch hrun hin.tail hproposes.1 hrec.1
      (vouched_true es)
    have hgc := Run.gcRound_le hrun
    obtain ⟨input, n₀, hinput, _, rfl⟩ | hbackground := next_cases hnext
    · by_cases hown : ∃ x, input = .ownHeader x
      · obtain ⟨x, rfl⟩ := hown
        cases Primary.feeds_of_input hinput with
        | ownHeader _ =>
          exact hu.turn_own hfit hhash hpositive hst hgc (hproposes.2 x rfl)
            (hin.own n x List.mem_cons_self).1
      · exact hu.turn_other hfit hhash hunambiguous hst hgc hin hrec hinput
          fun x hx => hown ⟨x, hx⟩
    · exact hu.background hst.incoming hbackground

end

end Core

end Mrv
