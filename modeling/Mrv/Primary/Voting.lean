/-
  Mrv.Primary.Voting — one vote per author and round.

  `last_voted` is the only guard against a second vote, and it is cleaned up.
  Messages from the network are too old by then, but a header that was suspended
  before the cleanup is processed without a look at its round.  `votes_once` says
  that this is the only way to vote twice, and `votes_twice` is a run that does.
-/
import Mrv.Primary.Delivery

namespace Mrv

variable [Crypto]

namespace Core

open Mrv.Handler (Triple Keeps)

variable {self : Core} {s s' : State} {es : History} {n : Primary} {h : Header}

/-! ## §1. Headers whose slot is remembered. -/

/-- Whoever voted for another header of this author and round is still remembered. -/
def Fresh (s : State) (h : Header) : Prop :=
  ∀ x ∈ s.cast, x.vote.origin = h.author → x.vote.round = h.round → x.vote.id ≠ h.id →
    h.author ∈ s.voted h.round

/-- No two votes for different headers of one author and round, and the votes that
were not cleaned up are remembered. -/
structure Once (s : State) : Prop where
  once : ∀ x ∈ s.cast, ∀ y ∈ s.cast, x.vote.origin = y.vote.origin →
    x.vote.round = y.vote.round → x.vote.id = y.vote.id
  remembered : ∀ x ∈ s.cast, s.gcRound ≤ x.vote.round → x.vote.origin ∈ s.voted x.vote.round

/-- Nobody forgets during a handler, which only looks at headers of `D`. -/
structure Voting (D : Set Header) (gcRound : ℕ) (s : State) : Prop where
  once : Once s
  gcRound : s.gcRound = gcRound
  current : s.currentHeader ∈ D
  fresh : ∀ h ∈ D, Fresh s h

omit [Crypto] in
theorem voted_insert (s : State) (round round' : ℕ) (authors : Finset PublicKey) :
    State.voted { s with lastVoted := s.lastVoted.insert round authors } round'
      = if round' = round then authors else s.voted round' := by
  unfold State.voted
  rw [AList.lookup_insert_eq_ite]
  split <;> rfl

omit [Crypto] in
theorem stable_voting {H D : Set Header} {gcRound : ℕ} : Stable H (Voting D gcRound) := by
  intro s s' hquiet hs
  have hvoted : ∀ round, s'.voted round = s.voted round := by
    intro round
    unfold State.voted
    rw [hquiet.lastVoted]
  refine ⟨⟨?_, ?_⟩, hquiet.gcRound.trans hs.gcRound, ?_, ?_⟩
  · rw [hquiet.cast]
    exact hs.once.once
  · intro x hx hround
    rw [hquiet.cast] at hx
    rw [hquiet.gcRound] at hround
    rw [hvoted]
    exact hs.once.remembered x hx hround
  · rw [hquiet.currentHeader]
    exact hs.current
  · intro h hh x hx
    rw [hquiet.cast] at hx
    rw [hvoted]
    exact hs.fresh h hh x hx

/-- **Taking a vote**: the authors voted for only become more; if the slot was free,
nobody voted for another header of it. -/
theorem takeVote_spec {D : Set Header} {gcRound : ℕ} {h : Header} (hh : h ∈ D) :
    Triple (Voting D gcRound) (takeVote h)
      (fun fresh s => Voting D gcRound s ∧
        (fresh = true → Voting D gcRound { s with cast := s.cast ++ [self.castNow h s] }))
      (fun _ s => Voting D gcRound s) := by
  refine Triple.modifyGet fun s hs => ?_
  have hmono : ∀ round author, author ∈ s.voted round →
      author ∈ State.voted { s with
        lastVoted := s.lastVoted.insert h.round (insert h.author (s.voted h.round)) } round := by
    intro round author hauthor
    rw [voted_insert]
    split
    · next heq =>
      rw [heq] at hauthor
      exact Finset.mem_insert_of_mem hauthor
    · exact hauthor
  have hnow : h.author ∈ State.voted { s with
      lastVoted := s.lastVoted.insert h.round (insert h.author (s.voted h.round)) } h.round := by
    rw [voted_insert, if_pos rfl]
    exact Finset.mem_insert_self _ _
  refine ⟨⟨⟨hs.once.once, fun x hx hround => hmono _ _ (hs.once.remembered x hx hround)⟩,
    hs.gcRound, hs.current, fun x hx y hy ho hr hid => hmono _ _ (hs.fresh x hx y hy ho hr hid)⟩,
    fun hfresh => ?_⟩
  have hfree : h.author ∉ s.voted h.round := of_decide_eq_true hfresh
  -- a vote for another header of the slot would be remembered
  have hsame : ∀ x ∈ s.cast, x.vote.origin = h.author → x.vote.round = h.round →
      x.vote.id = h.id := by
    intro x hx horigin hround
    by_contra hne
    exact hfree (hs.fresh h hh x hx horigin hround hne)
  refine ⟨⟨?_, ?_⟩, hs.gcRound, hs.current, ?_⟩
  · intro x hx y hy horigin hround
    obtain hxold | hxnew := List.mem_append.mp hx <;> obtain hyold | hynew := List.mem_append.mp hy
    · exact hs.once.once x hxold y hyold horigin hround
    · obtain rfl := List.mem_singleton.mp hynew
      exact hsame x hxold horigin hround
    · obtain rfl := List.mem_singleton.mp hxnew
      exact (hsame y hyold horigin.symm hround.symm).symm
    · rw [List.mem_singleton.mp hxnew, List.mem_singleton.mp hynew]
  · intro x hx hround
    obtain hold | hnew := List.mem_append.mp hx
    · exact hmono _ _ (hs.once.remembered x hold hround)
    · obtain rfl := List.mem_singleton.mp hnew
      exact hnow
  · intro y hy x hx horigin hround hid
    obtain hold | hnew := List.mem_append.mp hx
    · exact hmono _ _ (hs.fresh y hy x hold horigin hround hid)
    · obtain rfl := List.mem_singleton.mp hnew
      have ho : h.author = y.author := horigin
      have hr : h.round = y.round := hround
      rw [← ho, ← hr]
      exact hnow

theorem invariant_voting (D : Set Header) (gcRound : ℕ) :
    Invariant self D (fun _ => True) (fun _ _ => True) (Voting D gcRound) (Voting D gcRound) where
  stable := stable_voting
  stable_after := stable_voting
  stable_ready := fun _ _ _ _ _ => trivial
  after := fun _ => id
  current := fun s hs => ⟨hs.current, fun _ => trivial⟩
  orphan := fun _ _ => trivial
  passed := fun _ _ _ _ _ => ⟨trivial, fun _ => trivial⟩
  header := fun h _ => Triple.modify fun s hs =>
    ⟨⟨⟨hs.1.once.once, hs.1.once.remembered⟩, hs.1.gcRound, hs.1.current, hs.1.fresh⟩, trivial⟩
  vote := fun h hh => (takeVote_spec hh).conseq (fun s hs => hs.1) (fun _ _ => id) (fun _ _ => id)
  accept := fun c _ _ => by
    refine acceptCertificate_spec (H := D) stable_voting fun s hs => ?_
    exact ⟨⟨hs.1.once.once, hs.1.once.remembered⟩, hs.1.gcRound, hs.1.current, hs.1.fresh⟩

/-! ## §2. Runs. -/

/-- A header below the collected round, for whose author and round another header was
voted for and forgotten. -/
structure Stale (s : State) (h : Header) : Prop where
  below : h.round < s.gcRound
  voted : ∃ x ∈ s.cast, x.vote.origin = h.author ∧ x.vote.round = h.round ∧ x.vote.id ≠ h.id
  forgotten : h.author ∉ s.voted h.round

omit [Crypto] in
theorem Once.fresh (hs : Once s) (h : Header) (hstale : ¬ Stale s h) : Fresh s h := by
  intro x hx horigin hround hid
  by_contra hforgotten
  refine hstale ⟨?_, ⟨x, hx, horigin, hround, hid⟩, hforgotten⟩
  by_contra hnot
  have hle : s.gcRound ≤ x.vote.round := by omega
  have hremembered := hs.remembered x hx hle
  rw [horigin, hround] at hremembered
  exact hforgotten hremembered

/-- The headers that an input may lead the core to process without a look at their
round, the current header among them, of which a vote may complete the certificate. -/
def unchecked (current : Header) : Input → List Header
  | .message _ => [current]
  | .loopbackHeader h => [h, current]
  | .loopbackCertificate c => [c.header, current]
  | .ownHeader h => [h]

/-- A history in which no stale header is processed. -/
def NoStale (es : History) : Prop :=
  ∀ m a input m₀, (m, a) ∈ es → m.input a = some (input, m₀) →
    ∀ h ∈ unchecked m.core.currentHeader input, ¬ Stale m.core h

instance (s : State) (h : Header) : Decidable (Stale s h) :=
  decidable_of_iff (h.round < s.gcRound ∧ (∃ x ∈ s.cast, x.vote.origin = h.author ∧
      x.vote.round = h.round ∧ x.vote.id ≠ h.id) ∧ h.author ∉ s.voted h.round)
    ⟨fun ⟨hbelow, hvoted, hforgotten⟩ => ⟨hbelow, hvoted, hforgotten⟩,
      fun hst => ⟨hst.below, hst.voted, hst.forgotten⟩⟩

instance : DecidablePred NoStale := fun es =>
  decidable_of_iff (∀ e ∈ es, ∀ i ∈ (e.1.input e.2).toList,
      ∀ h ∈ unchecked e.1.core.currentHeader i.1, ¬ Stale e.1.core h)
    ⟨fun hall m a input m₀ hmem hinput =>
        hall (m, a) hmem (input, m₀) (Option.mem_toList.mpr hinput),
      fun hstale e hmem i hi => hstale e.1 e.2 i.1 i.2 hmem (Option.mem_toList.mp hi)⟩

omit [Crypto] in
/-- Cleaning up forgets only what is below the new collected round. -/
theorem Once.cleanup (hs : Once s) {round : ℕ} (hgc : s.gcRound ≤ round - self.gcDepth) :
    Once (self.cleanup round s) := by
  unfold Core.cleanup
  split
  · refine ⟨hs.once, fun x hx hround => ?_⟩
    have hle : round - self.gcDepth ≤ x.vote.round := hround
    have hremembered := hs.remembered x hx (by omega)
    unfold State.voted at hremembered ⊢
    rw [AList.lookup_retain]
    cases hlookup : s.lastVoted.lookup x.vote.round with
    | none =>
        rw [hlookup] at hremembered
        exact absurd hremembered (Finset.notMem_empty _)
    | some authors =>
        rw [hlookup] at hremembered
        simpa [hle] using hremembered
  · exact hs

omit [Crypto] in
theorem gcRound_cleanup {round : ℕ} (hgc : s.gcRound ≤ round - self.gcDepth) :
    (self.cleanup round s).gcRound ≤ round - self.gcDepth := by
  unfold Core.cleanup
  split
  · exact Nat.le_refl _
  · exact hgc

/-- One step: the core handles an input without a stale header. -/
theorem Once.handle {input : Input} (hs : Once s)
    (hstale : ∀ h ∈ unchecked s.currentHeader input, ¬ Stale s h) :
    Voting {x | Fresh s x} s.gcRound ((self.handle input).exec s).2 := by
  have hfresh : ∀ h, ¬ Stale s h → h ∈ {x | Fresh s x} := fun h => hs.fresh h
  -- what the network sends is not below the collected round
  have hdoor : ∀ h : Header, s.gcRound ≤ h.round → h ∈ {x | Fresh s x} :=
    fun h hle => hfresh h fun hst => Nat.not_lt.mpr hle hst.below
  refine (invariant_voting {x | Fresh s x} s.gcRound).handle
    (Invariant.Admits.of (fun hne => ?_) ?_ (fun x _ hok => ?_) (fun c _ hok => ?_)
      (fun _ _ _ _ => trivial) (fun x hx => ?_))
  · refine ⟨hs, rfl, hfresh _ (hstale _ ?_), fun _ hh => hh⟩
    cases input with
    | ownHeader x => exact absurd rfl (hne x)
    | _ => simp [unchecked]
  · cases input with
    | message _ => exact trivial
    | loopbackHeader x => exact hfresh x (hstale x List.mem_cons_self)
    | loopbackCertificate c => exact hfresh c.header (hstale c.header List.mem_cons_self)
    | ownHeader _ => exact trivial
  · unfold sanitizeHeader at hok
    exact hdoor x (of_decide_eq_true (ensure_bind_eq_ok.mp hok).1)
  · unfold sanitizeCertificate at hok
    exact hdoor c.header (of_decide_eq_true (ensure_bind_eq_ok.mp hok).1)
  · rw [hx] at hstale
    have hmem := hfresh x (hstale x List.mem_cons_self)
    exact ⟨⟨⟨hs.once, hs.remembered⟩, rfl, hmem, fun _ hh => hh⟩, hmem⟩

theorem Run.once (hrun : self.Run es n) (hstale : NoStale es) :
    Once n.core ∧ n.core.gcRound ≤ n.consensusRound - self.gcDepth := by
  refine System.Run.invariant (P := fun es n => NoStale es →
    Once n.core ∧ n.core.gcRound ≤ n.consensusRound - self.gcDepth) ?_ ?_ hrun hstale
  · intro _
    exact ⟨⟨fun x hx => absurd hx List.not_mem_nil, fun x hx => absurd hx List.not_mem_nil⟩,
      Nat.zero_le _⟩
  · intro es n a n' _ ih hnext hstale
    obtain ⟨honce, hgc⟩ := ih fun m b input m₀ hmem => hstale m b input m₀
      (List.mem_cons_of_mem _ hmem)
    obtain ⟨input, n₀, hinput, _, rfl⟩ | hbackground := next_cases hnext
    · have hvoting : Voting {x | Fresh n.core x} n.core.gcRound
          ((self.handle input).exec n.core).2 :=
        honce.handle (hstale n a input n₀ List.mem_cons_self hinput)
      obtain ⟨hcore, hround⟩ := Primary.of_input hinput
      have hle : ((self.handle input).exec n.core).2.gcRound
          ≤ n.consensusRound - self.gcDepth := by
        rw [hvoting.gcRound]
        exact hgc
      show Once (self.iterate n₀.consensusRound input n₀.core).1 ∧
        (self.iterate n₀.consensusRound input n₀.core).1.gcRound
          ≤ n₀.consensusRound - self.gcDepth
      rw [hcore, hround]
      unfold iterate
      split
      · next heq =>
        rw [heq] at hvoting hle
        exact ⟨hvoting.once, hle⟩
      · next heq =>
        rw [heq] at hvoting hle
        exact ⟨hvoting.once.cleanup hle, gcRound_cleanup hle⟩
    · have hsame := Primary.sameCore_of_background hbackground
      have hround := Primary.consensusRound_le_of_background hbackground
      refine ⟨⟨?_, ?_⟩, ?_⟩
      · rw [hsame.cast]
        exact honce.once
      · intro x hx hle
        rw [hsame.cast] at hx
        rw [hsame.gcRound] at hle
        unfold State.voted
        rw [hsame.lastVoted]
        exact honce.remembered x hx hle
      · rw [hsame.gcRound]
        omega

/-- **One vote per author and round**: unless a stale header is processed, no two votes
are created for different headers of one author and round. -/
theorem votes_once (hrun : self.Run es n) (hstale : NoStale es) :
    ∀ x ∈ n.core.cast, ∀ y ∈ n.core.cast, x.vote.origin = y.vote.origin →
      x.vote.round = y.vote.round → x.vote.id = y.vote.id :=
  (Run.once hrun hstale).1.once

/-- A header is voted for.  A second one of its author and round waits for its batch and is
looped back; later it comes in again, when the votes of its round have been cleaned up.  In
the next round two headers are voted for, one before the cleanup and one after it. -/
def sampleVotes : List Primary.Action :=
  [.othersBatch (sampleBatch 101) 0, .message (.header (sampleHeader 1 1 101 [1, 2, 3])),
    .message (.header (sampleHeader 1 1 111 [1, 2, 3])), .syncHeader,
    .othersBatch (sampleBatch 111) 0, .headerReady 0, .loopbackHeader,
    .message (.certificate (sampleCertificate 1 0 [1, 2, 3])),
    .message (.certificate (sampleCertificate 1 1 [1, 2, 3])),
    .message (.certificate (sampleCertificate 1 2 [1, 2, 3])),
    .othersBatch (sampleBatch 102) 0, .othersBatch (sampleBatch 103) 0, .committed 52,
    .message (.header (sampleHeader 2 1 102 [0, 1, 2])),
    .message (.header (sampleHeader 1 1 111 [1, 2, 3])),
    .message (.header (sampleHeader 2 2 103 [0, 1, 2]))]

omit [Crypto] in
set_option maxRecDepth 10000 in
theorem exists_votesRun :
    letI := sampleCrypto
    ∃ es n, sampleCore.Run es n ∧ NoStale es ∧ n.core.gcRound = 2 ∧ n.core.voted 1 = ∅ ∧
      n.core.cast.map (fun x => (x.vote.origin, x.vote.round, x.vote.id)) =
        [(sampleKey 1, 1, sampleDigest 1 101), (sampleKey 1, 2, sampleDigest 2 102),
          (sampleKey 2, 2, sampleDigest 2 103)] :=
  let _ := sampleCrypto
  let ⟨es, n, hrun, hcheck⟩ := System.exec_check sampleCore.system sampleVotes
    (fun es n => decide (NoStale es ∧ n.core.gcRound = 2 ∧ n.core.voted 1 = ∅ ∧
      n.core.cast.map (fun x => (x.vote.origin, x.vote.round, x.vote.id)) =
        [(sampleKey 1, 1, sampleDigest 1 101), (sampleKey 1, 2, sampleDigest 2 102),
          (sampleKey 2, 2, sampleDigest 2 103)]))
    (by decide +kernel)
  ⟨es, n, hrun, of_decide_eq_true hcheck⟩

omit [Crypto] in
/-- Three votes; the votes of the first round were cleaned up between them, and the second
header of one slot got none. -/
theorem votes_once_sample :
    letI := sampleCrypto
    ∃ es n, sampleCore.Run es n ∧ n.core.gcRound = 2 ∧ n.core.voted 1 = ∅ ∧
      n.core.cast.map (fun x => (x.vote.origin, x.vote.round, x.vote.id)) =
        [(sampleKey 1, 1, sampleDigest 1 101), (sampleKey 1, 2, sampleDigest 2 102),
          (sampleKey 2, 2, sampleDigest 2 103)] ∧
      ∀ x ∈ n.core.cast, ∀ y ∈ n.core.cast, x.vote.origin = y.vote.origin →
        x.vote.round = y.vote.round → x.vote.id = y.vote.id := by
  let _ := sampleCrypto
  obtain ⟨es, n, hrun, hstale, hgc, hvoted, hcast⟩ := exists_votesRun
  exact ⟨es, n, hrun, hgc, hvoted, hcast, votes_once hrun hstale⟩

/-! ## §3. Voting twice. -/

/-- A header of the second authority is voted for, another one of the same round waits
for its batch.  When the batch is there the header is looped back; it is processed after
the votes of its round were cleaned up. -/
def sampleTwoVotes : List Primary.Action :=
  [.othersBatch (sampleBatch 101) 0, .message (.header (sampleHeader 1 1 101 [1, 2, 3])),
    .message (.header (sampleHeader 1 1 102 [1, 2, 3])), .syncHeader,
    .othersBatch (sampleBatch 102) 0, .headerReady 0, .committed 60,
    .message (.header (sampleHeader 1 1 101 [1, 2, 3])), .loopbackHeader]

omit [Crypto] in
set_option maxRecDepth 10000 in
theorem exists_twoVotesRun :
    letI := sampleCrypto
    ∃ es n, sampleCore.Run es n ∧
      n.core.cast.map (fun x => (x.vote.origin, x.vote.round, x.vote.id)) =
        [(sampleKey 1, 1, sampleDigest 1 101), (sampleKey 1, 1, sampleDigest 1 102)] :=
  let _ := sampleCrypto
  let ⟨es, n, hrun, hcheck⟩ := System.exec_check sampleCore.system sampleTwoVotes
    (fun _ n => decide (n.core.cast.map (fun x => (x.vote.origin, x.vote.round, x.vote.id)) =
      [(sampleKey 1, 1, sampleDigest 1 101), (sampleKey 1, 1, sampleDigest 1 102)]))
    (by decide +kernel)
  ⟨es, n, hrun, of_decide_eq_true hcheck⟩

omit [Crypto] in
/-- **Two votes for one author and round.** -/
theorem votes_twice :
    ¬ ∀ (_ : Crypto) (core : Core) (es : History) (n : Primary), core.Run es n →
      ∀ x ∈ n.core.cast, ∀ y ∈ n.core.cast, x.vote.origin = y.vote.origin →
        x.vote.round = y.vote.round → x.vote.id = y.vote.id := by
  intro h
  obtain ⟨es, n, hrun, hcast⟩ := exists_twoVotesRun
  have honce := h sampleCrypto sampleCore es n hrun
  obtain ⟨x, y, hxy⟩ : ∃ x y, n.core.cast = [x, y] := by
    have hlength := congrArg List.length hcast
    rw [List.length_map] at hlength
    exact List.length_eq_two.mp hlength
  rw [hxy] at hcast honce
  simp only [List.map_cons, List.map_nil, List.cons.injEq, Prod.mk.injEq, and_true] at hcast
  obtain ⟨⟨hxo, hxr, hxid⟩, hyo, hyr, hyid⟩ := hcast
  have hid := honce x List.mem_cons_self y (List.mem_cons_of_mem _ List.mem_cons_self)
    (hxo.trans hyo.symm) (hxr.trans hyr.symm)
  rw [hxid, hyid] at hid
  exact absurd hid (by decide)

end Core

end Mrv
