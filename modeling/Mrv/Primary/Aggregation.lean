/-
  Mrv.Primary.Aggregation — votes and the certificate made of them.

  The aggregator counts the stake of voters as they come and sets the count back
  to zero when it reaches a quorum; `Certificate.verify` counts the votes of a
  certificate from scratch.  Both agree (`votes_aggregate_once`): of the votes on
  our current header one completes a quorum of distinct authorities, at that vote
  a certificate comes out, and the certificate is verified.
-/
import Mrv.Primary.Run

namespace Mrv

open Quorum (Counted)

namespace VotesAggregator

variable [Crypto] {committee : Committee} {header : Header} {a : VotesAggregator}
  {votes vs : List Vote} {v : Vote}

/-! ## §1. The aggregator after a list of votes. -/

omit [Crypto] in
/-- What the votes of a list leave. -/
def appendAll (committee : Committee) (header : Header) (votes : List Vote) : VotesAggregator :=
  votes.foldl (fun a v => (a.append v committee header).2) .new

/-- The distinct voters of a list of votes. -/
def voters (votes : List Vote) : Finset PublicKey := (votes.map Vote.author).toFinset

/-- The stake of the distinct voters. -/
def votersStake (committee : Committee) (votes : List Vote) : ℕ :=
  ∑ a ∈ voters votes, committee.weight a

omit [Crypto] in
@[simp] theorem appendAll_nil : appendAll committee header [] = .new := rfl

omit [Crypto] in
theorem appendAll_concat : appendAll committee header (vs ++ [v])
    = ((appendAll committee header vs).append v committee header).2 := by
  simp [appendAll, List.foldl_append]

omit [Crypto] in
theorem voters_concat : voters (vs ++ [v]) = insert v.author (voters vs) := by
  ext name
  simp only [voters, List.map_append, List.map_singleton, List.mem_toFinset, List.mem_append,
    List.mem_singleton, Finset.mem_insert]
  exact or_comm

omit [Crypto] in
theorem votersStake_concat_of_mem (h : v.author ∈ voters vs) :
    votersStake committee (vs ++ [v]) = votersStake committee vs := by
  unfold votersStake
  rw [voters_concat, Finset.insert_eq_of_mem h]

omit [Crypto] in
theorem votersStake_concat (h : v.author ∉ voters vs) :
    votersStake committee (vs ++ [v]) = votersStake committee vs + committee.weight v.author := by
  unfold votersStake
  rw [voters_concat, Finset.sum_insert h, add_comm]

omit [Crypto] in
/-- More votes, more stake. -/
theorem votersStake_mono (vs ws : List Vote) :
    votersStake committee vs ≤ votersStake committee (vs ++ ws) := by
  apply Finset.sum_le_sum_of_subset
  intro a ha
  unfold voters at ha ⊢
  rw [List.mem_toFinset] at ha ⊢
  rw [List.map_append]
  exact List.mem_append_left _ ha

/-- What the aggregator keeps of the votes it was given. -/
structure Tallied (committee : Committee) (votes : List Vote) (a : VotesAggregator) : Prop where
  used : a.used = voters votes
  counted : Counted committee.quorumThreshold.toNat (votersStake committee votes) a.weight.toNat
  names : (a.votes.map Prod.fst).Nodup
  named : (a.votes.map Prod.fst).toFinset = a.used
  voted : ∀ e ∈ a.votes, ∃ v ∈ votes, e = (v.author, v.signature)

omit [Crypto] in
/-- The votes kept carry the stake of the voters. -/
theorem Tallied.sum_weight {votes : List Vote} {a : VotesAggregator}
    (h : Tallied committee votes a) :
    (a.votes.map (fun e => committee.weight e.1)).sum = votersStake committee votes := by
  unfold votersStake
  rw [← h.used, ← h.named, List.sum_toFinset _ h.names, List.map_map]
  rfl

section

variable (hfit : 2 * committee.totalStake < 2 ^ 32)

include hfit

omit [Crypto] hfit in
theorem Tallied.new : Tallied committee [] VotesAggregator.new := by
  refine ⟨rfl, ?_, List.nodup_nil, rfl, fun e he => absurd he List.not_mem_nil⟩
  exact Counted.zero committee.quorumThreshold_pos

omit [Crypto] in
/-- The condition that `append` tests, on a voter not used before. -/
theorem Tallied.reached_iff (h : Tallied committee vs a) (hnew : v.author ∉ a.used) :
    committee.quorumThreshold ≤ a.weight + committee.stake v.author ↔
      committee.quorumThreshold.toNat ≤ a.weight.toNat + committee.weight v.author := by
  rw [UInt32.le_iff_toNat_le]
  have hle := h.counted.le
  unfold votersStake at hle
  rw [h.used] at hnew
  rw [Committee.toNat_add_stake hfit hnew hle]

omit [Crypto] hfit in
/-- The sum that the stakes of the voters cannot exceed. -/
theorem Tallied.sum_le (h : Tallied committee vs a) (hnew : v.author ∉ a.used) :
    votersStake committee vs + committee.weight v.author ≤ committee.totalStake := by
  rw [h.used] at hnew
  rw [← votersStake_concat hnew]
  exact Committee.sum_weight_le_totalStake _

omit [Crypto] hfit in
/-- The votes and the used authorities after a vote of a new voter. -/
theorem Tallied.insert (h : Tallied committee vs a) (hnew : v.author ∉ a.used) {weight : Stake}
    (hcounted : Counted committee.quorumThreshold.toNat
      (votersStake committee vs + committee.weight v.author) weight.toNat) :
    Tallied committee (vs ++ [v])
      { weight, votes := a.votes ++ [(v.author, v.signature)], used := insert v.author a.used } := by
  have hvoters : v.author ∉ voters vs := by
    rw [← h.used]
    exact hnew
  refine ⟨?_, ?_, ?_, ?_, ?_⟩
  · rw [voters_concat, ← h.used]
  · rw [votersStake_concat hvoters]
    exact hcounted
  · rw [List.map_append, List.nodup_append]
    refine ⟨h.names, List.nodup_singleton _, fun x hx y hy => ?_⟩
    rw [List.map_singleton, List.mem_singleton] at hy
    rw [hy]
    intro heq
    rw [heq] at hx
    exact hnew (h.named ▸ List.mem_toFinset.mpr hx)
  · rw [← h.named]
    ext name
    simp only [List.map_append, List.map_singleton, List.mem_toFinset, List.mem_append,
      List.mem_singleton, Finset.mem_insert]
    exact or_comm
  · intro e he
    obtain hold | hlast := List.mem_append.mp he
    · obtain ⟨w, hw, heq⟩ := h.voted e hold
      exact ⟨w, List.mem_append_left _ hw, heq⟩
    · exact ⟨v, List.mem_append_right _ List.mem_cons_self, List.mem_singleton.mp hlast⟩

omit [Crypto] in
/-- **One vote.** -/
theorem Tallied.append (h : Tallied committee vs a) :
    Tallied committee (vs ++ [v]) (a.append v committee header).2 := by
  unfold VotesAggregator.append
  by_cases hused : v.author ∈ a.used
  · rw [if_pos hused]
    have hvoters : v.author ∈ voters vs := by
      rw [← h.used]
      exact hused
    refine ⟨?_, ?_, h.names, h.named, ?_⟩
    · rw [voters_concat, Finset.insert_eq_of_mem hvoters, h.used]
    · rw [votersStake_concat_of_mem hvoters]
      exact h.counted
    · intro e he
      obtain ⟨w, hw, heq⟩ := h.voted e he
      exact ⟨w, List.mem_append_left _ hw, heq⟩
  · rw [if_neg hused]
    have hT := Committee.totalStake_lt_two_quorums hfit
    have hle := h.sum_le hused
    have hiff := h.reached_iff hfit hused
    dsimp only
    split
    · next hreached =>
      exact h.insert hused (h.counted.reset hT hle (hiff.mp hreached))
    · next hnot =>
      apply h.insert hused
      have hsum : (a.weight + committee.stake v.author).toNat
          = a.weight.toNat + committee.weight v.author := by
        have hcount := h.counted.le
        unfold votersStake at hcount
        rw [h.used] at hused
        exact Committee.toNat_add_stake hfit hused hcount
      rw [hsum]
      exact h.counted.add (fun hr => hnot (hiff.mpr hr))

omit [Crypto] in
theorem tallied_appendAll (votes : List Vote) :
    Tallied committee votes (appendAll committee header votes) := by
  induction votes using List.reverseRecOn with
  | nil => exact Tallied.new
  | append_singleton vs v ih =>
      rw [appendAll_concat]
      exact ih.append hfit

end

/-! ## §2. The certificate. -/

/-- After the votes of a list, one more vote completes a certificate. -/
def Completes (committee : Committee) (header : Header) (vs : List Vote) (v : Vote)
    (c : Certificate) : Prop :=
  ((appendAll committee header vs).append v committee header).1 = .ok (some c)

section

variable (hfit : 2 * committee.totalStake < 2 ^ 32)

include hfit

omit [Crypto] in
/-- **A certificate comes out when the voters reach a quorum.** -/
theorem completes_iff :
    (∃ c, Completes committee header vs v c) ↔
      votersStake committee vs < committee.quorumThreshold.toNat ∧
        committee.quorumThreshold.toNat ≤ votersStake committee (vs ++ [v]) := by
  have h : Tallied committee vs (appendAll committee header vs) := tallied_appendAll hfit vs
  unfold Completes VotesAggregator.append
  by_cases hused : v.author ∈ (appendAll committee header vs).used
  · rw [if_pos hused]
    rw [h.used] at hused
    rw [votersStake_concat_of_mem hused]
    constructor
    · intro hc
      obtain ⟨c, hc⟩ := hc
      simp at hc
    · intro hcross
      omega
  · rw [if_neg hused]
    have hiff := h.reached_iff hfit hused
    have hcross := h.counted.reached_iff (Committee.totalStake_lt_two_quorums hfit)
      (h.sum_le hused)
    rw [h.used] at hused
    rw [votersStake_concat hused, ← hcross, ← hiff]
    dsimp only
    split
    · next hreached => simp [hreached]
    · next hnot => simp [hnot]

end

omit [Crypto] in
/-- What comes out has the header, and the votes counted with the last one added. -/
theorem Completes.eq {c : Certificate} (h : Completes committee header vs v c) :
    c.header = header ∧ c.votes = (appendAll committee header (vs ++ [v])).votes := by
  rw [appendAll_concat]
  unfold Completes at h
  unfold VotesAggregator.append at h ⊢
  by_cases hused : v.author ∈ (appendAll committee header vs).used
  · rw [if_pos hused] at h
    simp at h
  · rw [if_neg hused] at h ⊢
    dsimp only at h ⊢
    split at h
    · next hreached =>
      rw [if_pos hreached]
      rw [← Option.some.inj (Except.ok.inj h)]
      exact ⟨rfl, rfl⟩
    · simp at h

omit [Crypto] in
/-- A vote of an authority that voted before. -/
theorem append_of_voted (hfit : 2 * committee.totalStake < 2 ^ 32) (h : v.author ∈ voters vs) :
    (appendAll committee header vs).append v committee header
      = (.error (.authorityReuse v.author), appendAll committee header vs) := by
  have htallied : Tallied committee vs (appendAll committee header vs) := tallied_appendAll hfit vs
  rw [← htallied.used] at h
  unfold VotesAggregator.append
  rw [if_pos h]

end VotesAggregator

/-! ## §3. Our votes and the verifier. -/

open VotesAggregator (appendAll voters votersStake Completes append_of_voted completes_iff)

namespace Core

variable [Crypto] {self : Core} {header : Header}

/-- A vote that reaches the aggregator while `header` is the current header: it passed
`sanitize_vote`, or it is our own vote for the header, which is ours. -/
def VoteFor (self : Core) (header : Header) (v : Vote) : Prop :=
  (∃ s : State, s.currentHeader = header ∧ self.sanitizeVote s v = .ok ()) ∨
    (header.author = self.name ∧ v = Vote.new header self.name)

/-- Our own signatures are valid. -/
def SignsWell (self : Core) : Prop :=
  ∀ digest, Crypto.verify (Crypto.sign self.name digest) digest self.name = true

/-- The voter has stake, and signed what a certificate of the header is checked for. -/
theorem VoteFor.signed {v : Vote} (h : self.VoteFor header v) (hsigns : self.SignsWell)
    (hheader : header.verify self.committee = .ok ()) :
    0 < self.committee.stake v.author ∧
      Crypto.verify v.signature (certifiedDigest header.id header.round header.author) v.author
        = true := by
  obtain ⟨s, hcurrent, hok⟩ | ⟨hauthor, hvote⟩ := h
  · unfold sanitizeVote at hok
    obtain ⟨_, hok⟩ := ensure_bind_eq_ok.mp hok
    obtain ⟨hexpected, hok⟩ := ensure_bind_eq_ok.mp hok
    obtain ⟨hid, horigin, hround⟩ := of_decide_eq_true hexpected
    unfold Vote.verify at hok
    obtain ⟨hstake, hok⟩ := ensure_bind_eq_ok.mp hok
    have hsigned := ensure_eq_ok.mp hok
    unfold Vote.digest at hsigned
    rw [hid, horigin, hround, hcurrent] at hsigned
    exact ⟨of_decide_eq_true hstake, hsigned⟩
  · rw [hvote]
    unfold Header.verify at hheader
    obtain ⟨_, hrest⟩ := ensure_bind_eq_ok.mp hheader
    obtain ⟨hstake, _⟩ := ensure_bind_eq_ok.mp hrest
    rw [hauthor] at hstake
    exact ⟨of_decide_eq_true hstake, hsigns _⟩

/-- A certificate made of such votes is verified. -/
theorem verify_of_completes (hfit : 2 * self.committee.totalStake < 2 ^ 32)
    (hbatch : ∀ digest votes, (∀ e ∈ votes, Crypto.verify e.2 digest e.1 = true) →
      Crypto.verifyBatch digest votes = true)
    (hsigns : self.SignsWell) (hheader : header.verify self.committee = .ok ())
    {vs : List Vote} {v : Vote} (hvotes : ∀ w ∈ vs ++ [v], self.VoteFor header w)
    {c : Certificate} (hc : Completes self.committee header vs v c) :
    c.verify self.committee = .ok () := by
  by_cases hthrough : Certificate.LetThrough self.committee c
  · exact Certificate.verify_of_letThrough hthrough
  obtain ⟨hcheader, hcvotes⟩ := hc.eq
  have htallied : VotesAggregator.Tallied self.committee (vs ++ [v])
      (appendAll self.committee header (vs ++ [v])) := VotesAggregator.tallied_appendAll hfit _
  have hcross := (completes_iff hfit).mp ⟨c, hc⟩
  have hsigned : ∀ e ∈ c.votes, 0 < self.committee.stake e.1 ∧
      Crypto.verify e.2 c.digest e.1 = true := by
    intro e he
    rw [hcvotes] at he
    obtain ⟨w, hw, heq⟩ := htallied.voted e he
    rw [heq]
    show _ ∧ Crypto.verify _ (certifiedDigest c.header.id c.header.round c.header.author) _ = _
    rw [hcheader]
    exact (hvotes w hw).signed hsigns hheader
  have hsum : (c.votes.map (fun e => self.committee.weight e.1)).sum
      = votersStake self.committee (vs ++ [v]) := by
    rw [hcvotes]
    exact htallied.sum_weight
  have hle := self.committee.sum_weight_le_totalStake (voters (vs ++ [v]))
  rw [Certificate.verify_of_not_letThrough hthrough]
  unfold Certificate.verifyQuorum
  rw [hcheader]
  refine bind_eq_ok.mpr ⟨(), hheader, bind_eq_ok.mpr
    ⟨(c.votes.map (fun e => self.committee.stake e.1)).sum, ?_, ?_⟩⟩
  · apply Certificate.verifyVotes_eq_ok.mpr
    refine ⟨?_, fun _ _ => Finset.notMem_empty _, fun e he => (hsigned e he).1, zero_add _⟩
    rw [hcvotes]
    exact htallied.names
  · apply ensure_bind_eq_ok.mpr
    refine ⟨decide_eq_true ?_, ensure_eq_ok.mpr (hbatch _ _ fun e he => (hsigned e he).2)⟩
    have hnat : (c.votes.map (fun e => self.committee.stake e.1)).sum.toNat
        = votersStake self.committee (vs ++ [v]) := by
      rw [Committee.toNat_sum, List.map_map]
      show (c.votes.map (fun e => self.committee.weight e.1)).sum % 2 ^ 32 = _
      rw [hsum]
      apply Nat.mod_eq_of_lt
      unfold votersStake
      omega
    rw [UInt32.le_iff_toNat_le, hnat]
    exact hcross.2

/-- **The aggregator and the verifier agree**: over any votes for the current header, a
certificate comes out at one vote at most, exactly when the distinct voters reach a
quorum; a voter who comes again changes nothing; and the certificate is verified. -/
theorem votes_aggregate_once (self : Core) (header : Header) (votes : List Vote)
    (hfit : 2 * self.committee.totalStake < 2 ^ 32)
    (hbatch : ∀ digest votes, (∀ e ∈ votes, Crypto.verify e.2 digest e.1 = true) →
      Crypto.verifyBatch digest votes = true)
    (hsigns : self.SignsWell) (hheader : header.verify self.committee = .ok ())
    (hvotes : ∀ v ∈ votes, self.VoteFor header v) :
    (∀ vs v rest vs' v' rest' c c', votes = vs ++ v :: rest → votes = vs' ++ v' :: rest' →
      Completes self.committee header vs v c → Completes self.committee header vs' v' c' →
      vs = vs') ∧
    (∀ vs v rest, votes = vs ++ v :: rest →
      ((∃ c, Completes self.committee header vs v c) ↔
        votersStake self.committee vs < self.committee.quorumThreshold.toNat ∧
          self.committee.quorumThreshold.toNat ≤ votersStake self.committee (vs ++ [v]))) ∧
    (∀ vs v rest, votes = vs ++ v :: rest → v.author ∈ voters vs →
      (appendAll self.committee header vs).append v self.committee header
        = (.error (.authorityReuse v.author), appendAll self.committee header vs)) ∧
    ∀ vs v rest c, votes = vs ++ v :: rest → Completes self.committee header vs v c →
      c.verify self.committee = .ok () := by
  refine ⟨?_, fun _ _ _ _ => completes_iff hfit, fun _ _ _ _ => append_of_voted hfit, ?_⟩
  · intro vs v rest vs' v' rest' c c' hsplit hsplit' hc hc'
    have hcross := (completes_iff hfit).mp ⟨c, hc⟩
    have hcross' := (completes_iff hfit).mp ⟨c', hc'⟩
    -- of two such votes the later one comes when the quorum is already there
    have hshort : ∀ ws ws' : List Vote, ∀ w : Vote, ws ++ [w] <+: ws' →
        self.committee.quorumThreshold.toNat ≤ votersStake self.committee (ws ++ [w]) →
        ¬ votersStake self.committee ws' < self.committee.quorumThreshold.toNat := by
      intro ws ws' w hprefix hle
      obtain ⟨tail, rfl⟩ := hprefix
      have hmono : votersStake self.committee (ws ++ [w])
          ≤ votersStake self.committee (ws ++ [w] ++ tail) := VotesAggregator.votersStake_mono _ _
      omega
    have hp : vs ++ [v] <+: votes := ⟨rest, by rw [hsplit]; simp⟩
    have hp' : vs' ++ [v'] <+: votes := ⟨rest', by rw [hsplit']; simp⟩
    have hvs : vs <+: votes := (List.prefix_append vs [v]).trans hp
    have hvs' : vs' <+: votes := (List.prefix_append vs' [v']).trans hp'
    obtain hlt | heq | hgt := lt_trichotomy vs.length vs'.length
    · refine absurd hcross'.1 (hshort vs vs' v ?_ hcross.2)
      exact List.prefix_of_prefix_length_le hp hvs' (by simpa using hlt)
    · exact (List.prefix_of_prefix_length_le hvs hvs' heq.le).eq_of_length heq
    · refine absurd hcross.1 (hshort vs' vs v' ?_ hcross'.2)
      exact List.prefix_of_prefix_length_le hp' hvs (by simpa using hgt)
  · intro vs v rest c hsplit hc
    refine verify_of_completes hfit hbatch hsigns hheader (fun w hw => hvotes w ?_) hc
    rw [hsplit]
    obtain hw | hw := List.mem_append.mp hw
    · exact List.mem_append_left _ hw
    · exact List.mem_append_right _ (List.mem_cons.mpr (Or.inl (List.mem_singleton.mp hw)))

/-- Our vote for a header of ours, and those of the other three authorities, the first of
them twice. -/
def sampleBallot : List Vote :=
  [3, 0, 0, 1, 2].map (fun a => { id := sampleDigest 1 103, round := 1, origin := sampleKey 3,
                                  author := sampleKey a, signature := Signature.default })

omit [Crypto] in
theorem voteFor_sampleBallot :
    letI := sampleCrypto
    ∀ v ∈ sampleBallot, sampleCore.VoteFor (sampleHeader 1 3 103 [1, 2, 3]) v := by
  let _ := sampleCrypto
  intro v hv
  refine Or.inl ⟨{ State.new with currentHeader := sampleHeader 1 3 103 [1, 2, 3] }, rfl, ?_⟩
  revert v
  decide +kernel

omit [Crypto] in
/-- The certificate comes out at the vote of the second authority. -/
theorem votes_aggregate_once_sample :
    letI := sampleCrypto
    ∃ c, Completes sampleCore.committee (sampleHeader 1 3 103 [1, 2, 3]) (sampleBallot.take 3)
        { id := sampleDigest 1 103, round := 1, origin := sampleKey 3, author := sampleKey 1,
          signature := Signature.default } c ∧
      c.verify sampleCore.committee = .ok () := by
  let _ := sampleCrypto
  have h := votes_aggregate_once sampleCore (sampleHeader 1 3 103 [1, 2, 3]) sampleBallot
    (by decide) (fun _ _ _ => rfl) (fun _ => rfl) (by decide +kernel) voteFor_sampleBallot
  obtain ⟨_, hiff, _, hverified⟩ := h
  obtain ⟨c, hc⟩ := (hiff (sampleBallot.take 3) _ (sampleBallot.drop 4) rfl).mpr (by decide)
  exact ⟨c, hc, hverified _ _ _ c rfl hc⟩

end Core

end Mrv
