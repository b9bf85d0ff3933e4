/-
  Mrv.Executor.Evidence — what the verdicts say about the DAG.

    * `descendant_not_better` — an ancestor is seen by whoever sees its descendant, so no
                                verdict prefers the descendant,
    * `better_not_forged`     — a lead of f + 1 authors has one that is not faulty,
    * `mature_seen_by_all`    — the 2f + 1 authors behind a mature state meet every quorum
                                of parents: all later certificates see it.
-/
import Mrv.Executor.Verdict
import Mrv.Executor.Visibility

namespace Mrv

open Relation (ReflTransGen)

/-! ## §1. Mature states. -/

namespace AufState

/-- A mature state was seen by enough authors in the round of its horizon. -/
def Backed (reachThreshold : ℕ) (st : AufState) : Prop :=
  st.mature = true → ∃ h, st.horizon = some h ∧
    reachThreshold ≤ ((st.seenByRound.get h).getD ∅).card

variable {st : AufState} {reachThreshold : ℕ}

theorem Backed.see (h : Backed reachThreshold st) (round : ℕ) (author : PublicKey) :
    Backed reachThreshold (st.see reachThreshold round author) := by
  have hget := get_see st reachThreshold round author
  rw [see_eq] at hget ⊢
  unfold Backed
  dsimp only at hget ⊢
  split
  · next hhits =>
    refine fun _ => ⟨round, rfl, ?_⟩
    rw [hget, if_pos rfl]
    exact hhits.2.2
  · intro hmature
    obtain ⟨k, hk, hcard⟩ := h hmature
    refine ⟨k, hk, hcard.trans (Finset.card_le_card ?_)⟩
    rw [hget]
    split
    · next heq =>
      rw [heq]
      exact Finset.subset_insert _ _
    · exact Finset.Subset.refl _

theorem Backed.cap (h : Backed reachThreshold st) (core : MrvExecutor) (frontierRound : ℕ) :
    Backed reachThreshold (core.capState frontierRound st) := by
  unfold MrvExecutor.capState
  dsimp only
  split
  · exact h
  · split
    · exact fun hmature => Bool.noConfusion hmature
    · exact h

end AufState

variable [Crypto]

namespace MrvExecutor

variable {core : MrvExecutor} {s : State} {cs : List Certificate} {a b : Digest}
  {stA stB : AufState}

/-! ## §2. Counts and origins. -/

omit [Crypto] in
theorem seenCountAt_eq {st : AufState} (ha : s.aufStates.lookup a = some st) (r : ℕ) :
    s.seenCountAt a r = ((st.seenByRound.get r).getD ∅).card := by
  unfold State.seenCountAt
  rw [ha, Option.bind_some]
  cases st.seenByRound.get r with
  | none => rfl
  | some seen => rfl

omit [Crypto] in
/-- Whoever sees a descendant sees the ancestor. -/
theorem seers_subset [Crypto] {store : HashMap Digest Certificate} (h : Reaches store b a) (r : ℕ) :
    seers cs store b r ⊆ seers cs store a r := by
  rintro author ⟨x, hx, hround, horigin, hpath⟩
  exact ⟨x, hx, hround, horigin, ReflTransGen.trans hpath h⟩

theorem Tracks.seen_subset (h : Tracks cs s) (ha : s.aufStates.lookup a = some stA)
    (hb : s.aufStates.lookup b = some stB) (hreach : Reaches s.store b a) (r : ℕ) :
    (stB.seenByRound.get r).getD ∅ ⊆ (stA.seenByRound.get r).getD ∅ := by
  intro author hauthor
  rw [h.counted a stA ha]
  exact seers_subset hreach r ((h.counted b stB hb r author).mp hauthor)

/-- The count is the number of origins that see the certificate. -/
theorem Tracks.seenCountAt (h : Tracks cs s) (ha : s.aufStates.lookup a = some stA) (r : ℕ) :
    s.seenCountAt a r = (seers cs s.store a r).ncard := by
  have hset : seers cs s.store a r = ((stA.seenByRound.get r).getD ∅ : Finset PublicKey) := by
    ext author
    exact (h.counted a stA ha r author).symm
  rw [hset, Set.ncard_coe_finset, seenCountAt_eq ha]

/-! ## §3. Ancestors. -/

/-- A descendant leads nowhere. -/
theorem Tracks.lead_nonpos (h : Tracks cs s) (ha : s.aufStates.lookup a = some stA)
    (hb : s.aufStates.lookup b = some stB) (hreach : Reaches s.store b a) (r : ℕ) :
    lead s b a r ≤ 0 := by
  have hcard := Finset.card_le_card (h.seen_subset ha hb hreach r)
  unfold lead
  rw [seenCountAt_eq ha, seenCountAt_eq hb]
  omega

theorem Tracks.not_better (hdelta : 0 < core.deltaThreshold) (h : Tracks cs s)
    (hreach : Reaches s.store b a) : ¬ core.Better s b a := by
  rw [better_iff hdelta]
  rintro ⟨stB, stA, _, _, hb, ha, _, _, _, _, ⟨r, _, hlead⟩, _⟩
  have hle := h.lead_nonpos ha hb hreach r
  omega

/-- **No verdict puts a descendant before its ancestor**: at every stage whoever sees the
descendant in a round sees the ancestor, and `compare_pair` does not prefer the descendant. -/
theorem descendant_not_better (committeeSize windowCap : ℕ) (capacity : Option ℕ)
    {ops : Operations} {g : Stage}
    (hops : (spawn committeeSize windowCap capacity).Passes ops g)
    (hcausal : Causal g.certificates) (ha : g.state.aufStates.lookup a = some stA)
    (hb : g.state.aufStates.lookup b = some stB) (hreach : Reaches g.state.store b a) :
    let core := spawn committeeSize windowCap capacity
    (∀ r, (stB.seenByRound.get r).getD ∅ ⊆ (stA.seenByRound.get r).getD ∅) ∧
      core.comparePair g.state a b ≠ some .bBetter ∧
      core.comparePair g.state b a ≠ some .aBetter := by
  have hdelta := deltaThreshold_spawn committeeSize windowCap capacity
  have htracks := hops.tracks hcausal
  have hnot := htracks.not_better hdelta hreach
  refine ⟨fun r => htracks.seen_subset ha hb hreach r, ?_, hnot⟩
  rw [Ne, comparePair_flip hdelta]
  exact hnot

omit [Crypto] in
set_option maxRecDepth 10000 in
/-- The stage after the contest was recorded: both certificates of round 1 are mature, and
the first is seen by more authors in round 2. -/
theorem exists_contestStage :
    letI := sampleCrypto
    ∃ ops g stA stB stC, (spawn 4 2 none).Passes ops g ∧ g.certificates = sampleContest ∧
      Causal g.certificates ∧
      g.state.aufStates.lookup (sampleDigest 1 0) = some stA ∧
      g.state.aufStates.lookup (sampleDigest 1 1) = some stB ∧
      g.state.aufStates.lookup (sampleDigest 2 0) = some stC ∧
      Link g.state.store (sampleDigest 2 0) (sampleDigest 1 0) ∧
      (spawn 4 2 none).comparePair g.state (sampleDigest 1 0) (sampleDigest 1 1) = some .aBetter :=
  let _ := sampleCrypto
  let ⟨ops, g, hops, hcheck⟩ := System.exec_check (spawn 4 2 none).stages
    (sampleContest.map .register)
    (fun _ g => decide (g.certificates = sampleContest ∧ Causal g.certificates ∧
      (g.state.aufStates.lookup (sampleDigest 1 0)).isSome ∧
      (g.state.aufStates.lookup (sampleDigest 1 1)).isSome ∧
      (g.state.aufStates.lookup (sampleDigest 2 0)).isSome ∧
      (g.state.store.lookup (sampleDigest 2 0)).any (fun c =>
        decide (sampleDigest 1 0 ∈ c.header.parents)) = true ∧
      (spawn 4 2 none).comparePair g.state (sampleDigest 1 0) (sampleDigest 1 1) =
        some .aBetter)) (by decide +kernel)
  let ⟨hcs, hcausal, hA, hB, hC, hlink, hbetter⟩ := of_decide_eq_true hcheck
  let ⟨stA, hstA⟩ := Option.isSome_iff_exists.mp hA
  let ⟨stB, hstB⟩ := Option.isSome_iff_exists.mp hB
  let ⟨stC, hstC⟩ := Option.isSome_iff_exists.mp hC
  let ⟨c, hc, hmem⟩ := (Option.any_eq_true _ _).mp hlink
  ⟨ops, g, stA, stB, stC, hops, hcs, hcausal, hstA, hstB, hstC,
    ⟨c, hc, of_decide_eq_true hmem⟩, hbetter⟩

omit [Crypto] in
/-- The first certificate of the contest is a parent of one of round 2. -/
theorem descendant_not_better_sample :
    letI := sampleCrypto
    ∃ ops g stA stB, (spawn 4 2 none).Passes ops g ∧ g.certificates = sampleContest ∧
      g.state.aufStates.lookup (sampleDigest 1 0) = some stA ∧
      g.state.aufStates.lookup (sampleDigest 2 0) = some stB ∧
      (∀ r, (stB.seenByRound.get r).getD ∅ ⊆ (stA.seenByRound.get r).getD ∅) ∧
      (spawn 4 2 none).comparePair g.state (sampleDigest 1 0) (sampleDigest 2 0) ≠ some .bBetter ∧
      (spawn 4 2 none).comparePair g.state (sampleDigest 2 0) (sampleDigest 1 0) ≠ some .aBetter := by
  let _ := sampleCrypto
  obtain ⟨ops, g, stA, _, stC, hops, hcs, hcausal, hA, _, hC, hlink, _⟩ := exists_contestStage
  exact ⟨ops, g, stA, stC, hops, hcs, hA, hC,
    descendant_not_better 4 2 none hops hcausal hA hC (ReflTransGen.single hlink)⟩

/-! ## §4. Faulty creators. -/

omit [Crypto] in
/-- A lead of more authors than there are faulty ones has one that is not faulty. -/
theorem exists_correct_of_lead {F : Finset PublicKey} (ha : s.aufStates.lookup a = some stA)
    (hb : s.aufStates.lookup b = some stB) {r : ℕ} (hlead : (F.card : ℤ) < lead s a b r) :
    ∃ author ∈ (stA.seenByRound.get r).getD ∅,
      author ∉ (stB.seenByRound.get r).getD ∅ ∧ author ∉ F := by
  by_contra hall
  push Not at hall
  have hsub : (stA.seenByRound.get r).getD ∅ ⊆ (stB.seenByRound.get r).getD ∅ ∪ F := by
    intro author hauthor
    rw [Finset.mem_union]
    by_cases hseen : author ∈ (stB.seenByRound.get r).getD ∅
    · exact Or.inl hseen
    · exact Or.inr (hall author hauthor hseen)
  have hcard := (Finset.card_le_card hsub).trans (Finset.card_union_le _ _)
  unfold lead at hlead
  rw [seenCountAt_eq ha, seenCountAt_eq hb] at hlead
  omega

/-- **A positive verdict cannot be forged by the faulty creators alone**: `compare_pair`
finds the first better exactly if it finds so with the two exchanged, and then a creator
that is not faulty has a certificate, of a round after both, that sees the first and not the
second, while the second nowhere leads by f + 1. -/
theorem better_not_forged (committeeSize windowCap : ℕ) (capacity : Option ℕ)
    {ops : Operations} {g : Stage}
    (hops : (spawn committeeSize windowCap capacity).Passes ops g)
    (hcausal : Causal g.certificates) {F : Finset PublicKey}
    (hF : F.card ≤ (committeeSize - 1) / 3) (ha : g.state.aufStates.lookup a = some stA)
    (hb : g.state.aufStates.lookup b = some stB) :
    let core := spawn committeeSize windowCap capacity
    (core.comparePair g.state a b = some .aBetter ↔ core.comparePair g.state b a = some .bBetter) ∧
      (core.comparePair g.state a b = some .aBetter →
        (∃ x ∈ g.certificates, stA.round < x.round ∧ stB.round < x.round ∧ x.origin ∉ F ∧
          Reaches g.state.store x.digest a ∧ ¬ Reaches g.state.store x.digest b) ∧
        ∀ horizonA horizonB r, stA.horizon = some horizonA → stB.horizon = some horizonB →
          stA.round < r → stB.round < r → r ≤ max horizonA horizonB →
            (seers g.certificates g.state.store b r).ncard <
              (seers g.certificates g.state.store a r).ncard + (committeeSize - 1) / 3 + 1) := by
  have hdelta := deltaThreshold_spawn committeeSize windowCap capacity
  have htracks := hops.tracks hcausal
  have hthreshold : (spawn committeeSize windowCap capacity).deltaThreshold =
      ((committeeSize - 1) / 3 : ℕ) + 1 := by
    show (((max committeeSize 1 - 1) / 3 : ℕ) : ℤ) + 1 = _
    have hsize : max committeeSize 1 - 1 = committeeSize - 1 := by omega
    rw [hsize]
  refine ⟨(comparePair_flip hdelta).symm, fun hbetter => ?_⟩
  obtain ⟨stA', stB', hA, hB, ha', hb', _, _, hhA, hhB, ⟨r, hr, hlead⟩, htrails⟩ :=
    (better_iff hdelta).mp hbetter
  obtain rfl := Option.some.inj (ha.symm.trans ha')
  obtain rfl := Option.some.inj (hb.symm.trans hb')
  rw [hthreshold] at hlead htrails
  constructor
  · obtain ⟨author, hseen, hunseen, hcorrect⟩ := exists_correct_of_lead (F := F) ha hb (r := r)
      (by omega)
    -- the correct author was counted for one of the two only
    rw [htracks.counted a stA ha] at hseen
    rw [htracks.counted b stB hb] at hunseen
    obtain ⟨x, hx, rfl, rfl, hpath⟩ := hseen
    unfold pairRounds at hr
    rw [List.mem_range'_1] at hr
    refine ⟨x, hx, by omega, by omega, hcorrect, hpath, fun hother => ?_⟩
    exact hunseen ⟨x, hx, rfl, rfl, hother⟩
  · intro horizonA horizonB r' hhA' hhB' hrA hrB hle
    obtain rfl := Option.some.inj (hhA.symm.trans hhA')
    obtain rfl := Option.some.inj (hhB.symm.trans hhB')
    have hmem : r' ∈ pairRounds stA stB hA hB := by
      unfold pairRounds
      rw [List.mem_range'_1]
      omega
    have hnot := htrails r' hmem
    unfold lead at hnot
    rw [htracks.seenCountAt ha, htracks.seenCountAt hb] at hnot
    omega

omit [Crypto] in
/-- Whoever the faulty author is, another one made the difference in the contest. -/
theorem better_not_forged_sample :
    letI := sampleCrypto
    ∃ ops g, (spawn 4 2 none).Passes ops g ∧ g.certificates = sampleContest ∧
      ∃ x ∈ g.certificates, x.origin ∉ ({sampleKey 0} : Finset PublicKey) ∧
        Reaches g.state.store x.digest (sampleDigest 1 0) ∧
        ¬ Reaches g.state.store x.digest (sampleDigest 1 1) := by
  let _ := sampleCrypto
  obtain ⟨ops, g, stA, stB, _, hops, hcs, hcausal, hA, hB, _, _, hbetter⟩ := exists_contestStage
  obtain ⟨⟨x, hx, _, _, horigin, hpath, hnot⟩, _⟩ := (better_not_forged 4 2 none hops hcausal
    (F := {sampleKey 0}) (by decide) hA hB).2 hbetter
  exact ⟨ops, g, hops, hcs, x, hx, horigin, hpath, hnot⟩

/-! ## §5. Quorums of parents. -/

/-- A committed DAG: one certificate per authority and round, each after its parents, which
are from the previous round and by a quorum. -/
structure CommittedDag (authorities : Finset PublicKey) (Quorum : Finset PublicKey → Prop)
    (cs : List Certificate) : Prop where
  causal : Causal cs
  round_pos : ∀ x ∈ cs, 0 < x.round
  member : ∀ x ∈ cs, x.origin ∈ authorities
  unique : ∀ x ∈ cs, ∀ y ∈ cs, x.origin = y.origin → x.round = y.round → x = y
  parents : ∀ x ∈ cs, 1 < x.round →
    ∃ S, Quorum S ∧ ∀ author ∈ S, ∃ y ∈ cs, y.origin = author ∧ x.Names y

variable {authorities : Finset PublicKey} {Quorum : Finset PublicKey → Prop}

/-- What is recorded of a committed DAG is one. -/
theorem CommittedDag.of_append {cs' : List Certificate}
    (h : CommittedDag authorities Quorum (cs ++ cs')) : CommittedDag authorities Quorum cs where
  causal := h.causal.of_append
  round_pos := fun x hx => h.round_pos x (List.mem_append_left _ hx)
  member := fun x hx => h.member x (List.mem_append_left _ hx)
  unique := fun x hx y hy => h.unique x (List.mem_append_left _ hx) y (List.mem_append_left _ hy)
  parents := by
    intro x hx hround
    obtain ⟨S, hS, hparents⟩ := h.parents x (List.mem_append_left _ hx) hround
    refine ⟨S, hS, fun author hauthor => ?_⟩
    obtain ⟨y, hy, horigin, hnames⟩ := hparents author hauthor
    -- no parent comes later
    refine ⟨y, (List.mem_append.mp hy).resolve_right fun hlater => ?_, horigin, hnames⟩
    exact (List.pairwise_append.mp h.causal.ordered).2.2 x hx y hlater hnames

/-- **Visibility spreads**: what authors of a round see who meet every quorum of parents is
seen by every certificate of a later round. -/
theorem CommittedDag.reaches (hdag : CommittedDag authorities Quorum cs)
    {store : HashMap Digest Certificate}
    (hstored : ∀ d c, store.lookup d = some c ↔ c ∈ cs ∧ c.digest = d) {t : Digest} {r : ℕ}
    (hr : 0 < r) {S : Finset PublicKey} (hS : ∀ author ∈ S, author ∈ seers cs store t r)
    (hmeets : ∀ T, Quorum T → ∃ author, author ∈ S ∧ author ∈ T) :
    ∀ k, ∀ x ∈ cs, x.round = r + 1 + k → Reaches store x.digest t := by
  -- one of the parents is by an author that sees `t`
  have hparent : ∀ x ∈ cs, r < x.round → ∃ y ∈ cs, y.origin ∈ S ∧ y.round + 1 = x.round ∧
      Link store x.digest y.digest := by
    intro x hx hround
    obtain ⟨T, hT, hTx⟩ := hdag.parents x hx (by omega)
    obtain ⟨author, hauthor, hauthorT⟩ := hmeets T hT
    obtain ⟨y, hy, rfl, hxy⟩ := hTx author hauthorT
    exact ⟨y, hy, hauthor, hdag.causal.layered x hx y hy hxy,
      x, (hstored x.digest x).mpr ⟨hx, rfl⟩, hxy⟩
  intro k
  induction k with
  | zero =>
      intro x hx hround
      obtain ⟨y, hy, hauthor, hyround, hlink⟩ := hparent x hx (by omega)
      obtain ⟨z, hz, hzround, hzorigin, hpath⟩ := hS y.origin hauthor
      -- parent and seer are by one author, so they are one certificate
      obtain rfl : y = z := hdag.unique y hy z hz hzorigin.symm (by omega)
      exact ReflTransGen.head hlink hpath
  | succ k ih =>
      intro x hx hround
      obtain ⟨y, hy, _, hyround, hlink⟩ := hparent x hx (by omega)
      exact ReflTransGen.head hlink (ih y hy (by omega))

/-- Every mature state is backed by the authors that made it mature. -/
theorem inductive_backed (core : MrvExecutor) :
    Inductive core (fun _ _ s => ∀ d st, s.aufStates.lookup d = some st →
      st.Backed core.reachThreshold) :=
  inductive_states (fun _ hmature => Bool.noConfusion hmature)
    (fun _ round author hst => hst.see round author) (fun _ frontierRound hst => hst.cap core frontierRound)

omit [Crypto] in
/-- 2f + 1 authors and a quorum of parents have a common author, for each residue of `n`
modulo three. -/
theorem exists_common_of_reach {committee : Committee} {stake : ℕ}
    (hfit : 2 * committee.totalStake < 2 ^ 32)
    (hequal : ∀ author ∈ committee.members, committee.weight author = stake)
    (windowCap : ℕ) (capacity : Option ℕ) {S T : Finset PublicKey} (hS : S ⊆ committee.members)
    (hcard : (spawn committee.size windowCap capacity).reachThreshold ≤ S.card)
    (hT : committee.quorumThreshold.toNat ≤ ∑ author ∈ T, committee.weight author) :
    ∃ author, author ∈ S ∧ author ∈ T := by
  have hsize : committee.members.card = committee.size := by
    unfold Committee.members Committee.size
    rw [List.toFinset_card_of_nodup committee.authorities.keys_nodup]
    exact List.length_map _
  have htotal : committee.totalStake = committee.size * stake := by
    unfold Committee.totalStake
    rw [Finset.sum_congr rfl hequal, Finset.sum_const, hsize, smul_eq_mul]
  -- only members of the committee count
  have hweight : ∑ author ∈ T, committee.weight author = (T ∩ committee.members).card * stake := by
    rw [← smul_eq_mul, ← Finset.sum_const,
      ← Finset.sum_congr rfl fun author ha => hequal author (Finset.mem_inter.mp ha).2,
      ← Finset.filter_mem_eq_inter, Finset.sum_filter_of_ne]
    intro author _ hne
    by_contra hout
    exact hne (Committee.weight_eq_zero hout)
  rw [Committee.quorumThreshold_toNat hfit, htotal, hweight] at hT
  have hlt : 2 * committee.size < 3 * (T ∩ committee.members).card := by
    have hmul : 2 * committee.size * stake < 3 * (T ∩ committee.members).card * stake := by
      rw [mul_assoc, mul_assoc]
      omega
    exact lt_of_mul_lt_mul_right hmul (Nat.zero_le stake)
  have hreach : 2 * ((committee.size - 1) / 3) + 1 ≤ S.card := by
    have hspawn : (spawn committee.size windowCap capacity).reachThreshold =
        2 * ((max committee.size 1 - 1) / 3) + 1 := rfl
    rw [hspawn] at hcard
    omega
  obtain ⟨author, hauthor, hboth⟩ := Quorum.card_inter hS
    (Finset.inter_subset_right : T ∩ committee.members ⊆ committee.members) (by omega)
  exact ⟨author, hauthor, (Finset.mem_inter.mp hboth).1⟩

/-- **Maturity is stable**: with equal stakes and parents by a quorum of the previous round,
every certificate of a round after the horizon of a mature state sees it. -/
theorem mature_seen_by_all {committee : Committee} {stake : ℕ}
    (hfit : 2 * committee.totalStake < 2 ^ 32)
    (hequal : ∀ author ∈ committee.members, committee.weight author = stake)
    (windowCap : ℕ) (capacity : Option ℕ) {ops : Operations} {g : Stage}
    (hops : (spawn committee.size windowCap capacity).Passes ops g)
    (hdag : CommittedDag committee.members
      (fun S => committee.quorumThreshold.toNat ≤ ∑ author ∈ S, committee.weight author)
      g.certificates)
    {t : Digest} {st : AufState} (hst : g.state.aufStates.lookup t = some st)
    (hmature : st.mature = true) {h : ℕ} (hhorizon : st.horizon = some h) {x : Certificate}
    (hx : x ∈ g.certificates) (hround : h < x.round) :
    x.origin ∈ (st.seenByRound.get x.round).getD ∅ := by
  have htracks := hops.tracks hdag.causal
  obtain ⟨h', hh', hcard⟩ := (inductive_backed _).passes hops t st hst hmature
  obtain rfl := Option.some.inj (hhorizon.symm.trans hh')
  have hseers : ∀ author ∈ (st.seenByRound.get h).getD ∅,
      author ∈ seers g.certificates g.state.store t h :=
    fun author hauthor => (htracks.counted t st hst h author).mp hauthor
  have hmembers : (st.seenByRound.get h).getD ∅ ⊆ committee.members := by
    intro author hauthor
    obtain ⟨y, hy, _, rfl, _⟩ := hseers author hauthor
    exact hdag.member y hy
  -- genesis certificates are not recorded, so the horizon is a later round
  have hpos : 0 < h := by
    have hne : 0 < ((st.seenByRound.get h).getD ∅).card := by
      have hreach : 0 < (spawn committee.size windowCap capacity).reachThreshold := Nat.succ_pos _
      omega
    obtain ⟨author, hauthor⟩ := Finset.card_pos.mp hne
    obtain ⟨y, hy, rfl, _⟩ := hseers author hauthor
    exact hdag.round_pos y hy
  rw [htracks.counted t st hst]
  refine ⟨x, hx, rfl, rfl, ?_⟩
  -- a quorum of parents meets those who saw it at the horizon
  exact hdag.reaches htracks.stored hpos hseers
    (fun T hT => exists_common_of_reach hfit hequal windowCap capacity hmembers hcard hT)
    (x.round - (h + 1)) x hx (by omega)

/-- The authors of the certificates of a list that a certificate names. -/
def namedAuthors (cs : List Certificate) (x : Certificate) : Finset PublicKey :=
  ((cs.filter (fun y => decide (x.Names y))).map Certificate.origin).toFinset

theorem CommittedDag.of_list (hcausal : Causal cs) (hround : ∀ x ∈ cs, 0 < x.round)
    (hmember : ∀ x ∈ cs, x.origin ∈ authorities)
    (hunique : ∀ x ∈ cs, ∀ y ∈ cs, x.origin = y.origin → x.round = y.round → x = y)
    (hparents : ∀ x ∈ cs, 1 < x.round → Quorum (namedAuthors cs x)) :
    CommittedDag authorities Quorum cs where
  causal := hcausal
  round_pos := hround
  member := hmember
  unique := hunique
  parents := by
    intro x hx hpos
    refine ⟨namedAuthors cs x, hparents x hx hpos, fun author hauthor => ?_⟩
    unfold namedAuthors at hauthor
    obtain ⟨y, hy, rfl⟩ := List.mem_map.mp (List.mem_toFinset.mp hauthor)
    obtain ⟨hmem, hnames⟩ := List.mem_filter.mp hy
    exact ⟨y, hmem, rfl, of_decide_eq_true hnames⟩

/-- A DAG for examples: the first certificate is mature with round 2. -/
def sampleQuorums : List Certificate :=
  [Certificate.sample 1 0 [], Certificate.sample 1 1 [], Certificate.sample 1 2 [],
    Certificate.sample 2 0 [0, 1, 2], Certificate.sample 2 1 [0, 1, 2],
    Certificate.sample 2 2 [0, 1, 2], Certificate.sample 3 3 [0, 1, 2]]

omit [Crypto] in
set_option maxRecDepth 10000 in
theorem exists_quorumStage :
    letI := sampleCrypto
    ∃ ops g st, (spawn 4 2 none).Passes ops g ∧ g.certificates = sampleQuorums ∧
      g.state.aufStates.lookup (sampleDigest 1 0) = some st ∧ st.mature = true ∧
      st.horizon = some 2 :=
  let _ := sampleCrypto
  let ⟨ops, g, hops, hcheck⟩ := System.exec_check (spawn 4 2 none).stages
    (sampleQuorums.map .register)
    (fun _ g => decide (g.certificates = sampleQuorums ∧
      (g.state.aufStates.lookup (sampleDigest 1 0)).any (fun st =>
        decide (st.mature = true ∧ st.horizon = some 2)) = true)) (by decide +kernel)
  let ⟨hcs, hany⟩ := of_decide_eq_true hcheck
  let ⟨st, hst, h⟩ := (Option.any_eq_true _ _).mp hany
  ⟨ops, g, st, hops, hcs, hst, of_decide_eq_true h⟩

omit [Crypto] in
set_option maxRecDepth 10000 in
theorem committedDag_sampleQuorums :
    letI := sampleCrypto
    CommittedDag Committee.sampleFour.members
      (fun S => Committee.sampleFour.quorumThreshold.toNat ≤
        ∑ author ∈ S, Committee.sampleFour.weight author) sampleQuorums :=
  letI := sampleCrypto
  CommittedDag.of_list (by decide +kernel) (by decide +kernel) (by decide +kernel)
    (by decide +kernel) (by decide +kernel)

omit [Crypto] in
/-- The certificate of round 3 sees the mature one. -/
theorem mature_seen_by_all_sample :
    letI := sampleCrypto
    ∃ ops g st, (spawn 4 2 none).Passes ops g ∧
      g.state.aufStates.lookup (sampleDigest 1 0) = some st ∧ st.mature = true ∧
      sampleKey 3 ∈ (st.seenByRound.get 3).getD ∅ := by
  let _ := sampleCrypto
  obtain ⟨ops, g, st, hops, hcs, hst, hmature, hhorizon⟩ := exists_quorumStage
  have hdag := committedDag_sampleQuorums
  have hfit : 2 * Committee.sampleFour.totalStake < 2 ^ 32 := by decide +kernel
  have hequal : ∀ author ∈ Committee.sampleFour.members,
      Committee.sampleFour.weight author = 1 := by decide +kernel
  have hx : Certificate.sample 3 3 [0, 1, 2] ∈ g.certificates := by
    rw [hcs]
    decide +kernel
  rw [← hcs] at hdag
  exact ⟨ops, g, st, hops, hst, hmature,
    mature_seen_by_all hfit hequal 2 none hops hdag hst hmature hhorizon hx (by decide)⟩

end MrvExecutor

end Mrv
