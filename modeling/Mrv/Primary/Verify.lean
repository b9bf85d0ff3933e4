/-
  Mrv.Primary.Verify — what an accepted certificate guarantees.

  `Certificate.verify` accepts in two ways.  On the ordinary path it checks the
  header, the votes and the signatures, and `certified_of_verifyQuorum` says that
  this is sound.  On the other path it compares with the genesis certificates,
  through an equality that reads three of the fields: `verify_sound_iff` says for
  which certificates the shortcut is sound too.
-/
import Mrv.Messages

namespace Mrv

variable [Crypto]

/-- The batch check accepts exactly when each signature of the batch is valid. -/
def Crypto.BatchExact : Prop :=
  ∀ (digest : Digest) (votes : List (PublicKey × Signature)),
    Crypto.verifyBatch digest votes = true ↔
      ∀ v ∈ votes, Crypto.verify v.2 digest v.1 = true

/-- Verification does not look at the age of a header. -/
theorem Header.verify_ne_tooOld (h : Header) (committee : Committee) (id : Digest) (round : ℕ) :
    h.verify committee ≠ .error (.tooOld id round) := by
  unfold Header.verify
  refine bind_ne_error (ensure_ne_error (by simp)) fun _ => ?_
  refine bind_ne_error (ensure_ne_error (by simp)) fun _ => ?_
  refine bind_ne_error (forM_ne_error fun workerId _ => ?_) fun _ => ensure_ne_error (by simp)
  split <;> simp

namespace Certificate

variable {committee : Committee} {c : Certificate}

omit [Crypto] in
theorem verifyVotes_ne_tooOld (votes : List (PublicKey × Signature)) (weight : Stake)
    (used : Finset PublicKey) (id : Digest) (round : ℕ) :
    verifyVotes committee votes weight used ≠ .error (.tooOld id round) := by
  induction votes generalizing weight used with
  | nil => simp [verifyVotes]
  | cons v votes ih =>
      unfold verifyVotes
      refine bind_ne_error (ensure_ne_error (by simp)) fun _ => ?_
      exact bind_ne_error (ensure_ne_error (by simp)) fun _ => ih _ _

theorem verify_ne_tooOld (c : Certificate) (committee : Committee) (id : Digest) (round : ℕ) :
    c.verify committee ≠ .error (.tooOld id round) := by
  unfold verify
  split
  · simp
  · unfold verifyQuorum
    refine bind_ne_error (c.header.verify_ne_tooOld committee id round) fun _ => ?_
    refine bind_ne_error (verifyVotes_ne_tooOld _ _ _ id round) fun weight => ?_
    exact bind_ne_error (ensure_ne_error (by simp)) fun _ => ensure_ne_error (by simp)

/-! ## §1. The ordinary path. -/

/-- What the votes of a certificate must be: from distinct authorities that have
stake, a quorum together, each with a valid signature. -/
structure Certified (committee : Committee) (c : Certificate) : Prop where
  header : c.header.verify committee = .ok ()
  distinct : (c.votes.map Prod.fst).Nodup
  positive : ∀ v ∈ c.votes, 0 < committee.weight v.1
  quorum : committee.quorumThreshold.toNat ≤ (c.votes.map (fun v => committee.weight v.1)).sum
  signed : ∀ v ∈ c.votes, Crypto.verify v.2 c.digest v.1 = true

omit [Crypto] in
/-- The loop over the votes returns their weight when no authority repeats, none
was used before and all have stake. -/
theorem verifyVotes_eq_ok {votes : List (PublicKey × Signature)} {weight w : Stake}
    {used : Finset PublicKey} :
    verifyVotes committee votes weight used = .ok w ↔
      (votes.map Prod.fst).Nodup ∧ (∀ v ∈ votes, v.1 ∉ used) ∧
        (∀ v ∈ votes, 0 < committee.stake v.1) ∧
        weight + (votes.map (fun v => committee.stake v.1)).sum = w := by
  induction votes generalizing weight used with
  | nil => simp [verifyVotes]
  | cons v votes ih =>
      obtain ⟨name, signature⟩ := v
      rw [verifyVotes]
      simp only [ensure_bind_eq_ok, decide_eq_true_eq, ih,
        Finset.mem_insert, not_or, List.map_cons, List.nodup_cons, List.forall_mem_cons,
        List.mem_map, List.sum_cons, ← add_assoc]
      constructor
      · intro h
        obtain ⟨hname, hpos, hnodup, hused, hrest, hw⟩ := h
        refine ⟨⟨?_, hnodup⟩, ⟨hname, fun x hx => (hused x hx).2⟩, ⟨hpos, hrest⟩, hw⟩
        intro hmem
        obtain ⟨x, hx, hfst⟩ := hmem
        exact (hused x hx).1 hfst
      · intro h
        obtain ⟨⟨hfresh, hnodup⟩, ⟨hname, hused⟩, ⟨hpos, hrest⟩, hw⟩ := h
        refine ⟨hname, hpos, hnodup, fun x hx => ⟨?_, hused x hx⟩, hrest, hw⟩
        intro heq
        exact hfresh ⟨x, hx, heq⟩

/-- **The ordinary path is sound.** -/
theorem certified_of_verifyQuorum (hbatch : Crypto.BatchExact)
    (h : c.verifyQuorum committee = .ok ()) : Certified committee c := by
  unfold verifyQuorum at h
  obtain ⟨_, hheader, hrest⟩ := bind_eq_ok.mp h
  obtain ⟨w, hvotes, hrest⟩ := bind_eq_ok.mp hrest
  obtain ⟨hquorum, hrest⟩ := ensure_bind_eq_ok.mp hrest
  have hsigned := ensure_eq_ok.mp hrest
  obtain ⟨hdistinct, _, hpositive, hw⟩ := verifyVotes_eq_ok.mp hvotes
  refine ⟨hheader, hdistinct, fun v hv => ?_, ?_, (hbatch _ _).mp hsigned⟩
  · show 0 < (committee.stake v.1).toNat
    exact UInt32.lt_iff_toNat_lt.mp (hpositive v hv)
  · -- the `u32` weight is the sum of the stakes, wrapped
    have hle : w.toNat ≤ (c.votes.map (fun v => committee.weight v.1)).sum := by
      rw [← hw, zero_add, Committee.toNat_sum, List.map_map]
      exact Nat.mod_le _ _
    have hthreshold := UInt32.le_iff_toNat_le.mp (of_decide_eq_true hquorum)
    omega

/-! ## §2. The genesis shortcut. -/

/-- The certificates that the comparison with genesis lets through: the default
header id, round 0, an author of the committee.  Nothing else is compared. -/
structure LetThrough (committee : Committee) (c : Certificate) : Prop where
  id : c.header.id = Digest.default
  round : c.round = 0
  origin : c.origin ∈ committee.members

omit [Crypto] in
theorem any_genesis_eq :
    (genesis committee).any (fun g => g.eq c) = true ↔ LetThrough committee c := by
  rw [List.any_eq_true]
  constructor
  · intro h
    obtain ⟨g, hg, heq⟩ := h
    obtain ⟨name, hname, rfl⟩ := mem_genesis.mp hg
    obtain ⟨hid, hround, horigin⟩ := eq_iff.mp heq
    refine ⟨hid.symm, hround.symm, ?_⟩
    rw [← horigin]
    exact hname
  · intro h
    exact ⟨genesisOf c.origin, mem_genesis.mpr ⟨_, h.origin, rfl⟩,
      eq_iff.mpr ⟨h.id.symm, h.round.symm, rfl⟩⟩

theorem verify_of_letThrough (h : LetThrough committee c) : c.verify committee = .ok () := by
  unfold verify
  rw [if_pos (any_genesis_eq.mpr h)]

theorem verify_of_not_letThrough (h : ¬ LetThrough committee c) :
    c.verify committee = c.verifyQuorum committee := by
  unfold verify
  rw [if_neg (fun hany => h (any_genesis_eq.mp hany))]

/-- A header that passes its own check hashes to its id. -/
theorem Certified.digest_header (h : Certified committee c) :
    c.header.digest = c.header.id := by
  have hheader := h.header
  unfold Header.verify at hheader
  rw [ensure_bind_eq_ok, decide_eq_true_eq] at hheader
  exact hheader.1

/-- **Verification is sound exactly off the forged genesis certificates**: a
certificate that the comparison lets through has to be a genesis certificate in all
its fields, or else its header hashes to the default digest and it carries all that
the ordinary path would have asked for. -/
theorem verify_sound_iff (hbatch : Crypto.BatchExact) (committee : Committee)
    (c : Certificate) :
    (c.verify committee = .ok () → c ∈ genesis committee ∨ Certified committee c) ↔
      (LetThrough committee c → c ∈ genesis committee ∨
        (c.header.digest = Digest.default ∧ Certified committee c)) := by
  constructor
  · intro hsound hthrough
    obtain hgenesis | hcertified := hsound (verify_of_letThrough hthrough)
    · exact Or.inl hgenesis
    · exact Or.inr ⟨hcertified.digest_header.trans hthrough.id, hcertified⟩
  · intro hcond hverify
    by_cases hthrough : LetThrough committee c
    · obtain hgenesis | hcertified := hcond hthrough
      · exact Or.inl hgenesis
      · exact Or.inr hcertified.2
    · rw [verify_of_not_letThrough hthrough] at hverify
      exact Or.inr (certified_of_verifyQuorum hbatch hverify)

omit [Crypto] in
theorem batchExact_sampleCrypto : letI := sampleCrypto; Crypto.BatchExact := by
  intro digest votes
  exact ⟨fun _ _ _ => rfl, fun _ => rfl⟩

/-- A certificate of round 1 with the votes of three authorities out of four. -/
def sampleVoted : Certificate :=
  { Certificate.sample 1 0 [0, 1, 2] with
    votes := [0, 1, 2].map (fun a => (sampleKey a, Signature.default)) }

omit [Crypto] in
/-- It is not let through, and so its acceptance is sound. -/
theorem verify_sound_iff_sample :
    letI := sampleCrypto
    sampleVoted.verify Committee.sampleFour = .ok () ∧
      (sampleVoted ∈ genesis Committee.sampleFour ∨
        Certified Committee.sampleFour sampleVoted) := by
  let _ := sampleCrypto
  have hverify : letI := sampleCrypto
      sampleVoted.verify Committee.sampleFour = .ok () := by decide +kernel
  refine ⟨hverify, (verify_sound_iff batchExact_sampleCrypto _ _).mpr ?_ hverify⟩
  intro hthrough
  have hround : (1 : ℕ) = 0 := hthrough.round
  omega

/-- A forged genesis certificate: the id, round and author of one, and a parent. -/
def sampleForged : Certificate :=
  { header := { Header.default with
      author := sampleKey 1, parents := BTreeSet.ofList [sampleDigest 5 1] }
    votes := [] }

omit [Crypto] in
/-- **Verification is not sound**: the forged certificate is accepted. -/
theorem verify_not_sound :
    ¬ ∀ (_ : Crypto), Crypto.BatchExact → ∀ (committee : Committee) (c : Certificate),
      c.verify committee = .ok () → c ∈ genesis committee ∨ Certified committee c := by
  intro h
  let _ := sampleCrypto
  have hverify : letI := sampleCrypto
      sampleForged.verify Committee.sampleFour = .ok () := by decide +kernel
  obtain hgenesis | hcertified := h sampleCrypto batchExact_sampleCrypto _ _ hverify
  · have hparents := parents_of_mem_genesis hgenesis
    exact absurd hparents (by decide)
  · -- it has no votes at all
    have hquorum := hcertified.quorum
    exact absurd hquorum (by decide)

end Certificate

/-! ## §3. Headers that are let in. -/

/-- A header that is not stopped at the door: it passes its own check, or comes in a
certificate that is taken for genesis. -/
def Header.Admitted (committee : Committee) (h : Header) : Prop :=
  h.verify committee = .ok () ∨
    (h.id = Digest.default ∧ h.round = 0 ∧ h.author ∈ committee.members)

instance (committee : Committee) (h : Header) : Decidable (h.Admitted committee) :=
  inferInstanceAs (Decidable (_ ∨ _))

/-- The header of a verified certificate. -/
theorem Certificate.admitted_of_verify {committee : Committee} {c : Certificate}
    (hok : c.verify committee = .ok ()) : c.header.Admitted committee := by
  by_cases hthrough : LetThrough committee c
  · exact Or.inr ⟨hthrough.id, hthrough.round, hthrough.origin⟩
  · rw [verify_of_not_letThrough hthrough] at hok
    obtain ⟨_, hheader, _⟩ := bind_eq_ok.mp hok
    exact Or.inl hheader

end Mrv
