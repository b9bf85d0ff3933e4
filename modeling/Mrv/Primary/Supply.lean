/-
  Mrv.Primary.Supply — what the core has accepted, and what it passes on of it.

  Every certificate that was accepted can be read back from the store under its
  digest, and the parents that the core passes to the proposer are quorums of
  accepted certificates (`Run.supplied`).  The headers to consider are those that are
  not stopped at the door (`Incoming`), with digests that tell them apart.
-/
import Mrv.Primary.Hashing
import Mrv.Primary.Moves
import Mrv.Primary.Delivery
import Mrv.Primary.Proposer

namespace Mrv

variable [Crypto]

namespace Core

open Primary (Carries Queues Aside)

variable {self : Core} {X : Set Header} {s s' : State} {es : History} {n n' : Primary}

/-! ## §1. The headers that come in. -/

/-- The headers that come in during a history, and are not stopped at the door, are in a set,
which has no others than such. -/
structure Incoming (core : Core) (X : Set Header) (es : History) : Prop where
  only : ∀ h ∈ X, h.Genuine core.committee
  default : Header.default ∈ X
  admitted : ∀ m a, (m, a) ∈ es → ∀ h ∈ a.headers, h.Admitted core.committee → h ∈ X
  own : ∀ m h, (m, Primary.Action.ownHeader h) ∈ es → h ∈ X ∧ h.digest = h.id

theorem Incoming.tail {e : Primary × Primary.Action} (h : Incoming self X (e :: es)) :
    Incoming self X es :=
  ⟨h.only, h.default, fun m a hmem => h.admitted m a (List.mem_cons_of_mem _ hmem),
    fun m x hmem => h.own m x (List.mem_cons_of_mem _ hmem)⟩

theorem Incoming.letIn_subset (hin : Incoming self X es) (h : Header) (hh : h ∈ self.letIn es) :
    h ∈ X := by
  obtain ⟨hcame, rfl | hown | hadmitted⟩ := hh
  · exact hin.default
  · obtain ⟨⟨m, _⟩, hmem, rfl⟩ := List.mem_map.mp hown
    exact (hin.own m h hmem).1
  · obtain rfl | hcame := List.mem_cons.mp hcame
    · exact hin.default
    · obtain ⟨⟨m, a⟩, hmem, hheader⟩ := List.mem_flatMap.mp hcame
      exact hin.admitted m a hmem h hheader hadmitted

/-! ## §2. Accepted certificates can be read back. -/

/-- Every accepted certificate is stored under its digest, or another one of that digest is. -/
def Kept (s : State) : Prop :=
  ∀ c ∈ s.txConsensus, ∃ c', s.store.lookup c.digest.toVec = some (.certificate c')

/-- What holds of the core throughout: its headers are in `X`, its store is filed and keeps
what was accepted, and it passes quorums on. -/
structure Supplied (core : Core) (X : Set Header) (s : State) : Prop where
  keyed : Keyed X s.txConsensus s.store
  kept : Kept s
  supplies : Supplies core s
  headers : ∀ c ∈ s.txConsensus, c.header ∈ X
  currentHeader : s.currentHeader ∈ X
  queues : Queues X {c | c.header ∈ X} s

theorem Kept.insert {key : Key} {record : Record} (h : Kept s)
    (hkey : ∀ c ∈ s.txConsensus, c.digest.toVec = key → ∃ c', record = .certificate c') :
    Kept { s with store := s.store.insert key record } := by
  intro c hc
  show ∃ c', (s.store.insert key record).lookup c.digest.toVec = _
  rw [AList.lookup_insert_eq_ite]
  split
  · next heq =>
    obtain ⟨c', rfl⟩ := hkey c hc heq
    exact ⟨c', rfl⟩
  · exact h c hc

theorem Supplied.new (hdefault : Header.default ∈ X) : Supplied self X State.new := by
  have htidy : Tidy X State.new := Tidy.new hdefault
  refine ⟨htidy.keyed, fun c hc => absurd hc List.not_mem_nil, Supplies.new,
    fun c hc => absurd hc List.not_mem_nil, hdefault, ?_⟩
  constructor <;> exact fun x hx => absurd hx List.not_mem_nil

/-- The supply does not depend on the rest of the state. -/
theorem Supplied.of_eq (h : Supplied self X s) (hstore : s'.store = s.store)
    (hconsensus : s'.txConsensus = s.txConsensus)
    (haggregators : s'.certificatesAggregators = s.certificatesAggregators)
    (hproposer : s'.txProposer = s.txProposer) (hcurrent : s'.currentHeader ∈ X)
    (hqueues : Queues X {c | c.header ∈ X} s') : Supplied self X s' := by
  refine ⟨?_, ?_, ⟨?_, ?_⟩, ?_, hcurrent, hqueues⟩
  · rw [hstore, hconsensus]
    exact h.keyed
  · unfold Kept
    rw [hstore, hconsensus]
    exact h.kept
  · rw [haggregators, hconsensus]
    exact h.supplies.aggregators
  · rw [hproposer, hconsensus]
    exact h.supplies.quorums
  · rw [hconsensus]
    exact h.headers

/-- Storing something that is not in the way of a certificate. -/
theorem Supplied.insert {key : Key} {record : Record} (h : Supplied self X s)
    (hfiled : Filed X s.txConsensus key record)
    (hkey : ∀ c ∈ s.txConsensus, c.digest.toVec = key → ∃ c', record = .certificate c') :
    Supplied self X { s with store := s.store.insert key record } :=
  ⟨h.keyed.insert hfiled, h.kept.insert hkey, ⟨h.supplies.aggregators, h.supplies.quorums⟩,
    h.headers, h.currentHeader, ⟨h.queues.txHeaderWaiter, h.queues.txCertificateWaiter⟩⟩

/-- A batch is under a longer key. -/
theorem Supplied.batch (h : Supplied self X s) (digest : Digest) (workerId : WorkerId) :
    Supplied self X { s with store := s.store.insert (batchKey digest workerId) .batch } :=
  h.insert ⟨digest, workerId, rfl⟩ fun _ _ hkey => absurd hkey (toVec_ne_batchKey _ _ _)

/-- **Accepting a certificate.** -/
theorem Supplied.accept (hfit : 2 * self.committee.totalStake < 2 ^ 32) (h : Supplied self X s)
    {c : Certificate} (hc : c.header ∈ X) :
    Supplied self X ((self.acceptCertificate c).exec s).2 := by
  have hsupplies := (h.supplies.accept hfit c).1
  rw [exec_acceptCertificate] at hsupplies ⊢
  have hmore : Keyed X (s.txConsensus ++ [c]) s.store :=
    h.keyed.mono fun x hx => List.mem_append_left _ hx
  refine ⟨hmore.insert ⟨List.mem_append_right _ List.mem_cons_self, rfl⟩, ?_, hsupplies, ?_,
    h.currentHeader, ⟨h.queues.txHeaderWaiter, h.queues.txCertificateWaiter⟩⟩
  · intro x hx
    show ∃ c', (s.store.insert c.digest.toVec _).lookup x.digest.toVec = _
    rw [AList.lookup_insert_eq_ite]
    split
    · exact ⟨c, rfl⟩
    · next hne =>
      obtain hold | hlast := List.mem_append.mp hx
      · exact h.kept x hold
      · rw [List.mem_singleton.mp hlast] at hne
        exact absurd rfl hne
  · intro x hx
    obtain hold | hlast := List.mem_append.mp hx
    · exact h.headers x hold
    · rw [List.mem_singleton.mp hlast]
      exact hc

omit [Crypto] in
/-- An aggregator's certificate is one of the header it is given. -/
theorem header_of_append {a : VotesAggregator} {v : Vote} {committee : Committee}
    {header : Header} {c : Certificate} (h : (a.append v committee header).1 = .ok (some c)) :
    c.header = header :=
  ((VotesAggregator.append_spec a v committee header).2 _ h).2 c rfl

/-- The moves of the handlers keep the supply. -/
theorem moves_supplied (hfit : 2 * self.committee.totalStake < 2 ^ 32)
    (hhash : Separated self.committee X) :
    Moves self X {c | c.header ∈ X} Set.univ (Supplied self X) where
  frame := fun s s' hframe hs => by
    refine hs.of_eq hframe.store hframe.txConsensus hframe.certificatesAggregators
      hframe.txProposer (hframe.currentHeader ▸ hs.currentHeader) ⟨?_, ?_⟩
    · rw [hframe.txHeaderWaiter]
      exact hs.queues.txHeaderWaiter
    · rw [hframe.txCertificateWaiter]
      exact hs.queues.txCertificateWaiter
  mark := fun x _ s hs =>
    hs.of_eq rfl rfl rfl rfl hs.currentHeader
      ⟨hs.queues.txHeaderWaiter, hs.queues.txCertificateWaiter⟩
  header := fun x hx s hs => hs.insert ⟨hx, rfl⟩ fun c hc hkey =>
    absurd (Digest.toVec_injective hkey).symm (hhash.apart x hx _ (Or.inl (hs.headers c hc)))
  sync := fun m s hm _ hs => by
    refine hs.of_eq rfl rfl rfl rfl hs.currentHeader ⟨fun x hx => ?_, hs.queues.txCertificateWaiter⟩
    obtain hold | hlast := List.mem_append.mp hx
    · exact hs.queues.txHeaderWaiter x hold
    · rw [List.mem_singleton.mp hlast]
      exact hm
  vote := fun x _ _ s hs =>
    ⟨hs.of_eq rfl rfl rfl rfl hs.currentHeader ⟨hs.queues.txHeaderWaiter, hs.queues.txCertificateWaiter⟩,
      fun _ => ⟨hs.of_eq rfl rfl rfl rfl hs.currentHeader
        ⟨hs.queues.txHeaderWaiter, hs.queues.txCertificateWaiter⟩, fun _ => trivial⟩⟩
  tally := fun v _ s hs => by
    refine ⟨hs.of_eq rfl rfl rfl rfl hs.currentHeader
      ⟨hs.queues.txHeaderWaiter, hs.queues.txCertificateWaiter⟩, fun c hc => ?_⟩
    show c.header ∈ X
    rw [header_of_append hc]
    exact hs.currentHeader
  embedded := fun _ hc => hc
  suspend := fun c hc s _ hs => by
    refine hs.of_eq rfl rfl rfl rfl hs.currentHeader ⟨hs.queues.txHeaderWaiter, fun x hx => ?_⟩
    obtain hold | hlast := List.mem_append.mp hx
    · exact hs.queues.txCertificateWaiter x hold
    · rw [List.mem_singleton.mp hlast]
      exact hc
  accept := fun c hc s _ hs => hs.accept hfit hc

/-! ## §3. Runs. -/

theorem Supplied.cleanup (h : Supplied self X s) (round : ℕ) :
    Supplied self X (self.cleanup round s) := by
  have hsupplies := h.supplies.cleanup round
  unfold Core.cleanup at hsupplies ⊢
  split at hsupplies
  · next hround =>
    rw [if_pos hround]
    exact ⟨h.keyed, h.kept, hsupplies, h.headers, h.currentHeader,
      ⟨h.queues.txHeaderWaiter, h.queues.txCertificateWaiter⟩⟩
  · next hround =>
    rw [if_neg hround]
    exact h

theorem Supplied.aside (h : Supplied self X s) (haside : Aside s s')
    (hqueues : Queues X {c | c.header ∈ X} s') : Supplied self X s' := by
  have hcurrent : s'.currentHeader ∈ X := haside.currentHeader ▸ h.currentHeader
  obtain hstore | ⟨digest, workerId, hstore⟩ := haside.store
  · exact h.of_eq hstore haside.txConsensus haside.certificatesAggregators haside.txProposer
      hcurrent hqueues
  · exact (h.batch digest workerId).of_eq hstore haside.txConsensus
      haside.certificatesAggregators haside.txProposer hcurrent hqueues

/-- What comes in is in the set, if it is let in. -/
theorem Incoming.admits {a : Primary.Action} {input : Input} {n₀ : Primary} {I : State → Prop}
    (h : Incoming self X ((n, a) :: es)) (hinput : n.input a = some (input, n₀))
    (hback : Primary.LoopedBack X {c | c.header ∈ X} input)
    (hI : (∀ x, input ≠ .ownHeader x) → I n.core)
    (hown : ∀ x ∈ X, I { n.core with currentHeader := x, votesAggregator := .new }) :
    Moves.Admits self X {c | c.header ∈ X} Set.univ I n.core input := by
  have hin : ∀ x ∈ a.headers, x.Admitted self.committee → x ∈ X :=
    h.admitted n a List.mem_cons_self
  cases input with
  | message message =>
      have hs := hI fun _ hne => Input.noConfusion hne
      cases Primary.feeds_of_input hinput with
      | message _ =>
        cases message with
        | header x =>
            refine ⟨hs, fun hok => hin x List.mem_cons_self (Or.inl ?_)⟩
            unfold sanitizeHeader at hok
            exact (ensure_bind_eq_ok.mp hok).2
        | vote v => exact ⟨hs, fun _ => trivial⟩
        | certificate c =>
            refine ⟨hs, fun hok => hin c.header List.mem_cons_self ?_⟩
            unfold sanitizeCertificate at hok
            exact Certificate.admitted_of_verify (ensure_bind_eq_ok.mp hok).2
  | loopbackHeader x => exact ⟨hI fun _ hne => Input.noConfusion hne, hback⟩
  | loopbackCertificate c => exact ⟨hI fun _ hne => Input.noConfusion hne, hback⟩
  | ownHeader x =>
      cases Primary.feeds_of_input hinput with
      | ownHeader _ =>
        have hx := (h.own n x List.mem_cons_self).1
        exact ⟨hown x hx, hx⟩

/-- **In every run what was accepted can be read back, and what is passed to the proposer
are quorums of it.** -/
theorem Run.supplied (hfit : 2 * self.committee.totalStake < 2 ^ 32)
    (hhash : Separated self.committee X) (hrun : self.Run es n) (hin : Incoming self X es) :
    Carries X {c | c.header ∈ X} n ∧ Supplied self X n.core := by
  refine System.Run.invariant (P := fun es n => Incoming self X es →
    Carries X {c | c.header ∈ X} n ∧ Supplied self X n.core) ?_ ?_ hrun hin
  · exact fun hin => ⟨Carries.new, Supplied.new hin.default⟩
  · intro es n a n' _ ih hnext hin
    obtain ⟨hcarries, hs⟩ := ih hin.tail
    obtain ⟨input, n₀, hinput, _, rfl⟩ | hbackground := next_cases hnext
    · obtain ⟨hcarries₀, hback⟩ := hcarries.input hinput
      have hadmits : Moves.Admits self X {c | c.header ∈ X} Set.univ (Supplied self X) n.core
          input := hin.admits hinput hback (fun _ => hs) fun x hx =>
        hs.of_eq rfl rfl rfl rfl hx ⟨hs.queues.txHeaderWaiter, hs.queues.txCertificateWaiter⟩
      have hs' : Supplied self X (self.turn n₀ input).core := by
        show Supplied self X (self.iterate n₀.consensusRound input n₀.core).1
        rw [(Primary.of_input hinput).1]
        exact iterate_keeps (fun round s hs => hs.cleanup round)
          ((moves_supplied hfit hhash).handle hadmits) _
      exact ⟨hcarries₀.turn hs'.queues, hs'⟩
    · have hcarries' := hcarries.background hbackground
      exact ⟨hcarries', hs.aside (Primary.aside_of_background hbackground) hcarries'.queues⟩

/-- In every run consensus is fed in causal order, the ids of headers of the set aside. -/
theorem Run.causal (hrun : self.Run es n) (hin : Incoming self X es) :
    self.Causal X n.core.store n.core.txConsensus :=
  (Run.delivers hrun hin.letIn_subset).2.2

end Core

end Mrv
