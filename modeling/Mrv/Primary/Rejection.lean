/-
  Mrv.Primary.Rejection — certificates of refused headers.

  `process_header` marks a header as being processed before it checks the parents,
  and `process_certificate` skips `process_header` for a marked header.  So a
  certificate whose header is refused is accepted when it is delivered again
  (`refused_accepted`), or when it was first delivered before its parents.

  `Bypassed` is the state in which this happens: the header is marked, or it is
  the one whose votes are being counted, and its parents are there.  In a run that
  never takes an input in such a state, a header that is refused once has no
  certificate in the store or with consensus, whatever comes later
  (`refused_never_accepted`).
-/
import Mrv.Primary.Validity

namespace Mrv

variable [Crypto]

namespace Core

open Mrv.Handler (Triple Keeps)
open Primary (Holds InFlight SameCore headers)

variable {self : Core} {H : Set Header} {s s' : State} {es : History} {n : Primary} {x : Header}

/-! ## §1. Refused headers. -/

/-- The parents of a header are genesis or in the store and fail the checks of
`process_header`: one is not from the previous round, or they hold too little stake. -/
def Refused (self : Core) (store : Store) (header : Header) : Prop :=
  ∃ parents, self.findParents store header.parents.toList = .ok (parents, []) ∧
    ((∃ p ∈ parents, p.round + 1 ≠ header.round) ∨
      (parents.map (fun p => self.committee.stake p.origin)).sum < self.committee.quorumThreshold)

/-- Genesis, or a certificate of a header of a set. -/
def Known (self : Core) (H : Set Header) (c : Certificate) : Prop :=
  c ∈ Certificate.genesis self.committee ∨ c.header ∈ H

/-- The hash does not collide on the certificates known: equal digests are of one round
and author. -/
def DigestsApart (self : Core) (H : Set Header) : Prop :=
  ∀ c c', self.Known H c → self.Known H c' → c.digest = c'.digest →
    c.round = c'.round ∧ c.origin = c'.origin

/-- A header is refused, whatever certificates its parents turn out to be. -/
def Faulty (self : Core) (H : Set Header) (header : Header) : Prop :=
  ∀ parents : List Certificate, parents.map Certificate.digest = header.parents.toList →
    (∀ p ∈ parents, self.Known H p) →
    (∃ p ∈ parents, p.round + 1 ≠ header.round) ∨
      (parents.map (fun p => self.committee.stake p.origin)).sum < self.committee.quorumThreshold

/-- The certificates accepted are of headers of a set. -/
def Accepted (H : Set Header) (s : State) : Prop := ∀ c ∈ s.txConsensus, c.header ∈ H

/-- What the parents found are. -/
theorem known_of_findParents (hs : Tidy H s) (haccepted : Accepted H s)
    {parents : List Certificate}
    (h : self.findParents s.store x.parents.toList = .ok (parents, [])) :
    parents.map Certificate.digest = x.parents.toList ∧ ∀ p ∈ parents, self.Known H p := by
  obtain ⟨hnamed, hknown⟩ := findParents_resolves hs.keyed h
  refine ⟨hnamed, fun p hp => ?_⟩
  obtain hgenesis | hstored := hknown p hp
  · exact Or.inl hgenesis
  · exact Or.inr (haccepted p hstored)

/-- Lists of known certificates with the same digests have the same rounds and origins. -/
theorem slots_of_digests (hapart : self.DigestsApart H) {ps qs : List Certificate}
    (hps : ∀ p ∈ ps, self.Known H p) (hqs : ∀ q ∈ qs, self.Known H q)
    (h : ps.map Certificate.digest = qs.map Certificate.digest) :
    ps.map (fun p => (p.round, p.origin)) = qs.map (fun q => (q.round, q.origin)) := by
  induction ps generalizing qs with
  | nil =>
      cases qs with
      | nil => rfl
      | cons q qs => simp at h
  | cons p ps ih =>
      cases qs with
      | nil => simp at h
      | cons q qs =>
          rw [List.map_cons, List.map_cons, List.cons.injEq] at h
          rw [List.forall_mem_cons] at hps hqs
          obtain ⟨hround, horigin⟩ := hapart p q hps.1 hqs.1 h.1
          rw [List.map_cons, List.map_cons, hround, horigin, ih hps.2 hqs.2 h.2]

/-- **Once refused, always refused**: the parents of a header are determined by their
digests, as far as the checks can tell. -/
theorem Refused.faulty (hapart : self.DigestsApart H) (hs : Tidy H s)
    (haccepted : Accepted H s) (h : self.Refused s.store x) : self.Faulty H x := by
  obtain ⟨ps, hfind, hfail⟩ := h
  obtain ⟨hnamed, hknown⟩ := known_of_findParents hs haccepted hfind
  intro qs hqnamed hqknown
  have hslots := slots_of_digests hapart hknown hqknown (hnamed.trans hqnamed.symm)
  obtain ⟨p, hp, hround⟩ | hstake := hfail
  · have hmem : (p.round, p.origin) ∈ qs.map (fun q => (q.round, q.origin)) := by
      rw [← hslots]
      exact List.mem_map_of_mem hp
    obtain ⟨q, hq, heq⟩ := List.mem_map.mp hmem
    have hqround : q.round = p.round := congrArg Prod.fst heq
    exact Or.inl ⟨q, hq, by rw [hqround]; exact hround⟩
  · have hstakes := congrArg (List.map fun e : ℕ × PublicKey => self.committee.stake e.2) hslots
    rw [List.map_map, List.map_map] at hstakes
    right
    show (qs.map ((fun e : ℕ × PublicKey => self.committee.stake e.2) ∘
      fun q => (q.round, q.origin))).sum < _
    rw [← hstakes]
    exact hstake

/-- A faulty header does not pass the checks. -/
theorem Faulty.not_passes (h : self.Faulty H x) (hs : Tidy H s) (haccepted : Accepted H s) :
    ¬ self.Passes s.store x := by
  intro hpasses
  obtain ⟨parents, stake, hfind, hcheck, hquorum⟩ := hpasses
  obtain ⟨hnamed, hknown⟩ := known_of_findParents hs haccepted hfind
  obtain ⟨hround, hstake⟩ := checkParents_eq_ok.mp hcheck
  obtain ⟨p, hp, hne⟩ | hlow := h parents hnamed hknown
  · exact hne (hround p hp)
  · rw [zero_add] at hstake
    rw [hstake] at hlow
    exact absurd hquorum (UInt32.not_le.mpr hlow)

/-! ## §2. The invariant. -/

/-- The invariant of the core: tidy, and what it accepted is good. -/
def Accepts (H : Set Header) (Good : Header → Prop) (s : State) : Prop :=
  Tidy H s ∧ ∀ c ∈ s.txConsensus, c.header ∈ H ∧ Good c.header

/-- While the core handles an input, its current header is good once its parents are
there. -/
def Accepting (self : Core) (H : Set Header) (Good : Header → Prop) (s : State) : Prop :=
  Accepts H Good s ∧ (self.HasParents s.store s.currentHeader → Good s.currentHeader)

variable {Good : Header → Prop}

theorem Accepts.accepted (h : Accepts H Good s) : Accepted H s := fun c hc => (h.2 c hc).1

theorem stable_accepts : Stable H (Accepts H Good) := by
  intro s s' hquiet hs
  refine ⟨stable_tidy s s' hquiet hs.1, ?_⟩
  rw [hquiet.txConsensus]
  exact hs.2

theorem stable_accepting : Stable H (self.Accepting H Good) := by
  intro s s' hquiet hs
  refine ⟨stable_accepts s s' hquiet hs.1, ?_⟩
  rw [hquiet.store, hquiet.currentHeader]
  exact hs.2

/-- A header written to the store is no parent of a header that does not name it. -/
theorem hasParents_of_write {store : Store} {h : Header} (hid : h.id ∉ x.parents)
    (hall : self.HasParents (store.insert h.id.toVec (.header h)) x) :
    self.HasParents store x := by
  intro p hp
  have hp' := hall p hp
  unfold hasParent at hp' ⊢
  rw [AList.lookup_insert_eq_ite] at hp'
  by_cases heq : p.toVec = h.id.toVec
  · rw [Digest.toVec_injective heq] at hp
    exact absurd hp hid
  · rw [if_neg heq] at hp'
    exact hp'

theorem invariant_accepting (horphan : ∀ h, h.parents.toList = [] → Good h)
    (hpasses : ∀ h ∈ H, ∀ s, Accepts H Good s → self.Passes s.store h → Good h)
    (hids : ∀ h ∈ H, ∀ y, ¬ Good y → h.id ∉ y.parents) :
    Invariant self H Good (fun _ _ => True) (self.Accepting H Good) (Accepts H Good) where
  stable := stable_accepting
  stable_after := stable_accepts
  stable_ready := fun _ _ _ _ _ => trivial
  after := fun _ hs => hs.1
  current := fun s hs => ⟨hs.1.1.holds.currentHeader, hs.2⟩
  orphan := horphan
  passed := fun h hh s hs hpass => ⟨hpasses h hh s hs.1 hpass, fun _ => trivial⟩
  header := fun h hh => by
    refine Triple.modify fun s hs => ⟨⟨⟨hs.1.1.1.write hh, hs.1.1.2⟩, ?_⟩, trivial⟩
    intro hall
    by_contra hbad
    exact hbad (hs.1.2 (hasParents_of_write (hids h hh _ hbad) hall))
  vote := fun h hh => Triple.modifyGet fun s hs =>
    ⟨⟨⟨hs.1.1.1.voting _ s.cast, hs.1.1.2⟩, hs.1.2⟩,
      fun _ => ⟨⟨hs.1.1.1.voting _ _, hs.1.1.2⟩, hs.1.2⟩⟩
  accept := fun c hc hgood => by
    refine acceptCertificate_spec stable_accepts fun s hs => ⟨hs.1.1.accept c, fun c' hc' => ?_⟩
    obtain hold | hnew := List.mem_append.mp hc'
    · exact hs.1.2 c' hold
    · rw [List.mem_singleton.mp hnew]
      exact ⟨hc, hgood⟩

/-! ## §3. Bypassing the checks. -/

/-- The header whose votes are counted while an input is handled. -/
def answered (s : State) : Input → Header
  | .ownHeader header => header
  | _ => s.currentHeader

/-- The certificate that an input hands to `process_certificate`, if it does. -/
def taken (self : Core) (s : State) : Input → Option Certificate
  | .message (.certificate c) => if self.sanitizeCertificate s c = .ok () then some c else none
  | .loopbackCertificate c => some c
  | _ => none

/-- An input finds the parents of a header there, and its certificate may be accepted
without the checks on them: the header is the one whose votes are counted, or it is
marked as being processed and its certificate is taken. -/
def Bypassed (self : Core) (x : Header) (s : State) (input : Input) : Prop :=
  self.HasParents s.store x ∧ (answered s input = x ∨
    ∃ c ∈ self.taken s input, c.header = x ∧ x.id ∈ s.inProcess x.round)

/-- The checks on the parents of a header are never bypassed: it names a parent, none of
its parents is the id of a header that was let in, and no input bypasses them. -/
structure Guarded (core : Core) (es : History) (x : Header) : Prop where
  parents : x.parents.toList ≠ []
  ids : ∀ h ∈ core.letIn es, h.id ∉ x.parents
  inputs : ∀ m a input m₀, (m, a) ∈ es → m.input a = some (input, m₀) →
    ¬ core.Bypassed x m.core input

/-- What a run of a primary accepts, if what it is given does not bypass the checks. -/
theorem Run.accepts (hrun : self.Run es n) (hsub : ∀ h ∈ self.letIn es, h ∈ H)
    (horphan : ∀ h, h.parents.toList = [] → Good h)
    (hpasses : ∀ h ∈ H, ∀ s, Accepts H Good s → self.Passes s.store h → Good h)
    (hids : ∀ h ∈ H, ∀ y, ¬ Good y → h.id ∉ y.parents)
    (hinputs : ∀ m a input m₀, (m, a) ∈ es → m.input a = some (input, m₀) →
      ∀ y, self.Bypassed y m.core input → Good y) : Accepts H Good n.core := by
  refine (Run.keeps (invariant_accepting horphan hpasses hids) (fun s hs => hs.1.holds)
    ?_ ?_ ?_ ?_ hrun).2
  · intro round s hs
    refine ⟨hs.1.cleanup round, ?_⟩
    unfold Core.cleanup
    split <;> exact hs.2
  · intro s s' hsame hholds hs
    refine ⟨hs.1.sameCore hsame hholds, ?_⟩
    rw [hsame.txConsensus]
    exact hs.2
  · exact ⟨Tidy.new (hsub _ default_mem_letIn), fun c hc => absurd hc List.not_mem_nil⟩
  · intro m a input m₀ hmem hinput hflight hs
    have hbypass := hinputs m a input m₀ hmem hinput
    refine Invariant.Admits.of (fun hne => ⟨hs, fun hall => ?_⟩) (hflight.input hinput).2
      (fun h hh hok => hsub h (letIn_of_header hmem hinput hh hok))
      (fun c hc hok => hsub c.header (letIn_of_certificate hmem hinput hc hok))
      (fun c hc hmark hall => ?_) (fun h hh => ?_)
    · refine hbypass _ ⟨hall, Or.inl ?_⟩
      cases input with
      | ownHeader h => exact absurd rfl (hne h)
      | _ => rfl
    · refine hbypass _ ⟨hall, Or.inr ⟨c, ?_, rfl, hmark⟩⟩
      obtain ⟨hc, hok⟩ | hc := hc
      · rw [hc]
        simp [taken, hok]
      · rw [hc]
        rfl
    · have hmemH := hsub h (letIn_of_own hmem hinput hh)
      refine ⟨⟨⟨⟨⟨hmemH, hs.1.holds.txHeaderWaiter, hs.1.holds.txCertificateWaiter⟩,
        hs.1.keyed⟩, hs.2⟩, fun hall => hbypass h ⟨hall, Or.inl ?_⟩⟩, hmemH⟩
      rw [hh]
      rfl

/-- The states of a run are tidy, with respect to all headers that are let in during it. -/
theorem Run.accepts_at (hrun : self.Run es n) {m : Primary}
    (hm : m = n ∨ ∃ a, (m, a) ∈ es) :
    Accepts (self.letIn es) (fun _ => True) m.core := by
  have htidy : ∀ es' n', self.Run es' n' → (∀ h ∈ self.letIn es', h ∈ self.letIn es) →
      Accepts (self.letIn es) (fun _ => True) n'.core := by
    intro es' n' hrun' hsub
    apply Run.accepts hrun' hsub
    · exact fun _ _ => trivial
    · exact fun _ _ _ _ _ => trivial
    · exact fun _ _ _ hbad => absurd trivial hbad
    · exact fun _ _ _ _ _ _ _ _ => trivial
  obtain rfl | ⟨a, hmem⟩ := hm
  · exact htidy es m hrun fun _ hh => hh
  · obtain ⟨later, earlier, _, heq, hearlier, _⟩ := System.Run.at_entry hrun hmem
    refine htidy earlier m hearlier fun h hh => ?_
    have hsplit : es = (later ++ [(m, a)]) ++ earlier := by rw [heq]; simp
    rw [hsplit]
    exact letIn_mono hh

/-- **A refused header stays refused**: if its parents are there at some time of a run and
fail the checks, no certificate of it is ever stored or sent to consensus, unless the
checks are bypassed. -/
theorem refused_never_accepted (hrun : self.Run es n) (x : Header)
    (hapart : self.DigestsApart (self.letIn es)) (hguarded : self.Guarded es x)
    (m : Primary) (hm : m = n ∨ ∃ a, (m, a) ∈ es) (hrefused : self.Refused m.core.store x) :
    (∀ c ∈ n.core.txConsensus, c.header ≠ x) ∧
      ∀ key c, n.core.store.lookup key = some (.certificate c) → c.header ≠ x := by
  have hm' := Run.accepts_at hrun hm
  have hfaulty := hrefused.faulty hapart hm'.1 hm'.accepted
  have hkept : Accepts (self.letIn es) (fun h => h ≠ x) n.core := by
    apply Run.accepts hrun (fun _ hh => hh)
    · intro h hnone heq
      rw [heq] at hnone
      exact hguarded.parents hnone
    · intro h _ s hs hpasses heq
      rw [heq] at hpasses
      exact hfaulty.not_passes hs.1 hs.accepted hpasses
    · intro h hh y hbad
      rw [not_not.mp hbad]
      exact hguarded.ids h hh
    · intro k a input m₀ hmem hinput y hbypassed heq
      rw [heq] at hbypassed
      exact hguarded.inputs k a input m₀ hmem hinput hbypassed
  refine ⟨fun c hc => (hkept.2 c hc).2, fun key c hlookup => ?_⟩
  have hfiled := hkept.1.keyed key _ hlookup
  exact (hkept.2 c hfiled.1).2

/-! ## §4. Examples. -/

/-- The headers of genesis and those that came in. -/
def knownHeaders (self : Core) (es : History) : List Header :=
  (Certificate.genesis self.committee).map Certificate.header ++ headers es

/-- Whether the digests of the certificates of a list of headers are apart. -/
def digestsApart (known : List Header) : Bool :=
  known.all (fun h => known.all (fun h' =>
    decide (certifiedDigest h.id h.round h.author = certifiedDigest h'.id h'.round h'.author →
      h.round = h'.round ∧ h.author = h'.author)))

theorem digestsApart_of_check (hsub : ∀ h ∈ H, h ∈ headers es)
    (h : digestsApart (self.knownHeaders es) = true) : self.DigestsApart H := by
  have hmem : ∀ c, self.Known H c → c.header ∈ self.knownHeaders es := by
    intro c hc
    obtain hgenesis | hknown := hc
    · exact List.mem_append_left _ (List.mem_map_of_mem hgenesis)
    · exact List.mem_append_right _ (hsub _ hknown)
  intro c c' hc hc' hdigest
  have hrow := List.all_eq_true.mp h c.header (hmem c hc)
  exact of_decide_eq_true (List.all_eq_true.mp hrow c'.header (hmem c' hc')) hdigest

/-- Whether an input bypasses the checks on the parents of a header. -/
def bypasses (self : Core) (x : Header) (s : State) (input : Input) : Bool :=
  x.parents.toList.all (self.hasParent s.store) &&
    (decide (answered s input = x) || (self.taken s input).any (fun c =>
      decide (c.header = x) && decide (x.id ∈ s.inProcess x.round)))

theorem Bypassed.check {input : Input} (h : self.Bypassed x s input) :
    self.bypasses x s input = true := by
  obtain ⟨hall, hroute⟩ := h
  unfold bypasses
  rw [List.all_eq_true.mpr hall, Bool.true_and, Bool.or_eq_true, decide_eq_true_eq]
  obtain hcurrent | ⟨c, hc, hheader, hmarked⟩ := hroute
  · exact Or.inl hcurrent
  · right
    rw [Option.mem_def.mp hc]
    simp [hheader, hmarked]

/-- A certificate of the second round whose only parent is accepted before it. -/
def sampleRefused : List Primary.Action :=
  [sampleCertificate 1 0 [1, 2, 3], sampleCertificate 2 0 [0]].map
    (fun c => .message (.certificate c))

/-- Before it comes a header that is stopped at the door, with the digest of the parent for
its id. -/
def sampleRefusedOnce : List Primary.Action :=
  .message (.header { sampleHeader 1 1 101 [1, 2, 3] with id := sampleDigest 1 0 }) :: sampleRefused

instance (store : Store) (header : Header) : Decidable (self.Refused store header) :=
  match h : self.findParents store header.parents.toList with
  | .ok (parents, []) =>
      decidable_of_iff ((∃ p ∈ parents, p.round + 1 ≠ header.round) ∨
        (parents.map (fun p => self.committee.stake p.origin)).sum
          < self.committee.quorumThreshold)
        ⟨fun hfail => ⟨parents, h, hfail⟩, fun ⟨ps, hps, hfail⟩ => by
          rw [h] at hps
          obtain rfl := (Prod.mk.inj (Except.ok.inj hps)).1
          exact hfail⟩
  | .ok (_, _ :: _) => isFalse fun ⟨_, hps, _⟩ => by
      rw [h] at hps
      exact absurd (Prod.mk.inj (Except.ok.inj hps)).2 (List.cons_ne_nil _ _)
  | .error _ => isFalse fun ⟨_, hps, _⟩ => by
      rw [h] at hps
      exact absurd hps (by simp)

omit [Crypto] in
set_option maxRecDepth 10000 in
theorem exists_refusedRun :
    letI := sampleCrypto
    ∃ es n, sampleCore.Run es n ∧ digestsApart (sampleCore.knownHeaders es) = true ∧
      (∀ h ∈ headers es, h ∈ sampleCore.letIn es → h.id ∉ (sampleHeader 2 0 100 [0]).parents) ∧
      (∀ e ∈ es, ∀ r ∈ (e.1.input e.2).toList,
        sampleCore.bypasses (sampleHeader 2 0 100 [0]) e.1.core r.1 = false) ∧
      sampleCore.Refused n.core.store (sampleHeader 2 0 100 [0]) :=
  let _ := sampleCrypto
  let ⟨es, n, hrun, hcheck⟩ := System.exec_check sampleCore.system sampleRefusedOnce
    (fun es n => decide (digestsApart (sampleCore.knownHeaders es) = true ∧
      (∀ h ∈ headers es, h ∈ sampleCore.letIn es → h.id ∉ (sampleHeader 2 0 100 [0]).parents) ∧
      (∀ e ∈ es, ∀ r ∈ (e.1.input e.2).toList,
        sampleCore.bypasses (sampleHeader 2 0 100 [0]) e.1.core r.1 = false) ∧
      sampleCore.Refused n.core.store (sampleHeader 2 0 100 [0]))) (by decide +kernel)
  ⟨es, n, hrun, of_decide_eq_true hcheck⟩

omit [Crypto] in
/-- Delivered once, after its parent, the certificate is not accepted. -/
theorem refused_never_accepted_sample :
    letI := sampleCrypto
    ∃ es n, sampleCore.Run es n ∧
      sampleCore.Refused n.core.store (sampleHeader 2 0 100 [0]) ∧
      (∀ c ∈ n.core.txConsensus, c.header ≠ sampleHeader 2 0 100 [0]) ∧
      ∀ key c, n.core.store.lookup key = some (.certificate c) →
        c.header ≠ sampleHeader 2 0 100 [0] := by
  let _ := sampleCrypto
  obtain ⟨es, n, hrun, hapart, hids, hinputs, hrefused⟩ := exists_refusedRun
  have hguarded : sampleCore.Guarded es (sampleHeader 2 0 100 [0]) := by
    refine ⟨by decide, fun h hh => hids h hh.1 hh, fun m a input m₀ hmem hinput hbypassed => ?_⟩
    have hfalse := hinputs (m, a) hmem (input, m₀) (by simp [hinput])
    rw [hbypassed.check] at hfalse
    exact absurd hfalse (by decide)
  exact ⟨es, n, hrun, hrefused, refused_never_accepted hrun _
    (digestsApart_of_check (fun _ hh => hh.1) hapart) hguarded n (Or.inl rfl) hrefused⟩

/-- The certificate is delivered a second time. -/
def sampleRefusedTwice : List Primary.Action :=
  sampleRefused ++ [.message (.certificate (sampleCertificate 2 0 [0]))]

omit [Crypto] in
set_option maxRecDepth 10000 in
theorem exists_refusedTwiceRun :
    letI := sampleCrypto
    ∃ es n, sampleCore.Run es n ∧ digestsApart (sampleCore.knownHeaders es) = true ∧
      (∀ h ∈ headers es, h.id ∉ (sampleHeader 2 0 100 [0]).parents) ∧
      (∀ e ∈ es, sampleCore.sanitizeCertificate e.1.core (sampleCertificate 2 0 [0]) = .ok ()) ∧
      sampleCore.Refused n.core.store (sampleHeader 2 0 100 [0]) ∧
      sampleCertificate 2 0 [0] ∈ n.core.txConsensus :=
  let _ := sampleCrypto
  let ⟨es, n, hrun, hcheck⟩ := System.exec_check sampleCore.system sampleRefusedTwice
    (fun es n => decide (digestsApart (sampleCore.knownHeaders es) = true ∧
      (∀ h ∈ headers es, h.id ∉ (sampleHeader 2 0 100 [0]).parents) ∧
      (∀ e ∈ es, sampleCore.sanitizeCertificate e.1.core (sampleCertificate 2 0 [0]) = .ok ()) ∧
      sampleCore.Refused n.core.store (sampleHeader 2 0 100 [0]) ∧
      sampleCertificate 2 0 [0] ∈ n.core.txConsensus)) (by decide +kernel)
  ⟨es, n, hrun, of_decide_eq_true hcheck⟩

omit [Crypto] in
/-- **A refused certificate is accepted**: the first delivery marks its header as being
processed and fails, the second skips the checks. -/
theorem refused_accepted :
    ¬ ∀ (_ : Crypto) (core : Core) (es : History) (n : Primary), core.Run es n →
      core.DigestsApart {h | h ∈ headers es} → ∀ c : Certificate, c.header.parents.toList ≠ [] →
      (∀ h ∈ headers es, h.id ∉ c.header.parents) →
      (∀ e ∈ es, core.sanitizeCertificate e.1.core c = .ok ()) →
      ∀ m, (m = n ∨ ∃ a, (m, a) ∈ es) → core.Refused m.core.store c.header →
        c ∉ n.core.txConsensus ∧ ∀ key, n.core.store.lookup key ≠ some (.certificate c) := by
  intro h
  let _ := sampleCrypto
  obtain ⟨es, n, hrun, hapart, hids, hsanitized, hrefused, hsent⟩ := exists_refusedTwiceRun
  have hnever := h sampleCrypto sampleCore es n hrun
    (digestsApart_of_check (fun _ hh => hh) hapart)
    (sampleCertificate 2 0 [0]) (by decide) hids hsanitized n (Or.inl rfl) hrefused
  exact hnever.1 hsent

end Core

end Mrv
