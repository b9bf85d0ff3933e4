/-
  Mrv.Protocol.Network — authorities that run the program, among others that do not.

  The authorities in `good` each run a process.  What reaches one of them is chosen by
  an adversary: any message at any time, in any order, as often as it likes, and made
  up as it likes, but for the signatures of good authorities: a valid one in a message
  is on a digest that this authority has signed and sent out before.  A good authority
  sends out the ids of its headers once the core took them, and the digests of its
  votes.

  `Assumptions` collects what the results about the network rest on: two thirds of the
  stake are good, hashes do not collide on the headers that are let in, signatures verify,
  and ids commit to the content of what is voted for.  `FreshAssumptions` adds that no
  good authority votes a second time in a slot that it has forgotten.  From the first alone
  every good authority meets the assumptions of `Run.standing`, with one condition on the
  signatures of a certificate for all of them:

    * `Run.published` — what was signed stays signed,
    * `Run.standing`  — a good signature on a certificate that a good authority accepted
                        was made.
-/
import Mrv.Protocol.Process

namespace Mrv

open Mrv.Core (Incoming ownHeaders Proposes Proposed Recognises Vouched Standing Honest)

variable [Crypto]

/-! ## §1. The network. -/

/-- The committee, the parameters, and the authorities that run the program. -/
structure Network where
  committee : Committee
  gcDepth : ℕ
  headerSize : ℕ
  good : Finset PublicKey

/-- What is signed in a message, by whom. -/
def PrimaryMessage.signatures : PrimaryMessage → List (PublicKey × Digest × Signature)
  | .header h => [(h.author, h.id, h.signature)]
  | .vote v => [(v.author, v.digest, v.signature)]
  | .certificate c =>
      (c.header.author, c.header.id, c.header.signature) ::
        c.votes.map (fun v => (v.1, c.digest, v.2))

namespace Process

/-- The digests a process has signed and sent out. -/
def published (n : Process) : List Digest :=
  ((created n.log).take n.headers).map Header.id ++ n.primary.core.cast.map (fun x => x.vote.digest)

end Process

namespace Network

variable (self : Network)

/-- The process of an authority. -/
def config (name : PublicKey) : ProcessConfig :=
  { core := { name, committee := self.committee, gcDepth := self.gcDepth }
    headerSize := self.headerSize }

/-- The valid signatures of good authorities in a message were made. -/
def authentic (s : PublicKey → Process) (message : PrimaryMessage) : Bool :=
  message.signatures.all fun e =>
    decide (Crypto.verify e.2.2 e.2.1 e.1 = true → e.1 ∈ self.good → e.2.1 ∈ (s e.1).published)

/-- The steps that are possible. -/
def allows (s : PublicKey → Process) (name : PublicKey) (a : Process.Action) : Bool :=
  decide (name ∈ self.good) &&
    match a with
    | .primary (.message message) => self.authentic s message
    -- a worker whose id is not in the committee does not start
    | .digest _ workerId => (self.committee.worker name workerId).toBool
    | _ => true

/-- A network as a transition system. -/
def system : System (PublicKey → Process) (PublicKey × Process.Action) :=
  System.parties (fun name => (self.config name).system) self.allows

/-- A history of a network, latest step first. -/
abbrev History := List ((PublicKey → Process) × (PublicKey × Process.Action))

/-- Runs of a network. -/
abbrev Run (es : History) (s : PublicKey → Process) : Prop := self.system.Run es s

/-- The process of one authority. -/
def party (name : PublicKey) : System.View self.system (self.config name).system :=
  System.party _ _ name

/-- What happened to the process of an authority. -/
abbrev history (name : PublicKey) (es : History) : ProcessConfig.History :=
  (self.party name).history es

/-- What happened to its primary. -/
abbrev primaryHistory (name : PublicKey) (es : History) : Core.History :=
  (self.config name).primaryHistory (self.history name es)

/-- The headers that came to good authorities: those that are not stopped at the door, and
those of their own proposers. -/
def headers (es : History) : Set Header :=
  {h | h = Header.default ∨ ∃ name ∈ self.good, ∃ e ∈ self.primaryHistory name es,
    (h ∈ e.2.headers ∧ h.Admitted self.committee) ∨ e.2 = .ownHeader h}

/-- The headers that good authorities voted for, and those of the certificates they accepted. -/
def endorsed (s : PublicKey → Process) : Set Header :=
  {h | ∃ name ∈ self.good, (∃ x ∈ (s name).primary.core.cast, x.header = h) ∨
    ∃ c ∈ (s name).primary.core.txConsensus, c.header = h}

variable {self} {es : History} {s s' : PublicKey → Process} {name : PublicKey}
  {a : Process.Action} {X : Set Header}

theorem Run.party (hrun : self.Run es s) (name : PublicKey) :
    (self.config name).Run (self.history name es) (s name) :=
  (self.party name).run hrun

theorem Run.primary (hrun : self.Run es s) (name : PublicKey) :
    (self.config name).core.Run (self.primaryHistory name es) (s name).primary :=
  (self.config name).primaryView.run (hrun.party name)

/-- **One step of the network.** -/
theorem next_cases (h : self.system.next s (name, a) = some s') :
    self.allows s name a = true ∧ ∃ n, (self.config name).next (s name) a = some n ∧
      s' = Function.update s name n :=
  System.parties_next h

theorem history_cons_self (s : PublicKey → Process) (a : Process.Action) (es : History) :
    self.history name ((s, (name, a)) :: es) = (s name, a) :: self.history name es :=
  (self.party name).history_cons_some (if_pos rfl)

theorem history_cons_other {other : PublicKey} (hne : other ≠ name) (s : PublicKey → Process)
    (a : Process.Action) (es : History) :
    self.history name ((s, (other, a)) :: es) = self.history name es :=
  (self.party name).history_cons_none (if_neg hne)

/-- What happened to the process of an authority is what happened in the network at it. -/
theorem mem_history {n : Process} :
    (n, a) ∈ self.history name es ↔ ∃ t, (t, (name, a)) ∈ es ∧ t name = n := by
  refine (self.party name).mem_history.trans ⟨?_, ?_⟩
  · rintro ⟨t, ⟨other, b⟩, ht, hparty, hstate⟩
    change (if other = name then some b else none) = some a at hparty
    split at hparty
    · next heq =>
      rw [heq, Option.some.inj hparty] at ht
      exact ⟨t, ht, hstate⟩
    · exact absurd hparty.symm (Option.some_ne_none _)
  · rintro ⟨t, ht, hstate⟩
    exact ⟨t, (name, a), ht, if_pos rfl, hstate⟩

end Network

/-! ## §2. What was signed stays signed. -/

namespace ProcessConfig

variable {self : ProcessConfig} {n n' : Process} {a : Process.Action}

omit [Crypto] in
/-- More headers, or more of them taken. -/
theorem mem_take_append {α : Type} {l l' : List α} {k : ℕ} {x : α} (h : x ∈ l.take k) :
    x ∈ (l ++ l').take k := by
  rw [List.take_append]
  exact List.mem_append_left _ h

/-- **One step of a process takes no signature back.** -/
theorem published_subset (h : self.next n a = some n') : n.published ⊆ n'.published := by
  have hmap : ∀ {l l' : List Header} {k k' : List Cast}, l ⊆ l' → k ⊆ k' →
      l.map Header.id ++ k.map (fun x => x.vote.digest)
        ⊆ l'.map Header.id ++ k'.map (fun x => x.vote.digest) := by
    intro l l' k k' hl hk
    exact List.append_subset.mpr ⟨List.subset_append_of_subset_left _ (List.map_subset _ hl),
      List.subset_append_of_subset_right _ (List.map_subset _ hk)⟩
  unfold Process.published
  cases steps_of_next h with
  | primary b primary _ hnext =>
      exact hmap (List.Subset.refl _) (Core.extends_of_next hnext).cast.subset
  | proposer _ b m hkind hnext =>
      refine hmap ?_ (List.Subset.refl _)
      show (created n.log).take n.headers ⊆ (created m.log).take n.headers
      obtain hsame | hmore := (created_of_propose hkind hnext).2
      · rw [hsame]
        exact List.Subset.refl _
      · rw [hmore]
        exact fun x hx => mem_take_append hx
  | header header primary _ hnext =>
      refine hmap ?_ (Core.extends_of_next hnext).cast.subset
      exact (List.take_prefix_take_left (Nat.le_succ n.headers)).subset
  | collect certificate _ =>
      rw [show ({ n with
        primary := (self.core.next n.primary (.committed certificate.round)).getD n.primary
        feedback := n.feedback + 1 } : Process).primary.core = _ from core_committed _ _ _]
      exact List.Subset.refl _
  | _ => exact List.Subset.refl _

/-- What a process signed is the id of a header its core took, or the digest of a vote. -/
theorem mem_published {es : History} (h : Promised self es n) {d : Digest} :
    d ∈ n.published ↔ (∃ x ∈ ownHeaders (self.primaryHistory es), x.id = d) ∨
      ∃ x ∈ n.primary.core.cast, x.vote.digest = d := by
  unfold Process.published
  rw [List.mem_append, List.mem_map, List.mem_map, h.taken]
  simp only [List.mem_reverse]

end ProcessConfig

namespace Network

variable {self : Network} {es : History} {s s' : PublicKey → Process} {name : PublicKey}
  {a : Process.Action} {X : Set Header}

/-- **What was signed stays signed.** -/
theorem Run.published (hrun : self.Run es s) {t : PublicKey → Process}
    {e : PublicKey × Process.Action} (he : (t, e) ∈ es) (name : PublicKey) :
    (t name).published ⊆ (s name).published := by
  refine System.Run.invariant (P := fun es s => ∀ t e, (t, e) ∈ es →
    (t name).published ⊆ (s name).published) ?_ ?_ hrun t e he
  · exact fun t e he => absurd he List.not_mem_nil
  · intro es s i s' _ ih hnext t e he
    obtain ⟨other, a⟩ := i
    obtain ⟨_, n, hstep, rfl⟩ := next_cases hnext
    have hone : (s name).published ⊆ (Function.update s other n name).published := by
      by_cases heq : name = other
      · subst heq
        rw [Function.update_self]
        exact ProcessConfig.published_subset hstep
      · rw [Function.update_of_ne heq]
        exact List.Subset.refl _
    obtain heq | hmem := List.mem_cons.mp he
    · obtain ⟨rfl, _⟩ := Prod.mk.inj heq
      exact hone
    · exact List.Subset.trans (ih t e hmem) hone

/-- **A message is let through only if the good signatures in it were made.** -/
theorem made_of_allows {message : PrimaryMessage} {signer : PublicKey} {d : Digest}
    {signature : Signature} (h : self.allows s name (.primary (.message message)) = true)
    (hmem : (signer, d, signature) ∈ message.signatures)
    (hvalid : Crypto.verify signature d signer = true) (hgood : signer ∈ self.good) :
    d ∈ (s signer).published := by
  unfold allows at h
  have hauthentic := ((Bool.and_eq_true _ _).mp h).2
  dsimp only at hauthentic
  unfold Network.authentic at hauthentic
  have hone := of_decide_eq_true (List.all_eq_true.mp hauthentic _ hmem)
  exact hone hvalid hgood

/-- A message of the history of an authority came in over the network. -/
theorem message_of_history {m : Primary} {message : PrimaryMessage}
    (h : (m, Primary.Action.message message) ∈ self.primaryHistory name es) :
    ∃ t, (t, (name, Process.Action.primary (.message message))) ∈ es := by
  obtain ⟨n, a, hmem, hlabel, _⟩ := (self.config name).primaryView.mem_history.mp h
  obtain ⟨t, ht, _⟩ := mem_history.mp hmem
  rw [ProcessConfig.eq_of_label_message hlabel] at ht
  exact ⟨t, ht⟩

/-- **A good signature in a message was made.** -/
theorem Run.authentic (hrun : self.Run es s) {m : Primary} {message : PrimaryMessage}
    (h : (m, Primary.Action.message message) ∈ self.primaryHistory name es)
    {signer : PublicKey} {d : Digest} {signature : Signature}
    (hmem : (signer, d, signature) ∈ message.signatures)
    (hvalid : Crypto.verify signature d signer = true) (hgood : signer ∈ self.good) :
    d ∈ (s signer).published := by
  obtain ⟨t, ht⟩ := message_of_history h
  obtain ⟨later, earlier, t', heq, hrun', hnext⟩ := System.Run.at_entry hrun ht
  have hmade := made_of_allows (next_cases hnext).1 hmem hvalid hgood
  exact hrun.published ht signer hmade

/-! ## §3. What the results rest on. -/

/-- The assumptions on a run of a network. -/
structure Assumptions (network : Network) (es : History) (s : PublicKey → Process) : Prop where
  fit : 2 * network.committee.totalStake < 2 ^ 32
  /-- The other authorities have less than f + 1 of the stake. -/
  minority : ∑ a ∈ network.committee.members \ network.good, network.committee.weight a
    < network.committee.validityThreshold.toNat
  positive : ∀ name ∈ network.good, 0 < network.committee.weight name
  batch : Crypto.BatchExact
  signs : ∀ name ∈ network.good, (network.config name).core.SignsWell
  hashing : Hashing network.committee (network.headers es)
  /-- Headers of one id that were voted for or accepted have as many batches. -/
  unambiguous : Unambiguous (network.endorsed s)

/-- No good authority processes a header of a collected round in whose slot it voted before
for another one. -/
structure FreshAssumptions (network : Network) (es : History) (s : PublicKey → Process) : Prop
    extends Assumptions network es s where
  fresh : ∀ name ∈ network.good, Core.NoStale (network.primaryHistory name es)

/-- A good authority signed a digest. -/
def Made (network : Network) (s : PublicKey → Process) (name : PublicKey) (digest : Digest)
    (_ : Signature) : Prop :=
  name ∈ network.good → digest ∈ (s name).published

/-- A header that the core takes from the proposer is ours, and hashes to its id. -/
theorem genuine_of_own {config : ProcessConfig} {es : ProcessConfig.History} {n : Process}
    (hrun : config.Run es n) {m : Primary} {x : Header}
    (h : (m, Primary.Action.ownHeader x) ∈ config.primaryHistory es) :
    x.author = config.core.name ∧ x.digest = x.id := by
  obtain ⟨t, a, hmem, hlabel, _⟩ := config.primaryView.mem_history.mp h
  obtain ⟨later, earlier, t', heq, hrun', hnext⟩ := System.Run.at_entry hrun hmem
  change ProcessConfig.primaryLabel t a = some _ at hlabel
  cases ProcessConfig.steps_of_next hnext with
  | primary b primary hinside _ =>
      obtain rfl := Option.some.inj hlabel
      cases hinside
  | proposer _ b m hkind _ =>
      rw [(ProcessConfig.labels_of_proposing hkind).1] at hlabel
      cases hlabel
  | header header primary hheader _ =>
      change t.nextHeader.map _ = _ at hlabel
      rw [hheader] at hlabel
      obtain rfl := Primary.Action.ownHeader.inj (Option.some.inj hlabel)
      obtain ⟨payload, parents, hmade⟩ :=
        ProcessConfig.Run.made hrun' header (List.mem_of_getElem? hheader)
      rw [hmade]
      exact ⟨rfl, Header.digest_new _ _ _ _⟩
  | collect certificate hcertificate =>
      rw [ProcessConfig.primaryLabel_collect hcertificate] at hlabel
      split at hlabel
      · cases hlabel
      · cases hlabel
  | _ => cases hlabel

section

variable (hpositive : ∀ name ∈ self.good, 0 < self.committee.weight name) (hrun : self.Run es s)

include hpositive hrun

/-- The headers met hash to their ids, or are taken for genesis. -/
theorem Run.genuine : ∀ h ∈ self.headers es, h.Genuine self.committee := by
  rintro h (rfl | ⟨name, hgood, ⟨m, a⟩, hmem, ⟨_, hadmitted⟩ | hown⟩)
  · exact Header.genuine_default
  · exact hadmitted.genuine
  · dsimp only at hown
    subst hown
    obtain ⟨hauthor, hdigest⟩ := genuine_of_own (hrun.party name) hmem
    refine Or.inl ⟨hdigest, ?_⟩
    rw [hauthor]
    exact Committee.member_of_weight (hpositive name hgood)

/-- What comes to a good authority is among the headers met. -/
theorem Run.incoming (hgood : name ∈ self.good) :
    Incoming (self.config name).core (self.headers es) (self.primaryHistory name es) :=
  ⟨hrun.genuine hpositive, Or.inl rfl,
    fun m a hmem _ hh hadmitted => Or.inr ⟨name, hgood, (m, a), hmem, Or.inl ⟨hh, hadmitted⟩⟩,
    fun _ _ hmem => ⟨Or.inr ⟨name, hgood, _, hmem, Or.inr rfl⟩,
      (genuine_of_own (hrun.party name) hmem).2⟩⟩

end

/-- What an earlier part of a run met was met. -/
theorem Incoming.of_cons {e : (PublicKey → Process) × (PublicKey × Process.Action)}
    (h : Incoming (self.config name).core X (self.primaryHistory name (e :: es))) :
    Incoming (self.config name).core X (self.primaryHistory name es) := by
  let view : System.View self.system (self.config name).core.system :=
    (self.config name).primaryView.comp (self.party name)
  have heq : ∀ es, self.primaryHistory name es = view.history es := fun es =>
    (System.View.history_comp _ _ es).symm
  rw [heq] at h ⊢
  exact ProcessConfig.incoming_earlier view h

/-- What the proposer of an authority promises. -/
theorem Run.promised (hfit : 2 * self.committee.totalStake < 2 ^ 32)
    (hhash : Separated self.committee X) (hrun : self.Run es s)
    (hin : Incoming (self.config name).core X (self.primaryHistory name es)) :
    ProcessConfig.Promised (self.config name) (self.history name es) (s name) ∧
      Proposes (self.config name).core (self.primaryHistory name es) := by
  have hfit' : 2 * (self.config name).core.committee.totalStake < 2 ^ 32 := hfit
  have hhash' : Separated (self.config name).core.committee X := hhash
  exact ProcessConfig.Run.promised hfit' hhash' (hrun.party name) hin

/-- The votes of an authority are for headers that came to it. -/
theorem Run.honest (hfit : 2 * self.committee.totalStake < 2 ^ 32)
    (hhash : Separated self.committee X) (hrun : self.Run es s)
    (hin : Incoming (self.config name).core X (self.primaryHistory name es)) :
    Honest (self.config name).core X (s name).primary.core := by
  have hfit' : 2 * (self.config name).core.committee.totalStake < 2 ^ 32 := hfit
  have hhash' : Separated (self.config name).core.committee X := hhash
  exact Core.Run.honest hfit' hhash' (hrun.primary name) hin

/-- A header that passes its own check is signed. -/
theorem Header.signed_of_verify {h : Header} {committee : Committee}
    (hok : h.verify committee = .ok ()) : Crypto.verify h.signature h.id h.author = true := by
  unfold Header.verify at hok
  obtain ⟨_, hok⟩ := ensure_bind_eq_ok.mp hok
  obtain ⟨_, hok⟩ := ensure_bind_eq_ok.mp hok
  obtain ⟨_, _, hok⟩ := bind_eq_ok.mp hok
  exact ensure_eq_ok.mp hok

/-- The headers of a message are signed in it. -/
theorem mem_signatures {message : PrimaryMessage} {h : Header}
    (hh : h ∈ (Primary.Action.message message).headers) :
    (h.author, h.id, h.signature) ∈ message.signatures := by
  cases message with
  | header x =>
      rw [List.mem_singleton.mp hh]
      exact List.mem_cons_self
  | vote v => exact absurd hh List.not_mem_nil
  | certificate c =>
      rw [List.mem_singleton.mp hh]
      exact List.mem_cons_self

/-- A header whose id an authority signed has the id of one of its own: the digests of its
votes are not ids of headers. -/
theorem Run.own_of_published (hfit : 2 * self.committee.totalStake < 2 ^ 32)
    (hhash : Separated self.committee X) (hrun : self.Run es s)
    (hin : Incoming (self.config name).core X (self.primaryHistory name es)) {h : Header}
    (hX : h ∈ X) (hmade : h.id ∈ (s name).published) :
    ∃ x ∈ ownHeaders (self.primaryHistory name es), x.id = h.id := by
  have hpromised := (Run.promised hfit hhash hrun hin).1
  obtain hown | ⟨x, hx, hid⟩ := (ProcessConfig.mem_published hpromised).mp hmade
  · exact hown
  · obtain ⟨hxX, hvote⟩ := (Run.honest hfit hhash hrun hin).cast x hx
    rw [hvote] at hid
    exact absurd hid.symm (hhash.apart h hX x.header (Or.inl hxX))

/-- **Nobody signs headers for a good authority.** -/
theorem Run.recognises (hfit : 2 * self.committee.totalStake < 2 ^ 32)
    (hhash : Separated self.committee X) (hrun : self.Run es s) (hgood : name ∈ self.good)
    (hin : Incoming (self.config name).core X (self.primaryHistory name es)) :
    Recognises (self.config name).core (self.primaryHistory name es) := by
  refine System.Run.invariant (P := fun es _ =>
    Incoming (self.config name).core X (self.primaryHistory name es) →
      Recognises (self.config name).core (self.primaryHistory name es)) ?_ ?_ hrun hin
  · exact fun _ => trivial
  · intro es s i s' hrun ih hnext hin
    have hearlier := Incoming.of_cons hin
    have hrec := ih hearlier
    obtain ⟨other, a⟩ := i
    by_cases hother : other = name
    · subst hother
      obtain ⟨hallows, n, hstep, rfl⟩ := next_cases hnext
      have hhistory : self.primaryHistory other ((s, (other, a)) :: es)
          = (self.config other).primaryHistory ((s other, a) :: self.history other es) := by
        unfold primaryHistory
        rw [history_cons_self]
      rw [hhistory] at hin ⊢
      cases hlabel : ProcessConfig.primaryLabel (s other) a with
      | none =>
          rw [show (self.config other).primaryHistory _ = _ from
            (self.config other).primaryView.history_cons_none hlabel]
          exact hrec
      | some b =>
          rw [show (self.config other).primaryHistory _ = _ from
            (self.config other).primaryView.history_cons_some hlabel] at hin ⊢
          refine ⟨hrec, fun h hh hverify hname => ?_⟩
          have hX : h ∈ X := hin.admitted _ _ List.mem_cons_self h hh (Or.inl hverify)
          cases b with
          | message message =>
              obtain rfl := ProcessConfig.eq_of_label_message hlabel
              have hvalid := Header.signed_of_verify hverify
              have hsigned := mem_signatures hh
              rw [hname] at hvalid hsigned
              exact Run.own_of_published hfit hhash hrun hearlier hX
                (made_of_allows hallows hsigned hvalid hgood)
          | ownHeader x =>
              obtain rfl := List.mem_singleton.mp hh
              exact ⟨h, List.mem_cons_self, rfl⟩
          | _ => exact absurd hh List.not_mem_nil
    · have hsame : self.primaryHistory name ((s, (other, a)) :: es)
          = self.primaryHistory name es := by
        unfold primaryHistory
        rw [history_cons_other hother]
      rw [hsame]
      exact hrec

section

variable (h : Assumptions self es s) (hrun : self.Run es s) (hgood : name ∈ self.good)

include h hrun

/-- Digests tell the headers met apart. -/
theorem Assumptions.separated : Separated self.committee (self.headers es) :=
  h.hashing.separated (hrun.genuine h.positive)

include hgood

theorem Assumptions.incoming :
    Incoming (self.config name).core (self.headers es) (self.primaryHistory name es) :=
  hrun.incoming h.positive hgood

/-- What the proposer of a good authority promises. -/
theorem Assumptions.promised :
    ProcessConfig.Promised (self.config name) (self.history name es) (s name) ∧
      Proposes (self.config name).core (self.primaryHistory name es) :=
  hrun.promised h.fit (h.separated hrun) (h.incoming hrun hgood)

theorem Assumptions.recognises :
    Recognises (self.config name).core (self.primaryHistory name es) :=
  hrun.recognises h.fit (h.separated hrun) hgood (h.incoming hrun hgood)

theorem Assumptions.honest :
    Honest (self.config name).core (self.headers es) (s name).primary.core :=
  hrun.honest h.fit (h.separated hrun) (h.incoming hrun hgood)

/-- A good authority voted for each header of its own. -/
theorem Assumptions.own_cast : ∀ x ∈ ownHeaders (self.primaryHistory name es),
    ∃ y ∈ (s name).primary.core.cast, y.header = x ∧ y.vote = Vote.new x name := by
  have hfit : 2 * (self.config name).core.committee.totalStake < 2 ^ 32 := h.fit
  have hhash : Separated (self.config name).core.committee (self.headers es) := h.separated hrun
  have hpositive : 0 < (self.config name).core.committee.weight (self.config name).core.name :=
    h.positive name hgood
  exact Core.Run.own_cast hfit hhash hpositive h.batch (hrun.primary name)
    (h.incoming hrun hgood) (h.promised hrun hgood).2 (h.recognises hrun hgood)

/-- **The good signatures a good authority comes across were made.** -/
theorem Assumptions.vouched :
    Vouched (self.config name).core (self.Made s) (self.primaryHistory name es) := by
  refine ⟨fun m v hmem hvalid => hrun.authentic hmem List.mem_cons_self hvalid,
    fun m c hmem e he hvalid => hrun.authentic hmem
      (List.mem_cons_of_mem _ (List.mem_map_of_mem he)) hvalid, fun x hx _ => ?_⟩
  obtain ⟨y, hy, rfl, hvote⟩ := h.own_cast hrun hgood x hx
  refine (ProcessConfig.mem_published (h.promised hrun hgood).1).mpr (Or.inr ⟨y, hy, ?_⟩)
  rw [hvote]
  rfl

/-- **The invariant of a good authority.** -/
theorem Assumptions.standing :
    Standing (self.config name).core (self.headers es) (self.Made s)
      (self.primaryHistory name es) (s name).primary := by
  have hfit : 2 * (self.config name).core.committee.totalStake < 2 ^ 32 := h.fit
  have hhash : Separated (self.config name).core.committee (self.headers es) := h.separated hrun
  have hpositive : 0 < (self.config name).core.committee.weight (self.config name).core.name :=
    h.positive name hgood
  exact Core.Run.standing hfit hhash hpositive h.batch (hrun.primary name)
    (h.incoming hrun hgood) (h.promised hrun hgood).2 (h.recognises hrun hgood)
    (h.vouched hrun hgood)

end

end Network

end Mrv
