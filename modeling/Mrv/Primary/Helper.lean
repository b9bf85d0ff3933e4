/-
  Mrv.Primary.Helper — serving certificate requests (`primary/src/helper.rs`).

  The helper reads what stands under each requested digest and expects a certificate.
  It finds no batch there, since the keys of batches are longer.  But a header stands
  under its id, which is a digest that can be requested: its bytes end where the votes
  of a certificate would begin, and the helper panics.  This is the only way to stop it
  (`served_iff`).
-/
import Mrv.Primary.Delivery

namespace Mrv

/-! ## §1. The helper. -/

/-- Why the helper stops. -/
inductive HelperPanic where
  /-- Failed to deserialize our own certificate. -/
  | deserialize
  deriving DecidableEq

/-- `PrimaryMessage::CertificatesRequest`: the digests, and who asks. -/
structure CertificatesRequest where
  digests : List Digest
  requestor : PublicKey

namespace Helper

/-- What the helper sends for a request, and why it stops, if it does. -/
structure Reply where
  network : List (SocketAddr × PrimaryMessage)
  panic : Option HelperPanic

/-- Reply to the request (the best we can): the loop over the digests. -/
def reply (store : Store) (address : SocketAddr) :
    List Digest → List (SocketAddr × PrimaryMessage) → Reply
  | [], network => ⟨network, none⟩
  | digest :: digests, network =>
      match store.lookup digest.toVec with
      | none => reply store address digests network
      | some data =>
          match data.toCertificate with
          | .error _ => ⟨network, some .deserialize⟩
          | .ok certificate =>
              reply store address digests (network ++ [(address, .certificate certificate)])

/-- The loop body of `run`. -/
def handle (committee : Committee) (store : Store) (request : CertificatesRequest) : Reply :=
  match committee.primary request.requestor with
  | .ok x => reply store x.primaryToPrimary request.digests []
  | .error _ => ⟨[], none⟩

/-! ## §2. The loop. -/

variable {store : Store} {address : SocketAddr} {digests : List Digest}
  {network : List (SocketAddr × PrimaryMessage)}

/-- The helper gets through exactly if it finds certificates only. -/
theorem panic_reply : (reply store address digests network).panic = none ↔
    ∀ d ∈ digests, ∀ data, store.lookup d.toVec = some data → ∃ c, data = .certificate c := by
  induction digests generalizing network with
  | nil => simp [reply]
  | cons d digests ih =>
      rw [List.forall_mem_cons]
      unfold reply
      cases hdata : store.lookup d.toVec with
      | none =>
          rw [ih]
          simp
      | some data =>
          cases data with
          | certificate c =>
              show (reply store address digests _).panic = none ↔ _
              rw [ih]
              simp
          | header h => simp [Record.toCertificate]
          | batch => simp [Record.toCertificate]

/-- What was sent before stays, and each certificate that is found is sent. -/
theorem mem_network_reply (hpanic : (reply store address digests network).panic = none)
    (m : SocketAddr × PrimaryMessage) :
    m ∈ (reply store address digests network).network ↔ m ∈ network ∨
      ∃ d ∈ digests, ∃ c, store.lookup d.toVec = some (.certificate c) ∧
        m = (address, .certificate c) := by
  induction digests generalizing network with
  | nil => simp [reply]
  | cons d digests ih =>
      simp only [List.mem_cons, exists_eq_or_imp]
      unfold reply at hpanic ⊢
      cases hdata : store.lookup d.toVec with
      | none =>
          rw [hdata] at hpanic
          rw [ih hpanic]
          simp
      | some data =>
          rw [hdata] at hpanic
          cases data with
          | certificate c =>
              change (reply store address digests _).panic = none at hpanic
              show m ∈ (reply store address digests _).network ↔ _
              rw [ih hpanic, List.mem_append, List.mem_singleton, or_assoc]
              simp
          | header h => simp [Record.toCertificate] at hpanic
          | batch => simp [Record.toCertificate] at hpanic

end Helper

/-! ## §3. Requests. -/

/-- A value stands somewhere in a store. -/
def Store.Contains (store : Store) (record : Record) : Prop :=
  ∃ key, store.lookup key = some record

section

variable [Crypto]

/-- The helper gets through a request, and sends the requestor exactly the stored
certificates whose digests were requested. -/
structure CertificatesRequest.Served (request : CertificatesRequest) (committee : Committee)
    (store : Store) (reply : Helper.Reply) : Prop where
  panic : reply.panic = none
  sent : ∀ m, m ∈ reply.network ↔ ∃ x c, committee.primary request.requestor = .ok x ∧
    store.Contains (.certificate c) ∧ c.digest ∈ request.digests ∧
    m = (x.primaryToPrimary, .certificate c)

namespace Core

open Primary (headers)

variable {self : Core} {H : Set Header} {accepted : List Certificate} {store : Store}

omit [Crypto] in
/-- A value whose key is a digest stands under this digest, if it stands anywhere. -/
theorem lookup_toVec_iff {record : Record} {id : Digest}
    (h : ∀ key, store.lookup key = some record → key = id.toVec) (d : Digest) :
    store.lookup d.toVec = some record ↔ store.Contains record ∧ id = d := by
  constructor
  · intro hlookup
    exact ⟨⟨_, hlookup⟩, (Digest.toVec_injective (h _ hlookup)).symm⟩
  · intro hcontains
    obtain ⟨⟨key, hlookup⟩, rfl⟩ := hcontains
    rw [← h key hlookup]
    exact hlookup

theorem Keyed.lookup_certificate_iff (h : Keyed H accepted store) (d : Digest) (c : Certificate) :
    store.lookup d.toVec = some (.certificate c) ↔
      store.Contains (.certificate c) ∧ c.digest = d := by
  refine lookup_toVec_iff (fun key hlookup => ?_) d
  exact (h key (.certificate c) hlookup).2

theorem Keyed.lookup_header_iff (h : Keyed H accepted store) (d : Digest) (x : Header) :
    store.lookup d.toVec = some (.header x) ↔ store.Contains (.header x) ∧ x.id = d := by
  refine lookup_toVec_iff (fun key hlookup => ?_) d
  exact (h key (.header x) hlookup).2

/-- Under a digest there is never a batch. -/
theorem Keyed.certificate_of_lookup (h : Keyed H accepted store) {d : Digest}
    (hheader : ∀ x, store.Contains (.header x) → x.id ≠ d) {data : Record}
    (hlookup : store.lookup d.toVec = some data) : ∃ c, data = .certificate c := by
  cases data with
  | certificate c => exact ⟨c, rfl⟩
  | header x => exact absurd ((h.lookup_header_iff d x).mp hlookup).2 (hheader x ⟨_, hlookup⟩)
  | batch =>
      obtain ⟨digest, workerId, hkey⟩ := h _ _ hlookup
      exact absurd hkey (toVec_ne_batchKey d digest workerId)

/-- **When requests are served**: in every reachable state, a request is served exactly if
its requestor is unknown or it does not name the id of a stored header. -/
theorem served_iff {es : History} {n : Primary} (hrun : self.Run es n)
    (request : CertificatesRequest) :
    request.Served self.committee n.core.store
        (Helper.handle self.committee n.core.store request) ↔
      (request.requestor ∈ self.committee.members →
        ∀ h, n.core.store.Contains (.header h) → h.id ∉ request.digests) := by
  have hkeyed := (Run.delivers hrun fun _ => id).2.1.keyed
  rw [Committee.mem_members_iff]
  unfold Helper.handle
  cases hprimary : self.committee.primary request.requestor with
  | error e =>
      refine iff_of_true ⟨rfl, fun m => iff_of_false List.not_mem_nil ?_⟩ ?_
      · rintro ⟨x, _, hx, _⟩
        rw [hprimary] at hx
        cases hx
      · rintro ⟨x, hx⟩
        cases hx
  | ok x =>
      show request.Served self.committee n.core.store
        (Helper.reply n.core.store x.primaryToPrimary request.digests []) ↔ _
      constructor
      · intro hserved _ h hstored hrequested
        obtain ⟨c, hc⟩ := Helper.panic_reply.mp hserved.panic h.id hrequested (.header h)
          ((hkeyed.lookup_header_iff h.id h).mpr ⟨hstored, rfl⟩)
        exact Record.noConfusion hc
      · intro hnone
        have hpanic : (Helper.reply n.core.store x.primaryToPrimary request.digests []).panic
            = none := by
          refine Helper.panic_reply.mpr fun d hd data => hkeyed.certificate_of_lookup ?_
          intro h hstored heq
          rw [← heq] at hd
          exact hnone ⟨x, rfl⟩ h hstored hd
        refine ⟨hpanic, fun m => ?_⟩
        rw [Helper.mem_network_reply hpanic]
        simp only [hkeyed.lookup_certificate_iff, hprimary, List.not_mem_nil, false_or,
          Except.ok.injEq]
        constructor
        · rintro ⟨d, hd, c, ⟨hstored, rfl⟩, rfl⟩
          exact ⟨x, c, rfl, hstored, hd, rfl⟩
        · rintro ⟨_, c, rfl, hstored, hd, rfl⟩
          exact ⟨c.digest, hd, c, ⟨hstored, rfl⟩, rfl⟩

omit [Crypto] in
set_option maxRecDepth 10000 in
theorem exists_certificatesRun :
    letI := sampleCrypto
    ∃ es n, sampleCore.Run es n ∧ ¬ (∃ h, n.core.store.Contains (.header h)) ∧
      n.core.store.Contains (.certificate (sampleCertificate 1 1 [1, 2, 3])) :=
  let _ := sampleCrypto
  let ⟨es, n, hrun, hcheck⟩ := System.exec_check sampleCore.system sampleDelivery
    (fun _ n => decide ((∀ e ∈ n.core.store.entries, e.2.toCertificate.toOption ≠ none) ∧
      n.core.store.lookup (sampleCertificate 1 1 [1, 2, 3]).digest.toVec =
        some (.certificate (sampleCertificate 1 1 [1, 2, 3])))) (by decide +kernel)
  let ⟨hall, hcertificate⟩ := of_decide_eq_true hcheck
  ⟨es, n, hrun, fun ⟨_, _, hlookup⟩ => hall _ (AList.mem_lookup_iff.mp hlookup) rfl,
    ⟨_, hcertificate⟩⟩

omit [Crypto] in
/-- A stored certificate is sent to who asks for it. -/
theorem served_iff_sample :
    letI := sampleCrypto
    ∃ es n, sampleCore.Run es n ∧
      n.core.store.Contains (.certificate (sampleCertificate 1 1 [1, 2, 3])) ∧
      let request := ⟨[(sampleCertificate 1 1 [1, 2, 3]).digest], sampleKey 0⟩
      CertificatesRequest.Served request sampleCore.committee n.core.store
        (Helper.handle sampleCore.committee n.core.store request) := by
  let _ := sampleCrypto
  obtain ⟨es, n, hrun, hheader, hcertificate⟩ := exists_certificatesRun
  exact ⟨es, n, hrun, hcertificate,
    (served_iff hrun _).mpr fun _ h hstored => absurd ⟨h, hstored⟩ hheader⟩

omit [Crypto] in
set_option maxRecDepth 10000 in
theorem exists_headerRun :
    letI := sampleCrypto
    ∃ es n, sampleCore.Run es n ∧ n.core.store.lookup (sampleDigest 1 104).toVec =
      some (.header (sampleHeader 1 0 104 [0, 1, 2])) :=
  let _ := sampleCrypto
  let ⟨es, n, hrun, hcheck⟩ := System.exec_check sampleCore.system
    [.othersBatch (sampleBatch 104) 0, .message (.header (sampleHeader 1 0 104 [0, 1, 2]))]
    (fun _ n => decide (n.core.store.lookup (sampleDigest 1 104).toVec =
      some (.header (sampleHeader 1 0 104 [0, 1, 2])))) (by decide +kernel)
  ⟨es, n, hrun, of_decide_eq_true hcheck⟩

omit [Crypto] in
/-- The id of a header stops the helper. -/
theorem helper_panics :
    letI := sampleCrypto
    ¬ ∀ (self : Core) es n, self.Run es n → ∀ request : CertificatesRequest,
      request.Served self.committee n.core.store
        (Helper.handle self.committee n.core.store request) := by
  let _ := sampleCrypto
  intro hclaim
  obtain ⟨es, n, hrun, hheader⟩ := exists_headerRun
  have hserved := hclaim sampleCore es n hrun ⟨[sampleDigest 1 104], sampleKey 0⟩
  obtain ⟨c, hc⟩ := Helper.panic_reply.mp hserved.panic _ List.mem_cons_self _ hheader
  exact Record.noConfusion hc

end Core

end

end Mrv
