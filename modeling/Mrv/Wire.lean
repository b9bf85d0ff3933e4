/-
  Mrv.Wire — messages and stored values as bytes (`primary/src/messages.rs`,
  `primary/src/primary.rs`, `crypto/src/lib.rs`).

  The types of the messages derive their formats: the fields one after the other, in the
  order in which they are declared.  Only public keys have a format of their own, a text
  (`serialize`, `deserialize` of `Keys.lean`).  What `bincode` makes of fields, sequences
  and variants is a parameter, with the layout that it documents as the hypothesis.

  The store of the primary holds bytes too.  The model keeps the values they were made
  from; `read_stored` says that reading a certificate gives the same either way.
-/
import Mrv.Keys
import Mrv.Lib.Bincode
import Mrv.Primary.Helper
import Mrv.Worker.BatchMaker

namespace Mrv

open Bincode (Crate Failure Format Variant)
open Bincode.Crate

/-- The formats of a crate. -/
abbrev Bincode.Crate.Wire (crate : Crate KeyPanic) (α : Type) := Format crate.ErrorKind KeyPanic α

/-! ## §1. Digests, keys, signatures. -/

theorem ofNat_bytesOf (v : BitVec 256) : BitVec.ofNat 256 (ofLeBytes (bytesOf v).reverse) = v := by
  have hkey : PublicKey.tryInto (bytesOf v) = some ⟨v⟩ :=
    (PublicKey.isArray.eq_some (bytesOf v) ⟨v⟩).mpr rfl
  unfold PublicKey.tryInto at hkey
  rw [if_pos (length_bytesOf v)] at hkey
  exact congrArg PublicKey.bytes (Option.some.inj hkey)

section

variable (crate : Crate KeyPanic) (base64 : Base64Crate)

/-- `[u8; 32]` -/
def Bits.format : crate.Wire (BitVec 256) :=
  (crate.array 32).convert (fun v => ⟨(bytesOf v).toArray, length_bytesOf v⟩)
    (fun bytes => .ok (BitVec.ofNat 256 (ofLeBytes bytes.toList.reverse)))

def Digest.format : crate.Wire Digest := (Bits.format crate).convert Digest.bytes (fun v => .ok ⟨v⟩)

def Signature.format : crate.Wire Signature :=
  (crate.pair (Bits.format crate) (Bits.format crate)).convert (fun s => (s.part1, s.part2))
    (fun x => .ok ⟨x.1, x.2⟩)

/-- `Round` -/
def Round.format : crate.Wire ℕ := crate.u64.convert UInt64.ofNat (fun n => .ok n.toNat)

/-- `WorkerId` -/
def WorkerId.format : crate.Wire WorkerId := crate.u32

/-- `PublicKey::deserialize` of the text in a message. -/
def PublicKey.read (s : String) : Except (Failure crate.ErrorKind KeyPanic) PublicKey :=
  match PublicKey.deserialize base64 crate.custom s with
  | .error p => .error (.panic p)
  | .ok (.error e) => .error (.error e)
  | .ok (.ok key) => .ok key

def PublicKey.format : crate.Wire PublicKey :=
  crate.string.convert (PublicKey.serialize base64) (PublicKey.read crate base64)

/-! ## §2. Messages of primaries. -/

def Header.format : crate.Wire Header :=
  (crate.pair (PublicKey.format crate base64) <| crate.pair (Round.format crate) <|
      crate.pair (crate.btreeMap (Digest.format crate) (WorkerId.format crate)) <|
      crate.pair (crate.btreeSet (Digest.format crate)) <|
      crate.pair (Digest.format crate) (Signature.format crate)).convert
    (fun x => (x.author, x.round, x.payload, x.parents, x.id, x.signature))
    (fun (author, round, payload, parents, id, signature) =>
      .ok { author, round, payload, parents, id, signature })

def Vote.format : crate.Wire Vote :=
  (crate.pair (Digest.format crate) <| crate.pair (Round.format crate) <|
      crate.pair (PublicKey.format crate base64) <|
      crate.pair (PublicKey.format crate base64) (Signature.format crate)).convert
    (fun v => (v.id, v.round, v.origin, v.author, v.signature))
    (fun (id, round, origin, author, signature) => .ok { id, round, origin, author, signature })

def Certificate.format : crate.Wire Certificate :=
  (crate.pair (Header.format crate base64)
      (crate.vec (crate.pair (PublicKey.format crate base64) (Signature.format crate)))).convert
    (fun c => (c.header, c.votes)) (fun (header, votes) => .ok { header, votes })

def CertificatesRequest.format : crate.Wire CertificatesRequest :=
  (crate.pair (crate.vec (Digest.format crate)) (PublicKey.format crate base64)).convert
    (fun r => (r.digests, r.requestor)) (fun (digests, requestor) => .ok { digests, requestor })

/-- The messages between primaries: what reaches the core, and what reaches the helper. -/
def PrimaryMessage.variants :
    List (Variant crate.ErrorKind KeyPanic (PrimaryMessage ⊕ CertificatesRequest)) :=
  [{ Content := Header
     format := Header.format crate base64
     build := fun x => .inl (.header x)
     content := fun
       | .inl (.header x) => some x
       | _ => none
     content_eq_some := by rintro ((_ | _ | _) | _) <;> simp },
   { Content := Vote
     format := Vote.format crate base64
     build := fun x => .inl (.vote x)
     content := fun
       | .inl (.vote x) => some x
       | _ => none
     content_eq_some := by rintro ((_ | _ | _) | _) <;> simp },
   { Content := Certificate
     format := Certificate.format crate base64
     build := fun x => .inl (.certificate x)
     content := fun
       | .inl (.certificate x) => some x
       | _ => none
     content_eq_some := by rintro ((_ | _ | _) | _) <;> simp },
   { Content := CertificatesRequest
     format := CertificatesRequest.format crate base64
     build := .inr
     content := fun
       | .inr x => some x
       | _ => none
     content_eq_some := by rintro ((_ | _ | _) | _) <;> simp }]

def PrimaryMessage.format : crate.Wire (PrimaryMessage ⊕ CertificatesRequest) :=
  crate.enum (PrimaryMessage.variants crate base64)

end

/-! ## §3. Messages of workers. -/

/-- The messages sent by the primary to its workers. -/
inductive PrimaryWorkerMessage where
  /-- The worker needs to sync the missing batches with a target. -/
  | synchronize (digests : List Digest) (target : PublicKey)
  /-- A round update. -/
  | cleanup (round : ℕ)
  deriving DecidableEq

/-- The messages sent by the workers to their primary. -/
inductive WorkerPrimaryMessage where
  /-- The worker sealed a new batch. -/
  | ourBatch (digest : Digest) (workerId : WorkerId)
  /-- The worker received a batch of another authority. -/
  | othersBatch (digest : Digest) (workerId : WorkerId)
  deriving DecidableEq

/-- The messages exchanged between workers. -/
inductive WorkerMessage where
  | batch (batch : Batch)
  | batchRequest (missing : List Digest) (origin : PublicKey)
  deriving DecidableEq

section

variable (crate : Crate KeyPanic) (base64 : Base64Crate)

def PrimaryWorkerMessage.variants : List (Variant crate.ErrorKind KeyPanic PrimaryWorkerMessage) :=
  [{ Content := List Digest × PublicKey
     format := crate.pair (crate.vec (Digest.format crate)) (PublicKey.format crate base64)
     build := fun x => .synchronize x.1 x.2
     content := fun
       | .synchronize digests target => some (digests, target)
       | _ => none
     content_eq_some := by rintro (_ | _) <;> simp [Prod.ext_iff] },
   { Content := ℕ
     format := Round.format crate
     build := .cleanup
     content := fun
       | .cleanup round => some round
       | _ => none
     content_eq_some := by rintro (_ | _) <;> simp }]

def PrimaryWorkerMessage.format : crate.Wire PrimaryWorkerMessage :=
  crate.enum (PrimaryWorkerMessage.variants crate base64)

def WorkerPrimaryMessage.variants : List (Variant crate.ErrorKind KeyPanic WorkerPrimaryMessage) :=
  [{ Content := Digest × WorkerId
     format := crate.pair (Digest.format crate) (WorkerId.format crate)
     build := fun x => .ourBatch x.1 x.2
     content := fun
       | .ourBatch digest workerId => some (digest, workerId)
       | _ => none
     content_eq_some := by rintro (_ | _) <;> simp [Prod.ext_iff] },
   { Content := Digest × WorkerId
     format := crate.pair (Digest.format crate) (WorkerId.format crate)
     build := fun x => .othersBatch x.1 x.2
     content := fun
       | .othersBatch digest workerId => some (digest, workerId)
       | _ => none
     content_eq_some := by rintro (_ | _) <;> simp [Prod.ext_iff] }]

def WorkerPrimaryMessage.format : crate.Wire WorkerPrimaryMessage :=
  crate.enum (WorkerPrimaryMessage.variants crate)

def WorkerMessage.variants : List (Variant crate.ErrorKind KeyPanic WorkerMessage) :=
  [{ Content := Batch
     format := crate.vec (crate.vec crate.u8)
     build := .batch
     content := fun
       | .batch transactions => some transactions
       | _ => none
     content_eq_some := by rintro (_ | _) <;> simp },
   { Content := List Digest × PublicKey
     format := crate.pair (crate.vec (Digest.format crate)) (PublicKey.format crate base64)
     build := fun x => .batchRequest x.1 x.2
     content := fun
       | .batchRequest missing origin => some (missing, origin)
       | _ => none
     content_eq_some := by rintro (_ | _) <;> simp [Prod.ext_iff] }]

def WorkerMessage.format : crate.Wire WorkerMessage :=
  crate.enum (WorkerMessage.variants crate base64)

end

/-! ## §4. What fits. -/

/-- Rounds are `u64`, and lengths are written as `u64`. -/
structure Header.Fits (x : Header) : Prop where
  round : x.round < 2 ^ 64
  payload : x.payload.entries.length < 2 ^ 64
  parents : x.parents.toList.length < 2 ^ 64

structure Certificate.Fits (c : Certificate) : Prop where
  header : c.header.Fits
  votes : c.votes.length < 2 ^ 64

/-- What fits in a message between primaries. -/
def PrimaryMessage.Fits : PrimaryMessage ⊕ CertificatesRequest → Prop
  | .inl (.header x) => x.Fits
  | .inl (.vote x) => x.round < 2 ^ 64
  | .inl (.certificate x) => x.Fits
  | .inr x => x.digests.length < 2 ^ 64

def PrimaryWorkerMessage.Fits : PrimaryWorkerMessage → Prop
  | .synchronize digests _ => digests.length < 2 ^ 64
  | .cleanup round => round < 2 ^ 64

def WorkerMessage.Fits : WorkerMessage → Prop
  | .batch transactions =>
      transactions.length < 2 ^ 64 ∧ ∀ transaction ∈ transactions, transaction.length < 2 ^ 64
  | .batchRequest missing _ => missing.length < 2 ^ 64

/-- The crate decodes exactly the text it writes, four characters for three bytes. -/
structure Base64Crate.Faithful (base64 : Base64Crate) : Prop where
  exact : base64.Exact
  size : ∀ bytes, (base64.encode bytes).utf8ByteSize = 4 * ((bytes.length + 2) / 3)

section

variable {crate : Crate KeyPanic} {base64 : Base64Crate} (h : crate.Documented)
  (hbase64 : base64.Faithful)

include h

theorem Bits.carries : (Bits.format crate).Carries fun _ => True :=
  (carries_array h 32).convert (fun v _ => ⟨trivial, congrArg Except.ok (ofNat_bytesOf v)⟩)
    (fun _ _ _ _ => trivial)

theorem Digest.carries : (Digest.format crate).Carries fun _ => True :=
  (Bits.carries h).convert (fun _ _ => ⟨trivial, rfl⟩) (fun _ _ _ _ => trivial)

theorem Signature.carries : (Signature.format crate).Carries fun _ => True :=
  (carries_pair h (Bits.carries h) (Bits.carries h)).convert
    (fun _ _ => ⟨⟨trivial, trivial⟩, rfl⟩) (fun _ _ _ _ => trivial)

theorem Round.carries : (Round.format crate).Carries fun round => round < 2 ^ 64 :=
  (carries_u64 h).convert
    (fun _ hlt => ⟨trivial, congrArg Except.ok (UInt64.toNat_ofNat_of_lt' hlt)⟩)
    (fun n _ _ heq => Except.ok.inj heq ▸ n.toNat_lt)

theorem WorkerId.carries : (WorkerId.format crate).Carries fun _ => True := carries_u32 h

include hbase64

theorem PublicKey.carries : (PublicKey.format crate base64).Carries fun _ => True := by
  refine (carries_string h).convert (fun key _ => ⟨?_, ?_⟩) fun _ _ _ _ => trivial
  · show (base64.encode key.toVec).utf8ByteSize < 2 ^ 64
    rw [hbase64.size, key.length_toVec]
    decide
  · unfold PublicKey.read
    rw [deserialize_serialize hbase64.exact]

theorem Header.carries : (Header.format crate base64).Carries Header.Fits := by
  have hfields := carries_pair h (PublicKey.carries h hbase64) <| carries_pair h (Round.carries h) <|
    carries_pair h (carries_btreeMap h (Digest.carries h) (WorkerId.carries h)) <|
    carries_pair h (carries_btreeSet h (Digest.carries h)) <|
    carries_pair h (Digest.carries h) (Signature.carries h)
  refine hfields.convert (fun x hx => ⟨?_, rfl⟩) fun y x hy heq => ?_
  · exact ⟨trivial, hx.round, ⟨hx.payload, fun _ _ => ⟨trivial, trivial⟩⟩,
      ⟨hx.parents, fun _ _ => trivial⟩, trivial, trivial⟩
  · obtain rfl := Except.ok.inj heq
    obtain ⟨_, hround, ⟨hpayload, _⟩, ⟨hparents, _⟩, _⟩ := hy
    exact ⟨hround, hpayload, hparents⟩

theorem Vote.carries : (Vote.format crate base64).Carries fun v => v.round < 2 ^ 64 := by
  have hkey := PublicKey.carries h hbase64
  have hfields := carries_pair h (Digest.carries h) <| carries_pair h (Round.carries h) <|
    carries_pair h hkey <| carries_pair h hkey (Signature.carries h)
  refine hfields.convert (fun v hround => ⟨?_, rfl⟩) fun y v hy heq => ?_
  · exact ⟨trivial, hround, trivial, trivial, trivial⟩
  · obtain rfl := Except.ok.inj heq
    exact hy.2.1

theorem Certificate.carries : (Certificate.format crate base64).Carries Certificate.Fits := by
  have hfields := carries_pair h (Header.carries h hbase64) <|
    carries_vec h (carries_pair h (PublicKey.carries h hbase64) (Signature.carries h))
  refine hfields.convert (fun c hc => ⟨?_, rfl⟩) fun y c hy heq => ?_
  · exact ⟨hc.header, hc.votes, fun _ _ => ⟨trivial, trivial⟩⟩
  · obtain rfl := Except.ok.inj heq
    exact ⟨hy.1, hy.2.1⟩

/-- Digests and the key of an authority. -/
theorem carries_digestsOf :
    (crate.pair (crate.vec (Digest.format crate)) (PublicKey.format crate base64)).Carries
      fun x => x.1.length < 2 ^ 64 :=
  (carries_pair h (carries_vec h (Digest.carries h)) (PublicKey.carries h hbase64)).of_iff
    fun _ => ⟨fun hlength => ⟨⟨hlength, fun _ _ => trivial⟩, trivial⟩, fun hx => hx.1.1⟩

theorem CertificatesRequest.carries : (CertificatesRequest.format crate base64).Carries
    fun r => r.digests.length < 2 ^ 64 :=
  (carries_digestsOf h hbase64).convert (fun _ hlength => ⟨hlength, rfl⟩)
    fun _ _ hlength heq => Except.ok.inj heq ▸ hlength

theorem PrimaryMessage.carries :
    (PrimaryMessage.format crate base64).Carries PrimaryMessage.Fits := by
  refine carries_enum h (by simp [Bincode.Disjoint, variants]) (by simp [variants]) ?_ ?_
  · rintro ((x | x | x) | x)
    · exact ⟨_, .head _, x, rfl⟩
    · exact ⟨_, .tail _ (.head _), x, rfl⟩
    · exact ⟨_, .tail _ (.tail _ (.head _)), x, rfl⟩
    · exact ⟨_, .tail _ (.tail _ (.tail _ (.head _))), x, rfl⟩
  · unfold variants
    simp only [List.forall_mem_cons]
    exact ⟨Header.carries h hbase64, Vote.carries h hbase64, Certificate.carries h hbase64,
      CertificatesRequest.carries h hbase64, List.forall_mem_nil _⟩

theorem PrimaryWorkerMessage.carries :
    (PrimaryWorkerMessage.format crate base64).Carries PrimaryWorkerMessage.Fits := by
  refine carries_enum h (by simp [Bincode.Disjoint, variants]) (by simp [variants]) ?_ ?_
  · rintro (⟨digests, target⟩ | round)
    · exact ⟨_, .head _, (digests, target), rfl⟩
    · exact ⟨_, .tail _ (.head _), round, rfl⟩
  · unfold variants
    simp only [List.forall_mem_cons]
    exact ⟨carries_digestsOf h hbase64, Round.carries h, List.forall_mem_nil _⟩

omit hbase64 in
theorem WorkerPrimaryMessage.carries :
    (WorkerPrimaryMessage.format crate).Carries fun _ => True := by
  have hfields := (carries_pair h (Digest.carries h) (WorkerId.carries h)).of_iff
    fun _ => iff_of_true trivial ⟨trivial, trivial⟩
  refine carries_enum h (by simp [Bincode.Disjoint, variants]) (by simp [variants]) ?_ ?_
  · rintro (⟨digest, workerId⟩ | ⟨digest, workerId⟩)
    · exact ⟨_, .head _, (digest, workerId), rfl⟩
    · exact ⟨_, .tail _ (.head _), (digest, workerId), rfl⟩
  · unfold variants
    simp only [List.forall_mem_cons]
    exact ⟨hfields, hfields, List.forall_mem_nil _⟩

theorem WorkerMessage.carries : (WorkerMessage.format crate base64).Carries WorkerMessage.Fits := by
  refine carries_enum h (by simp [Bincode.Disjoint, variants]) (by simp [variants]) ?_ ?_
  · rintro (transactions | ⟨missing, origin⟩)
    · exact ⟨_, .head _, transactions, rfl⟩
    · exact ⟨_, .tail _ (.head _), (missing, origin), rfl⟩
  · unfold variants
    simp only [List.forall_mem_cons]
    refine ⟨?_, carries_digestsOf h hbase64, List.forall_mem_nil _⟩
    refine (carries_vec h (carries_vec h (carries_u8 h))).of_iff fun transactions => ?_
    show (_ ∧ _) ↔ _
    simp only [implies_true, and_true]

/-- **Messages survive the wire**, those between primaries, those between workers, and those
between a primary and its workers: each that fits is read back, whatever follows it, no two are
written alike, and what is read from whatever bytes fits, so that it can be written again. -/
theorem messages_read_back :
    (PrimaryMessage.format crate base64).RoundTrips PrimaryMessage.Fits ∧
      (PrimaryWorkerMessage.format crate base64).RoundTrips PrimaryWorkerMessage.Fits ∧
      (WorkerPrimaryMessage.format crate).RoundTrips (fun _ => True) ∧
      (WorkerMessage.format crate base64).RoundTrips WorkerMessage.Fits :=
  ⟨(PrimaryMessage.carries h hbase64).roundTrips, (PrimaryWorkerMessage.carries h hbase64).roundTrips,
    (WorkerPrimaryMessage.carries h).roundTrips, (WorkerMessage.carries h hbase64).roundTrips⟩

end

/-! ## §5. The values of the store. -/

/-- `DagError::SerializationError`, from an error of the crate. -/
def DagError.ofBincode {α : Type} {crate : Crate KeyPanic} :
    Except (Failure crate.ErrorKind KeyPanic) α → Except KeyPanic (Except DagError α)
  | .ok x => .ok (.ok x)
  | .error (.error _) => .ok (.error .serializationError)
  | .error (.panic p) => .error p

/-- What the core writes to the store. -/
def Record.toBytes (crate : Crate KeyPanic) (base64 : Base64Crate) : Record → List UInt8
  | .header x => (Header.format crate base64).serialize x
  | .certificate c => (Certificate.format crate base64).serialize c
  | .batch => []

/-- What fits in the store. -/
def Record.Fits : Record → Prop
  | .header x => x.Fits
  | .certificate c => c.Fits
  | .batch => True

section

variable {crate : Crate KeyPanic} {base64 : Base64Crate} (h : crate.Documented)
  (hbase64 : base64.Faithful)

include h

/-- The bytes of a header end where the votes of a certificate would begin. -/
theorem Certificate.read_header {x : Header} {bytes : List UInt8}
    (hread : (Header.format crate base64).read bytes = .ok (x, [])) :
    ∃ e, (Certificate.format crate base64).deserialize bytes = .error (.error e) := by
  obtain ⟨e, he⟩ := vec_read_nil h
    (f := crate.pair (PublicKey.format crate base64) (Signature.format crate))
  refine ⟨e, ?_⟩
  unfold Format.deserialize Certificate.format Format.convert
  dsimp only
  rw [h.pair_read, hread]
  dsimp only [bind, Except.bind]
  rw [he]

/-- There is no certificate where the input ends. -/
theorem Certificate.read_nil :
    ∃ e, (Certificate.format crate base64).deserialize [] = .error (.error e) := by
  obtain ⟨e, he⟩ := string_read_nil h
  refine ⟨e, ?_⟩
  unfold Format.deserialize Certificate.format Header.format PublicKey.format Format.convert
  dsimp only
  rw [h.pair_read]
  dsimp only
  rw [h.pair_read]
  dsimp only
  rw [he]
  rfl

include hbase64

/-- **The store may keep values in place of their bytes**: reading a certificate gives the
same, or fails for both. -/
theorem read_stored (record : Record) (hfits : record.Fits) :
    DagError.ofBincode ((Certificate.format crate base64).deserialize
      (record.toBytes crate base64)) = .ok record.toCertificate := by
  cases record with
  | certificate c =>
      have hread := (Certificate.carries h hbase64).deserialize_serialize hfits []
      rw [List.append_nil] at hread
      show DagError.ofBincode ((Certificate.format crate base64).deserialize
        ((Certificate.format crate base64).serialize c)) = _
      rw [hread]
      rfl
  | header x =>
      have hread := (Header.carries h hbase64).read_write x hfits []
      rw [List.append_nil] at hread
      obtain ⟨e, he⟩ := Certificate.read_header h hread
      show DagError.ofBincode ((Certificate.format crate base64).deserialize
        ((Header.format crate base64).write x)) = _
      rw [he]
      rfl
  | batch =>
      obtain ⟨e, he⟩ : ∃ e, (Certificate.format crate base64).deserialize [] = .error (.error e) :=
        Certificate.read_nil h
      show DagError.ofBincode ((Certificate.format crate base64).deserialize []) = _
      rw [he]
      rfl

end

/-! ## §6. The crates. -/

theorem faithful_standardBase64 : standardBase64.Faithful :=
  ⟨exact_standardBase64, Base64.utf8ByteSize_encode⟩

theorem fits_sampleCertificate : (Core.sampleCertificate 2 0 [0, 1, 2]).Fits :=
  ⟨⟨by decide, by decide, by decide⟩, by decide⟩

/-- A message of each kind, read back from its bytes: a certificate, a request for batches to
our workers, the news of a batch, and a request to other workers. -/
theorem messages_read_back_sample :
    let crate := Bincode.standard KeyPanic
    let certificate := PrimaryMessage.format crate standardBase64
    let request := PrimaryWorkerMessage.format crate standardBase64
    let news := WorkerPrimaryMessage.format crate
    let batches := WorkerMessage.format crate standardBase64
    let digests := [sampleDigest 1 0, sampleDigest 1 1]
    certificate.deserialize (certificate.serialize
        (.inl (.certificate (Core.sampleCertificate 2 0 [0, 1, 2]))) ++ [0, 1])
      = .ok (.inl (.certificate (Core.sampleCertificate 2 0 [0, 1, 2]))) ∧
    request.deserialize (request.serialize (.synchronize digests (sampleKey 7)) ++ [0, 1])
      = .ok (.synchronize digests (sampleKey 7)) ∧
    news.deserialize (news.serialize (.othersBatch (sampleDigest 1 0) 3) ++ [0, 1])
      = .ok (.othersBatch (sampleDigest 1 0) 3) ∧
    batches.deserialize (batches.serialize (.batchRequest digests (sampleKey 7)) ++ [0, 1])
      = .ok (.batchRequest digests (sampleKey 7)) := by
  obtain ⟨hcertificate, hrequest, hnews, hbatches⟩ :=
    messages_read_back (Bincode.documented_standard KeyPanic) faithful_standardBase64
  have hlength : [sampleDigest 1 0, sampleDigest 1 1].length < 2 ^ 64 := by decide
  exact ⟨hcertificate.read_back (.inl (.certificate _)) fits_sampleCertificate _,
    hrequest.read_back (.synchronize _ _) hlength _, hnews.read_back _ trivial _,
    hbatches.read_back (.batchRequest _ _) hlength _⟩

/-- A stored certificate is read, a stored header is no certificate, and neither is a batch. -/
theorem read_stored_sample :
    let crate := Bincode.standard KeyPanic
    let read := fun record : Record => DagError.ofBincode
      ((Certificate.format crate standardBase64).deserialize (record.toBytes crate standardBase64))
    read (.certificate (Core.sampleCertificate 2 0 [0, 1, 2]))
      = .ok (.ok (Core.sampleCertificate 2 0 [0, 1, 2])) ∧
    read (.header (Core.sampleCertificate 2 0 [0, 1, 2]).header)
      = .ok (.error .serializationError) ∧
    read .batch = .ok (.error .serializationError) := by
  have hread := read_stored (Bincode.documented_standard KeyPanic) faithful_standardBase64
  exact ⟨hread (.certificate _) fits_sampleCertificate,
    hread (.header _) fits_sampleCertificate.header, hread .batch trivial⟩

end Mrv
