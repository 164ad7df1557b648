import StorjUplink.Client.Commits
import StorjUplink.Lib.KeyedStore

/-!
# The object store

What all calls of `objects.rs` and `project.rs` on objects come to: a map from bucket and key to
bytes and custom metadata, that is kept by a satellite who sees neither keys nor bytes.  `Database`
is its table of objects, by bucket and encrypted path, and `Step` one call of a client with what
the satellite does for it, which depends on the request that the call sends (`Sends`) and not on
what the call makes of the answer.  A copy or a move is one step: nothing else happens to the
object between its two requests.

`Shows` says that the table shows the map: at the path of every key there is an object that says the
value of the key.  Every step keeps it (`Shows.step`), with the operation on the map that the caller
meant, so that it holds after any run (`shows_of_run`).

The value of a key is never stored anywhere.  The table of the satellite has ciphertexts under
sealed paths, the sealed keys of segments, and sealed metadata, and what it means is known to who
can derive the content key.  `Shows` is that meaning, stated for every key of every bucket at once,
and a step has to be shown to leave it right for the keys that it does not touch as well; different
keys have different addresses, so a write to one is not a write to another.

A copy is where this is more than bookkeeping.  The satellite copies an object without its data,
and what makes it the object of the new key is that the client has sealed its keys again, under the
content key of the new path.
-/

namespace Storj.Client

open Storj.Enc Storj.Access MachineInt Buffer Uplink KeyedStore

/-! ## What the caller means

A map and five changes of it.  An update, a copy or a move of a key without a value is a call that
fails, so it is no step.
-/

/-- The objects of a project: their bytes and custom metadata, by bucket and key. -/
abbrev Objects := String × String → Option (Bytes × CustomMetadata)

/-- A change of the objects, as the caller asks for it: every bucket and key is a plain one. -/
inductive ObjectOp where
  | put (bucket key : String) (data : Bytes) (custom : CustomMetadata)
  | updateMetadata (bucket key : String) (custom : CustomMetadata)
  | copy (srcBucket srcKey dstBucket dstKey : String)
  | move (srcBucket srcKey dstBucket dstKey : String)
  | delete (bucket key : String)

/-- What a change does to the map from bucket and key to data and metadata. -/
def ObjectOp.apply (objects : Objects) : ObjectOp → Objects
  | .put bucket key data custom => Function.update objects (bucket, key) (some (data, custom))
  | .updateMetadata bucket key custom =>
      Function.update objects (bucket, key) ((objects (bucket, key)).map fun v => (v.1, custom))
  | .copy srcBucket srcKey dstBucket dstKey =>
      Function.update objects (dstBucket, dstKey) (objects (srcBucket, srcKey))
  | .move srcBucket srcKey dstBucket dstKey =>
      Function.update (Function.update objects (srcBucket, srcKey) none) (dstBucket, dstKey)
        (objects (srcBucket, srcKey))
  | .delete bucket key => Function.update objects (bucket, key) none

/-! ## What the satellite has

The table, the address of a key, and what it does for each request.
-/

/-- The objects of the satellite, by bucket and encrypted path. -/
abbrev Database (H : Type) := String × Bytes → Option (StoredObject H)

variable {H : Type} {prim : MetaPrimitives} {store : Store}

/-- `GetObject`, with the error of a path that has no object. -/
def Database.getObject (sat : Database H) (notFound : Error) (bucket : String) (encPath : Bytes) :
    Except Error (Option ObjectInfo) :=
  match sat (bucket, encPath) with
  | some obj => .ok (some obj.info)
  | none => .error notFound

/-- `GetObject`, with what an update reads of it. -/
def Database.getRecord (sat : Database H) (notFound : Error) (bucket : String) (encPath : Bytes) :
    Except Error (Option ObjectRecord) :=
  (sat.getObject notFound bucket encPath).map (Option.map ObjectInfo.toObjectRecord)

/-- The address of a key: its bucket and its encrypted path. -/
def address (prim : PathPrimitives) (store : Store) (k : String × String) : Option (String × Bytes) :=
  if k.1 = "" ∨ k.2 = "" then none
  else (encryptPath prim k.1 k.2 store).toOption.map fun path => (k.1, path)

/-- **One call**, and what the satellite does for it. -/
inductive Step (prim : MetaPrimitives) (store : Store) :
    Database H → ObjectOp → Database H → Prop
  | put {sat : Database H} {bucket key : String} {path : Bytes} {data : Bytes}
      {custom : CustomMetadata} {obj : StoredObject H}
      (addressed : address prim.toPathPrimitives store (bucket, key) = some (bucket, path))
      (commits : Commits prim store bucket key data custom obj) :
      Step prim store sat (.put bucket key data custom)
        (Function.update sat (bucket, path) (some obj))
  | updateMetadata {sat : Database H} {bucket key : String} {custom : CustomMetadata}
      {notFound : Error} {metadataKey : Key} {nonce : Nonce} {request : UpdateObjectMetadataRequest}
      {obj obj' : StoredObject H}
      (sent : updateObjectMetadata prim store bucket key custom (sat.getRecord notFound bucket)
        metadataKey nonce = .ok request)
      (found : sat (bucket, request.encryptedObjectKey) = some obj)
      (updated : Updated obj.info.toObjectRecord obj'.info.toObjectRecord request)
      (plainSize : obj'.info.plainSize = obj.info.plainSize)
      (segments : obj'.segments = obj.segments) :
      Step prim store sat (.updateMetadata bucket key custom)
        (Function.update sat (bucket, request.encryptedObjectKey) (some obj'))
  | copy {sat : Database H} {srcBucket srcKey dstBucket dstKey : String} {path : Bytes}
      {beginCall : Bytes → Bytes → Except Error BeginCopyMove} {begun : BeginCopyMove}
      {fresh : ℕ → Nonce} {request : FinishCopyMove} {obj obj' : StoredObject H}
      (sent : Sends (copyObject prim store srcBucket srcKey dstBucket dstKey beginCall fresh) request)
      (begin_path : ∀ dst, beginCall path dst = .ok begun)
      (addressed : address prim.toPathPrimitives store (srcBucket, srcKey) = some (srcBucket, path))
      (found : sat (srcBucket, path) = some obj) (begins : Begins obj begun)
      (finishes : Finishes obj obj' request) :
      Step prim store sat (.copy srcBucket srcKey dstBucket dstKey)
        (Function.update sat (dstBucket, request.newEncryptedObjectKey) (some obj'))
  | move {sat : Database H} {srcBucket srcKey dstBucket dstKey : String} {path : Bytes}
      {beginCall : Bytes → Bytes → Except Error BeginCopyMove} {begun : BeginCopyMove}
      {fresh : ℕ → Nonce} {request : FinishCopyMove} {obj obj' : StoredObject H}
      (sent : Sends (moveObject prim store srcBucket srcKey dstBucket dstKey beginCall fresh) request)
      (begin_path : ∀ dst, beginCall path dst = .ok begun)
      (addressed : address prim.toPathPrimitives store (srcBucket, srcKey) = some (srcBucket, path))
      (found : sat (srcBucket, path) = some obj) (begins : Begins obj begun)
      (finishes : Finishes obj obj' request) :
      Step prim store sat (.move srcBucket srcKey dstBucket dstKey)
        (Function.update (Function.update sat (srcBucket, path) none)
          (dstBucket, request.newEncryptedObjectKey) (some obj'))
  | delete {sat : Database H} {bucket key : String} {request : BeginDeleteObjectRequest}
      (sent : Sends (deleteObject prim store bucket key) request) :
      Step prim store sat (.delete bucket key)
        (Function.update sat (bucket, request.encryptedObjectKey) none)

/-! ## Addresses

A store whose paths open again gives different keys different addresses.
-/

/-- A store of keys whose sealed paths open again, with the contract of what it calls. -/
structure Sealed (prim : MetaPrimitives) (store : Store) : Prop where
  lawful : prim.Lawful
  wf : store.WF
  sealing : store.Sealing
  noCollision : ∀ bucket key path, encryptPath prim.toPathPrimitives bucket key store = .ok path →
    store.NoCollision bucket (components (utf8 key)) (components path)

lemma address_eq_some {prim : PathPrimitives} {bucket key : String} {a : String × Bytes} :
    address prim store (bucket, key) = some a ↔
      bucket ≠ "" ∧ key ≠ "" ∧ encryptPath prim bucket key store = .ok a.2 ∧ a.1 = bucket := by
  rw [address]
  split_ifs with hempty
  · constructor
    · rintro ⟨⟩
    · rintro ⟨hb, hk, -⟩
      exact absurd hempty (not_or.mpr ⟨hb, hk⟩)
  · rw [not_or] at hempty
    rw [Option.map_eq_some_iff]
    constructor
    · rintro ⟨path, hpath, rfl⟩
      exact ⟨hempty.1, hempty.2, toOption_eq_some.mp hpath, rfl⟩
    · rintro ⟨-, -, hpath, hbucket⟩
      exact ⟨a.2, toOption_eq_some.mpr hpath, Prod.ext hbucket.symm rfl⟩

/-- **Different keys have different paths.** -/
lemma Sealed.distinct (h : Sealed prim store) : Distinct (address prim.toPathPrimitives store) := by
  rintro ⟨bucket, key⟩ ⟨bucket', key'⟩ a ha ha'
  obtain ⟨-, -, hpath, rfl⟩ := address_eq_some.mp ha
  obtain ⟨-, -, hpath', hbucket⟩ := address_eq_some.mp ha'
  obtain rfl := hbucket
  have hopen := decryptPathBytes_encryptPathBytes h.lawful.aesGcm h.lawful.secretBox h.wf
    h.sealing.bypass h.sealing.default h.sealing.entries hpath (h.noCollision _ _ _ hpath)
  have hopen' := decryptPathBytes_encryptPathBytes h.lawful.aesGcm h.lawful.secretBox h.wf
    h.sealing.bypass h.sealing.default h.sealing.entries hpath' (h.noCollision _ _ _ hpath')
  obtain rfl := utf8_injective (Except.ok.inj (hopen.symm.trans hopen'))
  rfl

/-! ## The invariant

One key at a time, and then all of them.
-/

/-- An object that says the value, under the content key of the key. -/
def Holds (prim : MetaPrimitives) (store : Store) (k : String × String) (obj : StoredObject H)
    (v : Bytes × CustomMetadata) : Prop :=
  ∃ contentKey, deriveContentKey prim.toPathPrimitives k.1 (utf8 k.2) store = .ok contentKey ∧
    ∃ d : UserData, d.custom = v.2 ∧ Says prim contentKey obj d v.1

/-- **The satellite shows the objects.** -/
def Shows (prim : MetaPrimitives) (store : Store) (objects : Objects) (sat : Database H) : Prop :=
  Represents (Holds prim store) (address prim.toPathPrimitives store) objects sat

/-- An update reads the record at the path that it writes. -/
lemma updateObjectMetadata_path {bucket key : String} {custom : CustomMetadata}
    {getObject : Bytes → Except Error (Option ObjectRecord)} {metadataKey : Key} {nonce : Nonce}
    {request : UpdateObjectMetadataRequest}
    (h : updateObjectMetadata prim store bucket key custom getObject metadataKey nonce = .ok request) :
    address prim.toPathPrimitives store (bucket, key) = some (bucket, request.encryptedObjectKey) ∧
      ∀ getObject', getObject' request.encryptedObjectKey = getObject request.encryptedObjectKey →
        updateObjectMetadata prim store bucket key custom getObject' metadataKey nonce
          = .ok request := by
  have hall := h
  rw [updateObjectMetadata] at h
  obtain ⟨_, hbucket, h⟩ := Fallible.bind_eq_ok.mp h
  obtain ⟨_, hkey, h⟩ := Fallible.bind_eq_ok.mp h
  obtain ⟨_, -, h⟩ := Fallible.bind_eq_ok.mp h
  obtain ⟨encPath, hpath, h⟩ := Fallible.bind_eq_ok.mp h
  obtain ⟨found, hfound, h⟩ := Fallible.bind_eq_ok.mp h
  have hrequest : request.encryptedObjectKey = encPath := by
    cases found with
    | none => cases h
    | some o =>
        obtain ⟨contentKey, -, h⟩ := Fallible.bind_eq_ok.mp h
        obtain ⟨sizes, -, h⟩ := Fallible.bind_eq_ok.mp h
        obtain ⟨checksum, -, h⟩ := Fallible.bind_eq_ok.mp h
        obtain ⟨user, -, h⟩ := Fallible.bind_eq_ok.mp h
        cases h
        rfl
  rw [hrequest]
  refine ⟨address_eq_some.mpr ⟨?_, ?_, mapError_eq_ok.mp hpath, rfl⟩, fun getObject' hget => ?_⟩
  · rintro rfl
    cases hbucket
  · rintro rfl
    cases hkey
  · rw [← hall, updateObjectMetadata, updateObjectMetadata, hpath]
    simp only [Fallible.ok_bind, hget]

/-- A deletion goes to the path of its key. -/
lemma deleteObject_path {bucket key : String} {request : BeginDeleteObjectRequest}
    (h : Sends (deleteObject prim store bucket key) request) :
    address prim.toPathPrimitives store (bucket, key) = some (bucket, request.encryptedObjectKey) := by
  obtain ⟨hbucket, hkey, path, hpath, rfl⟩ := sends_deleteObject.mp h
  exact address_eq_some.mpr ⟨hbucket, hkey, hpath, rfl⟩

/-- The steps of a copy or a move, up to the last request. -/
lemma copyMove_eq_ok {prim : PathPrimitives} {srcBucket srcKey dstBucket dstKey : String}
    {beginCall : Bytes → Bytes → Except Error BeginCopyMove} {fresh : ℕ → Nonce}
    {request : FinishCopyMove}
    (h : copyMove prim store srcBucket srcKey dstBucket dstKey beginCall fresh = .ok request) :
    ∃ srcEnc oldContent newContent begun,
      address prim store (srcBucket, srcKey) = some (srcBucket, srcEnc) ∧
      address prim store (dstBucket, dstKey) = some (dstBucket, request.newEncryptedObjectKey) ∧
      deriveContentKey prim srcBucket (utf8 srcKey) store = .ok oldContent ∧
      deriveContentKey prim dstBucket (utf8 dstKey) store = .ok newContent ∧
      beginCall srcEnc request.newEncryptedObjectKey = .ok begun ∧
      reencryptMetadataKey prim begun.encryptedMetadataKey begun.encryptedMetadataKeyNonce
        (cipherFromParams begun.encryptionParameters) oldContent newContent
        = .ok (request.newEncryptedMetadataKey, request.newEncryptedMetadataKeyNonce) ∧
      reencryptSegmentKeys prim begun.segmentKeys (cipherFromParams begun.encryptionParameters)
        oldContent newContent fresh = .ok request.newSegmentKeys := by
  rw [copyMove] at h
  obtain ⟨⟨srcEnc, dstEnc, oldContent, newContent⟩, hprepare, h⟩ := Fallible.bind_eq_ok.mp h
  obtain ⟨begun, hbegun, h⟩ := Fallible.bind_eq_ok.mp h
  obtain ⟨⟨newKey, newNonce⟩, hmeta, h⟩ := Fallible.bind_eq_ok.mp h
  obtain ⟨newKeys, hkeys, h⟩ := Fallible.bind_eq_ok.mp h
  cases h
  rw [prepareCopyMove] at hprepare
  obtain ⟨_, hsb, hprepare⟩ := Fallible.bind_eq_ok.mp hprepare
  obtain ⟨_, hsk, hprepare⟩ := Fallible.bind_eq_ok.mp hprepare
  obtain ⟨_, hdb, hprepare⟩ := Fallible.bind_eq_ok.mp hprepare
  obtain ⟨_, hdk, hprepare⟩ := Fallible.bind_eq_ok.mp hprepare
  obtain ⟨_, hsrc, hprepare⟩ := Fallible.bind_eq_ok.mp hprepare
  obtain ⟨_, hdst, hprepare⟩ := Fallible.bind_eq_ok.mp hprepare
  obtain ⟨_, hold, hprepare⟩ := Fallible.bind_eq_ok.mp hprepare
  obtain ⟨_, hnew, hprepare⟩ := Fallible.bind_eq_ok.mp hprepare
  cases hprepare
  refine ⟨srcEnc, oldContent, newContent, begun,
    address_eq_some.mpr ⟨?_, ?_, mapError_eq_ok.mp hsrc, rfl⟩,
    address_eq_some.mpr ⟨?_, ?_, mapError_eq_ok.mp hdst, rfl⟩, mapError_eq_ok.mp hold,
    mapError_eq_ok.mp hnew, hbegun, hmeta, hkeys⟩
  · rintro rfl
    cases hsb
  · rintro rfl
    cases hsk
  · rintro rfl
    cases hdb
  · rintro rfl
    cases hdk

/-- **A copy and a move** put the value of the source at the path of the destination. -/
lemma Shows.copied (hs : Sealed prim store) {objects : Objects} {sat : Database H}
    (h : Shows prim store objects sat) {srcBucket srcKey dstBucket dstKey : String} {path : Bytes}
    {beginCall : Bytes → Bytes → Except Error BeginCopyMove} {begun : BeginCopyMove}
    {fresh : ℕ → Nonce} {request : FinishCopyMove} {obj obj' : StoredObject H}
    (sent : copyMove prim.toPathPrimitives store srcBucket srcKey dstBucket dstKey beginCall fresh
      = .ok request)
    (begin_path : ∀ dst, beginCall path dst = .ok begun)
    (addressed : address prim.toPathPrimitives store (srcBucket, srcKey) = some (srcBucket, path))
    (found : sat (srcBucket, path) = some obj) (begins : Begins obj begun)
    (finishes : Finishes obj obj' request) :
    address prim.toPathPrimitives store (dstBucket, dstKey)
        = some (dstBucket, request.newEncryptedObjectKey) ∧
      Option.Rel (Holds prim store (dstBucket, dstKey)) (some obj') (objects (srcBucket, srcKey)) := by
  obtain ⟨srcEnc, oldContent, newContent, begun', hsrc, hdst, hold, hnew, hbegun, hmeta, hkeys⟩ :=
    copyMove_eq_ok sent
  rw [addressed, Option.some.injEq, Prod.mk.injEq] at hsrc
  obtain ⟨-, rfl⟩ := hsrc
  obtain rfl : begun = begun' := Except.ok.inj ((begin_path _).symm.trans hbegun)
  obtain ⟨v, hv, contentKey, hkey, d, hd, hsaid⟩ := Represents.value h addressed found
  obtain rfl : contentKey = oldContent := Except.ok.inj (hkey.symm.trans hold)
  rw [hv]
  exact ⟨hdst, .some ⟨newContent, hnew, d, hd, hsaid.rekey hs.lawful begins hmeta hkeys finishes⟩⟩

/-- **Every step keeps the invariant**, with the change that the caller meant. -/
theorem Shows.step (hs : Sealed prim store) {objects : Objects} {sat sat' : Database H}
    (h : Shows prim store objects sat) {op : ObjectOp} (hstep : Step prim store sat op sat') :
    Shows prim store (op.apply objects) sat' := by
  cases hstep with
  | put addressed commits =>
      exact Represents.write h hs.distinct addressed (.some (commits.content hs.lawful))
  | @updateMetadata bucket key custom notFound _ _ request obj obj' sent found updated plainSize
      segments =>
      obtain ⟨haddr, hcongr⟩ := updateObjectMetadata_path sent
      obtain ⟨v, hv, contentKey, hkey, d, hd, hsaid⟩ := Represents.value h haddr found
      have hrecord : sat.getRecord notFound bucket request.encryptedObjectKey
          = .ok (some obj.info.toObjectRecord) := by
        rw [Database.getRecord, Database.getObject, found]
        rfl
      have hsaid' := hsaid.update hs.lawful hkey (fun _ => rfl) (hcongr _ hrecord.symm) updated
        plainSize segments
      refine Represents.write h hs.distinct haddr ?_
      rw [hv]
      exact .some ⟨contentKey, hkey, _, rfl, hsaid'⟩
  | copy sent begin_path addressed found begins finishes =>
      obtain ⟨hdst, hholds⟩ := h.copied hs (sends_copyObject.mp sent) begin_path addressed found
        begins finishes
      exact Represents.write h hs.distinct hdst hholds
  | move sent begin_path addressed found begins finishes =>
      obtain ⟨hdst, hholds⟩ := h.copied hs (sends_moveObject.mp sent) begin_path addressed found
        begins finishes
      exact Represents.write (Represents.write h hs.distinct addressed .none) hs.distinct hdst hholds
  | delete sent => exact Represents.write h hs.distinct (deleteObject_path sent) .none

/-- **The invariant of every run.** -/
theorem shows_of_run (hs : Sealed prim store) {ops : List ObjectOp} {sat : Database H}
    (hrun : Runs (Step prim store) (fun _ => none) ops sat) :
    Shows prim store (ops.foldl ObjectOp.apply fun _ => none) sat :=
  Runs.simulates (R := fun sat objects => Shows prim store objects sat) (f := ObjectOp.apply)
    (fun _ _ _ _ h hstep => h.step hs hstep) represents_empty hrun

/-! ## Calls that go through

A satellite that has the object and a cipher that seals everything leave an update, a copy and a
move nothing to fail with, so that the runs above are all the runs that a caller can make of them.
-/

section

variable {objects : Objects} {sat : Database H} {obj : StoredObject H} {cipher : CipherSuite}

lemma requireBucketName_ok {bucket : String} (h : bucket ≠ "") :
    requireBucketName bucket = .ok () := if_neg h

lemma requireObjectKey_ok {key : String} (h : key ≠ "") : requireObjectKey key = .ok () := if_neg h

/-- **An update goes through** wherever there is an object. -/
lemma Shows.exists_updateMetadata (h : Shows prim store objects sat)
    (hseal : ∀ text key nonce, ∃ out, sealed prim.toPathPrimitives text cipher key nonce = .ok out)
    {bucket key : String} {path : Bytes}
    (haddr : address prim.toPathPrimitives store (bucket, key) = some (bucket, path))
    (hobj : sat (bucket, path) = some obj)
    (hcipher : cipherFromParams obj.info.encryptionParameters = cipher) {custom : CustomMetadata}
    (hverify : verifyCustomMetadata custom.toList = .ok ()) :
    ∃ obj' : StoredObject H, obj'.info.encryptionParameters = obj.info.encryptionParameters ∧
      obj'.segments = obj.segments ∧
      Step prim store sat (.updateMetadata bucket key custom)
        (Function.update sat (bucket, path) (some obj')) := by
  obtain ⟨hbucket, hkeyne, hpath, -⟩ := address_eq_some.mp haddr
  obtain ⟨v, -, contentKey, hkey, d, -, hsaid⟩ := Represents.value h haddr hobj
  rw [← hcipher, hsaid.cipher] at hseal
  obtain ⟨request, hrequest⟩ := hsaid.reads.exists_request hseal hbucket hkeyne hpath hkey hverify
    (Vector.replicate 32 3) (Vector.replicate 24 4)
  have hget : sat.getRecord ⟨.objectNotFound, ""⟩ bucket path
      = .ok (some obj.info.toObjectRecord) := by
    rw [Database.getRecord, Database.getObject, hobj]
    rfl
  obtain ⟨haddr', hcongr⟩ := updateObjectMetadata_path hrequest
  rw [haddr, Option.some.injEq, Prod.mk.injEq] at haddr'
  obtain ⟨-, rfl⟩ := haddr'
  refine ⟨⟨{ obj.info with toObjectRecord := obj.info.toObjectRecord.afterUpdate request },
    obj.segments⟩, rfl, rfl, .updateMetadata (hcongr _ hget) hobj
      (obj.info.toObjectRecord.updated_afterUpdate request) rfl rfl⟩

/-- **A copy and a move go through** wherever there is an object. -/
lemma Shows.exists_copy (hs : Sealed prim store) (h : Shows prim store objects sat)
    (hseal : ∀ text key nonce, ∃ out, sealed prim.toPathPrimitives text cipher key nonce = .ok out)
    {srcBucket srcKey dstBucket dstKey : String} {path newPath : Bytes} {newContent : Key}
    (hsrc : address prim.toPathPrimitives store (srcBucket, srcKey) = some (srcBucket, path))
    (hdst : address prim.toPathPrimitives store (dstBucket, dstKey) = some (dstBucket, newPath))
    (hnew : deriveContentKey prim.toPathPrimitives dstBucket (utf8 dstKey) store = .ok newContent)
    (hobj : sat (srcBucket, path) = some obj)
    (hcipher : cipherFromParams obj.info.encryptionParameters = cipher) :
    ∃ (obj' : StoredObject H) (keys : List EncryptedKeyAndNonce),
      obj'.info.encryptionParameters = obj.info.encryptionParameters ∧
      List.Forall₂ (Replaced keys) obj.segments obj'.segments ∧
      Step prim store sat (.copy srcBucket srcKey dstBucket dstKey)
        (Function.update sat (dstBucket, newPath) (some obj')) ∧
      Step prim store sat (.move srcBucket srcKey dstBucket dstKey)
        (Function.update (Function.update sat (srcBucket, path) none) (dstBucket, newPath)
          (some obj')) := by
  obtain ⟨v, -, contentKey, hkey, d, -, hsaid⟩ := Represents.value h hsrc hobj
  obtain ⟨hsb, hsk, hsrcPath, -⟩ := address_eq_some.mp hsrc
  obtain ⟨hdb, hdk, hdstPath, -⟩ := address_eq_some.mp hdst
  rw [← hcipher, hsaid.cipher] at hseal
  obtain ⟨newMetaKey, newMetaNonce, newKeys, hmeta, hkeys, hfinish⟩ :=
    hsaid.exists_finishes hs.lawful hseal newContent fun _ => Vector.replicate 24 5
  obtain ⟨obj', hfinishes⟩ := hfinish [] (utf8 dstBucket) newPath
  let begun : BeginCopyMove := ⟨[], obj.info.encryptionParameters,
    obj.info.encryptedMetadataEncryptedKey, obj.info.encryptedMetadataNonce,
    obj.segments.map StoredSegment.keyAndNonce⟩
  have hbegins : Begins obj begun := ⟨rfl, rfl, rfl, List.Perm.refl _⟩
  have hsent : copyMove prim.toPathPrimitives store srcBucket srcKey dstBucket dstKey
      (fun _ _ => .ok begun) (fun _ => Vector.replicate 24 5)
        = .ok ⟨[], utf8 dstBucket, newPath, newMetaNonce, newMetaKey, newKeys⟩ := by
    have hprepare : prepareCopyMove prim.toPathPrimitives store srcBucket srcKey dstBucket dstKey
        = .ok (path, newPath, contentKey, newContent) := by
      rw [prepareCopyMove, requireBucketName_ok hsb, requireObjectKey_ok hsk, requireBucketName_ok hdb,
        requireObjectKey_ok hdk, hsrcPath, hdstPath, hkey, hnew]
      rfl
    rw [copyMove, hprepare]
    dsimp only [Fallible.ok_bind]
    rw [show begun.encryptionParameters = obj.info.encryptionParameters from rfl, hsaid.cipher, hmeta]
    dsimp only [Fallible.ok_bind]
    rw [hkeys, Fallible.ok_bind]
  exact ⟨obj', newKeys, hfinishes.encryptionParameters, hfinishes.segments,
    .copy (sends_copyObject.mpr hsent) (fun _ => rfl) hsrc hobj hbegins hfinishes,
    .move (sends_moveObject.mpr hsent) (fun _ => rfl) hsrc hobj hbegins hfinishes⟩

/-- **A deletion goes through**, whether there is an object or not. -/
lemma delete_step {bucket key : String} {path : Bytes}
    (haddr : address prim.toPathPrimitives store (bucket, key) = some (bucket, path)) :
    Step prim store sat (.delete bucket key) (Function.update sat (bucket, path) none) := by
  obtain ⟨hbucket, hkey, hpath, -⟩ := address_eq_some.mp haddr
  have hsent : Sends (deleteObject prim store bucket key) ⟨utf8 bucket, path, [], 0⟩ :=
    sends_deleteObject.mpr ⟨hbucket, hkey, path, hpath, rfl⟩
  exact .delete hsent

end

/-! ## Reading the metadata

What `stat_object` opens is what the object says.
-/

/-- The custom metadata of an object, for who has its key. -/
lemma Says.decryptCustom_eq {contentKey : Key} {obj : StoredObject H} {d : UserData} {data : Bytes}
    (h : Says prim contentKey obj d data) {bucket key : String}
    (hkey : deriveContentKey prim.toPathPrimitives bucket (utf8 key) store = .ok contentKey) :
    decryptCustom prim obj.info.toObjectRecord bucket key store = .ok d.custom := by
  obtain ⟨streamInfo, deprecated, inner, hdec⟩ :=
    h.reads.metadata (cipherFromParams obj.info.encryptionParameters)
  rw [decryptCustom, hkey]
  show (do
    let r ← decryptUserData prim _ _ _ _ contentKey
    .ok r.2.userDefined) = Except.ok d.custom
  rw [decryptUserData, hdec]
  rfl

/-- What the table shows of a key is what `stat_object` gives. -/
lemma Shows.statObject_eq {objects : Objects} {sat : Database H} (h : Shows prim store objects sat)
    (notFound : Error) {bucket key : String} {a : String × Bytes}
    (haddr : address prim.toPathPrimitives store (bucket, key) = some a) :
    statObject prim store bucket key (sat.getObject notFound bucket)
      = match objects (bucket, key) with
        | some (data, custom) => .ok ⟨key, false, data.length, custom⟩
        | none => .error notFound := by
  obtain ⟨hbucket, hkey, hpath, rfl⟩ := address_eq_some.mp haddr
  have hmap : (Except.ok a.2).mapError mapEnc = Except.ok a.2 := rfl
  rw [statObject, requireBucketName_ok hbucket, requireObjectKey_ok hkey, hpath, hmap,
    Fallible.ok_bind, Fallible.ok_bind, Fallible.ok_bind]
  cases hv : objects (a.1, key) with
  | none =>
      rw [Database.getObject, Represents.none h haddr hv]
      rfl
  | some v =>
      obtain ⟨obj, hobj, contentKey, hcontent, d, hd, hsaid⟩ := Represents.some h haddr hv
      rw [Database.getObject, hobj]
      show objectFromInfo prim obj.info a.1 key false true true store = _
      rw [objectFromInfo, if_pos ⟨rfl, by decide, hsaid.reads.ne_nil⟩,
        hsaid.decryptCustom_eq hcontent, hd]
      dsimp only [Fallible.ok_bind]
      rw [if_pos rfl, hsaid.plainSize]

/-- **What is stored is what is seen.**  After any run of uploads, multipart uploads, metadata
updates, copies, moves and deletions, `stat_object` gives the length and the custom metadata of
what the run leaves at the key, and the satellite's error where it leaves nothing. -/
theorem statObject_agrees (hs : Sealed prim store) {ops : List ObjectOp} {sat : Database H}
    (hrun : Runs (Step prim store) (fun _ => none) ops sat) (notFound : Error)
    {bucket key : String} {a : String × Bytes}
    (haddr : address prim.toPathPrimitives store (bucket, key) = some a) :
    statObject prim store bucket key (sat.getObject notFound bucket)
      = match (ops.foldl ObjectOp.apply fun _ => none) (bucket, key) with
        | some (data, custom) => .ok ⟨key, false, data.length, custom⟩
        | none => .error notFound :=
  (shows_of_run hs hrun).statObject_eq notFound haddr

/-! ## A sample

An upload, an update of its metadata, a copy and a move, and a deletion behind them.
-/

/-- A store without entries has no collisions. -/
lemma sealed_aesStore : Sealed sampleMeta aesStore where
  lawful := sampleMeta_lawful
  wf := Store.wf_new.run _
  sealing := Store.sealing_new.run Store.wf_new (by simp [Store.Op.Sealing])
  noCollision := by
    rintro bucket key path - q ⟨base, hq⟩
    have hnone : aesStore.entry bucket q = none := rfl
    have hsome : aesStore.entry bucket q = some base := hq
    rw [hnone] at hsome
    cases hsome

/-- A commit into the database whose calls succeed. -/
lemma commitOneSegment_inline {prim : PathPrimitives} {calls : CommitCalls H} {cipher : CipherSuite}
    {blockSize : ℕ} {contentKey : Key} {job : SegmentCommit} {encryptedKey etag data : Bytes}
    (hkey : encryptKey prim calls.segmentKey cipher contentKey calls.keyNonce = .ok encryptedKey)
    (hetag : encryptEtag prim job.encryptedEtag cipher calls.segmentKey = .ok etag)
    (hinline : inlineData prim job.plain cipher calls.segmentKey
      (contentNonce job.partNumber job.index) = .ok (some data))
    (hmake : ∀ request, calls.makeInlineSegment request = .ok ()) :
    commitOneSegment prim calls cipher blockSize contentKey job
      = .ok ⟨(job.partNumber, job.index), lastPlain job.plain, calls.keyNonce.toList, encryptedKey,
          etag, .inline data⟩ := by
  rw [commitOneSegment, hkey, Fallible.ok_bind, hetag, Fallible.ok_bind]
  dsimp only
  rw [hinline, Fallible.ok_bind]
  dsimp only
  rw [hmake, Fallible.ok_bind]
  rfl

def sampleCustom : CustomMetadata := customOf [("a", "1")]

lemma verify_sampleCustom : verifyCustomMetadata sampleCustom.toList = .ok () := by decide +kernel

/-- Three bytes that were written. -/
def sampleWorld : World :=
  { World.init 0 with
    inner := { (World.init 0).inner with custom := sampleCustom.toList, plaintext := [1, 2, 3] }
    accepted := [1, 2, 3] }

lemma run_sampleWorld : Machine.run World.step (World.init 0)
    [.setCustomMetadata sampleCustom.toList, .pollWrite [1, 2, 3] fun _ => none]
      = some sampleWorld := by
  rw [Machine.run_cons, World.step, verify_sampleCustom]
  show Machine.run World.step _ _ = _
  rw [Machine.run_cons, World.step, World.pollWrite_room rfl rfl (by decide) (by decide)]
  rfl

def sampleEnv : World.CommitEnv := ⟨.committed, .committed, fun _ _ _ _ => .ok [], .ok ()⟩

/-- Their commit sends one segment. -/
lemma commit_sampleWorld :
    (sampleWorld.commitUpload sampleEnv).sent = some ⟨maxSegmentSize, 3, 1, []⟩ ∧
      (sampleWorld.commitUpload sampleEnv).world.committed = [⟨0, 0, [1, 2, 3], []⟩] := by
  have hfail : sampleWorld.inner.failedError = none := rfl
  have hcustom : sampleWorld.inner.custom = sampleCustom.toList := rfl
  rw [World.commitUpload, hfail, hcustom]
  dsimp only
  rw [verify_sampleCustom]
  exact ⟨rfl, rfl⟩

/-- Three bytes with custom metadata, in the database. -/
lemma exists_put_sample : ∃ (path : Bytes) (contentKey : Key) (obj : StoredObject Unit)
    (key data : Bytes),
    address copyPrimitives aesStore ("b", "k") = some ("b", path) ∧
    deriveContentKey copyPrimitives "b" (utf8 "k") aesStore = .ok contentKey ∧
    obj.info.encryptionParameters = none ∧
    obj.segments = [⟨(0, 0), 3, List.replicate 24 2, key, [], .inline data⟩] ∧
    Runs (Step sampleMeta aesStore) (fun _ => none) [.put "b" "k" [1, 2, 3] sampleCustom]
      (Function.update (fun _ => none) ("b", path) (some obj)) := by
  obtain ⟨contentKey, hkey⟩ : ∃ k, deriveContentKey copyPrimitives "b" (utf8 "k") aesStore = .ok k :=
    ⟨_, rfl⟩
  obtain ⟨path, hpath⟩ : ∃ p, encryptPath copyPrimitives "b" "k" aesStore = .ok p := by
    have hsome : (encryptPath copyPrimitives "b" "k" aesStore).toOption.isSome := by decide +kernel
    obtain ⟨p, hp⟩ := Option.isSome_iff_exists.mp hsome
    exact ⟨p, toOption_eq_some.mp hp⟩
  have haddr : address copyPrimitives aesStore ("b", "k") = some ("b", path) :=
    address_eq_some.mpr ⟨by decide, by decide, hpath, rfl⟩
  have hstart : startUploadObject copyPrimitives aesStore "b" "k" none (fun _ => .ok ⟨[1], none⟩)
      = .ok ⟨path, [1], contentKey, .aesGcm, 7424, 0, none⟩ := by
    rw [startUploadObject, requireBucketName_ok (by decide), requireObjectKey_ok (by decide), hpath,
      hkey]
    rfl
  obtain ⟨user, huser⟩ := exists_encryptUserData_sample sampleCustom.toList maxSegmentSize 3 1
    contentKey 7424 none (Vector.replicate 32 3) (Vector.replicate 24 4)
  obtain ⟨encryptedKey, hsealed⟩ := exists_sealed_copy sampleCalls.segmentKey.toList contentKey
    sampleCalls.keyNonce
  have hinline : inlineData copyPrimitives [1, 2, 3] .aesGcm sampleCalls.segmentKey
      (contentNonce 0 0) = .ok (some ([1, 2, 3] ++ List.replicate 16 1)) := rfl
  have hcommit : CommittedAs copyPrimitives .aesGcm 7424 contentKey ⟨0, 0, [1, 2, 3], []⟩
      ⟨(0, 0), 3, List.replicate 24 2, encryptedKey, [], .inline ([1, 2, 3] ++ List.replicate 16 1)⟩ :=
    ⟨sampleCalls, commitOneSegment_inline hsealed rfl hinline fun _ => rfl⟩
  let obj : StoredObject Unit := ⟨⟨user.record, 3⟩, [⟨(0, 0), 3, List.replicate 24 2, encryptedKey, [],
    .inline ([1, 2, 3] ++ List.replicate 16 1)⟩]⟩
  have hstored : obj.Stores none obj.segments (commitObject [1] user none) :=
    ⟨rfl, rfl, rfl, rfl, rfl, List.Perm.refl _, List.pairwise_singleton _ _, rfl⟩
  have hput : Commits sampleMeta aesStore "b" "k" [1, 2, 3] sampleCustom obj :=
    @Commits.upload Unit sampleMeta aesStore "b" "k" none ⟨[1], none⟩
      ⟨path, [1], contentKey, .aesGcm, 7424, 0, none⟩ _ sampleWorld sampleEnv _ sampleCustom _ _ user _
      obj hstart (fun p hp => by cases hp) run_sampleWorld commit_sampleWorld.1 rfl huser
      (by rw [commit_sampleWorld.2]; exact .cons hcommit .nil) hstored (by decide)
  exact ⟨path, contentKey, obj, encryptedKey, _, haddr, hkey, rfl, rfl, .snoc (.nil _) (.put haddr hput)⟩

def sampleUpdate : CustomMetadata := customOf [("a", "2"), ("z", "")]

lemma verify_sampleUpdate : verifyCustomMetadata sampleUpdate.toList = .ok () := by decide +kernel

/-- An upload, an update of its metadata, a copy and a move. -/
def sampleOps : List ObjectOp :=
  [.put "b" "k" [1, 2, 3] sampleCustom, .updateMetadata "b" "k" sampleUpdate,
    .copy "b" "k" "b" "l", .move "b" "k" "b" "m"]

/-- What they leave. -/
def sampleObjects : Objects :=
  Function.update (Function.update (fun _ => none) ("b", "l") (some ([1, 2, 3], sampleUpdate)))
    ("b", "m") (some ([1, 2, 3], sampleUpdate))

lemma foldl_sampleOps : sampleOps.foldl ObjectOp.apply (fun _ => none) = sampleObjects := by
  have hkl : (("b", "k") : String × String) ≠ ("b", "l") := by decide
  have hkm : (("b", "k") : String × String) ≠ ("b", "m") := by decide
  simp only [sampleOps, sampleObjects, List.foldl_cons, List.foldl_nil, ObjectOp.apply,
    Function.update_self, Option.map_some, Function.update_idem, Function.update_of_ne hkl]
  rw [Function.update_comm hkl, Function.update_idem]
  congr 1
  rw [Function.update_eq_self_iff.mpr]
  rfl

lemma exists_path_sample {key : String} (hkey : key ≠ "")
    (hsome : (encryptPath copyPrimitives "b" key aesStore).toOption.isSome) :
    ∃ path, address copyPrimitives aesStore ("b", key) = some ("b", path) := by
  obtain ⟨path, hpath⟩ := Option.isSome_iff_exists.mp hsome
  exact ⟨path, address_eq_some.mpr ⟨by decide, hkey, toOption_eq_some.mp hpath, rfl⟩⟩

lemma isSome_path_sample : ∀ key ∈ ["k", "l", "m"],
    (encryptPath copyPrimitives "b" key aesStore).toOption.isSome := by decide +kernel

/-- What the satellite has after the run: the copy and what was moved, both with the bytes of the
upload. -/
lemma exists_run_sample : ∃ (l m : Bytes) (copied moved : StoredObject Unit)
    (nonce key data : Bytes),
    address copyPrimitives aesStore ("b", "l") = some ("b", l) ∧
    address copyPrimitives aesStore ("b", "m") = some ("b", m) ∧ l ≠ m ∧
    moved.segments = [⟨(0, 0), 3, nonce, key, [], .inline data⟩] ∧
    Runs (Step sampleMeta aesStore) (fun _ => none) sampleOps
      (Function.update (Function.update (fun _ => none) ("b", l) (some copied)) ("b", m)
        (some moved)) := by
  have hseal : ∀ text key nonce, ∃ out, sealed copyPrimitives text .aesGcm key nonce = .ok out :=
    exists_sealed_copy
  obtain ⟨k, contentKey, obj, key, data, hk, -, hparams, hsegments, hput⟩ := exists_put_sample
  obtain ⟨l, hl⟩ := exists_path_sample (show "l" ≠ "" by decide) (isSome_path_sample _ (by simp))
  obtain ⟨m, hm⟩ := exists_path_sample (show "m" ≠ "" by decide) (isSome_path_sample _ (by simp))
  obtain ⟨lKey, hlKey⟩ : ∃ k, deriveContentKey copyPrimitives "b" (utf8 "l") aesStore = .ok k :=
    ⟨_, rfl⟩
  obtain ⟨mKey, hmKey⟩ : ∃ k, deriveContentKey copyPrimitives "b" (utf8 "m") aesStore = .ok k :=
    ⟨_, rfl⟩
  have hcipher : ∀ o : StoredObject Unit, o.info.encryptionParameters = none →
      cipherFromParams o.info.encryptionParameters = .aesGcm := by
    intro o ho
    rw [ho]
    rfl
  have hkl : (("b", l) : String × Bytes) ≠ ("b", k) := by
    intro heq
    exact absurd (sealed_aesStore.distinct _ _ _ hl (heq ▸ hk)) (by decide)
  -- each call finds what the one before it left
  obtain ⟨updated, hupdated, hsame, hupdate⟩ := (shows_of_run sealed_aesStore hput).exists_updateMetadata
    hseal hk (Function.update_self ..) (hcipher _ hparams) verify_sampleUpdate
  have hrun₁ := hput.snoc hupdate
  obtain ⟨copied, _, -, -, hcopy, -⟩ := (shows_of_run sealed_aesStore hrun₁).exists_copy sealed_aesStore
    hseal hk hl hlKey (Function.update_self ..) (hcipher _ (hupdated.trans hparams))
  have hrun₂ := hrun₁.snoc hcopy
  obtain ⟨moved, keys, -, hmoved, -, hmove⟩ := (shows_of_run sealed_aesStore hrun₂).exists_copy
    sealed_aesStore hseal hk hm hmKey ((Function.update_of_ne hkl.symm _ _).trans (Function.update_self ..))
    (hcipher _ (hupdated.trans hparams))
  have hrun₃ := hrun₂.snoc hmove
  rw [Function.update_idem, Function.update_comm hkl, Function.update_idem,
    Function.update_eq_self_iff.mpr rfl] at hrun₃
  rw [hsame, hsegments] at hmoved
  obtain ⟨⟨position, plainSize, nonce, newKey, etag, content⟩, hreplaced, hsegment⟩ :
      ∃ s, Replaced keys ⟨(0, 0), 3, List.replicate 24 2, key, [], .inline data⟩ s ∧
        moved.segments = [s] := by
    generalize moved.segments = segments at hmoved ⊢
    cases hmoved with
    | cons hhead htail =>
        cases htail
        exact ⟨_, hhead, rfl⟩
  obtain ⟨-, rfl, rfl, rfl, rfl⟩ := hreplaced
  have hne : l ≠ m := by
    rintro rfl
    exact absurd (sealed_aesStore.distinct _ _ _ hl hm) (by decide)
  exact ⟨l, m, copied, moved, nonce, newKey, data, hl, hm, hne, hsegment, hrun₃⟩

/-- What was moved is seen with the new metadata, and what is deleted then is not. -/
theorem statObject_agrees_sample : ∃ sat : Database Unit,
    statObject sampleMeta aesStore "b" "m" (sat.getObject ⟨.objectNotFound, "none"⟩ "b")
      = .ok ⟨"m", false, 3, sampleUpdate⟩ ∧
    statObject sampleMeta aesStore "b" "l" (sat.getObject ⟨.objectNotFound, "none"⟩ "b")
      = .error ⟨.objectNotFound, "none"⟩ := by
  obtain ⟨l, m, _, _, _, _, _, hl, hm, _, _, hrun⟩ := exists_run_sample
  have hrun := hrun.snoc (delete_step hl)
  have hobjects : (sampleOps ++ [ObjectOp.delete "b" "l"]).foldl ObjectOp.apply (fun _ => none)
      = Function.update sampleObjects ("b", "l") none := by
    rw [List.foldl_append, foldl_sampleOps]
    rfl
  refine ⟨_, (statObject_agrees sealed_aesStore hrun ⟨.objectNotFound, "none"⟩ hm).trans ?_,
    (statObject_agrees sealed_aesStore hrun ⟨.objectNotFound, "none"⟩ hl).trans ?_⟩
  · rw [hobjects]
    rfl
  · rw [hobjects]
    rfl

end Storj.Client
