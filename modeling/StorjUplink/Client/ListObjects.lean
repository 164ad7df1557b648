import StorjUplink.Client.ListKeys
import StorjUplink.Client.ObjectStore
import StorjUplink.Lib.Paging

/-!
# Listing the objects

`list_objects` of `objects.rs` against the satellite of the object store.  The satellite lists the
sealed keys of a bucket below an encrypted prefix in pages (`ListsObjects`); the client opens them,
reads their metadata and leaves out what does not open.

After any run the stream gives the keys below the prefix that the run leaves, each once, with their
lengths and custom metadata; and a stream that starts at the cursor of one of them gives those
after it.  Others may have put objects into the bucket that the store does not open: the listing
passes over them.

The listing is a stream.  Its state has the codec of the prefix, the cursor, and the page that is
under way; a page may come to nothing, and the loop asks for the next one.  An item that cannot be
opened is passed over and does not end the stream, but an error of the satellite does.

What the satellite lists is a specification on its table: the sealed keys below the encrypted
prefix, cut at the delimiter unless the listing is recursive, without repetitions and in pages of
any size.  Nothing is said of the order, apart from what a cursor means.
-/

namespace Storj.Client

open Storj.Enc Storj.Access KeyTree KeyedStore Paging

/-! ## The request

The options with their check, and what they make of a request: a status, a limit, and which
metadata to send along.
-/

/-- `ListObjectsOptions`: prefix and cursor, whether the listing is recursive, and which metadata it
is to return. -/
structure ListObjectsOptions where
  keyPrefix : String
  cursor : String
  recursive : Bool
  system : Bool
  custom : Bool

/-- `require_trailing_slash_if_nonempty`, with the label that its text names. -/
def requireTrailingSlashIfNonempty (label value : String) : Except Error Unit :=
  if value ≠ "" ∧ endsWithSlash value = false then
    .error ⟨.objectKeyInvalid, label ++ " must end with '/'"⟩
  else .ok ()

/-- `ListObjectsRequest`, with prefix and cursor as the satellite sees them. -/
structure ListObjectsRequest where
  bucket : Bytes
  delimiter : Bytes
  encryptedPrefix : Bytes
  encryptedCursor : Bytes
  recursive : Bool
  limit : ℤ
  metadata : Bool
  excludeSystemMetadata : Bool
  arbitraryPrefix : Bool

/-- `LIST_OBJECTS_LIMIT`. -/
def listObjectsLimit : ℤ := 1000

/-- `ObjectListItem`, with what is read of it. -/
structure ObjectListItem where
  encryptedObjectKey : Bytes
  status : ℤ
  encryptedMetadataNonce : Bytes
  encryptedMetadata : Bytes
  encryptedMetadataEncryptedKey : Bytes
  plainSize : ℤ
  streamId : Bytes

/-- `ObjectStatus::Prefix`. -/
def prefixStatus : ℤ := 7

/-- The item stands for the keys below it. -/
def ObjectListItem.isPrefix (item : ObjectListItem) : Bool := item.status == prefixStatus

/-- `ObjectListState`, without what changes from page to page. -/
structure ObjectListState extends ListKeyCodec where
  bucket : String
  recursive : Bool
  system : Bool
  custom : Bool

/-- The request of `MetainfoClient::list_objects`: a delimiter unless the listing is recursive, and
the cursor of the page. -/
def ObjectListState.request (st : ObjectListState) (encryptedCursor : Bytes) :
    ListObjectsRequest where
  bucket := utf8 st.bucket
  delimiter := if st.recursive then [] else [slash]
  encryptedPrefix := st.encryptedPrefix
  encryptedCursor := encryptedCursor
  recursive := st.recursive
  limit := listObjectsLimit
  metadata := st.custom
  excludeSystemMetadata := !st.system
  arbitraryPrefix := st.arbitraryPrefix

/-! ## The stream

Opening a page and following the cursor.
-/

section

variable (prim : MetaPrimitives)

/-- `prepare_list`: the state, and the cursor of the first page. -/
def prepareList (store : Store) (bucket : String) (opts : ListObjectsOptions) :
    Except Error (ObjectListState × Bytes) := do
  let codec ← ListKeyCodec.new prim.toPathPrimitives store bucket opts.keyPrefix
  let encryptedCursor ← codec.encodeCursor prim.toPathPrimitives opts.cursor
  .ok (⟨codec, bucket, opts.recursive, opts.system, opts.custom⟩, encryptedCursor)

/-- `convert_list_item`: the key is decrypted, and the item becomes the answer of a `GetObject`
without cipher and checksum. -/
def convertListItem (store : Store) (st : ObjectListState) (item : ObjectListItem) :
    Except Error Object := do
  let key ← st.decodeKey prim.toPathPrimitives item.encryptedObjectKey
  let pb : ObjectInfo :=
    { streamId := item.streamId
      encryptionParameters := none
      encryptedMetadata := item.encryptedMetadata
      encryptedMetadataEncryptedKey := item.encryptedMetadataEncryptedKey
      encryptedMetadataNonce := item.encryptedMetadataNonce
      encryptedChecksum := []
      checksumAlgorithm := 0
      isChecksumComposite := false
      plainSize := item.plainSize }
  objectFromInfo prim pb st.bucket key item.isPrefix st.system (st.custom && !item.isPrefix) store

/-- `skippable_list_decrypt`: keys of others, which do not decrypt here, are no errors of the
listing. -/
def skippableListDecrypt (e : Error) : Bool :=
  e.kind == .decryptionFailed || e.kind == .protocol

/-- `convert_list_page`: items whose error `skippable_list_decrypt` lets pass are left out, any
other error ends the page. -/
def convertListPage (store : Store) (st : ObjectListState) :
    List ObjectListItem → Except Error (List Object)
  | [] => .ok []
  | item :: items =>
      match convertListItem prim store st item with
      | .ok obj => do
          let out ← convertListPage store st items
          .ok (obj :: out)
      | .error e => if skippableListDecrypt e then convertListPage store st items else .error e

/-- `list_objects`, to the end of the stream: the checks and the prefix, then page after page.  An
error found before the first page is the only item of the stream. -/
def listObjects (store : Store) (bucket : String) (opts : ListObjectsOptions)
    (call : ListObjectsRequest → Except Error (Page ObjectListItem)) (fuel : ℕ) :
    Option (List Object × Option Error) :=
  let prepared := do
    requireTrailingSlashIfNonempty "prefix" opts.keyPrefix
    requireBucketName bucket
    prepareList prim store bucket opts
  match prepared with
  | .error e => some ([], some e)
  | .ok (st, encryptedCursor) =>
      drain (fetchPage (fun cursor => call (st.request cursor)) ObjectListItem.encryptedObjectKey
        (convertListPage prim store st)) fuel ⟨encryptedCursor, [], false⟩

end

/-! ## What the satellite lists

Keys relative to the encrypted prefix.
-/

/-- `strip_list_prefix`: the key relative to the prefix, after which a slash must follow unless the
prefix is arbitrary. -/
def stripListPrefix (encKey listPrefix : Bytes) (arbitrary : Bool) : Option Bytes :=
  if listPrefix = [] then some encKey
  else if !listPrefix.isPrefixOf encKey then none
  else
    let rest := encKey.drop listPrefix.length
    if arbitrary then some rest
    else
      match rest with
      | [] => none
      | b :: rest => if b = slash then some rest else none

lemma stripListPrefix_eq_some {encKey listPrefix r : Bytes} :
    stripListPrefix encKey listPrefix false = some r ↔ encKey = joinPrefix listPrefix r := by
  rw [stripListPrefix, joinPrefix]
  by_cases hempty : listPrefix = []
  · rw [if_pos hempty, if_pos hempty, Option.some.injEq]
  rw [if_neg hempty, if_neg hempty]
  by_cases hpre : listPrefix <+: encKey
  · obtain ⟨rest, rfl⟩ := hpre
    rw [if_neg (by simp), if_neg Bool.false_ne_true, List.drop_left, List.append_cancel_left_eq]
    cases rest with
    | nil => simp
    | cons b rest =>
        dsimp only
        split_ifs with hb
        · simp [hb]
        · simp [hb]
  · have hnot : (!listPrefix.isPrefixOf encKey) = true := by
      rw [Bool.not_eq_true', Bool.eq_false_iff, Ne, List.isPrefixOf_iff_prefix]
      exact hpre
    rw [if_pos hnot]
    constructor
    · intro h
      cases h
    · rintro rfl
      exact absurd (List.prefix_append _ _) hpre

variable {H : Type} {prim : MetaPrimitives} {store : Store}

/-- The key that an item shows, and whether it stands for the keys below it. -/
def ObjectListItem.listed (item : ObjectListItem) : Bytes × Bool :=
  (item.encryptedObjectKey, item.isPrefix)

/-- **What the satellite lists** of its table: every key of the bucket below the encrypted prefix,
with the delimiter only up to it, in pages, with the fields of the object that were asked for. -/
structure ListsObjects (sat : Database H) (st : ObjectListState)
    (call : ListObjectsRequest → Except Error (Page ObjectListItem)) (items : List ObjectListItem) :
    Prop where
  pages : Pages (fun cursor => call (st.request cursor)) ObjectListItem.encryptedObjectKey [] items
  nodup : (items.map ObjectListItem.listed).Nodup
  mem : ∀ x, x ∈ items.map ObjectListItem.listed ↔ ∃ encKey r, sat (st.bucket, encKey) ≠ none ∧
    stripListPrefix encKey st.encryptedPrefix st.arbitraryPrefix = some r ∧
      collapse st.recursive r = x
  prefixes : ∀ item ∈ items, item.isPrefix = true → item.plainSize = 0
  objects : ∀ item ∈ items, item.isPrefix = false → ∀ encKey obj,
    sat (st.bucket, encKey) = some obj →
    stripListPrefix encKey st.encryptedPrefix st.arbitraryPrefix = some item.encryptedObjectKey →
    (st.system = true → item.plainSize = obj.info.plainSize) ∧
      (st.custom = true → item.encryptedMetadata = obj.info.encryptedMetadata ∧
        item.encryptedMetadataEncryptedKey = obj.info.encryptedMetadataEncryptedKey ∧
        item.encryptedMetadataNonce = obj.info.encryptedMetadataNonce)

/-! ## What the caller sees

The keys of the map below the prefix, as a listing shows them.  An item of the satellite belongs to
a key of the map, or to somebody else's object.
-/

/-- What is seen of a key, or of the keys below it. -/
def listedObject (objects : Objects) (bucket : String) (system custom : Bool) (x : String × Bool) :
    Object :=
  let v := if x.2 then none else objects (bucket, x.1)
  { key := x.1
    isPrefix := x.2
    contentLength := if system then (v.map fun v => (v.1.length : ℤ)).getD 0 else 0
    custom := if custom then (v.map Prod.snd).getD ∅ else ∅ }

/-- What is read of a record with the metadata of an object. -/
lemma Says.objectFromInfo_eq {contentKey : Key} {obj : StoredObject H} {d : UserData} {data : Bytes}
    (h : Says prim contentKey obj d data) {bucket key : String}
    (hkey : deriveContentKey prim.toPathPrimitives bucket (utf8 key) store = .ok contentKey)
    {pb : ObjectInfo} {system custom : Bool}
    (hsize : system = true → pb.plainSize = obj.info.plainSize)
    (hcustom : custom = true → pb.encryptedMetadata = obj.info.encryptedMetadata ∧
      pb.encryptedMetadataEncryptedKey = obj.info.encryptedMetadataEncryptedKey ∧
      pb.encryptedMetadataNonce = obj.info.encryptedMetadataNonce) :
    objectFromInfo prim pb bucket key false system custom store = .ok
      ⟨key, false, if system then (data.length : ℤ) else 0, if custom then d.custom else ∅⟩ := by
  have hlength : (if system then pb.plainSize else 0) = if system then (data.length : ℤ) else 0 := by
    cases system with
    | false => rfl
    | true => rw [if_pos rfl, if_pos rfl, hsize rfl, h.plainSize]
  rw [objectFromInfo, hlength]
  cases custom with
  | false =>
      rw [if_neg (by simp)]
      rfl
  | true =>
      obtain ⟨hmeta, hmetaKey, hnonce⟩ := hcustom rfl
      obtain ⟨streamInfo, deprecated, inner, hdec⟩ :=
        h.reads.metadata (cipherFromParams pb.encryptionParameters)
      have hread : decryptCustom prim pb.toObjectRecord bucket key store = .ok d.custom := by
        rw [decryptCustom, hkey]
        show (do
          let r ← decryptUserData prim _ _ _ _ contentKey
          .ok r.2.userDefined) = Except.ok d.custom
        rw [decryptUserData, hmeta, hmetaKey, hnonce, hdec]
        rfl
      rw [if_pos ⟨rfl, by decide, by rw [hmeta]; exact h.reads.ne_nil⟩, hread]
      rfl

/-- A page is what its items are read as, but for those that are left out. -/
lemma convertListPage_eq {st : ObjectListState} {items : List ObjectListItem}
    (h : ∀ item ∈ items, ∀ e, convertListItem prim store st item = .error e →
      skippableListDecrypt e = true) :
    convertListPage prim store st items
      = .ok (items.filterMap fun item => (convertListItem prim store st item).toOption) := by
  induction items with
  | nil => rfl
  | cons item items ih =>
      have ih := ih fun item hmem => h item (List.mem_cons_of_mem _ hmem)
      rw [convertListPage, List.filterMap_cons]
      cases hitem : convertListItem prim store st item with
      | error e =>
          dsimp only
          rw [if_pos (h item List.mem_cons_self e hitem), ih]
          rfl
      | ok obj =>
          dsimp only
          rw [ih]
          rfl

/-- What an item shows to the caller. -/
def seenOf (prim : MetaPrimitives) (store : Store) (st : ObjectListState) (item : ObjectListItem) :
    Option (String × Bool) :=
  (convertListItem prim store st item).toOption.map fun o => (o.key, o.isPrefix)

/-- **Only keys that have a path have a value** after a run. -/
lemma addressed_of_run {ops : List ObjectOp} {foreign sat : Database H}
    (hrun : Runs (Step prim store) foreign ops sat) {k : String × String} {v : Bytes × CustomMetadata}
    (hv : (ops.foldl ObjectOp.apply fun _ => none) k = some v) :
    ∃ a, address prim.toPathPrimitives store k = some a := by
  have hall : ∀ k v, (ops.foldl ObjectOp.apply fun _ => none) k = some v →
      ∃ a, address prim.toPathPrimitives store k = some a := by
    refine Runs.simulates (f := ObjectOp.apply)
      (R := fun (_ : Database H) (objects : Objects) => ∀ k v, objects k = some v →
        ∃ a, address prim.toPathPrimitives store k = some a) ?_ (fun _ _ h => by cases h) hrun
    intro sat objects op sat' h hstep
    -- a step gives a value to the key that it addresses, and to no other
    have hwrite : ∀ {l : String × String} {a : String × Bytes} {c : Option (Bytes × CustomMetadata)}
        {o : Objects}, (∀ k v, o k = some v → ∃ a, address prim.toPathPrimitives store k = some a) →
        address prim.toPathPrimitives store l = some a → ∀ k v, Function.update o l c k = some v →
        ∃ a, address prim.toPathPrimitives store k = some a := by
      intro l a c o ho hl k v hv
      by_cases hk : k = l
      · exact ⟨a, hk ▸ hl⟩
      · rw [Function.update_of_ne hk] at hv
        exact ho k v hv
    cases hstep with
    | put addressed commits => exact hwrite h addressed
    | updateMetadata sent found updated plainSize segments =>
        exact hwrite h (updateObjectMetadata_path sent).1
    | copy sent begin_path addressed found begins finishes =>
        obtain ⟨_, _, _, _, _, hdst, _⟩ := copyMove_eq_ok (sends_copyObject.mp sent)
        exact hwrite h hdst
    | move sent begin_path addressed found begins finishes =>
        obtain ⟨_, _, _, _, _, hdst, _⟩ := copyMove_eq_ok (sends_moveObject.mp sent)
        exact hwrite (hwrite h addressed) hdst
    | delete sent => exact hwrite h (deleteObject_path sent)
  exact hall k v hv

section Items

variable {bucket : String} {opts : ListObjectsOptions} {objects : Objects} {sat : Database H}
  {p : Path Bytes Bytes} {base : Base} {info : PrefixInfo}
  {call : ListObjectsRequest → Except Error (Page ObjectListItem)} {items : List ObjectListItem}
  {item : ObjectListItem} {k : String} {r : Bytes}

/-- The state of a listing below a prefix that seals. -/
def listState (bucket : String) (opts : ListObjectsOptions) (info : PrefixInfo) : ObjectListState where
  keyPrefix := opts.keyPrefix
  parentKey := info.parentKey
  pathCipher := info.pathCipher
  encryptedPrefix := info.parentEnc
  arbitraryPrefix := false
  bucket := bucket
  recursive := opts.recursive
  system := opts.system
  custom := opts.custom

/-- **An item of a key** below the prefix that has an object: it shows what is shown of the sealed
key. -/
structure ItemOf (prim : PathPrimitives) (store : Store) (sat : Database H) (st : ObjectListState)
    (item : ObjectListItem) (k : String) (r : Bytes) : Prop where
  addressed : address prim store (st.bucket, st.keyPrefix ++ k)
    = some (st.bucket, joinPrefix st.encryptedPrefix r)
  stored : sat (st.bucket, joinPrefix st.encryptedPrefix r) ≠ none
  sealed : encryptIterator prim ((utf8 k).splitOn slash) st.pathCipher st.parentKey = .ok r
  listed : collapse st.recursive r = item.listed

/-- What is seen of a key below the prefix. -/
def ObjectListState.seen (st : ObjectListState) (k : String) : String × Bool :=
  (st.keyPrefix ++ (shown st.recursive k).1, (shown st.recursive k).2)

/-- An item that stands for itself has the sealed key. -/
lemma ItemOf.whole (hcipher : info.pathCipher = .aesGcm ∨ info.pathCipher = .secretBox)
    (hitem : ItemOf prim.toPathPrimitives store sat (listState bucket opts info) item k r) :
    item.isPrefix = (shown opts.recursive k).2 ∧ ((shown opts.recursive k).2 = false →
      shown opts.recursive k = (k, false) ∧ item.encryptedObjectKey = r) := by
  have hlisted : collapse opts.recursive r = (item.encryptedObjectKey, item.isPrefix) := hitem.listed
  have hsealed : encryptIterator prim.toPathPrimitives ((utf8 k).splitOn slash) info.pathCipher
    info.parentKey = .ok r := hitem.sealed
  obtain ⟨hk, hr⟩ | ⟨_, _, hk, hr, _⟩ := collapse_sealed hcipher opts.recursive hsealed
  · rw [hr, Prod.mk.injEq] at hlisted
    rw [utf8_shown, Prod.mk.injEq, utf8_injective.eq_iff] at hk
    exact ⟨hlisted.2.symm.trans hk.2.symm, fun _ => ⟨Prod.ext hk.1 hk.2, hlisted.1.symm⟩⟩
  · rw [hr, Prod.mk.injEq] at hlisted
    rw [utf8_shown, Prod.mk.injEq] at hk
    refine ⟨hlisted.2.symm.trans hk.2.symm, fun hself => ?_⟩
    rw [hk.2] at hself
    cases hself

/-- The object of an item that stands for itself. -/
lemma ItemOf.exists_object (hcipher : info.pathCipher = .aesGcm ∨ info.pathCipher = .secretBox)
    (hlists : ListsObjects sat (listState bucket opts info) call items) (hmem : item ∈ items)
    (hself : item.isPrefix = false)
    (hitem : ItemOf prim.toPathPrimitives store sat (listState bucket opts info) item k r) :
    shown opts.recursive k = (k, false) ∧ ∃ obj,
      sat (bucket, joinPrefix info.parentEnc r) = some obj ∧
      (opts.system = true → item.plainSize = obj.info.plainSize) ∧
      (opts.custom = true → item.encryptedMetadata = obj.info.encryptedMetadata ∧
        item.encryptedMetadataEncryptedKey = obj.info.encryptedMetadataEncryptedKey ∧
        item.encryptedMetadataNonce = obj.info.encryptedMetadataNonce) := by
  obtain ⟨hflag, hwhole⟩ := hitem.whole hcipher
  obtain ⟨hshown, hkey⟩ := hwhole (hflag.symm.trans hself)
  obtain ⟨obj, hobj⟩ := Option.ne_none_iff_exists'.mp hitem.stored
  exact ⟨hshown, obj, hobj, hlists.objects item hmem hself _ obj hobj
    (stripListPrefix_eq_some.mpr (congrArg _ hkey.symm))⟩

variable (h : UnderOneKey prim.toPathPrimitives store bucket (utf8 opts.keyPrefix) p base info)

include h

lemma prepareList_eq (hs : Sealed prim store) : prepareList prim store bucket opts = (do
    let encryptedCursor ←
      (listState bucket opts info).encodeCursor prim.toPathPrimitives opts.cursor
    .ok (listState bucket opts info, encryptedCursor)) := by
  have hnull : (info.pathCipher == CipherSuite.null) = false := by
    rw [h.pathCipher_eq hs.wf hs.sealing.bypass, beq_eq_false_iff_ne]
    exact (sealing_ne h.cipher).2.1
  rw [prepareList, ListKeyCodec.new, h.info_eq]
  dsimp only
  rw [hnull]
  rfl

/-- A key below the prefix has its sealed path below the encrypted prefix. -/
lemma exists_sealed (hs : Sealed prim store) {path : Bytes}
    (haddr : address prim.toPathPrimitives store (bucket, opts.keyPrefix ++ k) = some (bucket, path)) :
    ∃ r, path = joinPrefix info.parentEnc r ∧
      encryptIterator prim.toPathPrimitives ((utf8 k).splitOn slash) info.pathCipher info.parentKey
        = .ok r := by
  obtain ⟨_, hkey, hpath, _⟩ := address_eq_some.mp haddr
  have hne : utf8 opts.keyPrefix ++ utf8 k ≠ [] := by
    rw [← utf8_append]
    exact fun hnil => hkey (utf8_eq_nil.mp hnil)
  dsimp only at hpath
  rw [encryptPath, utf8_append, h.encryptPathBytes_append hs.wf hs.sealing.bypass hne] at hpath
  obtain ⟨r, hr, hjoin⟩ := Fallible.bind_eq_ok.mp hpath
  cases hjoin
  exact ⟨r, rfl, hr⟩

/-- **An item of a key is read** as what is seen of the key. -/
lemma ItemOf.convert_eq (hs : Sealed prim store) (hshows : Shows prim store objects sat)
    (hlists : ListsObjects sat (listState bucket opts info) call items) (hmem : item ∈ items)
    (hitem : ItemOf prim.toPathPrimitives store sat (listState bucket opts info) item k r) :
    convertListItem prim store (listState bucket opts info) item
      = .ok (listedObject objects bucket opts.system opts.custom
          ((listState bucket opts info).seen k)) := by
  have hcipher : (listState bucket opts info).pathCipher = .aesGcm ∨
      (listState bucket opts info).pathCipher = .secretBox := by
    show info.pathCipher = _ ∨ info.pathCipher = _
    rw [h.pathCipher_eq hs.wf hs.sealing.bypass]
    exact h.cipher
  obtain ⟨hdecode, hflag⟩ := ListKeyCodec.decodeKey_collapse hs.lawful.aesGcm hs.lawful.secretBox
    hcipher opts.recursive hitem.sealed
  have hlisted : collapse opts.recursive r = item.listed := hitem.listed
  rw [hlisted] at hdecode hflag
  have hdecode : (listState bucket opts info).decodeKey prim.toPathPrimitives item.encryptedObjectKey
    = .ok (opts.keyPrefix ++ (shown opts.recursive k).1) := hdecode
  have hflag : item.isPrefix = (shown opts.recursive k).2 := hflag
  rw [convertListItem, hdecode, Fallible.ok_bind]
  cases hself : item.isPrefix with
  | true =>
      have hseen : (listState bucket opts info).seen k
          = (opts.keyPrefix ++ (shown opts.recursive k).1, true) := by
        rw [← hself, hflag]
        rfl
      rw [objectFromInfo, if_neg (by simp), hseen, listedObject]
      dsimp only
      rw [hlists.prefixes item hmem hself]
      simp
  | false =>
      obtain ⟨hshown, obj, hobj, hsize, hcustom⟩ := hitem.exists_object hcipher hlists hmem hself
      obtain ⟨v, hv, contentKey, hcontent, d, hd, hsaid⟩ :=
        Represents.value hshows hitem.addressed hobj
      have hseen : (listState bucket opts info).seen k = (opts.keyPrefix ++ k, false) :=
        congrArg (fun x : String × Bool => (opts.keyPrefix ++ x.1, x.2)) hshown
      have hvalue : objects (bucket, opts.keyPrefix ++ k) = some v := hv
      have hcustom' : (opts.custom && !false) = true → _ := fun hon =>
        hcustom ((Bool.and_eq_true_iff.mp hon).1)
      rw [hshown, hseen, listedObject]
      dsimp only
      rw [if_neg Bool.false_ne_true, hvalue]
      refine (hsaid.objectFromInfo_eq hcontent hsize hcustom').trans ?_
      rw [Bool.not_false, Bool.and_true, hd]
      rfl

section Stream

variable (hs : Sealed prim store) (hshows : Shows prim store objects sat)
  (hlists : ListsObjects sat (listState bucket opts info) call items)
  (hothers : ∀ item ∈ items,
    (∀ k r, ¬ItemOf prim.toPathPrimitives store sat (listState bucket opts info) item k r) →
    ∃ e, (listState bucket opts info).decodeKey prim.toPathPrimitives item.encryptedObjectKey
      = .error e ∧ skippableListDecrypt e = true)

include hs hshows hlists hothers

/-- **An item of no key is left out**, if it does not open. -/
lemma convertListItem_cases (hmem : item ∈ items) :
    (∃ k r, ItemOf prim.toPathPrimitives store sat (listState bucket opts info) item k r ∧
      convertListItem prim store (listState bucket opts info) item
        = .ok (listedObject objects bucket opts.system opts.custom
            ((listState bucket opts info).seen k))) ∨
      ∃ e, convertListItem prim store (listState bucket opts info) item = .error e ∧
        skippableListDecrypt e = true := by
  by_cases hitem : ∃ k r,
      ItemOf prim.toPathPrimitives store sat (listState bucket opts info) item k r
  · obtain ⟨k, r, hitem⟩ := hitem
    exact Or.inl ⟨k, r, hitem, hitem.convert_eq h hs hshows hlists hmem⟩
  · push Not at hitem
    obtain ⟨e, hdecode, hskip⟩ := hothers item hmem hitem
    refine Or.inr ⟨e, ?_, hskip⟩
    rw [convertListItem, hdecode]
    rfl

lemma seenOf_eq_some_iff (hmem : item ∈ items) {x : String × Bool} :
    seenOf prim store (listState bucket opts info) item = some x ↔ ∃ k r,
      ItemOf prim.toPathPrimitives store sat (listState bucket opts info) item k r ∧
        x = (listState bucket opts info).seen k := by
  rw [seenOf]
  constructor
  · intro hx
    obtain ⟨k, r, hitem, hconvert⟩ | ⟨e, hconvert, _⟩ :=
      convertListItem_cases h hs hshows hlists hothers hmem
    · rw [hconvert] at hx
      exact ⟨k, r, hitem, (Option.some.inj hx).symm⟩
    · rw [hconvert] at hx
      cases hx
  · rintro ⟨k, r, hitem, rfl⟩
    rw [hitem.convert_eq h hs hshows hlists hmem]
    rfl

lemma toOption_convertListItem (hmem : item ∈ items) :
    (convertListItem prim store (listState bucket opts info) item).toOption
      = (seenOf prim store (listState bucket opts info) item).map
          (listedObject objects bucket opts.system opts.custom) := by
  rw [seenOf]
  obtain ⟨k, r, _, hconvert⟩ | ⟨e, hconvert, _⟩ :=
    convertListItem_cases h hs hshows hlists hothers hmem
  · rw [hconvert]
    rfl
  · rw [hconvert]
    rfl

/-- Every key is seen once. -/
lemma nodup_seen : (items.filterMap (seenOf prim store (listState bucket opts info))).Nodup := by
  have hcipher : info.pathCipher = .aesGcm ∨ info.pathCipher = .secretBox := by
    rw [h.pathCipher_eq hs.wf hs.sealing.bypass]
    exact h.cipher
  refine List.pairwise_filterMap.mpr ((List.pairwise_map.mp hlists.nodup).imp_of_mem ?_)
  intro a b ha hb hne x hx y hy hxy
  subst hxy
  obtain ⟨k, r, hk, rfl⟩ := (seenOf_eq_some_iff h hs hshows hlists hothers ha).mp hx
  obtain ⟨l, t, hl, hseen⟩ := (seenOf_eq_some_iff h hs hshows hlists hothers hb).mp hy
  -- what is shown of the plain keys decides what is shown of the sealed ones
  have hshown : shown opts.recursive k = shown opts.recursive l := by
    obtain ⟨hfirst, hsecond⟩ := Prod.mk.injEq .. ▸ hseen
    exact Prod.ext ((String.append_right_inj _).mp hfirst) hsecond
  refine hne ?_
  rw [← hk.listed, ← hl.listed]
  exact collapse_sealed_inj hcipher opts.recursive hk.sealed hl.sealed (shown_eq_iff.mp hshown)

/-- The keys below the prefix are seen, and no others. -/
lemma mem_seen (haddressed : ∀ k v, objects k = some v →
      ∃ a, address prim.toPathPrimitives store k = some a) {x : String × Bool} :
    x ∈ items.filterMap (seenOf prim store (listState bucket opts info)) ↔
      ∃ k v, objects (bucket, opts.keyPrefix ++ k) = some v ∧
        x = (listState bucket opts info).seen k := by
  rw [List.mem_filterMap]
  constructor
  · rintro ⟨item, hmem, hx⟩
    obtain ⟨k, r, hitem, rfl⟩ := (seenOf_eq_some_iff h hs hshows hlists hothers hmem).mp hx
    obtain ⟨obj, hobj⟩ := Option.ne_none_iff_exists'.mp hitem.stored
    obtain ⟨v, hv, _⟩ := Represents.value hshows hitem.addressed hobj
    exact ⟨k, v, hv, rfl⟩
  · rintro ⟨k, v, hv, rfl⟩
    obtain ⟨⟨_, path⟩, haddr⟩ := haddressed _ _ hv
    obtain ⟨_, _, _, rfl⟩ := address_eq_some.mp haddr
    obtain ⟨r, rfl, hr⟩ := exists_sealed h hs haddr
    obtain ⟨obj, hobj, _⟩ := Represents.some hshows haddr hv
    have hstored := Option.ne_none_iff_exists'.mpr ⟨obj, hobj⟩
    obtain ⟨item, hmem, hlisted⟩ := List.mem_map.mp ((hlists.mem (collapse opts.recursive r)).mpr
      ⟨_, r, hstored, stripListPrefix_eq_some.mpr rfl, rfl⟩)
    exact ⟨item, hmem, (seenOf_eq_some_iff h hs hshows hlists hothers hmem).mpr
      ⟨k, r, ⟨haddr, hstored, hr, hlisted.symm⟩, rfl⟩⟩

/-- The cursor of an object that was seen is that of its item. -/
lemma encodeCursor_seen {cursor : String} (hcursor : cursor ≠ "") (hmem : item ∈ items)
    (hx : seenOf prim store (listState bucket opts info) item = some (opts.keyPrefix ++ cursor, false)) :
    (listState bucket opts info).encodeCursor prim.toPathPrimitives cursor
      = .ok item.encryptedObjectKey := by
  have hcipher : info.pathCipher = .aesGcm ∨ info.pathCipher = .secretBox := by
    rw [h.pathCipher_eq hs.wf hs.sealing.bypass]
    exact h.cipher
  obtain ⟨k, r, hitem, hseen⟩ := (seenOf_eq_some_iff h hs hshows hlists hothers hmem).mp hx
  obtain ⟨hfirst, hsecond⟩ := Prod.mk.injEq .. ▸ hseen
  obtain ⟨hshown, hkey⟩ := (hitem.whole hcipher).2 hsecond.symm
  have hk : cursor = k := by
    have hfirst : cursor = (shown opts.recursive k).1 := (String.append_right_inj _).mp hfirst
    rw [hfirst, hshown]
  have hcomponents : components (utf8 k) = (utf8 k).splitOn slash :=
    if_neg fun hnil => hcursor (hk.trans (utf8_eq_nil.mp hnil))
  have hsealed : encryptIterator prim.toPathPrimitives ((utf8 k).splitOn slash)
    (listState bucket opts info).pathCipher (listState bucket opts info).parentKey = .ok r :=
    hitem.sealed
  rw [ListKeyCodec.encodeCursor, if_neg hcursor, hk, hcomponents, hsealed, hkey]

/-- **A stream from a cursor on**: it gives what comes after the items before the cursor. -/
lemma listObjects_from (hbucket : bucket ≠ "") {before rest : List ObjectListItem} {cursor : String}
    (hitems : items = before ++ rest)
    (hcursor : (listState bucket opts info).encodeCursor prim.toPathPrimitives cursor
      = .ok (cursorAfter ObjectListItem.encryptedObjectKey [] before)) {fuel : ℕ}
    (hfuel : 2 * items.length + 2 ≤ fuel) :
    listObjects prim store bucket { opts with cursor } call fuel
      = some ((rest.filterMap (seenOf prim store (listState bucket opts info))).map
          (listedObject objects bucket opts.system opts.custom), none) := by
  have hslash : ¬(opts.keyPrefix ≠ "" ∧ endsWithSlash opts.keyPrefix = false) := by
    rintro ⟨hne, hends⟩
    obtain ⟨raw, hraw⟩ := h.slashed.resolve_left fun hnil => hne (utf8_eq_nil.mp hnil)
    obtain ⟨a, rfl⟩ := exists_utf8_of_slash hraw
    have hkey : opts.keyPrefix = a ++ "/" := by
      refine utf8_injective ?_
      rw [hraw, utf8_append]
      rfl
    rw [hkey, endsWithSlash] at hends
    simp at hends
  have hprepare : prepareList prim store bucket { opts with cursor } = _ := prepareList_eq h hs
  have hpages : Pages (fun cursor => call ((listState bucket opts info).request cursor))
      ObjectListItem.encryptedObjectKey
      (cursorAfter ObjectListItem.encryptedObjectKey [] before) rest :=
    Pages.after (hitems ▸ hlists.pages)
  have hlength := congrArg List.length hitems
  rw [List.length_append] at hlength
  have hsub : rest ⊆ items := by
    rw [hitems]
    exact List.subset_append_right _ _
  have hconvert : ∀ page, page ⊆ rest → convertListPage prim store (listState bucket opts info) page
      = .ok (page.filterMap fun item =>
          (convertListItem prim store (listState bucket opts info) item).toOption) := by
    refine fun page hpage => convertListPage_eq fun item hmem e he => ?_
    obtain ⟨k, r, _, hok⟩ | ⟨e', herror, hskip⟩ :=
      convertListItem_cases h hs hshows hlists hothers (hsub (hpage hmem))
    · rw [hok] at he
      cases he
    · rw [herror, Except.error.injEq] at he
      exact he ▸ hskip
  have hseen : (rest.filterMap fun item =>
      (convertListItem prim store (listState bucket opts info) item).toOption)
        = (rest.filterMap (seenOf prim store (listState bucket opts info))).map
            (listedObject objects bucket opts.system opts.custom) := by
    rw [List.map_filterMap]
    exact List.filterMap_congr fun item hmem =>
      toOption_convertListItem h hs hshows hlists hothers (hsub hmem)
  have hprepared : (do
      requireTrailingSlashIfNonempty "prefix" opts.keyPrefix
      requireBucketName bucket
      prepareList prim store bucket { opts with cursor })
        = .ok (listState bucket opts info, cursorAfter ObjectListItem.encryptedObjectKey [] before) := by
    rw [requireTrailingSlashIfNonempty, if_neg hslash, requireBucketName_ok hbucket, hprepare]
    show (do
      let encryptedCursor ←
        (listState bucket opts info).encodeCursor prim.toPathPrimitives cursor
      .ok (listState bucket opts info, encryptedCursor)) = _
    rw [hcursor]
    rfl
  rw [listObjects, hprepared, ← hseen]
  exact drain_pages hpages hconvert (by omega)

end Stream

end Items

/-- **What is stored is what is listed.**  After any run of uploads, multipart uploads, metadata
updates, copies, moves and deletions, a listing below a prefix with one key gives the keys that the
run leaves there, each once, with lengths and custom metadata as asked for, or what is shown of
them up to the next slash; and from the cursor of any object that it gives on it gives what came
after it.  Objects that others put into the bucket are left out if they do not open. -/
theorem listObjects_agrees (hs : Sealed prim store) {foreign sat : Database H}
    (hforeign : Shows prim store (fun _ => none) foreign) {ops : List ObjectOp}
    (hrun : Runs (Step prim store) foreign ops sat) {bucket : String} (hbucket : bucket ≠ "")
    {opts : ListObjectsOptions} {p : Path Bytes Bytes} {base : Base} {info : PrefixInfo}
    (h : UnderOneKey prim.toPathPrimitives store bucket (utf8 opts.keyPrefix) p base info)
    {call : ListObjectsRequest → Except Error (Page ObjectListItem)} {items : List ObjectListItem}
    (hlists : ListsObjects sat (listState bucket opts info) call items)
    (hothers : ∀ item ∈ items,
      (∀ k r, ¬ItemOf prim.toPathPrimitives store sat (listState bucket opts info) item k r) →
      ∃ e, (listState bucket opts info).decodeKey prim.toPathPrimitives item.encryptedObjectKey
        = .error e ∧ skippableListDecrypt e = true) :
    ∃ keys : List (String × Bool), keys.Nodup ∧
      (∀ x, x ∈ keys ↔ ∃ k v,
        (ops.foldl ObjectOp.apply fun _ => none) (bucket, opts.keyPrefix ++ k) = some v ∧
          x = (opts.keyPrefix ++ (shown opts.recursive k).1, (shown opts.recursive k).2)) ∧
      ∀ before rest cursor, keys = before ++ rest →
        (before = [] ∧ cursor = "" ∨
          cursor ≠ "" ∧ before.getLast? = some (opts.keyPrefix ++ cursor, false)) →
        ∀ fuel, 2 * items.length + 2 ≤ fuel →
          listObjects prim store bucket { opts with cursor } call fuel
            = some (rest.map (listedObject (ops.foldl ObjectOp.apply fun _ => none) bucket opts.system
                opts.custom), none) := by
  have hshows : Shows prim store (ops.foldl ObjectOp.apply fun _ => none) sat :=
    Runs.simulates (R := fun sat objects => Shows prim store objects sat) (f := ObjectOp.apply)
      (fun _ _ _ _ h hstep => h.step hs hstep) hforeign hrun
  have haddressed := fun k v => addressed_of_run (v := v) (k := k) hrun
  generalize (ops.foldl ObjectOp.apply fun _ => none) = objects at *
  refine ⟨items.filterMap (seenOf prim store (listState bucket opts info)),
    nodup_seen h hs hshows hlists hothers,
    fun x => mem_seen h hs hshows hlists hothers haddressed, ?_⟩
  rintro before rest cursor hkeys hcursor fuel hfuel
  rcases hcursor with ⟨rfl, rfl⟩ | ⟨hne, hlast⟩
  · rw [List.nil_append] at hkeys
    rw [← hkeys]
    exact listObjects_from h hs hshows hlists hothers hbucket (List.nil_append items).symm rfl hfuel
  · -- the item of the last key before the cursor
    obtain ⟨init, rfl⟩ := List.getLast?_eq_some_iff.mp hlast
    rw [List.append_assoc, List.filterMap_eq_append_iff] at hkeys
    obtain ⟨first, second, rfl, _, hsecond⟩ := hkeys
    rw [List.singleton_append, List.filterMap_eq_cons_iff] at hsecond
    obtain ⟨skipped, item, after, rfl, _, hitem, hrest⟩ := hsecond
    rw [← hrest]
    have hsplit : first ++ (skipped ++ item :: after) = (first ++ skipped ++ [item]) ++ after := by
      simp
    refine listObjects_from h hs hshows hlists hothers hbucket hsplit ?_ hfuel
    rw [encodeCursor_seen h hs hshows hlists hothers hne (by simp) hitem, cursorAfter,
      List.getLast?_concat]
    rfl

/-! ## A sample

Two objects, listed on a page each, so that the cursor of the first page is used.
-/

/-- A recursive listing shows every key as it is. -/
lemma shown_recursive (k : String) : shown true k = (k, false) := by
  rw [shown, collapse_whole (Or.inl rfl), fromUtf8_utf8, Option.getD_some]

/-- The whole of a bucket has one key in a store without entries. -/
lemma exists_underOneKey_sample : ∃ base info,
    UnderOneKey copyPrimitives aesStore "b" (utf8 "") [] base info ∧ info.parentEnc = [] := by
  have hnone : ∀ q, ¬(aesStore.table "b").Has q := by
    rintro q ⟨base, hq⟩
    have hnone : aesStore.entry "b" q = none := rfl
    have hsome : aesStore.entry "b" q = some base := hq
    rw [hnone] at hsome
    cases hsome
  have hentry : ∀ q b, aesStore.entry "b" q ≠ some b := fun q b hq => hnone q ⟨b, hq⟩
  refine ⟨_, _, ⟨Or.inl rfl, .root rfl fun q hq => absurd hq (hnone q), Or.inl rfl, rfl, ?_, Or.inl rfl⟩,
    rfl⟩
  exact fun q b hq _ => absurd hq (hentry q b)

/-- What is listed of an object at a path. -/
def sampleItem (path : Bytes) (obj : StoredObject Unit) : ObjectListItem :=
  ⟨path, 3, obj.info.encryptedMetadataNonce, obj.info.encryptedMetadata,
    obj.info.encryptedMetadataEncryptedKey, obj.info.plainSize, [1]⟩

/-- A copy and what was moved, listed on a page each. -/
theorem listObjects_agrees_sample : ∃ call listed,
    listObjects sampleMeta aesStore "b" ⟨"", "", true, true, true⟩ call 6 = some (listed, none) ∧
    listed.Perm [⟨"l", false, 3, sampleUpdate⟩, ⟨"m", false, 3, sampleUpdate⟩] := by
  obtain ⟨l, m, copied, moved, _, _, _, hl, hm, hlm, _, hrun⟩ := exists_run_sample
  obtain ⟨base, info, hunder, hparent⟩ := exists_underOneKey_sample
  let opts : ListObjectsOptions := ⟨"", "", true, true, true⟩
  have hone : UnderOneKey sampleMeta.toPathPrimitives aesStore "b" (utf8 opts.keyPrefix) [] base info :=
    hunder
  have hcipher : info.pathCipher = .aesGcm ∨ info.pathCipher = .secretBox := by
    rw [hone.pathCipher_eq sealed_aesStore.wf sealed_aesStore.sealing.bypass]
    exact hone.cipher
  have hjoin : ∀ r, joinPrefix info.parentEnc r = r := fun r => by rw [joinPrefix, if_pos hparent]
  -- both keys are sealed below the prefix
  have hsealed : ∀ {k path}, address copyPrimitives aesStore ("b", k) = some ("b", path) →
      encryptIterator copyPrimitives ((utf8 k).splitOn slash) info.pathCipher info.parentKey
        = .ok path := by
    intro k path haddr
    have haddr' : address copyPrimitives aesStore ("b", opts.keyPrefix ++ k) = some ("b", path) := by
      rw [show opts.keyPrefix ++ k = k from String.empty_append]
      exact haddr
    obtain ⟨r, hr, hsealed⟩ := exists_sealed hone sealed_aesStore haddr'
    rw [hr, hjoin]
    exact hsealed
  let sat : Database Unit :=
    Function.update (Function.update (fun _ => none) ("b", l) (some copied)) ("b", m) (some moved)
  have hml : (("b", l) : String × Bytes) ≠ ("b", m) := fun heq => hlm (Prod.mk.inj heq).2
  have hsatm : sat ("b", m) = some moved := Function.update_self ..
  have hsatl : sat ("b", l) = some copied :=
    (Function.update_of_ne hml _ _).trans (Function.update_self ..)
  have hsat : ∀ encKey obj, sat ("b", encKey) = some obj →
      encKey = l ∧ obj = copied ∨ encKey = m ∧ obj = moved := by
    intro encKey obj hobj
    by_cases hkm : encKey = m
    · rw [hkm, hsatm, Option.some.injEq] at hobj
      exact .inr ⟨hkm, hobj.symm⟩
    by_cases hkl : encKey = l
    · rw [hkl, hsatl, Option.some.injEq] at hobj
      exact .inl ⟨hkl, hobj.symm⟩
    have hnone : sat ("b", encKey) = none := by
      simp only [sat]
      rw [Function.update_of_ne (fun heq => hkm (Prod.mk.inj heq).2),
        Function.update_of_ne (fun heq => hkl (Prod.mk.inj heq).2)]
    rw [hnone] at hobj
    cases hobj
  have hstrip : ∀ path t, stripListPrefix path info.parentEnc false = some t ↔ path = t := by
    intro path t
    rw [stripListPrefix_eq_some, hjoin]
  have hitem : ∀ {k path obj}, address copyPrimitives aesStore ("b", k) = some ("b", path) →
      sat ("b", path) = some obj →
      ItemOf copyPrimitives aesStore sat (listState "b" opts info) (sampleItem path obj) k path := by
    intro k path obj haddr hobj
    exact
      { addressed := by
          show address _ _ ("b", opts.keyPrefix ++ k) = some ("b", joinPrefix info.parentEnc path)
          rw [hjoin, show opts.keyPrefix ++ k = k from String.empty_append]
          exact haddr
        stored := by
          show sat ("b", joinPrefix info.parentEnc path) ≠ none
          rw [hjoin, hobj]
          exact Option.some_ne_none _
        sealed := hsealed haddr
        listed := collapse_whole (Or.inl rfl) }
  have hnil : ∀ {k path}, address copyPrimitives aesStore ("b", k) = some ("b", path) → path ≠ [] :=
    fun haddr => sealed_ne_nil hcipher (hsealed haddr)
  let page : Bytes → Page ObjectListItem := fun cursor =>
    if cursor = [] then ⟨[sampleItem l copied], true⟩
    else ⟨if cursor = l then [sampleItem m moved] else [], false⟩
  let call : ListObjectsRequest → Except Error (Page ObjectListItem) := fun request =>
    .ok (page request.encryptedCursor)
  have hitems : ∀ item ∈ [sampleItem l copied, sampleItem m moved], ∃ k path obj,
      address copyPrimitives aesStore ("b", k) = some ("b", path) ∧ sat ("b", path) = some obj ∧
        item = sampleItem path obj := by
    intro item hmem
    rcases List.mem_pair.mp hmem with rfl | rfl
    · exact ⟨"l", l, copied, hl, hsatl, rfl⟩
    · exact ⟨"m", m, moved, hm, hsatm, rfl⟩
  have hlists : ListsObjects sat (listState "b" opts info) call
      [sampleItem l copied, sampleItem m moved] :=
    { pages := by
        have hnext : page l = ⟨[sampleItem m moved], false⟩ := by
          simp only [page, if_neg (hnil hl), if_pos]
        have hlast : page m = ⟨[], false⟩ := by
          simp only [page, if_neg (hnil hm), if_neg hlm.symm]
        exact pages_pair rfl (congrArg Except.ok hnext) (congrArg Except.ok hlast)
      nodup := by
        have hne : (sampleItem l copied).listed ≠ (sampleItem m moved).listed :=
          fun heq => hlm (Prod.mk.inj heq).1
        simpa using hne
      mem := by
        intro x
        rw [List.mem_map]
        constructor
        · rintro ⟨item, hmem, rfl⟩
          obtain ⟨k, path, obj, -, hobj, rfl⟩ := hitems item hmem
          exact ⟨path, path, hobj.trans_ne (Option.some_ne_none _), (hstrip path path).mpr rfl,
            collapse_whole (Or.inl rfl)⟩
        · rintro ⟨encKey, t, hstored, ht, rfl⟩
          obtain ⟨obj, hobj⟩ := Option.ne_none_iff_exists'.mp hstored
          obtain rfl := (hstrip encKey t).mp ht
          rcases hsat encKey obj hobj with ⟨rfl, rfl⟩ | ⟨rfl, rfl⟩
          · exact ⟨_, List.mem_cons_self, (collapse_whole (Or.inl rfl)).symm⟩
          · exact ⟨_, List.mem_cons_of_mem _ List.mem_cons_self, (collapse_whole (Or.inl rfl)).symm⟩
      prefixes := by
        intro item hmem hprefix
        obtain ⟨k, path, obj, -, -, rfl⟩ := hitems item hmem
        cases hprefix
      objects := by
        intro item hmem _ encKey obj hobj ht
        obtain ⟨k, path, obj', -, hobj', rfl⟩ := hitems item hmem
        obtain rfl := (hstrip encKey path).mp ht
        obtain rfl : obj' = obj := Option.some.inj (hobj'.symm.trans hobj)
        exact ⟨fun _ => rfl, fun _ => ⟨rfl, rfl, rfl⟩⟩ }
  obtain ⟨keys, hnodup, hmem, hstream⟩ := listObjects_agrees sealed_aesStore represents_empty hrun
    (by decide) hone hlists fun item hmem hnot => by
      obtain ⟨k, path, obj, haddr, hobj, rfl⟩ := hitems item hmem
      exact absurd (hitem haddr hobj) (hnot k path)
  rw [foldl_sampleOps] at hmem hstream
  have hempty : ∀ k, opts.keyPrefix ++ k = k := fun k => String.empty_append
  have hrecursive : ∀ k, shown opts.recursive k = (k, false) := shown_recursive
  simp only [hempty, hrecursive] at hmem
  have hkeys : keys.Perm [("l", false), ("m", false)] := by
    refine (List.perm_ext_iff_of_nodup hnodup (by decide)).mpr fun x => ?_
    rw [hmem, List.mem_pair]
    constructor
    · rintro ⟨k, v, hv, rfl⟩
      by_cases hkm : k = "m"
      · exact .inr (by rw [hkm])
      by_cases hkl : k = "l"
      · exact .inl (by rw [hkl])
      rw [sampleObjects, Function.update_of_ne (fun heq => hkm (Prod.mk.inj heq).2),
        Function.update_of_ne (fun heq => hkl (Prod.mk.inj heq).2)] at hv
      cases hv
    · rintro (rfl | rfl)
      · exact ⟨"l", ([1, 2, 3], sampleUpdate), rfl, rfl⟩
      · exact ⟨"m", ([1, 2, 3], sampleUpdate), rfl, rfl⟩
  exact ⟨call, _, hstream [] keys "" rfl (Or.inl ⟨rfl, rfl⟩) 6 le_rfl, hkeys.map _⟩

end Storj.Client
