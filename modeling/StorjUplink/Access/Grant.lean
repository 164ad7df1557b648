import StorjUplink.Access.Limit

/-!
# Access grants

`grant.rs`, `base58.rs` and the upper half of `restrict.rs`: a grant is a satellite address, an API
key and an encryption access, written as a protobuf message in Base58 with a checksum.  Parsing
limits the encryption access to the paths of the API key, and keeps the text it was given only if
that changed nothing.  Restricting adds a caveat to the API key and limits the encryption access
again; overriding puts another key under a path.

Every grant that is parsed or restricted is confined to its own API key (`grants_confined`).

The functions are those of the source, line by line, with the orders of the hash maps and the
random bytes as arguments.  A grant that was parsed keeps its text, and serialising it gives the
text back without looking at the fields; every change drops the text.

The errors are texts, because that is what the source has, and the order of the checks is the
source's.  Confinement is proved for `limit_to` alone, for any access and any key, and the rest of
the module only shows that every way to a grant ends in that call.
-/

namespace Storj.Access

open Storj.Enc KeyTree

variable (prim : AccessPrimitives)

/-! ## Base58 with a checksum

A version byte and four bytes of a double hash around the payload.  The alphabet itself is a
library's.
-/

/-- `GRANT_VERSION`. -/
def grantVersion : UInt8 := 0

/-- `DecodeError`. -/
inductive DecodeError where
  | invalidFormat
  | checksum
deriving DecidableEq, Repr

/-- `checksum`. -/
def checksum (input : Bytes) : Bytes := (prim.sha256 (prim.sha256 input).toList).toList.take 4

/-- `check_encode`: a version byte in front, four bytes of checksum behind, and base 58 over all of
it. -/
def checkEncode (payload : Bytes) (version : UInt8) : String :=
  let buf := version :: payload
  prim.base58Encode (buf ++ checksum prim buf)

/-- `check_decode`: the version byte and the payload of a Base58 text whose last four bytes are the
checksum of the others. -/
def checkDecode (input : String) : Except DecodeError (Bytes × UInt8) :=
  match prim.base58Decode input with
  | none => .error .invalidFormat
  | some decoded =>
      if decoded.length < 5 then .error .invalidFormat
      else
        let version := decoded.headD 0
        let body := decoded.take (decoded.length - 4)
        let cksum := decoded.drop (decoded.length - 4)
        if checksum prim body ≠ cksum then .error .checksum else .ok (body.tail, version)

variable {prim} in
lemma checkDecode_checkEncode (h : prim.Lawful) (payload : Bytes) (version : UInt8) :
    checkDecode prim (checkEncode prim payload version) = .ok (payload, version) := by
  have hlen : (checksum prim (version :: payload)).length = 4 := by
    rw [checksum, List.length_take, Vector.length_toList]
    rfl
  rw [checkDecode, checkEncode, h.base58]
  simp only [List.length_append, hlen, List.length_cons, Nat.add_sub_cancel]
  rw [if_neg (by omega), List.take_left' (List.length_cons), List.drop_left' (List.length_cons)]
  simp

/-! ## The protobuf form

A stored access is read field by field, and a key must have 32 bytes.  The parameters of an access
are read and never written.
-/

/-- `key32`: a key of exactly 32 bytes, or the error of the caller. -/
def key32 (bytes : Bytes) (err : String) : Except Error Key :=
  if h : bytes.length = 32 then .ok ⟨bytes.toArray, h⟩ else .error ⟨err⟩

lemma key32_toList (key : Key) (err : String) : key32 key.toList err = .ok key := by
  rw [key32, dif_pos key.length_toList]
  rfl

/-- `From<pb::EncryptionParameters>`. -/
def EncryptionParameters.fromProto (p : Pb.EncryptionParameters) : EncryptionParameters :=
  ⟨⟨p.cipherSuite⟩, p.blockSize⟩

/-- `StoreEntry::from_proto`, which fails only on the length of the key. -/
def StoreEntry.fromProto (e : Pb.StoreEntry) : Except Error StoreEntry := do
  let key ← key32 e.key "invalid key in encryption access entry"
  .ok ⟨e.bucket, e.unencryptedPath, e.encryptedPath, key, ⟨e.pathCipher⟩,
    e.encryptionParameters.map EncryptionParameters.fromProto⟩

/-- `StoreEntry::to_proto`.  The parameters of the entry are not written back. -/
def StoreEntry.toProto (e : StoreEntry) : Pb.StoreEntry where
  bucket := e.bucket
  unencryptedPath := e.unencryptedPath
  encryptedPath := e.encryptedPath
  key := e.key.toList
  pathCipher := e.pathCipher.code
  encryptionParameters := none

namespace EncryptionAccess

/-- The default key of a message, if it has one. -/
def defaultKeyFromProto (defaultKey : Bytes) : Except Error (Option Key) :=
  if defaultKey = [] then .ok none
  else do
    let key ← key32 defaultKey "invalid default key in encryption access"
    .ok (some key)

/-- `EncryptionAccess::from_proto`: an unspecified default cipher is read as AES-GCM. -/
def fromProto (p : Pb.EncryptionAccess) : Except Error EncryptionAccess := do
  let defaultKey ← defaultKeyFromProto p.defaultKey
  let defaultPathCipher : CipherSuite := if p.defaultPathCipher = 0 then .aesGcm
    else ⟨p.defaultPathCipher⟩
  let storeEntries ← p.storeEntries.mapM StoreEntry.fromProto
  let access : EncryptionAccess := ⟨defaultKey, defaultPathCipher, storeEntries,
    p.defaultEncryptionParameters.map EncryptionParameters.fromProto⟩
  match storeFromEnc access with
  | .error e => .error ⟨s!"invalid encryption access entry: {e.message}"⟩
  | .ok _ => .ok access

/-- `EncryptionAccess::to_proto`: the parameters are not written. -/
def toProto (enc : EncryptionAccess) : Pb.EncryptionAccess where
  defaultKey := (enc.defaultKey.map Vector.toList).getD []
  storeEntries := enc.storeEntries.map StoreEntry.toProto
  defaultPathCipher := enc.defaultPathCipher.code
  defaultEncryptionParameters := none

end EncryptionAccess

/-! ## Grants

`restrict` computes a caveat, adds it to the key and limits the access to all the caveats that the
key now has.  `override_encryption_key` rebuilds the store with one more entry.
-/

/-- `Grant`: the address of the satellite, the API key in bytes, the encryption access, and the text
that it was parsed from as long as nothing has changed. -/
structure Grant where
  satelliteAddr : String
  apiKey : Bytes
  encAccess : EncryptionAccess
  original : Option String
deriving DecidableEq

/-- `SharePrefix`: a bucket and a plaintext prefix in it. -/
structure SharePrefix where
  bucket : String
  keyPrefix : String
deriving DecidableEq, Repr

/-- `ends_with('/')`. -/
def endsWithSlash (s : String) : Bool := s.toList.getLast? == some '/'

/-- `strip_suffix('/').unwrap_or`: one trailing slash is taken off. -/
def stripSlash (s : String) : String :=
  if endsWithSlash s then String.ofList s.toList.dropLast else s

lemma utf8_of_endsWithSlash {s : String} (h : endsWithSlash s = true) :
    ∃ raw, utf8 s = raw ++ [slash] := by
  rw [endsWithSlash, beq_iff_eq, List.getLast?_eq_some_iff] at h
  obtain ⟨l, hl⟩ := h
  have hs : s = String.ofList l ++ String.ofList ['/'] := by
    rw [← String.ofList_append, ← hl, String.ofList_toList]
  have hslash : utf8 (String.ofList ['/']) = [slash] := by decide
  refine ⟨utf8 (String.ofList l), ?_⟩
  rw [hs, utf8_append, hslash]

/-- `validate_permission`: something is allowed, the time range is not empty, and a limit on the
life of objects is positive. -/
def validatePermission (permission : Permission) : Except Error Unit :=
  if permission.isEmpty then .error ⟨"permission is empty"⟩
  else if permission.notBefore.any fun notBefore =>
      permission.notAfter.any fun notAfter => notAfter < notBefore then
    .error ⟨"invalid time range"⟩
  else if permission.maxObjectTtl = some 0 then .error ⟨"non-positive ttl period"⟩
  else .ok ()

/-- `random_nonce`, from what the system's generator returns. -/
def randomNonce (random : Except String (Vector UInt8 4)) : Except Error Bytes :=
  match random with
  | .error e => .error ⟨s!"unable to generate nonce: {e}"⟩
  | .ok nonce => .ok nonce.toList

/-- The allowed path of a share prefix: its bucket, and the prefix sealed. -/
def sharePath (store : Store) (share : SharePrefix) : Except Error CaveatPath :=
  match encryptPath prim.toPathPrimitives share.bucket (stripSlash share.keyPrefix) store with
  | .error err => .error (mapEnc err)
  | .ok encPath => .ok ⟨utf8 share.bucket, encPath⟩

namespace Grant

/-- `Grant::from_parts`: a grant that was put together, and so has no string to return as it came.
-/
def fromParts (satelliteAddr : String) (apiKey : Bytes) (encAccess : EncryptionAccess) : Grant :=
  ⟨satelliteAddr, apiKey, encAccess, none⟩

/-- The error of `Grant::parse` for an API key. -/
def malformedApiKey (e : Error) : Error := ⟨s!"access grant has malformed api key: {e.message}"⟩

/-- The second half of `Grant::parse`: a grant of the message in the text. -/
def ofScope (order : HashOrder) (serialized : String) (scope : Pb.Scope) : Except Error Grant :=
  if scope.satelliteAddr = "" then .error ⟨"access grant is missing satellite address"⟩
  else if scope.apiKey = [] then .error ⟨"access grant is missing api key"⟩
  else
    match Macaroon.parse scope.apiKey with
    | .error e => .error (malformedApiKey e)
    | .ok mac =>
        let canonicalApiKey := mac.serialize
        match scope.encryptionAccess with
        | none => .error ⟨"access grant is missing encryption access"⟩
        | some encPb =>
            match EncryptionAccess.fromProto encPb with
            | .error e => .error ⟨s!"access grant has malformed encryption access: {e.message}"⟩
            | .ok encAccess =>
                match ApiKey.parseRaw scope.apiKey with
                | .error e => .error (malformedApiKey e)
                | .ok apiKey =>
                    match limitTo prim order encAccess apiKey with
                    | .error e => .error e
                    | .ok limited => .ok ⟨scope.satelliteAddr, canonicalApiKey, limited,
                        if limited = encAccess then some serialized else none⟩

/-- `Grant::parse`: Base58, the version, the message, and then what `ofScope` checks of its fields.
Each stage has an error text of its own. -/
def parse (order : HashOrder) (serialized : String) : Except Error Grant :=
  if serialized = "" then .error ⟨"empty access grant"⟩
  else
    match checkDecode prim serialized with
    | .error _ => .error ⟨"invalid access grant format"⟩
    | .ok (data, version) =>
        if version ≠ grantVersion then .error ⟨"invalid access grant format"⟩
        else
          match prim.decodeScope data with
          | .error e => .error ⟨s!"unable to unmarshal access grant: {e}"⟩
          | .ok scope => ofScope prim order serialized scope

/-- `Grant::serialize_from_fields`: the fields as a message in Base58.  A grant without an address
or without an API key is refused. -/
def serializeFromFields (g : Grant) : Except Error String :=
  if g.satelliteAddr = "" then .error ⟨"access grant is missing satellite address"⟩
  else if g.apiKey = [] then .error ⟨"access grant is missing api key"⟩
  else
    let scope : Pb.Scope := ⟨g.satelliteAddr, g.apiKey, some g.encAccess.toProto⟩
    .ok (checkEncode prim (prim.encodeScope scope) grantVersion)

/-- `Grant::serialize`: the string that was parsed where it was kept, and the fields otherwise. -/
def serialize (g : Grant) : Except Error String :=
  match g.original with
  | some original => .ok original
  | none => g.serializeFromFields prim

/-- The caveat that `Grant::restrict` adds: the permission, and for each share prefix its bucket
with the prefix sealed by the store of the grant. -/
def restrictCaveat (g : Grant) (permission : Permission) (prefixes : List SharePrefix)
    (random : Except String (Vector UInt8 4)) : Except Error Caveat := do
  validatePermission permission
  let store ← storeFromEnc g.encAccess
  let nonce ← randomNonce random
  let allowedPaths ← prefixes.mapM (sharePath prim store)
  .ok { Caveat.fromPermission permission with allowedPaths, nonce }

/-- `Grant::restrict`: the caveat is added to the API key, and the encryption access is limited to
all path caveats that the key then has.  The text of the grant is dropped. -/
def restrict (order : HashOrder) (random : Except String (Vector UInt8 4)) (g : Grant)
    (permission : Permission) (prefixes : List SharePrefix) : Except Error Grant := do
  let caveat ← g.restrictCaveat prim permission prefixes random
  let apiKey ← ApiKey.parseRaw g.apiKey
  let restricted := apiKey.restrict prim caveat
  let encAccess ← limitTo prim order g.encAccess restricted
  .ok (fromParts g.satelliteAddr restricted.serializeRaw encAccess)

/-- `Grant::override_encryption_key`: the grant afterwards.  The prefix is sealed by the store as it
is, the key is added under both paths, and the entries are listed anew. -/
def overrideEncryptionKey (order : HashOrder) (g : Grant) (bucket keyPrefix : String) (key : Key) :
    Except Error Grant :=
  if endsWithSlash keyPrefix = false then .error ⟨"prefix must end with slash"⟩
  else do
    let unenc := stripSlash keyPrefix
    let store ← storeFromEnc g.encAccess
    match encryptPath prim.toPathPrimitives bucket unenc store with
    | .error err => .error (mapEnc err)
    | .ok encPath =>
        match store.add bucket (utf8 unenc) encPath key with
        | (.error err, _) => .error (mapEnc err)
        | (.ok (), store) => .ok { g with encAccess := encFromStore order store, original := none }

/-! ## Inversion

What a successful call did, as equations between the grant before and the grant after.
-/

variable {prim} {order : HashOrder} {random : Except String (Vector UInt8 4)} {g r : Grant}
  {permission : Permission} {prefixes : List SharePrefix} {serialized : String}

lemma ofScope_eq_ok {scope : Pb.Scope} : ofScope prim order serialized scope = .ok g ↔
    scope.satelliteAddr ≠ "" ∧ scope.apiKey ≠ [] ∧ ∃ mac encPb encAccess limited,
      Macaroon.parse scope.apiKey = .ok mac ∧ scope.encryptionAccess = some encPb ∧
      EncryptionAccess.fromProto encPb = .ok encAccess ∧
      limitTo prim order encAccess ⟨mac⟩ = .ok limited ∧
      g = ⟨scope.satelliteAddr, mac.serialize, limited,
        if limited = encAccess then some serialized else none⟩ := by
  rw [ofScope]
  constructor
  · intro h
    split_ifs at h with haddr hkey
    refine ⟨haddr, hkey, ?_⟩
    split at h
    · cases h
    · rename_i mac hmac
      dsimp only at h
      split at h
      · cases h
      · rename_i encPb henc
        split at h
        · cases h
        · rename_i encAccess hproto
          split at h
          · cases h
          · rename_i apiKey hparse
            rw [ApiKey.parseRaw_eq_ok, hmac, Except.ok.injEq] at hparse
            split at h
            · cases h
            · rename_i limited hlimit
              cases h
              refine ⟨mac, encPb, encAccess, limited, hmac, henc, hproto, ?_, rfl⟩
              rw [hparse]
              exact hlimit
  · rintro ⟨haddr, hkey, mac, encPb, encAccess, limited, hmac, henc, hproto, hlimit, rfl⟩
    have hparse : ApiKey.parseRaw scope.apiKey = .ok ⟨mac⟩ := ApiKey.parseRaw_eq_ok.mpr hmac
    rw [if_neg haddr, if_neg hkey]
    simp only [hmac, henc, hproto, hparse, hlimit]

lemma parse_eq_ok : parse prim order serialized = .ok g ↔ serialized ≠ "" ∧ ∃ data scope,
    checkDecode prim serialized = .ok (data, grantVersion) ∧ prim.decodeScope data = .ok scope ∧
      ofScope prim order serialized scope = .ok g := by
  rw [parse]
  constructor
  · intro h
    split_ifs at h with hempty
    refine ⟨hempty, ?_⟩
    split at h
    · cases h
    · rename_i data version hdecode
      split_ifs at h with hversion
      rw [not_not] at hversion
      split at h
      · cases h
      · rename_i scope hscope
        exact ⟨data, scope, hversion ▸ hdecode, hscope, h⟩
  · rintro ⟨hempty, data, scope, hdecode, hscope, h⟩
    rw [if_neg hempty]
    simp only [hdecode, hscope, ne_eq, not_true_eq_false, if_false]
    exact h

/-- **What is written is read back**, as far as the codecs. -/
lemma parse_checkEncode (hprim : prim.Lawful) (order : HashOrder) {scope : Pb.Scope}
    (hrange : ∀ p, scope.encryptionAccess = some p → p.InRange) :
    parse prim order (checkEncode prim (prim.encodeScope scope) grantVersion) =
      ofScope prim order (checkEncode prim (prim.encodeScope scope) grantVersion) scope := by
  have hne : checkEncode prim (prim.encodeScope scope) grantVersion ≠ "" :=
    hprim.base58_ne _ (by simp)
  rw [parse, if_neg hne, checkDecode_checkEncode hprim]
  simp only [hprim.scope scope hrange, ne_eq, not_true_eq_false, if_false]

lemma restrict_eq_ok : restrict prim order random g permission prefixes = .ok r ↔
    ∃ caveat mac encAccess, g.restrictCaveat prim permission prefixes random = .ok caveat ∧
      Macaroon.parse g.apiKey = .ok mac ∧
      limitTo prim order g.encAccess (ApiKey.restrict prim ⟨mac⟩ caveat) = .ok encAccess ∧
      r = ⟨g.satelliteAddr, (ApiKey.restrict prim ⟨mac⟩ caveat).serializeRaw, encAccess, none⟩ := by
  rw [restrict]
  simp only [Fallible.bind_eq_ok, ApiKey.parseRaw_eq_ok, Except.ok.injEq]
  constructor
  · rintro ⟨caveat, hcaveat, apiKey, hkey, encAccess, hlimit, rfl⟩
    exact ⟨caveat, apiKey.mac, encAccess, hcaveat, hkey, hlimit, rfl⟩
  · rintro ⟨caveat, mac, encAccess, hcaveat, hkey, hlimit, rfl⟩
    exact ⟨caveat, hcaveat, ⟨mac⟩, hkey, encAccess, hlimit, rfl⟩

/-! ## Confinement

The key of a grant decides what its access may have.  A path caveat takes the default key away and
leaves only entries below a prefix of every group.
-/

/-- **A grant is confined to its own API key**: the key that its bytes are, and that they are read
as if at all. -/
def Confined (prim : AccessPrimitives) (g : Grant) : Prop :=
  ∃ apiKey : ApiKey, g.apiKey = apiKey.serializeRaw ∧
    (∀ read, ApiKey.parseRaw g.apiKey = .ok read → read = apiKey) ∧
    Access.Confined prim apiKey g.encAccess

lemma Confined.of_limitTo {apiKey : ApiKey} {enc : EncryptionAccess}
    (hkey : g.apiKey = apiKey.serializeRaw)
    (hlimit : limitTo prim order enc apiKey = .ok g.encAccess) : g.Confined prim := by
  refine ⟨apiKey, hkey, fun read hread => ?_, limitTo_confined hlimit⟩
  rw [hkey] at hread
  exact ApiKey.eq_of_parseRaw_serializeRaw hread

/-- **Path-restricted grants are confined**: what `limit_to` returns for any encryption access and
API key, and every grant that is parsed or restricted, has no default key and only entries that
every path caveat allows. -/
theorem grants_confined (prim : AccessPrimitives) (order : HashOrder) :
    (∀ enc apiKey limited, limitTo prim order enc apiKey = .ok limited →
      Access.Confined prim apiKey limited) ∧
    (∀ serialized g, parse prim order serialized = .ok g → g.Confined prim) ∧
    ∀ random g permission prefixes r, restrict prim order random g permission prefixes = .ok r →
      r.Confined prim := by
  refine ⟨fun enc apiKey limited h => limitTo_confined h, ?_, ?_⟩
  · intro serialized g h
    obtain ⟨_, data, scope, _, _, h⟩ := parse_eq_ok.mp h
    obtain ⟨_, _, mac, encPb, encAccess, limited, _, _, _, hlimit, rfl⟩ := ofScope_eq_ok.mp h
    have hkey : mac.serialize = ApiKey.serializeRaw ⟨mac⟩ := rfl
    exact Confined.of_limitTo hkey hlimit
  · intro random g permission prefixes r h
    obtain ⟨caveat, mac, encAccess, _, _, hlimit, rfl⟩ := restrict_eq_ok.mp h
    exact Confined.of_limitTo rfl hlimit

end Grant

end Storj.Access
