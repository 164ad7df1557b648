import StorjUplink.Access.Grant
import StorjUplink.Access.Table

/-!
# Runs of a grant

A grant is changed by `override_encryption_key` and `restrict` only.  `Reached` is a run of these
calls from a grant, each under a condition on the call and on the grant before it.

In every run from a grant without entries the entries are those of some store, as its walk lists
them (`Listed`), so that a grant that is written out reads as the fields it was written from
(`Grant.parse_written`).

The condition of a run is a parameter, so that a theorem about runs without collisions and one
about runs with screened overrides are about the same relation with two conditions.  A run starts
from a grant with a default key and nothing else, which is how a user gets one from a passphrase,
and every call of it succeeds; a failed call changes nothing and would add nothing to a run.

`Ranged` collects what every run keeps whatever its condition: the entries are listed as a walk
lists them, and the numbers fit their messages.
-/

namespace Storj.Access

open Storj.Enc KeyTree

/-- A call that changes a grant, with the orders of the hash maps and the random bytes it sees. -/
inductive Call where
  | overrideEncryptionKey (order : HashOrder) (bucket keyPrefix : String) (key : Key)
  | restrict (order : HashOrder) (random : Except String (Vector UInt8 4)) (permission : Permission)
      (prefixes : List SharePrefix)

namespace Grant

variable (prim : AccessPrimitives)

/-- The grant after a call. -/
def call (g : Grant) : Call → Except Error Grant
  | .overrideEncryptionKey order bucket keyPrefix key =>
      g.overrideEncryptionKey prim order bucket keyPrefix key
  | .restrict order random permission prefixes => g.restrict prim order random permission prefixes

/-- **A run** of successful calls, each of which meets a condition. -/
inductive Reached (P : Grant → Call → Prop) (g₀ : Grant) : Grant → Prop
  | refl : Reached P g₀ g₀
  | call {g g' : Grant} {c : Call} (h : Reached P g₀ g) (hc : P g c) (hg : g.call prim c = .ok g') :
      Reached P g₀ g'

/-- **A grant with only a default key**: no entries, built from its parts or parsed.  The cipher is
a 32-bit number. -/
structure DefaultOnly (g : Grant) : Prop where
  defaultKey : g.encAccess.defaultKey ≠ none
  entries : g.encAccess.storeEntries = []
  cipher : InI32 g.encAccess.defaultPathCipher.code
  original : g.original = none ∨ ∃ order serialized, parse prim order serialized = .ok g

end Grant

/-! ## Entries as a walk

After a call the entries were exported from a store, so they are in the order of some walk.  Read
back, they make a store with the same bases.
-/

/-- **The entries are those of a store**, in the order of a walk through it. -/
def Listed (enc : EncryptionAccess) (s : Store) : Prop :=
  s.WF ∧ s.encryptionBypass = false ∧
    (∀ bucket p base, s.entry bucket p = some base → InI32 base.pathCipher.code) ∧
    ∃ order : HashOrder, enc.storeEntries = (s.iterate order).map entryOf

variable {prim : AccessPrimitives} {g g' g₀ : Grant} {enc r : EncryptionAccess} {s : Store}
  {order : HashOrder} {serialized : String}

/-- A listed access is read as a store with the same bases. -/
lemma Listed.store (h : Listed enc s) : ∃ t, storeFromEnc enc = .ok t ∧ t.WF ∧
    t.encryptionBypass = false ∧ t.defaultKey = enc.defaultKey ∧
    t.defaultPathCipher = enc.defaultPathCipher ∧
    ∀ bucket p, t.entry bucket p = s.entry bucket p := by
  obtain ⟨hs, _, _, order, hentries⟩ := h
  exact storeFromEnc_encFromStore hs hentries

lemma Listed.parameters (h : Listed enc s) {entry : StoreEntry} (he : entry ∈ enc.storeEntries) :
    entry.encryptionParameters = none := by
  obtain ⟨_, _, _, order, hentries⟩ := h
  rw [hentries] at he
  obtain ⟨x, _, rfl⟩ := List.mem_map.mp he
  rfl

lemma Listed.cipher (h : Listed enc s) {entry : StoreEntry} (he : entry ∈ enc.storeEntries) :
    InI32 entry.pathCipher.code := by
  obtain ⟨hs, _, hrange, order, hentries⟩ := h
  rw [hentries] at he
  obtain ⟨⟨bucket, base⟩, hx, rfl⟩ := List.mem_map.mp he
  obtain ⟨p, hp⟩ := (Store.mem_iterate hs).mp hx
  exact hrange bucket p base hp

/-- What is known of a grant in every run from a default key. -/
structure Ranged (g : Grant) : Prop where
  cipher : InI32 g.encAccess.defaultPathCipher.code
  listed : ∃ s, Listed g.encAccess s

/-! ## Written and read

The message has no parameters and an unspecified cipher is read as AES-GCM; apart from that the
fields come back.
-/

/-- The access that is read where this one was written: the parameters are not written, and an
unspecified cipher is read as AES-GCM. -/
def EncryptionAccess.reread (enc : EncryptionAccess) : EncryptionAccess where
  defaultKey := enc.defaultKey
  defaultPathCipher := if enc.defaultPathCipher.code = 0 then .aesGcm else enc.defaultPathCipher
  storeEntries := enc.storeEntries
  defaultEncryptionParameters := none

lemma StoreEntry.fromProto_toProto {entry : StoreEntry} (h : entry.encryptionParameters = none) :
    StoreEntry.fromProto entry.toProto = .ok entry := by
  obtain ⟨bucket, unenc, path, key, cipher, parameters⟩ := entry
  cases h
  rw [fromProto, toProto, key32_toList]
  rfl

/-- **An access is read as it was written.** -/
lemma fromProto_toProto (hparameters : ∀ e ∈ enc.storeEntries, e.encryptionParameters = none)
    {t : Store} (hstore : storeFromEnc enc.reread = .ok t) :
    EncryptionAccess.fromProto enc.toProto = .ok enc.reread := by
  have hkey : EncryptionAccess.defaultKeyFromProto enc.toProto.defaultKey = .ok enc.defaultKey := by
    rw [EncryptionAccess.defaultKeyFromProto, EncryptionAccess.toProto]
    cases hkey : enc.defaultKey with
    | none => rfl
    | some key =>
        have hne : key.toList ≠ [] := by
          intro hnil
          have hlen := key.length_toList
          rw [hnil] at hlen
          cases hlen
        simp only [Option.map_some, Option.getD_some, if_neg hne, key32_toList, Fallible.ok_bind]
  have hentries : enc.toProto.storeEntries.mapM StoreEntry.fromProto = .ok enc.storeEntries := by
    have hmap : enc.toProto.storeEntries = enc.storeEntries.map StoreEntry.toProto := rfl
    have hall : ∀ e ∈ enc.storeEntries,
        (StoreEntry.fromProto ∘ StoreEntry.toProto) e = .ok (id e) := fun e he =>
      StoreEntry.fromProto_toProto (hparameters e he)
    rw [hmap, List.mapM_map, Fallible.mapM_eq_ok hall, List.map_id]
  rw [EncryptionAccess.fromProto, hkey, Fallible.ok_bind, hentries, Fallible.ok_bind]
  have hread : (⟨enc.defaultKey, if enc.toProto.defaultPathCipher = 0 then CipherSuite.aesGcm
      else ⟨enc.toProto.defaultPathCipher⟩, enc.storeEntries,
      enc.toProto.defaultEncryptionParameters.map EncryptionParameters.fromProto⟩ :
        EncryptionAccess) = enc.reread := rfl
  rw [hread]
  simp only [hstore]

lemma inRange_toProto (hcipher : InI32 enc.defaultPathCipher.code)
    (hentries : ∀ e ∈ enc.storeEntries, InI32 e.pathCipher.code) : enc.toProto.InRange where
  defaultPathCipher := hcipher
  defaultParameters := nofun
  pathCipher e he := by
    obtain ⟨entry, hentry, rfl⟩ := List.mem_map.mp he
    exact hentries entry hentry
  parameters e he := by
    obtain ⟨entry, _, rfl⟩ := List.mem_map.mp he
    nofun

/-- The text of a grant that is written from its fields. -/
def Grant.written (prim : AccessPrimitives) (g : Grant) : String :=
  checkEncode prim (prim.encodeScope ⟨g.satelliteAddr, g.apiKey, some g.encAccess.toProto⟩)
    grantVersion

lemma Grant.serializeFromFields_eq_ok {text : String} : g.serializeFromFields prim = .ok text ↔
    g.satelliteAddr ≠ "" ∧ g.apiKey ≠ [] ∧ text = g.written prim := by
  rw [serializeFromFields]
  split_ifs with haddr hkey
  · simp [haddr]
  · simp [hkey]
  · rw [Except.ok.injEq, eq_comm]
    exact ⟨fun h => ⟨haddr, hkey, h⟩, fun h => h.2.2⟩

/-- **A grant that was written out is parsed as its fields**, limited again. -/
lemma Grant.parse_written (hprim : prim.Lawful) (haddr : g.satelliteAddr ≠ "")
    (hkey : g.apiKey ≠ []) (hcipher : InI32 g.encAccess.defaultPathCipher.code)
    (hciphers : ∀ e ∈ g.encAccess.storeEntries, InI32 e.pathCipher.code)
    (hparameters : ∀ e ∈ g.encAccess.storeEntries, e.encryptionParameters = none)
    {t : Store} (hstore : storeFromEnc g.encAccess.reread = .ok t) :
    parse prim order (g.written prim) = .ok g' ↔ ∃ mac limited,
      Macaroon.parse g.apiKey = .ok mac ∧
      limitTo prim order g.encAccess.reread ⟨mac⟩ = .ok limited ∧
      g' = ⟨g.satelliteAddr, mac.serialize, limited,
        if limited = g.encAccess.reread then some (g.written prim) else none⟩ := by
  rw [written, parse_checkEncode hprim order (by
    intro p hp
    cases hp
    exact inRange_toProto hcipher hciphers), ofScope_eq_ok]
  simp only [Option.some.injEq]
  constructor
  · rintro ⟨_, _, mac, _, encAccess, limited, hmac, rfl, hproto, hlimit, rfl⟩
    rw [fromProto_toProto hparameters hstore, Except.ok.injEq] at hproto
    subst hproto
    exact ⟨mac, limited, hmac, hlimit, rfl⟩
  · rintro ⟨mac, limited, hmac, hlimit, rfl⟩
    exact ⟨haddr, hkey, mac, _, _, limited, hmac, rfl, fromProto_toProto hparameters hstore,
      hlimit, rfl⟩

end Storj.Access
