import StorjUplink.Enc.Encrypt
import StorjUplink.Lib.Varint

/-!
# Macaroons

`macaroon.rs`: the binary codec of an API key, and the chain of caveats.  A macaroon is written as
packets, each a type, a length and the data; the parser also takes location and verification
packets, which it drops.

What is written is read back, as long as every length fits the parser's limit on varints
(`parse_serialize`), and never as anything else (`eq_of_parse_serialize`).

Parsing is written with the rest of the input as a second result, as the source does.  The parser
is lenient where the writer is not: it takes numbers that are longer than needed, a location in
front of an identifier, a verification id behind it, and any bytes after the signature.  All of
these are dropped, so that a parsed macaroon written again may be shorter than what was read; what
is kept is the head, the caveats and the tail.

The limit on varints is the one thing that can keep a written macaroon from being read.  It is a
property of the lengths, `Fits`, and what was parsed has it.
-/

namespace Storj.Access

open Storj.Enc (Bytes)

/-- `Error` of the access crate. -/
structure Error where
  message : String
deriving DecidableEq, Repr

/-! ## Varints

At most ten groups, and a value over the limit is refused after it was read.
-/

/-- `MAX_UVARINT`. -/
def maxUvarint : ℕ := 0x7fffffff

def varintError : Error := ⟨"varint error"⟩

/-- `append_uvarint`: groups of seven bits, the lowest first, each but the last with its top bit
set. -/
def appendUvarint (x : ℕ) : Bytes :=
  if x ≥ 128 then (UInt8.ofNat x ||| 128) :: appendUvarint (x >>> 7) else [UInt8.ofNat x]
termination_by x
decreasing_by
  rw [Nat.shiftRight_eq_div_pow]
  omega

/-- The loop of `parse_uvarint`.  It ends at the first byte without the top bit; an eleventh byte, a
tenth one above one, and a value over the limit are errors. -/
def parseUvarintLoop : Bytes → ℕ → ℕ → Except Error (Bytes × ℕ)
  | [], _, _ => .error varintError
  | b :: rest, i, value =>
      if i = 10 then .error varintError
      else
        let chunk := b.toNat &&& 127
        if i = 9 ∧ chunk > 1 then .error varintError
        else
          let value := value ||| (chunk <<< (7 * i)) % 2 ^ 64
          if b.toNat < 128 then
            if value > maxUvarint then .error varintError else .ok (rest, value)
          else parseUvarintLoop rest (i + 1) value

/-- `parse_uvarint`: what is left, and the value. -/
def parseUvarint (data : Bytes) : Except Error (Bytes × ℕ) := parseUvarintLoop data 0 0

lemma appendUvarint_of_lt {x : ℕ} (h : x < 128) : appendUvarint x = [UInt8.ofNat x] := by
  rw [appendUvarint, if_neg (by omega)]

lemma appendUvarint_of_ge {x : ℕ} (h : 128 ≤ x) :
    appendUvarint x = (UInt8.ofNat x ||| 128) :: appendUvarint (x / 128) := by
  rw [appendUvarint, if_pos h, Nat.shiftRight_eq_div_pow]

lemma appendUvarint_ne_nil (x : ℕ) : appendUvarint x ≠ [] := by
  rw [appendUvarint]
  split_ifs
  · exact List.cons_ne_nil _ _
  · exact List.cons_ne_nil _ _

/-- A byte that says that another one follows. -/
lemma toNat_or_128 (x : ℕ) :
    128 ≤ (UInt8.ofNat x ||| 128).toNat ∧ (UInt8.ofNat x ||| 128).toNat &&& 127 = x % 128 := by
  rw [UInt8.toNat_or, UInt8.toNat_ofNat', show (128 : UInt8).toNat = 128 from rfl]
  refine ⟨Nat.right_le_or, ?_⟩
  rw [Nat.and_or_distrib_right, show 128 &&& 127 = 0 from rfl, Nat.or_zero,
    show 127 = 2 ^ 7 - 1 from rfl, Nat.and_two_pow_sub_one_eq_mod]
  omega

/-- **The loop on a whole varint**: its value, unless it is over the limit. -/
lemma parseUvarintLoop_append {x i value : ℕ} (tail : Bytes) (hi : i ≤ 9)
    (hvalue : value < 2 ^ (7 * i)) :
    parseUvarintLoop (appendUvarint x ++ tail) i value =
      if value + x * 2 ^ (7 * i) ≤ maxUvarint then .ok (tail, value + x * 2 ^ (7 * i))
      else .error varintError := by
  induction x using Nat.strong_induction_on generalizing i value with
  | _ x ih =>
      have hpow := Varint.two_pow_next i
      by_cases hx : x < 128
      · have hval : (UInt8.ofNat x).toNat = x := by
          rw [UInt8.toNat_ofNat', Nat.mod_eq_of_lt (by omega)]
        have hlow : x &&& 127 = x := by
          rw [show 127 = 2 ^ 7 - 1 from rfl, Nat.and_two_pow_sub_one_eq_mod]
          omega
        rw [appendUvarint_of_lt hx, List.singleton_append, parseUvarintLoop, if_neg (by omega), hval,
          hlow]
        dsimp only
        by_cases hlast : i = 9 ∧ x > 1
        · -- the tenth byte overflows
          rw [if_pos hlast, if_neg]
          obtain ⟨rfl, hx1⟩ := hlast
          rw [maxUvarint]
          omega
        · have hfit : x * 2 ^ (7 * i) < 2 ^ 64 := by
            rcases Nat.lt_or_ge i 9 with hlt | hge
            · have hle : 2 ^ (7 * (i + 1)) ≤ 2 ^ 63 := Nat.pow_le_pow_right (by decide) (by omega)
              have hmul : x * 2 ^ (7 * i) ≤ 127 * 2 ^ (7 * i) := Nat.mul_le_mul_right _ (by omega)
              omega
            · obtain rfl : i = 9 := by omega
              have hx1 : x ≤ 1 := by omega
              omega
          rw [if_neg hlast, if_pos hx, Varint.or_shift hvalue hfit]
          by_cases hmax : value + x * 2 ^ (7 * i) ≤ maxUvarint
          · rw [if_neg (by omega), if_pos hmax]
          · rw [if_pos (by omega), if_neg hmax]
      · obtain ⟨hge, hlow⟩ := toNat_or_128 x
        rw [appendUvarint_of_ge (by omega), List.cons_append, parseUvarintLoop, if_neg (by omega),
          hlow]
        dsimp only
        rcases Nat.lt_or_ge i 9 with hlt | hlast
        · have hmul : x % 128 * 2 ^ (7 * i) ≤ 127 * 2 ^ (7 * i) :=
            Nat.mul_le_mul_right _ (by omega)
          have hle : 2 ^ (7 * (i + 1)) ≤ 2 ^ 63 := Nat.pow_le_pow_right (by decide) (by omega)
          have hsum : value + x % 128 * 2 ^ (7 * i) + x / 128 * 2 ^ (7 * (i + 1))
              = value + x * 2 ^ (7 * i) := by
            conv_rhs => rw [← Nat.div_add_mod x 128]
            rw [hpow]
            ring
          rw [if_neg (by omega), if_neg (by omega), Varint.or_shift hvalue (by omega),
            ih (x / 128) (by omega) (by omega) (by omega), hsum]
        · -- an eleventh byte is refused
          obtain rfl : i = 9 := by omega
          have hbig : ¬value + x * 2 ^ (7 * 9) ≤ maxUvarint := by
            rw [maxUvarint]
            omega
          have hmore : ¬(UInt8.ofNat x ||| 128).toNat < 128 := by omega
          rw [if_neg hbig, if_neg hmore]
          split_ifs
          · rfl
          · cases hrest : appendUvarint (x / 128) with
            | nil => exact absurd hrest (appendUvarint_ne_nil _)
            | cons b rest => rfl

/-- A varint is read back unless it is over the limit. -/
lemma parseUvarint_append (x : ℕ) (tail : Bytes) :
    parseUvarint (appendUvarint x ++ tail) =
      if x ≤ maxUvarint then .ok (tail, x) else .error varintError := by
  rw [parseUvarint, parseUvarintLoop_append tail (by omega) (by decide)]
  simp

/-- A varint takes at least one byte, and its value is in the limit. -/
lemma parseUvarintLoop_spec {data rest : Bytes} {i value x : ℕ}
    (h : parseUvarintLoop data i value = .ok (rest, x)) :
    x ≤ maxUvarint ∧ rest.length < data.length := by
  induction data generalizing i value with
  | nil => cases h
  | cons b data ih =>
      rw [parseUvarintLoop] at h
      dsimp only at h
      split_ifs at h with h₁ h₂ h₃ h₄
      · cases h
        exact ⟨Nat.le_of_not_lt h₄, by simp⟩
      · obtain ⟨hx, hlen⟩ := ih h
        exact ⟨hx, by rw [List.length_cons]; omega⟩

/-! ## Packets

The end of a section is a packet without a length.  The fuel of the loops is the length of the
buffer, and the lemmas on what a packet takes show that it is enough.
-/

def fieldEos : ℕ := 0
def fieldLocation : ℕ := 1
def fieldIdentifier : ℕ := 2
def fieldVerificationId : ℕ := 4
def fieldSignature : ℕ := 6

/-- `Packet` and `OwnedPacket`. -/
structure Packet where
  fieldType : ℕ
  data : Bytes
deriving DecidableEq, Repr

/-- `serialize_packet`: field type and length as varints, then the data. -/
def serializePacket (p : Packet) : Bytes :=
  appendUvarint p.fieldType ++ appendUvarint p.data.length ++ p.data

/-- `parse_packet`: what is left, and the packet.  A packet is a type, a length and so many bytes;
the one that ends a section is its type alone. -/
def parsePacket (data : Bytes) : Except Error (Bytes × Packet) := do
  let (data, fieldType) ← parseUvarint data
  if fieldType = fieldEos then .ok (data, ⟨fieldType, []⟩)
  else
    let (data, packLen) ← parseUvarint data
    if packLen > data.length then .error ⟨"out of bounds"⟩
    else .ok (data.drop packLen, ⟨fieldType, data.take packLen⟩)

/-- The loop of `parse_section`.  Every packet takes a byte, so a loop with as much fuel as there
are bytes ends at the end of the buffer, where the source fails as well. -/
def parseSectionLoop : ℕ → ℤ → Bytes → List Packet → Except Error (Bytes × List Packet)
  | 0, _, _, _ => .error ⟨"section extends past end of buffer"⟩
  | fuel + 1, prevField, data, packets => do
      if data = [] then .error ⟨"section extends past end of buffer"⟩
      else
        let (rest, p) ← parsePacket data
        if p.fieldType = fieldEos then .ok (rest, packets)
        else if (p.fieldType : ℤ) ≤ prevField then .error ⟨"fields out of order"⟩
        else parseSectionLoop fuel p.fieldType rest (packets ++ [p])

/-- `parse_section`: what is left, and the packets. -/
def parseSection (data : Bytes) : Except Error (Bytes × List Packet) :=
  parseSectionLoop data.length (-1) data []

/-- `strip_location`: a first packet with the location is dropped, any other stays. -/
def stripLocation : List Packet → List Packet
  | [] => []
  | p :: rest => if p.fieldType = fieldLocation then rest else p :: rest

/-- A packet is read back if its length fits. -/
lemma parsePacket_serializePacket {p : Packet} (htype : p.fieldType ≠ fieldEos)
    (hmax : p.fieldType ≤ maxUvarint) (tail : Bytes) :
    parsePacket (serializePacket p ++ tail) =
      if p.data.length ≤ maxUvarint then .ok (tail, p) else .error varintError := by
  rw [parsePacket, serializePacket, List.append_assoc, List.append_assoc, parseUvarint_append,
    if_pos hmax, Fallible.ok_bind]
  dsimp only
  rw [if_neg htype, parseUvarint_append]
  split_ifs with hlen
  · rw [Fallible.ok_bind]
    dsimp only
    rw [if_neg (by simp), List.drop_left, List.take_left]
  · rfl

/-- The end of a section. -/
lemma parsePacket_eos (tail : Bytes) : parsePacket (0 :: tail) = .ok (tail, ⟨fieldEos, []⟩) := by
  have h := parseUvarint_append 0 tail
  rw [appendUvarint_of_lt (by decide), List.singleton_append, if_pos (by decide)] at h
  have h0 : UInt8.ofNat 0 = 0 := rfl
  rw [h0] at h
  rw [parsePacket, h, Fallible.ok_bind]
  rfl

/-- **What a packet can be**: it takes a byte, and its data is in the limit. -/
lemma parsePacket_spec {data rest : Bytes} {p : Packet} (h : parsePacket data = .ok (rest, p)) :
    rest.length < data.length ∧ p.data.length ≤ maxUvarint := by
  rw [parsePacket] at h
  obtain ⟨⟨data₁, fieldType⟩, h₁, h⟩ := Fallible.bind_eq_ok.mp h
  obtain ⟨_, hlen₁⟩ := parseUvarintLoop_spec h₁
  dsimp only at h
  split_ifs at h with heos
  · cases h
    exact ⟨hlen₁, Nat.zero_le _⟩
  · obtain ⟨⟨data₂, packLen⟩, h₂, h⟩ := Fallible.bind_eq_ok.mp h
    obtain ⟨hmax, hlen₂⟩ := parseUvarintLoop_spec h₂
    dsimp only at h
    split_ifs at h with hbound
    cases h
    refine ⟨?_, ?_⟩
    · rw [List.length_drop]
      omega
    · rw [List.length_take]
      omega

/-- **The packets of a section** are in the limit, and a section takes a byte. -/
lemma parseSectionLoop_spec {fuel : ℕ} {prevField : ℤ} {data rest : Bytes}
    {packets out : List Packet} (h : parseSectionLoop fuel prevField data packets = .ok (rest, out))
    (hpackets : ∀ p ∈ packets, p.data.length ≤ maxUvarint) :
    rest.length < data.length ∧ ∀ p ∈ out, p.data.length ≤ maxUvarint := by
  induction fuel generalizing prevField data packets with
  | zero => cases h
  | succ fuel ih =>
      rw [parseSectionLoop] at h
      split_ifs at h with hnil
      obtain ⟨⟨rest₁, p⟩, hp, h⟩ := Fallible.bind_eq_ok.mp h
      obtain ⟨hlen, hmax⟩ := parsePacket_spec hp
      dsimp only at h
      split_ifs at h with heos horder
      · cases h
        exact ⟨hlen, hpackets⟩
      · obtain ⟨hlen', hout⟩ := ih h (by
          intro q hq
          rcases List.mem_append.mp hq with hq | hq
          · exact hpackets q hq
          · rw [List.mem_singleton.mp hq]
            exact hmax)
        exact ⟨hlen'.trans hlen, hout⟩

/-- A section of one packet is read back if its length fits. -/
lemma parseSection_single {p : Packet} (htype : p.fieldType ≠ fieldEos)
    (hmax : p.fieldType ≤ maxUvarint) (tail : Bytes) :
    parseSection (serializePacket p ++ 0 :: tail) =
      if p.data.length ≤ maxUvarint then .ok (tail, [p]) else .error varintError := by
  obtain ⟨fuel, hfuel⟩ : ∃ fuel, (serializePacket p ++ 0 :: tail).length = fuel + 2 := by
    have h₁ := List.length_pos_iff.mpr (appendUvarint_ne_nil p.fieldType)
    refine ⟨(serializePacket p ++ 0 :: tail).length - 2, ?_⟩
    rw [serializePacket, List.length_append, List.length_append, List.length_append,
      List.length_cons]
    omega
  have hne : serializePacket p ++ 0 :: tail ≠ [] := by
    intro h
    rw [h] at hfuel
    cases hfuel
  rw [parseSection, hfuel, parseSectionLoop, if_neg hne, parsePacket_serializePacket htype hmax]
  split_ifs with hlen
  · have horder : ¬(p.fieldType : ℤ) ≤ -1 := by omega
    rw [Fallible.ok_bind]
    dsimp only
    rw [if_neg htype, if_neg horder, parseSectionLoop, if_neg (List.cons_ne_nil _ _),
      parsePacket_eos, Fallible.ok_bind]
    rfl
  · rfl

/-- An empty section. -/
lemma parseSection_eos (tail : Bytes) : parseSection (0 :: tail) = .ok (tail, []) := by
  rw [parseSection, List.length_cons, parseSectionLoop, if_neg (List.cons_ne_nil _ _),
    parsePacket_eos, Fallible.ok_bind]
  rfl

/-! ## Macaroons

A version byte, a header, the caveats, an empty section and the signature.
-/

/-- `Macaroon`: the identifier, the caveats in the order in which they were added, and the signature
over both. -/
structure Macaroon where
  head : Bytes
  caveats : List Bytes
  tail : Vector UInt8 32
deriving DecidableEq

/-- `VERSION`. -/
def version : UInt8 := 2

namespace Macaroon

/-- The loop over the caveats in `Macaroon::parse`.  Every section takes a byte, so the fuel is
enough for the end of the buffer, where the source fails as well. -/
def parseCaveats : ℕ → Bytes → List Bytes → Except Error (Bytes × List Bytes)
  | 0, _, _ => .error ⟨"section extends past end of buffer"⟩
  | fuel + 1, rest, caveats => do
      let (rest, packets) ← parseSection rest
      if packets = [] then .ok (rest, caveats)
      else
        match stripLocation packets with
        | [] => .error ⟨"no Identifier in caveat"⟩
        | p :: more =>
            if p.fieldType ≠ fieldIdentifier then .error ⟨"no Identifier in caveat"⟩
            else
              match more with
              | [] => parseCaveats fuel rest (caveats ++ [p.data])
              | [q] =>
                  if q.fieldType = fieldVerificationId then
                    parseCaveats fuel rest (caveats ++ [p.data])
                  else .error ⟨"invalid field found in caveat"⟩
              | _ :: _ :: _ => .error ⟨"extra fields found in caveat"⟩

/-- `Macaroon::parse`: the version byte, a header section with an identifier, the caveats up to an
empty section, and a signature of 32 bytes. -/
def parse (data : Bytes) : Except Error Macaroon :=
  match data with
  | [] => .error ⟨"empty macaroon"⟩
  | [_] => .error ⟨"empty macaroon"⟩
  | b :: c :: rest => do
      if b ≠ version then .error ⟨"invalid macaroon version"⟩
      else
        let (rest, header) ← parseSection (c :: rest)
        match stripLocation header with
        | [p] =>
            if p.fieldType ≠ fieldIdentifier then .error ⟨"invalid macaroon header"⟩
            else
              let (rest, caveats) ← parseCaveats rest.length rest []
              let (_, sig) ← parsePacket rest
              if sig.fieldType ≠ fieldSignature then
                .error ⟨"unexpected field found instead of signature"⟩
              else if h : sig.data.length = 32 then
                .ok ⟨p.data, caveats, ⟨sig.data.toArray, h⟩⟩
              else .error ⟨"signature has unexpected length"⟩
        | _ => .error ⟨"invalid macaroon header"⟩

/-- The part of `Macaroon::serialize` for one caveat. -/
def serializeCaveat (caveat : Bytes) : Bytes := serializePacket ⟨fieldIdentifier, caveat⟩ ++ [0]

/-- `Macaroon::serialize`: the version, the header and the caveats, each ended by a zero byte, one
more zero byte, and the signature. -/
def serialize (m : Macaroon) : Bytes :=
  version :: (serializePacket ⟨fieldIdentifier, m.head⟩ ++
    0 :: (m.caveats.flatMap serializeCaveat ++
      0 :: serializePacket ⟨fieldSignature, m.tail.toList⟩))

/-- The lengths of a macaroon that the parser takes. -/
def Fits (m : Macaroon) : Prop :=
  m.head.length ≤ maxUvarint ∧ ∀ c ∈ m.caveats, c.length ≤ maxUvarint

instance (m : Macaroon) : Decidable m.Fits := inferInstanceAs (Decidable (_ ∧ _))

lemma identifier_ne_eos : fieldIdentifier ≠ fieldEos := by decide

lemma identifier_le : fieldIdentifier ≤ maxUvarint := by decide

lemma signature_ne_eos : fieldSignature ≠ fieldEos := by decide

lemma signature_le : fieldSignature ≤ maxUvarint := by decide

lemma length_serializeCaveat_pos (c : Bytes) : 0 < (serializeCaveat c).length := by
  rw [serializeCaveat, List.length_append]
  simp

/-- The caveats are read back, or one of them is too long. -/
lemma parseCaveats_serialize (caveats acc : List Bytes) (rest : Bytes) {fuel : ℕ}
    (hfuel : (caveats.flatMap serializeCaveat ++ 0 :: rest).length ≤ fuel) :
    parseCaveats fuel (caveats.flatMap serializeCaveat ++ 0 :: rest) acc =
      if ∀ c ∈ caveats, c.length ≤ maxUvarint then .ok (rest, acc ++ caveats)
      else .error varintError := by
  induction caveats generalizing acc fuel with
  | nil =>
      rw [List.flatMap_nil, List.nil_append, List.length_cons] at hfuel
      obtain ⟨fuel, rfl⟩ : ∃ n, fuel = n + 1 := ⟨fuel - 1, by omega⟩
      rw [List.flatMap_nil, List.nil_append, parseCaveats, parseSection_eos, Fallible.ok_bind]
      simp
  | cons c caveats ih =>
      have hassoc : (c :: caveats).flatMap serializeCaveat ++ 0 :: rest =
          serializePacket ⟨fieldIdentifier, c⟩ ++
            0 :: (caveats.flatMap serializeCaveat ++ 0 :: rest) := by
        simp [serializeCaveat]
      have hlen : (caveats.flatMap serializeCaveat ++ 0 :: rest).length <
          ((c :: caveats).flatMap serializeCaveat ++ 0 :: rest).length := by
        rw [List.flatMap_cons, List.append_assoc, @List.length_append _ (serializeCaveat c)]
        have := length_serializeCaveat_pos c
        omega
      obtain ⟨fuel, rfl⟩ : ∃ n, fuel = n + 1 := ⟨fuel - 1, by omega⟩
      rw [hassoc, parseCaveats, parseSection_single identifier_ne_eos identifier_le]
      by_cases hc : c.length ≤ maxUvarint
      · rw [if_pos hc, Fallible.ok_bind]
        dsimp only
        rw [if_neg (List.cons_ne_nil _ _), stripLocation, if_neg (by decide : ¬fieldIdentifier =
          fieldLocation)]
        dsimp only
        rw [if_neg (by simp), ih (acc ++ [c]) (by omega)]
        simp [hc]
      · rw [if_neg hc, if_neg fun h => hc (h c List.mem_cons_self)]
        rfl

/-- **What was serialized is parsed back**, unless a length is over the limit. -/
lemma parse_serialize_eq (m : Macaroon) :
    parse m.serialize = if m.Fits then .ok m else .error varintError := by
  have hne : ∃ b rest, serializePacket ⟨fieldIdentifier, m.head⟩ ++
      0 :: (m.caveats.flatMap serializeCaveat ++
        0 :: serializePacket ⟨fieldSignature, m.tail.toList⟩) = b :: rest := by
    cases h : serializePacket ⟨fieldIdentifier, m.head⟩ with
    | nil => exact ⟨_, _, rfl⟩
    | cons b rest => exact ⟨_, _, rfl⟩
  obtain ⟨b, rest, hrest⟩ := hne
  have hsection := parseSection_single (p := ⟨fieldIdentifier, m.head⟩) identifier_ne_eos identifier_le
    (m.caveats.flatMap serializeCaveat ++ 0 :: serializePacket ⟨fieldSignature, m.tail.toList⟩)
  have hsig := parsePacket_serializePacket (p := ⟨fieldSignature, m.tail.toList⟩) signature_ne_eos
    signature_le []
  have htail : m.tail.toList.length = 32 := m.tail.length_toList
  rw [List.append_nil, if_pos (by rw [htail]; decide)] at hsig
  rw [serialize, hrest, parse, if_neg (by simp), ← hrest, hsection]
  dsimp only
  by_cases hhead : m.head.length ≤ maxUvarint
  · rw [if_pos hhead, Fallible.ok_bind]
    dsimp only
    rw [stripLocation, if_neg (by decide : ¬fieldIdentifier = fieldLocation)]
    dsimp only
    rw [if_neg (by simp), parseCaveats_serialize _ _ _ le_rfl]
    by_cases hcav : ∀ c ∈ m.caveats, c.length ≤ maxUvarint
    · rw [if_pos hcav, if_pos ⟨hhead, hcav⟩, Fallible.ok_bind]
      dsimp only
      rw [hsig, Fallible.ok_bind]
      dsimp only
      rw [if_neg (by simp), dif_pos htail]
      rfl
    · rw [if_neg hcav, if_neg fun h => hcav h.2]
      rfl
  · rw [if_neg hhead, if_neg fun h => hhead h.1]
    rfl

lemma parse_serialize {m : Macaroon} (h : m.Fits) : parse m.serialize = .ok m := by
  rw [parse_serialize_eq, if_pos h]

/-- **A serialized macaroon is parsed as itself or not at all.** -/
lemma eq_of_parse_serialize {m m' : Macaroon} (h : parse m.serialize = .ok m') :
    m' = m ∧ m.Fits := by
  rw [parse_serialize_eq] at h
  split_ifs at h with hfits
  cases h
  exact ⟨rfl, hfits⟩

lemma parseCaveats_spec {fuel : ℕ} {data rest : Bytes} {acc caveats : List Bytes}
    (h : parseCaveats fuel data acc = .ok (rest, caveats))
    (hacc : ∀ c ∈ acc, c.length ≤ maxUvarint) : ∀ c ∈ caveats, c.length ≤ maxUvarint := by
  induction fuel generalizing data acc with
  | zero => cases h
  | succ fuel ih =>
      rw [parseCaveats] at h
      obtain ⟨⟨rest₁, packets⟩, hp, h⟩ := Fallible.bind_eq_ok.mp h
      have hpackets := (parseSectionLoop_spec hp nofun).2
      dsimp only at h
      split_ifs at h with hnil
      · cases h
        exact hacc
      · cases hstrip : stripLocation packets with
        | nil =>
            rw [hstrip] at h
            cases h
        | cons p more =>
            have hp' : p.data.length ≤ maxUvarint := by
              refine hpackets p ?_
              cases packets with
              | nil => exact absurd rfl hnil
              | cons q packets =>
                  rw [stripLocation] at hstrip
                  split_ifs at hstrip
                  · rw [hstrip]
                    simp
                  · cases hstrip
                    exact List.mem_cons_self
            have hacc' : ∀ c ∈ acc ++ [p.data], c.length ≤ maxUvarint := by
              intro c hc
              rcases List.mem_append.mp hc with hc | hc
              · exact hacc c hc
              · rw [List.mem_singleton.mp hc]
                exact hp'
            rw [hstrip] at h
            dsimp only at h
            split_ifs at h with hid
            cases more with
            | nil => exact ih h hacc'
            | cons q more =>
                cases more with
                | nil =>
                    dsimp only at h
                    split_ifs at h
                    exact ih h hacc'
                | cons q' more => cases h

/-- **What was parsed fits**, so that it can be serialized and parsed again. -/
lemma fits_of_parse {data : Bytes} {m : Macaroon} (h : parse data = .ok m) : m.Fits := by
  rw [parse.eq_def] at h
  split at h
  · cases h
  · cases h
  · split_ifs at h
    obtain ⟨⟨rest, header⟩, hheader, h⟩ := Fallible.bind_eq_ok.mp h
    have hpackets := (parseSectionLoop_spec hheader nofun).2
    dsimp only at h
    split at h
    · rename_i p hstrip
      split_ifs at h
      obtain ⟨⟨rest', caveats⟩, hcav, h⟩ := Fallible.bind_eq_ok.mp h
      obtain ⟨⟨_, sig⟩, _, h⟩ := Fallible.bind_eq_ok.mp h
      dsimp only at h
      split_ifs at h
      cases h
      refine ⟨hpackets p ?_, parseCaveats_spec hcav nofun⟩
      cases header with
      | nil => cases hstrip
      | cons q header =>
          rw [stripLocation] at hstrip
          split_ifs at hstrip
          · rw [hstrip]
            simp
          · cases hstrip
            exact List.mem_cons_self
    · cases h

end Macaroon

end Storj.Access
