import StorjUplink.Access.Macaroon

/-!
# The macaroon format

What `Macaroon::parse` accepts, as a grammar over the bytes: a version, a header section, a section
for each caveat, the end of the sections, the signature packet, and anything after it.  A section is
a list of packets and an end; a number may be written with more bytes than it needs.  The parser
accepts exactly the byte strings of the grammar and returns their fields (`parse_eq_ok`).

`Checked` is the parser once more with every indexing, slicing, shift and copy of the source as an
operation that can panic, and its loops with fuel.  It never panics and always returns, and what it
returns is what `parse` does (`Checked.parse_eq`).
-/

namespace Storj.Access

open Storj.Enc (Bytes)
open Varint (Base128)

/-! ## Numbers and packets

A length may be written with leading zero groups, up to ten bytes.  The loop shifts the groups into
a word of 64 bits, and the check of the tenth byte is what keeps a bit from being shifted out.
-/

/-- A number as the parser takes it: in at most ten bytes, and in the limit. -/
structure IsUvarint (n : ℕ) (bs : Bytes) : Prop where
  bytes : Base128 n bs
  length_le : bs.length ≤ 10
  le : n ≤ maxUvarint

/-- The bytes of a packet that is no end of a section. -/
inductive IsField (p : Packet) : Bytes → Prop
  | mk {t l : Bytes} (htype : p.fieldType ≠ fieldEos) (ht : IsUvarint p.fieldType t)
      (hl : IsUvarint p.data.length l) : IsField p (t ++ l ++ p.data)

/-- The bytes of a list of packets. -/
inductive IsFields : List Packet → Bytes → Prop
  | nil : IsFields [] []
  | cons {p : Packet} {ps : List Packet} {bs cs : Bytes} (hp : IsField p bs)
      (hps : IsFields ps cs) : IsFields (p :: ps) (bs ++ cs)

/-- The bytes of a section: its packets and an end. -/
inductive IsSection (ps : List Packet) : Bytes → Prop
  | mk {bs eos : Bytes} (hps : IsFields ps bs) (heos : IsUvarint fieldEos eos) :
      IsSection ps (bs ++ eos)

/-- The bytes of a number that begins here: one byte, or a byte and those of a smaller number. -/
lemma exists_base128_cons {b : UInt8} {data rest : Bytes} {i value x : ℕ} :
    (∃ n bs, b :: data = bs ++ rest ∧ Base128 n bs ∧ bs.length + i ≤ 10 ∧
      x = value + n * 2 ^ (7 * i) ∧ x ≤ maxUvarint) ↔
      b.toNat < 128 ∧ data = rest ∧ 1 + i ≤ 10 ∧ x = value + b.toNat * 2 ^ (7 * i) ∧
        x ≤ maxUvarint ∨
      128 ≤ b.toNat ∧ ∃ n bs, data = bs ++ rest ∧ Base128 n bs ∧ bs.length + (i + 1) ≤ 10 ∧
        x = value + b.toNat % 128 * 2 ^ (7 * i) + n * 2 ^ (7 * (i + 1)) ∧ x ≤ maxUvarint := by
  have hpow := Varint.two_pow_next i
  constructor
  · rintro ⟨n, bs, hdata, hbs, hlen, rfl, hx⟩
    cases bs with
    | nil => cases hbs
    | cons b' bs =>
        rw [List.cons_append, List.cons.injEq] at hdata
        obtain ⟨rfl, rfl⟩ := hdata
        rw [List.length_cons] at hlen
        rcases Varint.base128_cons.mp hbs with ⟨hlt, rfl, rfl⟩ | ⟨hge, m, hm, rfl⟩
        · exact Or.inl ⟨hlt, rfl, by omega, rfl, hx⟩
        · refine Or.inr ⟨hge, m, bs, rfl, hm, by omega, ?_, hx⟩
          rw [hpow]
          ring
  · rintro (⟨hlt, rfl, hlen, rfl, hx⟩ | ⟨hge, m, bs, rfl, hm, hlen, rfl, hx⟩)
    · exact ⟨_, [b], rfl, .last hlt, by rw [List.length_singleton]; omega, rfl, hx⟩
    · refine ⟨b.toNat % 128 + 128 * m, b :: bs, rfl,
        Varint.base128_cons.mpr (Or.inr ⟨hge, m, hm, rfl⟩), ?_, ?_, hx⟩
      · rw [List.length_cons]
        omega
      · rw [hpow]
        ring

/-- Behind the check of the tenth byte, no bit is shifted out. -/
lemma shifted_lt {b : UInt8} {i : ℕ} (hi : i < 10) (hlast : ¬(i = 9 ∧ b.toNat % 128 > 1)) :
    b.toNat % 128 * 2 ^ (7 * i) < 2 ^ 64 := by
  rcases Nat.lt_or_ge i 9 with hlt | hge
  · have hpow := Varint.two_pow_next i
    have hle : 2 ^ (7 * (i + 1)) ≤ 2 ^ 63 := Nat.pow_le_pow_right (by decide) (by omega)
    have hmul : b.toNat % 128 * 2 ^ (7 * i) ≤ 127 * 2 ^ (7 * i) :=
      Nat.mul_le_mul_right _ (by omega)
    omega
  · obtain rfl : i = 9 := by omega
    have hchunk : b.toNat % 128 ≤ 1 := by omega
    omega

/-- **The loop of `parse_uvarint`**, from any of its states. -/
lemma parseUvarintLoop_eq_ok {data rest : Bytes} {i value x : ℕ} (hi : i ≤ 10)
    (hvalue : value < 2 ^ (7 * i)) : parseUvarintLoop data i value = .ok (rest, x) ↔
      ∃ n bs, data = bs ++ rest ∧ Base128 n bs ∧ bs.length + i ≤ 10 ∧
        x = value + n * 2 ^ (7 * i) ∧ x ≤ maxUvarint := by
  induction data generalizing i value with
  | nil =>
      constructor
      · intro h
        cases h
      · rintro ⟨n, bs, hdata, hbs, _⟩
        rw [(List.append_eq_nil_iff.mp hdata.symm).1] at hbs
        cases hbs
  | cons b data ih =>
      rw [exists_base128_cons, parseUvarintLoop, Varint.and_127]
      dsimp only
      by_cases hten : i = 10
      · rw [if_pos hten]
        exact ⟨by simp, by omega⟩
      rw [if_neg hten]
      by_cases hlast : i = 9 ∧ b.toNat % 128 > 1
      · rw [if_pos hlast]
        refine ⟨by simp, ?_⟩
        obtain ⟨rfl, hchunk⟩ := hlast
        rintro (⟨hlt, _, _, rfl, hx⟩ | ⟨_, n, bs, _, hbs, hlen, _⟩)
        · rw [maxUvarint] at hx
          omega
        · have := hbs.length_pos
          omega
      rw [if_neg hlast, Varint.or_shift hvalue (shifted_lt (by omega) hlast)]
      by_cases hlow : b.toNat < 128
      · have hmod : b.toNat % 128 = b.toNat := Nat.mod_eq_of_lt hlow
        rw [if_pos hlow, hmod]
        by_cases hmax : value + b.toNat * 2 ^ (7 * i) > maxUvarint
        · rw [if_pos hmax]
          exact ⟨by simp, by omega⟩
        · rw [if_neg hmax, Except.ok.injEq, Prod.mk.injEq]
          constructor
          · rintro ⟨rfl, rfl⟩
            exact Or.inl ⟨hlow, rfl, by omega, rfl, by omega⟩
          · rintro (⟨_, rfl, _, rfl, _⟩ | ⟨hge, _⟩)
            · exact ⟨rfl, rfl⟩
            · omega
      · have hpow := Varint.two_pow_next i
        have hmul : b.toNat % 128 * 2 ^ (7 * i) ≤ 127 * 2 ^ (7 * i) :=
          Nat.mul_le_mul_right _ (by omega)
        rw [if_neg hlow, ih (by omega) (by omega)]
        constructor
        · intro h
          exact Or.inr ⟨by omega, h⟩
        · rintro (⟨hlt, _⟩ | ⟨_, h⟩)
          · exact absurd hlt hlow
          · exact h

/-- **What `parse_uvarint` reads.** -/
lemma parseUvarint_eq_ok {data rest : Bytes} {x : ℕ} : parseUvarint data = .ok (rest, x) ↔
    ∃ bs, data = bs ++ rest ∧ IsUvarint x bs := by
  rw [parseUvarint, parseUvarintLoop_eq_ok (by decide) (by decide)]
  constructor
  · rintro ⟨n, bs, hdata, hbs, hlen, rfl, hx⟩
    rw [Nat.mul_zero, Nat.pow_zero, Nat.mul_one, Nat.zero_add] at hx ⊢
    exact ⟨bs, hdata, hbs, hlen, hx⟩
  · rintro ⟨bs, hdata, hbs, hlen, hx⟩
    exact ⟨x, bs, hdata, hbs, hlen, by simp, hx⟩

/-- **What `parse_packet` reads**: the end of a section or a field. -/
lemma parsePacket_eq_ok {data rest : Bytes} {p : Packet} : parsePacket data = .ok (rest, p) ↔
    ∃ bs, data = bs ++ rest ∧ (p = ⟨fieldEos, []⟩ ∧ IsUvarint fieldEos bs ∨ IsField p bs) := by
  rw [parsePacket, Fallible.bind_eq_ok]
  constructor
  · rintro ⟨⟨data₁, fieldType⟩, h₁, h⟩
    dsimp only at h
    obtain ⟨t, rfl, ht⟩ := parseUvarint_eq_ok.mp h₁
    split_ifs at h with heos
    · cases h
      subst heos
      exact ⟨t, rfl, Or.inl ⟨rfl, ht⟩⟩
    · obtain ⟨⟨data₂, packLen⟩, h₂, hnext⟩ := Fallible.bind_eq_ok.mp h
      clear h
      obtain ⟨l, rfl, hl⟩ := parseUvarint_eq_ok.mp h₂
      dsimp only at hnext
      split_ifs at hnext with hbound
      cases hnext
      have hlen : (data₂.take packLen).length = packLen := by
        rw [List.length_take]
        omega
      refine ⟨t ++ l ++ data₂.take packLen, ?_, Or.inr ⟨heos, ht, ?_⟩⟩
      · rw [List.append_assoc, List.append_assoc, List.take_append_drop]
      · rwa [hlen]
  · rintro ⟨_, rfl, ⟨rfl, heos⟩ | ⟨htype, ht, hl⟩⟩
    · exact ⟨(rest, fieldEos), parseUvarint_eq_ok.mpr ⟨_, rfl, heos⟩, by simp⟩
    · rename_i t l
      refine ⟨(l ++ p.data ++ rest, p.fieldType), parseUvarint_eq_ok.mpr ⟨t, by simp, ht⟩, ?_⟩
      dsimp only
      rw [if_neg htype, Fallible.bind_eq_ok]
      refine ⟨(p.data ++ rest, p.data.length), parseUvarint_eq_ok.mpr ⟨l, by simp, hl⟩, ?_⟩
      dsimp only
      rw [if_neg (by simp), List.drop_left, List.take_left]

lemma IsField.length_pos {p : Packet} {bs : Bytes} (h : IsField p bs) : 0 < bs.length := by
  obtain ⟨_, ht, _⟩ := h
  have := ht.bytes.length_pos
  rw [List.length_append, List.length_append]
  omega

/-! ## Sections

A section ends with a packet of its own type.  The types inside have to rise strictly, so that a
field comes at most once and in one place.
-/

/-- Fields in the order of their types, all after a given one. -/
def Ordered (prevField : ℤ) (ps : List Packet) : Prop :=
  (prevField :: ps.map fun p => (p.fieldType : ℤ)).Pairwise (· < ·)

lemma ordered_cons {prevField : ℤ} {p : Packet} {ps : List Packet} :
    Ordered prevField (p :: ps) ↔ prevField < p.fieldType ∧ Ordered p.fieldType ps := by
  rw [Ordered, Ordered, List.map_cons]
  constructor
  · intro h
    rw [List.pairwise_cons] at h
    exact ⟨h.1 _ List.mem_cons_self, h.2⟩
  · rintro ⟨hlt, h⟩
    refine List.pairwise_cons.mpr ⟨fun x hx => ?_, h⟩
    rcases List.mem_cons.mp hx with rfl | hx
    · exact hlt
    · exact hlt.trans ((List.pairwise_cons.mp h).1 x hx)

/-- **The loop of `parse_section`**, from any of its states. -/
lemma parseSectionLoop_eq_ok {fuel : ℕ} {prevField : ℤ} {data rest : Bytes}
    {packets out : List Packet} (hfuel : data.length ≤ fuel) :
    parseSectionLoop fuel prevField data packets = .ok (rest, out) ↔
      ∃ ps bs, data = bs ++ rest ∧ IsSection ps bs ∧ Ordered prevField ps ∧
        out = packets ++ ps := by
  induction fuel generalizing prevField data packets with
  | zero =>
      obtain rfl : data = [] := List.length_eq_zero_iff.mp (by omega)
      refine ⟨nofun, ?_⟩
      rintro ⟨ps, bs, hdata, ⟨_, heos⟩, _⟩
      have := heos.bytes.length_pos
      rw [List.append_eq_nil_iff.mp (List.append_eq_nil_iff.mp hdata.symm).1 |>.2] at this
      cases this
  | succ fuel ih =>
      rw [parseSectionLoop]
      constructor
      · intro h
        split_ifs at h with hnil
        obtain ⟨⟨rest₁, p⟩, hp, hnext⟩ := Fallible.bind_eq_ok.mp h
        clear h
        dsimp only at hnext
        have hlen := (parsePacket_spec hp).1
        obtain ⟨bs, rfl, hbs⟩ := parsePacket_eq_ok.mp hp
        rcases hbs with ⟨rfl, heos⟩ | hfield
        · rw [if_pos rfl] at hnext
          cases hnext
          exact ⟨[], bs, rfl, ⟨.nil, heos⟩, List.pairwise_singleton _ _, (List.append_nil _).symm⟩
        · have htype : p.fieldType ≠ fieldEos := by
            obtain ⟨htype, _⟩ := hfield
            exact htype
          rw [if_neg htype] at hnext
          split_ifs at hnext with horder
          obtain ⟨ps, cs, rfl, ⟨hps, heos⟩, hord, rfl⟩ := (ih (by omega)).mp hnext
          refine ⟨p :: ps, _, by rw [← List.append_assoc, ← List.append_assoc],
            ⟨.cons hfield hps, heos⟩, ordered_cons.mpr ⟨Int.not_le.mp horder, hord⟩, ?_⟩
          rw [List.append_assoc]
          rfl
      · rintro ⟨ps, bs, rfl, ⟨hps, heos⟩, hord, rfl⟩
        cases hps with
        | nil =>
            rename_i eos
            have hne : [] ++ eos ++ rest ≠ [] := by
              have := heos.bytes.length_pos
              intro h
              rw [List.append_eq_nil_iff, List.append_eq_nil_iff] at h
              rw [h.1.2] at this
              cases this
            have hpacket : parsePacket ([] ++ eos ++ rest) = .ok (rest, ⟨fieldEos, []⟩) :=
              parsePacket_eq_ok.mpr ⟨eos, rfl, Or.inl ⟨rfl, heos⟩⟩
            rw [if_neg hne, hpacket, Fallible.ok_bind]
            simp
        | cons hp hps =>
            rename_i eos p ps bs cs
            obtain ⟨hlt, hord⟩ := ordered_cons.mp hord
            have hpos := hp.length_pos
            have hne : bs ++ cs ++ eos ++ rest ≠ [] := by
              intro h
              simp only [List.append_eq_nil_iff] at h
              rw [h.1.1.1] at hpos
              cases hpos
            have htype : p.fieldType ≠ fieldEos := by
              obtain ⟨htype, _⟩ := hp
              exact htype
            have hpacket : parsePacket (bs ++ cs ++ eos ++ rest) = .ok (cs ++ eos ++ rest, p) :=
              parsePacket_eq_ok.mpr ⟨bs, by simp only [List.append_assoc], Or.inr hp⟩
            rw [if_neg hne, hpacket, Fallible.ok_bind]
            dsimp only
            rw [if_neg htype, if_neg (Int.not_le.mpr hlt)]
            refine (ih ?_).mpr ⟨ps, cs ++ eos, rfl, ⟨hps, heos⟩, hord, by simp⟩
            simp only [List.length_append] at hfuel ⊢
            omega

/-- **What `parse_section` reads.** -/
lemma parseSection_eq_ok {data rest : Bytes} {ps : List Packet} :
    parseSection data = .ok (rest, ps) ↔
      ∃ bs, data = bs ++ rest ∧ IsSection ps bs ∧ Ordered (-1) ps := by
  rw [parseSection, parseSectionLoop_eq_ok le_rfl]
  constructor
  · rintro ⟨ps', bs, rfl, hps, hord, rfl⟩
    exact ⟨bs, rfl, hps, hord⟩
  · rintro ⟨bs, rfl, hps, hord⟩
    exact ⟨ps, bs, rfl, hps, hord, rfl⟩

/-! ## Macaroons

The grammar has a rule for every loop and every test of the parser, the locations and verification
ids included that the parser drops.  What it accepts is therefore more than what is ever written.
-/

/-- A location, or none. -/
def IsLocation (ps : List Packet) : Prop := ps = [] ∨ ∃ data, ps = [⟨fieldLocation, data⟩]

/-- A verification id, or none. -/
def IsVerificationId (ps : List Packet) : Prop :=
  ps = [] ∨ ∃ data, ps = [⟨fieldVerificationId, data⟩]

/-- The bytes of the header: an identifier, maybe after a location. -/
inductive IsHeader (head : Bytes) : Bytes → Prop
  | mk {loc : List Packet} {bs : Bytes} (hloc : IsLocation loc)
      (hbs : IsSection (loc ++ [⟨fieldIdentifier, head⟩]) bs) : IsHeader head bs

/-- The bytes of a caveat: an identifier, maybe after a location and before a verification id. -/
inductive IsCaveat (caveat : Bytes) : Bytes → Prop
  | mk {loc vid : List Packet} {bs : Bytes} (hloc : IsLocation loc) (hvid : IsVerificationId vid)
      (hbs : IsSection (loc ++ ⟨fieldIdentifier, caveat⟩ :: vid) bs) : IsCaveat caveat bs

/-- The bytes of the caveats, up to the end of the sections. -/
inductive IsCaveats : List Bytes → Bytes → Prop
  | nil {eos : Bytes} (heos : IsUvarint fieldEos eos) : IsCaveats [] eos
  | cons {c : Bytes} {caveats : List Bytes} {bs cs : Bytes} (hc : IsCaveat c bs)
      (hcs : IsCaveats caveats cs) : IsCaveats (c :: caveats) (bs ++ cs)

/-- **The bytes of a macaroon.**  Its fields are the identifiers and the signature; what it does not
keep are locations, verification ids and what follows the signature. -/
inductive IsMacaroon (m : Macaroon) : Bytes → Prop
  | mk {header caveats sig junk : Bytes} (hheader : IsHeader m.head header)
      (hcaveats : IsCaveats m.caveats caveats)
      (hsig : IsField ⟨fieldSignature, m.tail.toList⟩ sig) :
      IsMacaroon m (version :: (header ++ caveats ++ sig ++ junk))

lemma IsSection.length_pos {ps : List Packet} {bs : Bytes} (h : IsSection ps bs) :
    0 < bs.length := by
  obtain ⟨_, heos⟩ := h
  have := heos.bytes.length_pos
  rw [List.length_append]
  omega

lemma ordered_singleton (prevField : ℤ) : Ordered prevField [] := List.pairwise_singleton _ _

/-- The order of the fields of a header or a caveat. -/
lemma ordered_of_shape {loc vid : List Packet} {data : Bytes} (hloc : IsLocation loc)
    (hvid : IsVerificationId vid) : Ordered (-1) (loc ++ ⟨fieldIdentifier, data⟩ :: vid) := by
  have hrest : Ordered fieldIdentifier vid := by
    rcases hvid with rfl | ⟨v, rfl⟩
    · exact ordered_singleton _
    · exact ordered_cons.mpr
        ⟨show (fieldIdentifier : ℤ) < fieldVerificationId by decide, ordered_singleton _⟩
  rcases hloc with rfl | ⟨l, rfl⟩
  · exact ordered_cons.mpr ⟨show -1 < (fieldIdentifier : ℤ) by decide, hrest⟩
  · exact ordered_cons.mpr ⟨show -1 < (fieldLocation : ℤ) by decide,
      ordered_cons.mpr ⟨show (fieldLocation : ℤ) < fieldIdentifier by decide, hrest⟩⟩

/-- **`strip_location` takes one location off**, and only at the front. -/
lemma stripLocation_eq {ps qs : List Packet} (hqs : ∀ q ∈ qs.head?, q.fieldType ≠ fieldLocation) :
    stripLocation ps = qs ↔ ∃ loc, IsLocation loc ∧ ps = loc ++ qs := by
  constructor
  · rintro rfl
    cases ps with
    | nil => exact ⟨[], Or.inl rfl, rfl⟩
    | cons p ps =>
        rw [stripLocation]
        split_ifs with hp
        · obtain ⟨t, data⟩ := p
          obtain rfl : t = fieldLocation := hp
          exact ⟨[⟨fieldLocation, data⟩], Or.inr ⟨data, rfl⟩, rfl⟩
        · exact ⟨[], Or.inl rfl, rfl⟩
  · rintro ⟨loc, hloc, rfl⟩
    rcases hloc with rfl | ⟨data, rfl⟩
    · cases qs with
      | nil => rfl
      | cons q qs =>
          rw [List.nil_append, stripLocation, if_neg (hqs q rfl)]
    · rw [List.singleton_append, stripLocation, if_pos rfl]

lemma IsCaveat.length_pos {c bs : Bytes} (h : IsCaveat c bs) : 0 < bs.length := by
  obtain ⟨_, _, hsection⟩ := h
  exact hsection.length_pos

/-- The caveats end with a byte at least. -/
lemma IsCaveats.length_pos {caveats : List Bytes} {bs : Bytes} (h : IsCaveats caveats bs) :
    0 < bs.length := by
  cases h with
  | nil heos => exact heos.bytes.length_pos
  | cons hc hcs =>
      have hpos := hc.length_pos
      rw [List.length_append]
      omega

namespace Macaroon

lemma identifier_ne_location : fieldIdentifier ≠ fieldLocation := by decide

/-- **One turn of the caveat loop**: the end of the sections, or a caveat and the rest. -/
lemma parseCaveats_succ_eq_ok {fuel : ℕ} {data rest : Bytes} {acc out : List Bytes} :
    parseCaveats (fuel + 1) data acc = .ok (rest, out) ↔
      (∃ eos, data = eos ++ rest ∧ IsUvarint fieldEos eos ∧ out = acc) ∨
      ∃ c bs rest₁, data = bs ++ rest₁ ∧ IsCaveat c bs ∧
        parseCaveats fuel rest₁ (acc ++ [c]) = .ok (rest, out) := by
  rw [parseCaveats, Fallible.bind_eq_ok]
  constructor
  · rintro ⟨⟨rest₁, packets⟩, hp, h⟩
    dsimp only at h
    obtain ⟨bs, rfl, hbs, hord⟩ := parseSection_eq_ok.mp hp
    split_ifs at h with hnil
    · cases h
      subst hnil
      obtain ⟨hps, heos⟩ := hbs
      cases hps
      exact Or.inl ⟨_, rfl, heos, rfl⟩
    -- an identifier, with or without a verification id after it
    have hcaveat : ∀ p vid, stripLocation packets = p :: vid → p.fieldType = fieldIdentifier →
        IsVerificationId vid → IsCaveat p.data bs := by
      intro p vid hstrip hid hvid
      obtain ⟨loc, hloc, rfl⟩ := (stripLocation_eq (by
        rintro q ⟨⟩
        rw [hid]
        exact identifier_ne_location)).mp hstrip
      obtain ⟨t, data⟩ := p
      obtain rfl : t = fieldIdentifier := hid
      exact ⟨hloc, hvid, hbs⟩
    cases hstrip : stripLocation packets with
    | nil =>
        rw [hstrip] at h
        cases h
    | cons p more =>
        rw [hstrip] at h
        dsimp only at h
        split_ifs at h with hid
        rw [not_not] at hid
        cases more with
        | nil => exact Or.inr ⟨p.data, bs, rest₁, rfl, hcaveat p [] hstrip hid (Or.inl rfl), h⟩
        | cons q more =>
            cases more with
            | cons q' more => cases h
            | nil =>
                dsimp only at h
                split_ifs at h with hvid
                refine Or.inr ⟨p.data, bs, rest₁, rfl, hcaveat p [q] hstrip hid ?_, h⟩
                exact Or.inr ⟨q.data, by rw [← hvid]⟩
  · rintro (⟨eos, rfl, heos, rfl⟩ | ⟨c, bs, rest₁, rfl, hc, hloop⟩)
    · refine ⟨(rest, []), parseSection_eq_ok.mpr
        ⟨_, rfl, ⟨.nil, heos⟩, ordered_singleton _⟩, ?_⟩
      simp
    · obtain ⟨hloc, hvid, hsection⟩ := hc
      rename_i loc vid
      refine ⟨(rest₁, loc ++ ⟨fieldIdentifier, c⟩ :: vid), parseSection_eq_ok.mpr
        ⟨bs, rfl, hsection, ordered_of_shape hloc hvid⟩, ?_⟩
      have hstrip : stripLocation (loc ++ ⟨fieldIdentifier, c⟩ :: vid) =
          ⟨fieldIdentifier, c⟩ :: vid :=
        (stripLocation_eq (by
          rintro q ⟨⟩
          exact identifier_ne_location)).mpr ⟨loc, hloc, rfl⟩
      dsimp only
      rw [if_neg (by simp), hstrip]
      dsimp only
      rw [if_neg (by simp)]
      rcases hvid with rfl | ⟨v, rfl⟩
      · exact hloop
      · dsimp only
        rw [if_pos rfl]
        exact hloop

/-- **What the caveat loop of `Macaroon::parse` reads.** -/
lemma parseCaveats_eq_ok {fuel : ℕ} {data rest : Bytes} {acc out : List Bytes}
    (hfuel : data.length ≤ fuel) : parseCaveats fuel data acc = .ok (rest, out) ↔
      ∃ caveats bs, data = bs ++ rest ∧ IsCaveats caveats bs ∧ out = acc ++ caveats := by
  induction fuel generalizing data acc with
  | zero =>
      obtain rfl : data = [] := List.length_eq_zero_iff.mp (by omega)
      refine ⟨nofun, ?_⟩
      rintro ⟨caveats, bs, hdata, hbs, _⟩
      have hpos := hbs.length_pos
      rw [(List.append_eq_nil_iff.mp hdata.symm).1] at hpos
      cases hpos
  | succ fuel ih =>
      rw [parseCaveats_succ_eq_ok]
      constructor
      · rintro (⟨eos, rfl, heos, rfl⟩ | ⟨c, bs, rest₁, rfl, hc, hloop⟩)
        · exact ⟨[], eos, rfl, .nil heos, (List.append_nil _).symm⟩
        · have hpos := hc.length_pos
          have hlen : rest₁.length ≤ fuel := by
            rw [List.length_append] at hfuel
            omega
          obtain ⟨caveats, cs, rfl, hcs, rfl⟩ := (ih hlen).mp hloop
          refine ⟨c :: caveats, bs ++ cs, by rw [List.append_assoc], .cons hc hcs, ?_⟩
          rw [List.append_assoc]
          rfl
      · rintro ⟨caveats, bs, rfl, hbs, rfl⟩
        cases hbs with
        | nil heos => exact Or.inl ⟨_, rfl, heos, List.append_nil _⟩
        | @cons c caveats bs cs hc hcs =>
            have hpos := hc.length_pos
            refine Or.inr ⟨c, bs, cs ++ rest, by rw [List.append_assoc], hc, (ih ?_).mpr ?_⟩
            · simp only [List.length_append] at hfuel ⊢
              omega
            · exact ⟨caveats, cs, rfl, hcs, by simp⟩

/-- **What `Macaroon::parse` accepts**: the byte strings of the grammar, and no others. -/
lemma parse_eq_ok {data : Bytes} {m : Macaroon} : parse data = .ok m ↔ IsMacaroon m data := by
  constructor
  · intro h
    rw [parse.eq_def] at h
    split at h
    · cases h
    · cases h
    · rename_i b c rest
      split_ifs at h with hversion
      rw [not_not] at hversion
      subst hversion
      obtain ⟨⟨rest₁, header⟩, hheader, h⟩ := Fallible.bind_eq_ok.mp h
      obtain ⟨bs, hrest, hbs, _⟩ := parseSection_eq_ok.mp hheader
      dsimp only at h
      split at h
      · rename_i p hstrip
        split_ifs at h with hid
        rw [not_not] at hid
        obtain ⟨⟨rest₂, caveats⟩, hcav, h⟩ := Fallible.bind_eq_ok.mp h
        obtain ⟨⟨junk, sig⟩, hsig, h⟩ := Fallible.bind_eq_ok.mp h
        obtain ⟨cavs, cs, hcs, hcaveats, hout⟩ := (parseCaveats_eq_ok le_rfl).mp hcav
        dsimp only at h hsig
        obtain ⟨ss, hss, hpacket⟩ := parsePacket_eq_ok.mp hsig
        split_ifs at h with htype hlen
        rw [not_not] at htype
        cases h
        obtain ⟨loc, hloc, rfl⟩ := (stripLocation_eq (by
          rintro q ⟨⟩
          rw [hid]
          exact identifier_ne_location)).mp hstrip
        obtain ⟨t, head⟩ := p
        obtain rfl : t = fieldIdentifier := hid
        rw [List.nil_append] at hout
        subst hout
        have hfield : IsField sig ss := by
          rcases hpacket with ⟨rfl, _⟩ | hfield
          · cases htype
          · exact hfield
        have heq : (⟨fieldSignature, sig.data⟩ : Packet) = sig := by rw [← htype]
        rw [hrest, hcs, hss, ← List.append_assoc, ← List.append_assoc]
        exact ⟨⟨hloc, hbs⟩, hcaveats, by rw [← heq] at hfield; exact hfield⟩
      · cases h
  · rintro ⟨⟨hloc, hbs⟩, hcaveats, hsig⟩
    rename_i header caveats sig junk loc
    have hpos := hbs.length_pos
    obtain ⟨c, rest, hrest⟩ : ∃ c rest, header ++ caveats ++ sig ++ junk = c :: rest := by
      cases header with
      | nil => cases hpos
      | cons c header => exact ⟨c, _, rfl⟩
    have hheader : parseSection (header ++ caveats ++ sig ++ junk) =
        .ok (caveats ++ sig ++ junk, loc ++ [⟨fieldIdentifier, m.head⟩]) :=
      parseSection_eq_ok.mpr ⟨header, by simp only [List.append_assoc], hbs,
        ordered_of_shape hloc (Or.inl rfl)⟩
    have hstrip : stripLocation (loc ++ [⟨fieldIdentifier, m.head⟩]) =
        [⟨fieldIdentifier, m.head⟩] :=
      (stripLocation_eq (by
        rintro q ⟨⟩
        exact identifier_ne_location)).mpr ⟨loc, hloc, rfl⟩
    have hcav : parseCaveats (caveats ++ sig ++ junk).length (caveats ++ sig ++ junk) [] =
        .ok (sig ++ junk, m.caveats) :=
      (parseCaveats_eq_ok le_rfl).mpr ⟨_, caveats, List.append_assoc _ _ _, hcaveats, rfl⟩
    have hpacket : parsePacket (sig ++ junk) = .ok (junk, ⟨fieldSignature, m.tail.toList⟩) :=
      parsePacket_eq_ok.mpr ⟨sig, rfl, Or.inr hsig⟩
    rw [hrest, parse, if_neg (by simp), ← hrest, hheader, Fallible.ok_bind]
    dsimp only
    rw [hstrip]
    dsimp only
    rw [if_neg (by simp), hcav, Fallible.ok_bind]
    dsimp only
    rw [hpacket, Fallible.ok_bind]
    dsimp only
    rw [if_neg (by simp), dif_pos m.tail.length_toList]
    rfl

end Macaroon

/-! ## The parser with its checks

Every index, slice, shift and cast of the source is an operation that may stop with a panic, and
loops have fuel.  Nothing is simplified away, so that the equality with `parse` is what excludes a
panic.
-/

namespace Checked

/-- How a call ends without a value: a panic, no end at all, or an error. -/
inductive Stop where
  | panic
  | diverge
  | err (e : Error)
deriving DecidableEq

/-- An error that the source returns. -/
def fail {α : Type} (message : String) : Except Stop α := .error (.err ⟨message⟩)

/-- `list[i]`, which panics past the end. -/
def index {α : Type} (l : List α) (i : ℕ) : Except Stop α :=
  match l[i]? with
  | some a => .ok a
  | none => .error .panic

/-- `&data[i..]`, which panics where `i` is past the end. -/
def sliceFrom (data : Bytes) (i : ℕ) : Except Stop Bytes :=
  if i ≤ data.length then .ok (data.drop i) else .error .panic

/-- `data.split_at(mid)`, which panics where `mid` is past the end. -/
def splitAt (data : Bytes) (mid : ℕ) : Except Stop (Bytes × Bytes) :=
  if mid ≤ data.length then .ok (data.take mid, data.drop mid) else .error .panic

/-- `section.remove(0)`, which panics on an empty list. -/
def removeFirst : List Packet → Except Stop (List Packet)
  | [] => .error .panic
  | _ :: ps => .ok ps

/-- `tail.copy_from_slice(&data)`, where `tail` has 32 bytes. -/
def copyFromSlice (data : Bytes) : Except Stop (Vector UInt8 32) :=
  if h : data.length = 32 then .ok ⟨data.toArray, h⟩ else .error .panic

/-- `u64::checked_shl`. -/
def checkedShl (x shift : ℕ) : Option ℕ := if shift < 64 then some ((x <<< shift) % 2 ^ 64) else none

/-- `u32::checked_add`. -/
def checkedAdd (x y : ℕ) : Option ℕ := if x + y < 2 ^ 32 then some (x + y) else none

/-- The loop of `parse_uvarint`: the bytes to come, their index, the value and the shift. -/
def uvarintLoop (data : Bytes) : Bytes → ℕ → ℕ → ℕ → Except Stop (Bytes × ℕ)
  | [], _, _, _ => fail "varint error"
  | b :: iter, i, value, shift => do
      if i = 10 then fail "varint error"
      else
        let chunk := b.toNat &&& 127
        if i = 9 ∧ chunk > 1 then fail "varint error"
        else
          match checkedShl chunk shift with
          | none => fail "varint error"
          | some shifted =>
              let value := value ||| shifted
              if b.toNat < 128 then
                if value > maxUvarint then fail "varint error"
                else
                  let rest ← sliceFrom data (i + 1)
                  .ok (rest, value)
              else
                match checkedAdd shift 7 with
                | none => fail "varint error"
                | some shift => uvarintLoop data iter (i + 1) value shift

/-- `parse_uvarint`. -/
def parseUvarint (data : Bytes) : Except Stop (Bytes × ℕ) := uvarintLoop data data 0 0 0

/-- `parse_packet`, with its casts to `u32` and `usize`.  The length is compared with what is left
before the split, which would panic beyond it. -/
def parsePacket (data : Bytes) : Except Stop (Bytes × Packet) := do
  let (data, ft) ← parseUvarint data
  let fieldType := ft % 2 ^ 32
  if fieldType = fieldEos then .ok (data, ⟨fieldType, []⟩)
  else
    let (data, packLen) ← parseUvarint data
    let packLen := packLen % 2 ^ 64
    if packLen > data.length then fail "out of bounds"
    else
      let (payload, rest) ← splitAt data packLen
      .ok (rest, ⟨fieldType, payload⟩)

/-- The loop of `parse_section`: packets up to the one that ends the section, each of a type above
the one before.  The previous type starts at minus one. -/
def sectionLoop : ℕ → ℤ → Bytes → List Packet → Except Stop (Bytes × List Packet)
  | 0, _, _, _ => .error .diverge
  | fuel + 1, prevField, data, packets => do
      if data = [] then fail "section extends past end of buffer"
      else
        let (rest, p) ← parsePacket data
        if p.fieldType = fieldEos then .ok (rest, packets)
        else if (p.fieldType : ℤ) ≤ prevField then fail "fields out of order"
        else sectionLoop fuel p.fieldType rest (packets ++ [p])

/-- `parse_section`. -/
def parseSection (fuel : ℕ) (data : Bytes) : Except Stop (Bytes × List Packet) :=
  sectionLoop fuel (-1) data []

/-- `strip_location`: a first packet with the location is dropped, any other stays. -/
def stripLocation (packets : List Packet) : Except Stop (List Packet) :=
  if packets.head?.any fun p => p.fieldType = fieldLocation then removeFirst packets
  else .ok packets

/-- The caveat loop of `Macaroon::parse`.  A section without packets ends it; any other one has an
identifier and, behind it, a verification id at most. -/
def caveatLoop (fuel : ℕ) : ℕ → Bytes → List Bytes → Except Stop (Bytes × List Bytes)
  | 0, _, _ => .error .diverge
  | turns + 1, rest, caveats => do
      let (rest, packets) ← parseSection fuel rest
      if packets.isEmpty then .ok (rest, caveats)
      else
        let packets ← stripLocation packets
        if packets.isEmpty then fail "no Identifier in caveat"
        else
          let first ← index packets 0
          if first.fieldType ≠ fieldIdentifier then fail "no Identifier in caveat"
          else
            match packets.length with
            | 1 => caveatLoop fuel turns rest (caveats ++ [first.data])
            | 2 => do
                let second ← index packets 1
                if second.fieldType = fieldVerificationId then
                  caveatLoop fuel turns rest (caveats ++ [first.data])
                else fail "invalid field found in caveat"
            | _ => fail "extra fields found in caveat"

/-- `Macaroon::parse`: the version byte, the header section, the caveats and the signature packet,
in this order.  What follows the signature is not looked at. -/
def parse (fuel : ℕ) (data : Bytes) : Except Stop Macaroon := do
  if data.length < 2 then fail "empty macaroon"
  else
    let b ← index data 0
    if b ≠ version then fail "invalid macaroon version"
    else
      let rest ← sliceFrom data 1
      let (rest, header) ← parseSection fuel rest
      let header ← stripLocation header
      if header.length ≠ 1 then fail "invalid macaroon header"
      else
        let p ← index header 0
        if p.fieldType ≠ fieldIdentifier then fail "invalid macaroon header"
        else
          let (rest, caveats) ← caveatLoop fuel fuel rest []
          let (_, sig) ← parsePacket rest
          if sig.fieldType ≠ fieldSignature then
            fail "unexpected field found instead of signature"
          else if sig.data.length ≠ 32 then fail "signature has unexpected length"
          else
            let tail ← copyFromSlice sig.data
            .ok ⟨p.data, caveats, tail⟩

/-- What the source returns: no panic, and an end. -/
def returned {α : Type} (x : Except Error α) : Except Stop α := x.mapError .err

@[simp] lemma returned_ok {α : Type} (a : α) : returned (.ok a) = .ok a := rfl

@[simp] lemma returned_error {α : Type} (message : String) :
    returned (.error ⟨message⟩ : Except Error α) = fail message := rfl

/-- Call by call. -/
lemma bind_returned {α β : Type} {x : Except Stop α} {y : Except Error α} {f : α → Except Stop β}
    {g : α → Except Error β} (h : x = returned y)
    (hf : ∀ a, y = .ok a → f a = returned (g a)) : x >>= f = returned (y >>= g) := by
  subst h
  cases y with
  | error e => rfl
  | ok a => exact hf a rfl

/-- **The varint loop**: the slice behind the byte at hand is there, and the shift is below 64. -/
lemma uvarintLoop_eq (data : Bytes) {iter : Bytes} {i value : ℕ} (hiter : data.drop i = iter)
    (hi : i ≤ 10) :
    uvarintLoop data iter i value (7 * i) = returned (parseUvarintLoop iter i value) := by
  induction iter generalizing i value with
  | nil => rfl
  | cons b iter ih =>
      have hlen : i < data.length := by
        by_contra hge
        rw [List.drop_eq_nil_of_le (by omega)] at hiter
        cases hiter
      have hdrop : data.drop (i + 1) = iter := by
        rw [← List.tail_drop, hiter]
        rfl
      rw [uvarintLoop, parseUvarintLoop]
      by_cases hten : i = 10
      · rw [if_pos hten, if_pos hten]
        rfl
      rw [if_neg hten, if_neg hten]
      dsimp only
      by_cases hlast : i = 9 ∧ b.toNat &&& 127 > 1
      · rw [if_pos hlast, if_pos hlast]
        rfl
      have hshl : checkedShl (b.toNat &&& 127) (7 * i) =
          some (((b.toNat &&& 127) <<< (7 * i)) % 2 ^ 64) := by
        rw [checkedShl, if_pos (by omega)]
      have hadd : checkedAdd (7 * i) 7 = some (7 * (i + 1)) := by
        rw [checkedAdd, if_pos (by omega), Nat.mul_succ]
      rw [if_neg hlast, if_neg hlast, hshl]
      dsimp only
      split_ifs with hlow hmax
      · rfl
      · rw [sliceFrom, if_pos (by omega), hdrop]
        rfl
      · rw [hadd]
        exact ih hdrop (by omega)

lemma parseUvarint_eq (data : Bytes) : parseUvarint data = returned (Access.parseUvarint data) :=
  uvarintLoop_eq data rfl (by decide)

/-- **A packet**: the casts lose nothing, and the split is inside the buffer. -/
lemma parsePacket_eq (data : Bytes) : parsePacket data = returned (Access.parsePacket data) := by
  have hmax : maxUvarint < 2 ^ 32 := by decide
  refine bind_returned (parseUvarint_eq data) ?_
  rintro ⟨data₁, ft⟩ h₁
  obtain ⟨_, _, _, _, hft⟩ := parseUvarint_eq_ok.mp h₁
  dsimp only
  rw [Nat.mod_eq_of_lt (by omega)]
  split_ifs with heos
  · rfl
  refine bind_returned (parseUvarint_eq data₁) ?_
  rintro ⟨data₂, packLen⟩ h₂
  obtain ⟨_, _, _, _, hlen⟩ := parseUvarint_eq_ok.mp h₂
  dsimp only
  rw [Nat.mod_eq_of_lt (by omega)]
  split_ifs with hbound
  · rfl
  · rw [splitAt, if_pos (by omega)]
    rfl

/-- **A section**: every packet takes a byte, so the loop ends. -/
lemma sectionLoop_eq {fuel fuel' : ℕ} {prevField : ℤ} {data : Bytes} {packets : List Packet}
    (hfuel : data.length < fuel) (hfuel' : data.length ≤ fuel') :
    sectionLoop fuel prevField data packets =
      returned (parseSectionLoop fuel' prevField data packets) := by
  induction fuel generalizing fuel' prevField data packets with
  | zero => cases hfuel
  | succ fuel ih =>
      rw [sectionLoop]
      by_cases hnil : data = []
      · rw [if_pos hnil]
        cases fuel' with
        | zero => rfl
        | succ fuel' =>
            rw [parseSectionLoop, if_pos hnil]
            rfl
      · have hpos := List.length_pos_iff.mpr hnil
        obtain ⟨fuel', rfl⟩ : ∃ n, fuel' = n + 1 := ⟨fuel' - 1, by omega⟩
        rw [if_neg hnil, parseSectionLoop, if_neg hnil]
        refine bind_returned (parsePacket_eq data) ?_
        rintro ⟨rest, p⟩ hp
        have hlen := (parsePacket_spec hp).1
        dsimp only
        split_ifs with heos horder
        · rfl
        · rfl
        · exact ih (by omega) (by omega)

lemma parseSection_eq {fuel : ℕ} {data : Bytes} (h : data.length < fuel) :
    parseSection fuel data = returned (Access.parseSection data) := sectionLoop_eq h le_rfl

lemma stripLocation_eq (packets : List Packet) :
    stripLocation packets = .ok (Access.stripLocation packets) := by
  cases packets with
  | nil => rfl
  | cons p packets =>
      rw [stripLocation, Access.stripLocation]
      by_cases h : p.fieldType = fieldLocation
      · simp [h, removeFirst]
      · simp [h]

/-- **The caveats**: every section takes a byte, and each index is one of the section. -/
lemma caveatLoop_eq {fuel turns turns' : ℕ} {data : Bytes} {caveats : List Bytes}
    (hfuel : data.length < fuel) (hturns : data.length < turns) (hturns' : data.length ≤ turns') :
    caveatLoop fuel turns data caveats = returned (Macaroon.parseCaveats turns' data caveats) := by
  induction turns generalizing turns' data caveats with
  | zero => cases hturns
  | succ turns ih =>
      cases turns' with
      | zero =>
          obtain rfl : data = [] := List.length_eq_zero_iff.mp (by omega)
          rw [caveatLoop, parseSection_eq hfuel]
          rfl
      | succ turns' =>
          rw [caveatLoop, Macaroon.parseCaveats]
          refine bind_returned (parseSection_eq hfuel) ?_
          rintro ⟨rest, packets⟩ hp
          have hlen : rest.length < data.length :=
            (parseSectionLoop_spec hp (by simp)).1
          have hnext : ∀ caveats, caveatLoop fuel turns rest caveats =
              returned (Macaroon.parseCaveats turns' rest caveats) :=
            fun caveats => ih (by omega) (by omega) (by omega)
          dsimp only
          by_cases hnil : packets = []
          · rw [if_pos (List.isEmpty_iff.mpr hnil), if_pos hnil]
            rfl
          rw [if_neg fun h => hnil (List.isEmpty_iff.mp h), if_neg hnil, stripLocation_eq,
            Fallible.ok_bind]
          rcases Access.stripLocation packets with _ | ⟨p, more⟩
          · rfl
          · have hfirst : index (p :: more) 0 = .ok p := rfl
            rw [if_neg (by simp), hfirst, Fallible.ok_bind]
            dsimp only
            split_ifs with hid
            · rfl
            rcases more with _ | ⟨q, _ | ⟨q', more⟩⟩
            · exact hnext _
            · have hsecond : index [p, q] 1 = .ok q := rfl
              rw [List.length_cons, List.length_singleton]
              dsimp only
              rw [hsecond, Fallible.ok_bind]
              split_ifs with hvid
              · exact hnext _
              · rfl
            · rfl

/-- **The parser never panics and always returns**, with what `parse` says. -/
lemma parse_eq {fuel : ℕ} {data : Bytes} (h : data.length ≤ fuel) :
    parse fuel data = returned (Macaroon.parse data) := by
  rw [parse]
  rcases data with _ | ⟨b, _ | ⟨c, rest⟩⟩
  · rfl
  · rfl
  · have hfirst : index (b :: c :: rest) 0 = .ok b := rfl
    have hslice : sliceFrom (b :: c :: rest) 1 = .ok (c :: rest) := rfl
    rw [List.length_cons, List.length_cons] at h
    rw [if_neg (by simp), hfirst, Fallible.ok_bind, Macaroon.parse]
    split_ifs with hversion
    · rfl
    rw [hslice, Fallible.ok_bind]
    refine bind_returned (parseSection_eq (by rw [List.length_cons]; omega)) ?_
    rintro ⟨rest₁, header⟩ hheader
    have hlen := (parseSectionLoop_spec hheader (by simp)).1
    rw [List.length_cons] at hlen
    dsimp only
    rw [stripLocation_eq, Fallible.ok_bind]
    rcases Access.stripLocation header with _ | ⟨p, _ | ⟨q, more⟩⟩
    · rfl
    · have hindex : index [p] 0 = .ok p := rfl
      rw [if_neg (by simp), hindex, Fallible.ok_bind]
      dsimp only
      split_ifs with hid
      · rfl
      refine bind_returned (caveatLoop_eq (by omega) (by omega) le_rfl) ?_
      rintro ⟨rest₂, caveats⟩ _
      refine bind_returned (parsePacket_eq rest₂) ?_
      rintro ⟨_, sig⟩ _
      dsimp only
      by_cases htype : sig.fieldType = fieldSignature
      · rw [if_neg (not_not.mpr htype), if_neg (not_not.mpr htype)]
        by_cases hsig : sig.data.length = 32
        · rw [if_neg (not_not.mpr hsig), dif_pos hsig, copyFromSlice, dif_pos hsig]
          rfl
        · rw [if_pos hsig, dif_neg hsig]
          rfl
      · rw [if_pos htype, if_pos htype]
        rfl
    · rfl

end Checked

namespace Macaroon

/-- **The macaroon codec.**  A macaroon in the limit of the varints is read back as it was; the
parser returns on every byte string, without a panic; and what it accepts is a macaroon's bytes,
whose identifiers and signature are the fields of the result, which can be written and read
again. -/
theorem codec :
    (∀ m : Macaroon, m.head.length ≤ 2 ^ 31 - 1 → (∀ c ∈ m.caveats, c.length ≤ 2 ^ 31 - 1) →
      parse m.serialize = .ok m) ∧
    (∀ data fuel, data.length ≤ fuel → Checked.parse fuel data = (parse data).mapError .err) ∧
    ∀ data m, (parse data = .ok m → parse m.serialize = .ok m) ∧
      (parse data = .ok m ↔ IsMacaroon m data) := by
  refine ⟨fun m hhead hcaveats => parse_serialize ⟨hhead, hcaveats⟩, ?_, fun data m => ⟨?_, ?_⟩⟩
  · intro data fuel h
    exact Checked.parse_eq h
  · intro h
    exact parse_serialize (fits_of_parse h)
  · exact parse_eq_ok

end Macaroon

end Storj.Access
