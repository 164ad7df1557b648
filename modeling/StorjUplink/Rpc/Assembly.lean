import StorjUplink.Lib.Fallible
import StorjUplink.Rpc.Frame
import Mathlib.Data.Prod.Lex
import Mathlib.Data.List.DropRight

/-!
# Packet assembly against any peer

`PacketAssembler::push` on frames that nobody promises anything about: ids in any order, kinds that
change, packets that are never finished or that grow without end.

**One push.**  `PacketAssembler.Refuses` is what `push` checks and `absorb` the packet that it holds
after the frame.  A refused frame is an error (`push_refused`); any other frame does one thing
(`push_taken`).

**A run.**  `Account` says what an assembler knows of the frames it has seen: the packets it gave
out, each with the run of frames it was made of, and the frames of the packet it still holds.  Every
push keeps it (`Account.push`).

A peer that keeps to the protocol is the case of `Frame`; here it may send what it likes, and the
question is what the assembler can be made to do.  It keeps one packet at most.  A frame with a
later id makes it drop what it holds, a frame with an earlier id is an error, and a frame that
would make the packet too large or change its kind is one as well.  So memory is bounded, ids of
the packets go up, and what comes out was sent.

`pushAll_any_peer` says this for every list of frames up to the first error, and says exactly when
the next push fails, in terms of the frames seen so far and not of the assembler's fields.
-/

namespace Storj.Rpc

/-! ## Ids

Ids are pairs in lexical order.  After a packet was finished the next frame must have a larger one,
which the assembler knows as one more than the last id.
-/

/-- The id of a frame, in the order of `id_less`. -/
def Frame.id (fr : Frame) : ℕ ×ₗ ℕ := toLex (fr.streamId, fr.messageId)

/-- The id of a packet. -/
def Packet.id (pkt : Packet) : ℕ ×ₗ ℕ := toLex (pkt.streamId, pkt.messageId)

/-- The id that the next frame may not be below. -/
def PacketAssembler.last (a : PacketAssembler) : ℕ ×ₗ ℕ := toLex (a.lastStream, a.lastMessage)

/-- The id after the one of a frame. -/
def Frame.nextId (fr : Frame) : ℕ ×ₗ ℕ := toLex (fr.streamId, fr.messageId + 1)

lemma idLess_eq_true {aStream aMessage bStream bMessage : ℕ} :
    idLess aStream aMessage bStream bMessage = true
      ↔ toLex (aStream, aMessage) < toLex (bStream, bMessage) := by
  rw [idLess, decide_eq_true_eq, Prod.Lex.toLex_lt_toLex]

lemma Frame.id_lt_nextId (fr : Frame) : fr.id < fr.nextId := by
  rw [Frame.id, Frame.nextId, Prod.Lex.toLex_lt_toLex]
  exact Or.inr ⟨rfl, Nat.lt_succ_self _⟩

lemma Frame.id_eq_iff {fr : Frame} {a : PacketAssembler} :
    fr.id = a.last ↔ fr.streamId = a.lastStream ∧ fr.messageId = a.lastMessage := by
  rw [Frame.id, PacketAssembler.last, EmbeddingLike.apply_eq_iff_eq, Prod.mk.injEq]

/-! ## One push

The function of the source falls into a check and an update, and both are written down without the
order of its tests.
-/

/-- The packet that a frame begins. -/
def Frame.packet (fr : Frame) : Packet :=
  ⟨fr.streamId, fr.messageId, fr.kind, fr.control, fr.data⟩

/-- A packet with one more frame. -/
def Packet.extend (pkt : Packet) (fr : Frame) : Packet :=
  { pkt with control := pkt.control || fr.control, data := pkt.data ++ fr.data }

namespace PacketAssembler

variable {a : PacketAssembler} {fr : Frame}

/-- The packet that the assembler holds after a frame. -/
def absorb (a : PacketAssembler) (fr : Frame) : Packet :=
  match a.current with
  | none => fr.packet
  | some pkt => if fr.id = a.last then pkt.extend fr else fr.packet

lemma absorb_new (hnew : a.current = none ∨ fr.id ≠ a.last) : a.absorb fr = fr.packet := by
  rw [absorb]
  rcases hnew with hnew | hnew
  · rw [hnew]
  · cases a.current with
    | none => rfl
    | some pkt => exact if_neg hnew

lemma absorb_same {pkt : Packet} (hcur : a.current = some pkt) (hid : fr.id = a.last) :
    a.absorb fr = pkt.extend fr := by
  rw [absorb, hcur]
  exact if_pos hid

/-- What `push` does not take. -/
def Refuses (a : PacketAssembler) (fr : Frame) : Prop :=
  fr.id < a.last ∨ (∃ pkt ∈ a.current, fr.id = a.last ∧ pkt.kind ≠ fr.kind) ∨
    a.maxData < (a.absorb fr).data.length

/-- The assembler after a frame that it takes. -/
def after (a : PacketAssembler) (fr : Frame) : PacketAssembler :=
  { a with
    lastStream := fr.streamId
    lastMessage := if fr.done then min (fr.messageId + 1) (2 ^ 64 - 1) else fr.messageId
    current := if fr.done then none else some (a.absorb fr) }

/-- The packet that a frame completes. -/
def completes (a : PacketAssembler) (fr : Frame) : Option Packet :=
  if fr.done then some (a.absorb fr) else none

/-- What `push` holds when it comes to its end. -/
def holding (a : PacketAssembler) (fr : Frame) : PacketAssembler :=
  { a with
    lastStream := fr.streamId
    lastMessage := fr.messageId
    current := some (a.absorb fr) }

lemma finish_holding (h : ¬a.maxData < (a.absorb fr).data.length) :
    (a.holding fr).finish fr.done = (.ok (a.completes fr), a.after fr) := by
  have hfits : ¬(a.absorb fr).data.length > a.maxData := h
  cases hdone : fr.done with
  | false => simp [finish, holding, completes, after, hfits, hdone]
  | true => simp [finish, holding, completes, after, hfits, hdone]

lemma finish_holding_of_lt (h : a.maxData < (a.absorb fr).data.length) (done : Bool) :
    (a.holding fr).finish done = (.error .overflow, a.holding fr) := by
  have hlong : (a.absorb fr).data.length > a.maxData := h
  simp [finish, holding, hlong]

/-- A frame of a new packet. -/
lemma push_new (hid : ¬fr.id < a.last) (hnew : a.current = none ∨ fr.id ≠ a.last) :
    a.push fr = (a.holding fr).finish fr.done := by
  have hless : ¬idLess fr.streamId fr.messageId a.lastStream a.lastMessage = true := by
    rw [idLess_eq_true]
    exact hid
  rw [push, if_neg hless]
  simp only [holding, absorb_new hnew, Frame.packet]
  cases hcur : a.current with
  | none => rfl
  | some pkt =>
      rw [hcur, ne_eq, Frame.id_eq_iff] at hnew
      dsimp only
      rw [if_pos (hnew.resolve_left (by simp))]

/-- A frame of the packet that the assembler holds. -/
lemma push_same {pkt : Packet} (hcur : a.current = some pkt) (hid : fr.id = a.last) :
    a.push fr =
      if pkt.kind ≠ fr.kind then (.error .kindChange, a)
      else if a.maxData < (a.absorb fr).data.length then
        (.error .overflow,
          { a with current := some { pkt with control := pkt.control || fr.control } })
      else (a.holding fr).finish fr.done := by
  have hless : ¬idLess fr.streamId fr.messageId a.lastStream a.lastMessage = true := by
    rw [idLess_eq_true]
    exact hid.not_lt
  have habs := absorb_same hcur hid
  have hsame := Frame.id_eq_iff.mp hid
  rw [push, if_neg hless, hcur, habs]
  dsimp only
  rw [if_neg (not_not.mpr hsame)]
  simp only [Packet.extend, List.length_append, gt_iff_lt, holding, habs, hsame.1, hsame.2]

/-- **A refused frame is an error.** -/
theorem push_refused (h : a.Refuses fr) : ∃ e, (a.push fr).1 = .error e := by
  by_cases hid : fr.id < a.last
  · refine ⟨.monotonicity, ?_⟩
    rw [push, if_pos (idLess_eq_true.mpr hid)]
  · by_cases hnew : a.current = none ∨ fr.id ≠ a.last
    · rcases h with h | ⟨pkt, hpkt, hsame, -⟩ | h
      · exact absurd h hid
      · rw [Option.mem_def] at hpkt
        rw [hpkt] at hnew
        simp [hsame] at hnew
      · exact ⟨.overflow, by rw [push_new hid hnew, finish_holding_of_lt h]⟩
    · push Not at hnew
      obtain ⟨pkt, hcur⟩ := Option.ne_none_iff_exists'.mp hnew.1
      rw [push_same hcur hnew.2]
      by_cases hkind : pkt.kind ≠ fr.kind
      · exact ⟨.kindChange, by rw [if_pos hkind]⟩
      · rw [if_neg hkind]
        rcases h with h | ⟨p, hp, -, hne⟩ | h
        · exact absurd h hid
        · rw [hcur, Option.mem_some_iff] at hp
          rw [← hp] at hne
          exact absurd hne hkind
        · exact ⟨.overflow, by rw [if_pos h]⟩

/-- **Any other frame is taken.** -/
theorem push_taken (h : ¬a.Refuses fr) : a.push fr = (.ok (a.completes fr), a.after fr) := by
  simp only [Refuses, not_or] at h
  obtain ⟨hid, hkind, hfits⟩ := h
  by_cases hnew : a.current = none ∨ fr.id ≠ a.last
  · rw [push_new hid hnew, finish_holding hfits]
  · push Not at hnew
    obtain ⟨pkt, hcur⟩ := Option.ne_none_iff_exists'.mp hnew.1
    have hsame : ¬pkt.kind ≠ fr.kind := fun hne => hkind ⟨pkt, hcur, hnew.2, hne⟩
    rw [push_same hcur hnew.2, if_neg hsame, if_neg hfits, finish_holding hfits]

/-- `push` fails on what it refuses and on nothing else. -/
lemma push_fails_iff : (∃ e, (a.push fr).1 = .error e) ↔ a.Refuses fr := by
  constructor
  · rintro ⟨e, he⟩
    by_contra h
    rw [push_taken h] at he
    cases he
  · exact push_refused

/-! ## Runs

The packets that a run gives out are described by the runs of frames with one id, the last of which
ends it.
-/

/-- The frames of a run, pushed one after the other up to the first error. -/
def pushAll (a : PacketAssembler) : List Frame → Except FrameError (List Packet × PacketAssembler)
  | [] => .ok ([], a)
  | fr :: fs =>
      match a.push fr with
      | (.error e, _) => .error e
      | (.ok out, b) => do
          let (ps, c) ← b.pushAll fs
          .ok (out.toList ++ ps, c)

end PacketAssembler

/-- **What a packet is made of**: frames with its id and its kind. -/
structure Gathered (group : List Frame) (pkt : Packet) : Prop where
  ne_nil : group ≠ []
  id_eq : ∀ fr ∈ group, fr.id = pkt.id
  kind_eq : ∀ fr ∈ group, fr.kind = pkt.kind
  data_eq : pkt.data = group.flatMap Frame.data
  control_eq : pkt.control = group.any Frame.control

/-- A packet that a run gives out: the consecutive frames with its id, the last of which ends it. -/
def Delivered (fs : List Frame) (pkt : Packet) : Prop :=
  ∃ before group final rest, fs = before ++ (group ++ [final]) ++ rest ∧
    Gathered (group ++ [final]) pkt ∧ (∀ fr ∈ before ++ rest, fr.id ≠ pkt.id) ∧
    (∀ fr ∈ group, fr.done = false) ∧ final.done = true

/-- The id that the next frame may not be below, from the frames so far: one more than a finished
id. -/
def lastId (fs : List Frame) : ℕ ×ₗ ℕ :=
  match fs.getLast? with
  | none => toLex (1, 1)
  | some fr => if fr.done then fr.nextId else fr.id

/-- The frames of an unfinished packet at the end of a run. -/
def openFrames (fs : List Frame) (id : ℕ ×ₗ ℕ) : List Frame :=
  fs.rtakeWhile fun fr => fr.id = id ∧ fr.done = false

/-- **What an assembler knows of the frames it has seen.** -/
structure Account (fs : List Frame) (a : PacketAssembler) (ps : List Packet) : Prop where
  maxData_eq : a.maxData = maxPacketSize
  last_eq : a.last = lastId fs
  /-- The frames are those of older packets and those of the packet it holds. -/
  buffer : ∃ before group, fs = before ++ group ∧ (∀ fr ∈ before, fr.id < a.last) ∧
    (∀ fr ∈ group, fr.id = a.last ∧ fr.done = false) ∧ (a.current = none → group = []) ∧
    ∀ pkt ∈ a.current, Gathered group pkt ∧ pkt.id = a.last ∧ pkt.data.length ≤ maxPacketSize
  delivered : ∀ pkt ∈ ps, Delivered fs pkt ∧ pkt.id < a.last ∧ pkt.data.length ≤ maxPacketSize
  ordered : ps.Pairwise fun p q => p.id < q.id
  count : ps.length = fs.countP Frame.done

/-! ### The open frames

Frames behind the last packet with the current id; those of packets that were given up are not
among them.
-/

lemma openFrames_append {before group : List Frame} {id : ℕ ×ₗ ℕ}
    (hbefore : ∀ fr ∈ before, fr.id < id) (hgroup : ∀ fr ∈ group, fr.id = id ∧ fr.done = false) :
    openFrames (before ++ group) id = group := by
  have hnone : openFrames before id = [] := by
    rw [openFrames, List.rtakeWhile_eq_nil_iff]
    intro hne
    have hlt := hbefore _ (List.getLast_mem hne)
    simp [hlt.ne]
  induction group using List.reverseRecOn with
  | nil => rw [List.append_nil, hnone]
  | append_singleton group fr ih =>
      have hfr := hgroup fr (by simp)
      have hrest := ih fun x hx => hgroup x (by simp [hx])
      rw [openFrames] at hrest ⊢
      rw [← List.append_assoc, List.rtakeWhile_concat_pos _ _ _ (by simpa using hfr), hrest]

lemma mem_openFrames {fs : List Frame} {id : ℕ ×ₗ ℕ} {x : Frame} (h : x ∈ openFrames fs id) :
    x.id = id ∧ x.done = false := by
  have hopen := List.mem_rtakeWhile_imp h
  rwa [decide_eq_true_eq] at hopen

lemma openFrames_of_lt {fs : List Frame} {id : ℕ ×ₗ ℕ} (h : ∀ fr ∈ fs, fr.id < id) :
    openFrames fs id = [] := by
  have hnone : ∀ fr ∈ ([] : List Frame), fr.id = id ∧ fr.done = false := by simp
  have happend := openFrames_append h hnone
  rwa [List.append_nil] at happend

/-! ### One push -/

lemma Gathered.single (fr : Frame) : Gathered [fr] fr.packet where
  ne_nil := List.cons_ne_nil _ _
  id_eq := by simp [Frame.id, Packet.id, Frame.packet]
  kind_eq := by simp [Frame.packet]
  data_eq := by simp [Frame.packet]
  control_eq := by simp [Frame.packet]

lemma Gathered.extend {group : List Frame} {pkt : Packet} {fr : Frame} (h : Gathered group pkt)
    (hid : fr.id = pkt.id) (hkind : fr.kind = pkt.kind) :
    Gathered (group ++ [fr]) (pkt.extend fr) where
  ne_nil := by simp
  id_eq x hx := by
    rw [List.mem_append, List.mem_singleton] at hx
    rcases hx with hx | rfl
    · exact h.id_eq x hx
    · exact hid
  kind_eq x hx := by
    rw [List.mem_append, List.mem_singleton] at hx
    rcases hx with hx | rfl
    · exact h.kind_eq x hx
    · exact hkind
  data_eq := by simp [Packet.extend, h.data_eq]
  control_eq := by simp [Packet.extend, h.control_eq]

lemma Packet.id_extend (pkt : Packet) (fr : Frame) : (pkt.extend fr).id = pkt.id := rfl

namespace Account

variable {fs : List Frame} {a : PacketAssembler} {ps : List Packet} {fr : Frame}

/-- An assembler that has seen nothing. -/
lemma start : Account [] .default [] where
  maxData_eq := rfl
  last_eq := rfl
  buffer := ⟨[], [], rfl, by simp, by simp, fun _ => rfl, by simp [PacketAssembler.default]⟩
  delivered := by simp
  ordered := List.Pairwise.nil
  count := rfl

/-- What a frame finds: nothing with its id, or the frames of the packet that the assembler
holds. -/
lemma opened (h : Account fs a ps) (hid : ¬fr.id < a.last) :
    ∃ before, fs = before ++ openFrames fs fr.id ∧ (∀ x ∈ before, x.id < fr.id) ∧
      (openFrames fs fr.id = [] ∧ (a.current = none ∨ fr.id ≠ a.last) ∨
        ∃ pkt, a.current = some pkt ∧ fr.id = a.last ∧ pkt.id = a.last ∧
          Gathered (openFrames fs fr.id) pkt) := by
  obtain ⟨before, group, hfs, hbefore, hgroup, hnone, hsome⟩ := h.buffer
  rcases (not_lt.mp hid).eq_or_lt with heq | hlt
  · have hopen : openFrames fs fr.id = group := by
      rw [hfs, ← heq]
      exact openFrames_append hbefore hgroup
    refine ⟨before, by rw [hopen, hfs], by rwa [← heq], ?_⟩
    cases hcur : a.current with
    | none =>
        rw [hopen, hnone hcur]
        exact Or.inl ⟨rfl, Or.inl rfl⟩
    | some pkt =>
        obtain ⟨hgathered, hpkt, -⟩ := hsome pkt hcur
        rw [hopen]
        exact Or.inr ⟨pkt, rfl, heq.symm, hpkt, hgathered⟩
  · have hall : ∀ x ∈ fs, x.id < fr.id := by
      intro x hx
      rw [hfs, List.mem_append] at hx
      rcases hx with hx | hx
      · exact (hbefore x hx).trans hlt
      · rw [(hgroup x hx).1]
        exact hlt
    have hopen := openFrames_of_lt hall
    refine ⟨fs, by rw [hopen, List.append_nil], hall, Or.inl ⟨hopen, Or.inr hlt.ne'⟩⟩

/-- The data that the assembler holds after a frame. -/
lemma data_absorb (h : Account fs a ps) (hid : ¬fr.id < a.last) :
    (a.absorb fr).data = (openFrames fs fr.id ++ [fr]).flatMap Frame.data := by
  obtain ⟨before, -, -, ⟨hopen, hnew⟩ | ⟨pkt, hcur, hlast, -, hgathered⟩⟩ := h.opened hid
  · rw [hopen, PacketAssembler.absorb_new hnew]
    exact (Gathered.single fr).data_eq
  · rw [PacketAssembler.absorb_same hcur hlast, List.flatMap_append, ← hgathered.data_eq]
    simp [Packet.extend]

/-- A change of the kind, in terms of the frames. -/
lemma kind_changes_iff (h : Account fs a ps) (hid : ¬fr.id < a.last) :
    (∃ pkt ∈ a.current, fr.id = a.last ∧ pkt.kind ≠ fr.kind)
      ↔ ∃ x ∈ openFrames fs fr.id, x.kind ≠ fr.kind := by
  obtain ⟨before, -, -, ⟨hopen, hnew⟩ | ⟨pkt, hcur, hlast, -, hgathered⟩⟩ := h.opened hid
  · rw [hopen]
    constructor
    · rintro ⟨pkt, hpkt, hlast, -⟩
      rw [Option.mem_def] at hpkt
      rw [hpkt] at hnew
      simp [hlast] at hnew
    · rintro ⟨x, hx, -⟩
      cases hx
  · constructor
    · rintro ⟨p, hp, -, hne⟩
      rw [hcur, Option.mem_some_iff] at hp
      rw [← hp] at hne
      obtain ⟨x, hx⟩ := List.exists_mem_of_ne_nil _ hgathered.ne_nil
      exact ⟨x, hx, by rwa [hgathered.kind_eq x hx]⟩
    · rintro ⟨x, hx, hne⟩
      exact ⟨pkt, hcur, hlast, by rwa [← hgathered.kind_eq x hx]⟩

/-- **What is refused**, in terms of the frames. -/
theorem refuses_iff (h : Account fs a ps) :
    a.Refuses fr ↔ fr.id < lastId fs ∨ (∃ x ∈ openFrames fs fr.id, x.kind ≠ fr.kind) ∨
      maxPacketSize < ((openFrames fs fr.id ++ [fr]).flatMap Frame.data).length := by
  rw [PacketAssembler.Refuses, h.last_eq.symm, h.maxData_eq]
  by_cases hid : fr.id < a.last
  · exact iff_of_true (Or.inl hid) (Or.inl hid)
  · rw [h.kind_changes_iff hid, h.data_absorb hid]

/-- The packet after a frame that is taken. -/
lemma gathered_absorb (h : Account fs a ps) (htaken : ¬a.Refuses fr) :
    Gathered (openFrames fs fr.id ++ [fr]) (a.absorb fr) ∧ (a.absorb fr).id = fr.id := by
  simp only [PacketAssembler.Refuses, not_or] at htaken
  obtain ⟨hid, hkind, -⟩ := htaken
  obtain ⟨before, -, -, ⟨hopen, hnew⟩ | ⟨pkt, hcur, hlast, hpkt, hgathered⟩⟩ := h.opened hid
  · rw [hopen, PacketAssembler.absorb_new hnew]
    exact ⟨Gathered.single fr, rfl⟩
  · have hsame : pkt.kind = fr.kind := by
      by_contra hne
      exact hkind ⟨pkt, hcur, hlast, hne⟩
    have hfr : fr.id = pkt.id := hlast.trans hpkt.symm
    rw [PacketAssembler.absorb_same hcur hlast]
    exact ⟨hgathered.extend hfr hsame.symm, by rw [Packet.id_extend, hfr]⟩

end Account

/-- A packet that was delivered stays delivered. -/
lemma Delivered.append {fs : List Frame} {pkt : Packet} {fr : Frame} (h : Delivered fs pkt)
    (hid : pkt.id < fr.id) : Delivered (fs ++ [fr]) pkt := by
  obtain ⟨before, group, final, rest, hfs, hgathered, hothers, hgroup, hfinal⟩ := h
  refine ⟨before, group, final, rest ++ [fr], by simp [hfs], hgathered, ?_, hgroup, hfinal⟩
  intro x hx
  rw [← List.append_assoc, List.mem_append, List.mem_singleton] at hx
  rcases hx with hx | rfl
  · exact hothers x hx
  · exact hid.ne'

lemma lastId_append (fs : List Frame) (fr : Frame) :
    lastId (fs ++ [fr]) = if fr.done then fr.nextId else fr.id := by
  rw [lastId, List.getLast?_concat]

namespace Account

variable {fs : List Frame} {a : PacketAssembler} {ps : List Packet} {fr : Frame}

lemma last_after (hmax : fr.messageId < 2 ^ 64 - 1) :
    (a.after fr).last = if fr.done then fr.nextId else fr.id := by
  have hmin : min (fr.messageId + 1) (2 ^ 64 - 1) = fr.messageId + 1 := by omega
  rw [PacketAssembler.last, PacketAssembler.after, hmin]
  cases fr.done with
  | false => rfl
  | true => rfl

lemma id_le_last_after (hmax : fr.messageId < 2 ^ 64 - 1) : fr.id ≤ (a.after fr).last := by
  rw [last_after hmax]
  split_ifs
  · exact fr.id_lt_nextId.le
  · exact le_refl _

/-- The packet that a frame completes was delivered. -/
lemma delivered_absorb (h : Account fs a ps) (htaken : ¬a.Refuses fr) (hdone : fr.done = true) :
    Delivered (fs ++ [fr]) (a.absorb fr) := by
  obtain ⟨hgathered, hid⟩ := h.gathered_absorb htaken
  have hless : ¬fr.id < a.last := fun hlt => htaken (Or.inl hlt)
  obtain ⟨before, hfs, hbefore, -⟩ := h.opened hless
  refine ⟨before, openFrames fs fr.id, fr, [], ?_, hgathered, ?_, ?_, hdone⟩
  · rw [List.append_nil, ← List.append_assoc, ← hfs]
  · intro x hx
    rw [List.append_nil] at hx
    rw [hid]
    exact (hbefore x hx).ne
  · intro x hx
    exact (mem_openFrames hx).2

/-- The packets given out before are older than a frame that is taken, and stay delivered. -/
lemma delivered_old (h : Account fs a ps) (hless : ¬fr.id < a.last)
    (hmax : fr.messageId < 2 ^ 64 - 1) :
    ∀ pkt ∈ ps, pkt.id < fr.id ∧ Delivered (fs ++ [fr]) pkt ∧ pkt.id < (a.after fr).last ∧
      pkt.data.length ≤ maxPacketSize := by
  intro pkt hpkt
  obtain ⟨hdel, hlt, hlen⟩ := h.delivered pkt hpkt
  have hold : pkt.id < fr.id := lt_of_lt_of_le hlt (not_lt.mp hless)
  exact ⟨hold, hdel.append hold, lt_of_lt_of_le hold (id_le_last_after hmax), hlen⟩

/-- The size check, on what the assembler holds after a frame that is taken. -/
lemma length_absorb_le (h : Account fs a ps) (htaken : ¬a.Refuses fr) :
    (a.absorb fr).data.length ≤ maxPacketSize := by
  rw [← h.maxData_eq]
  exact not_lt.mp fun hlt => htaken (Or.inr (Or.inr hlt))

/-- A frame that does not end its packet joins the open frames with its id. -/
lemma push_more (h : Account fs a ps) (htaken : ¬a.Refuses fr) (hmax : fr.messageId < 2 ^ 64 - 1)
    (hdone : fr.done = false) : Account (fs ++ [fr]) (a.after fr) ps := by
  obtain ⟨hgathered, hid⟩ := h.gathered_absorb htaken
  have hless : ¬fr.id < a.last := fun hlt => htaken (Or.inl hlt)
  obtain ⟨before, hfs, hbefore, -⟩ := h.opened hless
  have hcurrent : (a.after fr).current = some (a.absorb fr) := by
    simp [PacketAssembler.after, hdone]
  have hsame : (a.after fr).last = fr.id := by
    rw [last_after hmax, hdone]
    rfl
  refine ⟨h.maxData_eq, by rw [last_after hmax, lastId_append], ?_,
    fun pkt hpkt => (h.delivered_old hless hmax pkt hpkt).2, h.ordered, ?_⟩
  · refine ⟨before, openFrames fs fr.id ++ [fr], ?_, ?_, ?_, ?_, ?_⟩
    · rw [← List.append_assoc, ← hfs]
    · rwa [hsame]
    · intro x hx
      rw [hsame]
      rw [List.mem_append, List.mem_singleton] at hx
      rcases hx with hx | rfl
      · exact mem_openFrames hx
      · exact ⟨rfl, hdone⟩
    · rw [hcurrent]
      intro hnone
      cases hnone
    · intro pkt hpkt
      rw [hcurrent, Option.mem_some_iff] at hpkt
      rw [← hpkt, hsame]
      exact ⟨hgathered, hid, h.length_absorb_le htaken⟩
  · rw [h.count, List.countP_append, List.countP_singleton, hdone]
    rfl

/-- A frame that ends its packet gives it out, and every id so far is at most that of the frame. -/
lemma push_done (h : Account fs a ps) (htaken : ¬a.Refuses fr) (hmax : fr.messageId < 2 ^ 64 - 1)
    (hdone : fr.done = true) : Account (fs ++ [fr]) (a.after fr) (ps ++ [a.absorb fr]) := by
  obtain ⟨-, hid⟩ := h.gathered_absorb htaken
  have hless : ¬fr.id < a.last := fun hlt => htaken (Or.inl hlt)
  have hold := h.delivered_old hless hmax
  obtain ⟨before, hfs, hbefore, -⟩ := h.opened hless
  have hcurrent : (a.after fr).current = none := by simp [PacketAssembler.after, hdone]
  have hnext : fr.id < (a.after fr).last := by
    rw [last_after hmax, hdone, if_pos rfl]
    exact fr.id_lt_nextId
  refine ⟨h.maxData_eq, by rw [last_after hmax, lastId_append], ?_, ?_, ?_, ?_⟩
  · refine ⟨fs ++ [fr], [], by simp, ?_, by simp, fun _ => rfl, by simp [hcurrent]⟩
    intro x hx
    rw [List.mem_append, List.mem_singleton] at hx
    rcases hx with hx | rfl
    · rw [hfs, List.mem_append] at hx
      rcases hx with hx | hx
      · exact (hbefore x hx).trans hnext
      · rw [(mem_openFrames hx).1]
        exact hnext
    · exact hnext
  · intro pkt hpkt
    rw [List.mem_append, List.mem_singleton] at hpkt
    rcases hpkt with hpkt | rfl
    · exact (hold pkt hpkt).2
    · refine ⟨h.delivered_absorb htaken hdone, ?_, h.length_absorb_le htaken⟩
      rw [hid]
      exact hnext
  · rw [List.pairwise_append]
    refine ⟨h.ordered, List.pairwise_singleton _ _, ?_⟩
    intro p hp q hq
    rw [List.mem_singleton] at hq
    rw [hq, hid]
    exact (hold p hp).1
  · rw [List.length_append, h.count, List.countP_append, List.countP_singleton, hdone]
    rfl

/-- **Step.**  A frame that is taken keeps the account. -/
theorem push (h : Account fs a ps) (htaken : ¬a.Refuses fr) (hmax : fr.messageId < 2 ^ 64 - 1) :
    Account (fs ++ [fr]) (a.after fr) (ps ++ (a.completes fr).toList) := by
  rw [PacketAssembler.completes]
  cases hdone : fr.done with
  | false =>
      rw [if_neg Bool.false_ne_true, Option.toList_none, List.append_nil]
      exact h.push_more htaken hmax hdone
  | true =>
      rw [if_pos rfl, Option.toList_some]
      exact h.push_done htaken hmax hdone

/-- **Run.** -/
theorem pushAll {gs : List Frame} {qs : List Packet} {b : PacketAssembler} (h : Account fs a ps)
    (hmax : ∀ fr ∈ gs, fr.messageId < 2 ^ 64 - 1) (hrun : a.pushAll gs = .ok (qs, b)) :
    Account (fs ++ gs) b (ps ++ qs) := by
  induction gs generalizing fs a ps qs with
  | nil =>
      cases hrun
      rwa [List.append_nil, List.append_nil]
  | cons fr gs ih =>
      rw [List.forall_mem_cons] at hmax
      by_cases href : a.Refuses fr
      · obtain ⟨e, he⟩ := PacketAssembler.push_refused href
        rw [PacketAssembler.pushAll, show a.push fr = (.error e, (a.push fr).2) from
          Prod.ext he rfl] at hrun
        cases hrun
      · rw [PacketAssembler.pushAll, PacketAssembler.push_taken href] at hrun
        dsimp only at hrun
        rw [Fallible.bind_eq_ok] at hrun
        obtain ⟨⟨rs, c⟩, hrest, hout⟩ := hrun
        cases hout
        have hnext := ih (h.push href hmax.1) hmax.2 hrest
        rwa [List.append_assoc, List.append_assoc, List.singleton_append] at hnext

end Account

/-- **Packet assembly against any peer.**  Along every run of frames that the assembler takes, the
packets come out with ids that go up, each made of the consecutive frames that carry its id, one for
each frame that ends a packet, and nothing it gives out or holds is too long.  The next frame is an
error exactly when its id is below the last one, its kind is not that of the open frames with its
id, or the data of these frames would be too long with it. -/
theorem pushAll_any_peer {fs : List Frame} (hfs : ∀ fr ∈ fs, fr.messageId < 2 ^ 64 - 1)
    {ps : List Packet} {a : PacketAssembler}
    (hrun : PacketAssembler.default.pushAll fs = .ok (ps, a)) :
    ps.Pairwise (fun p q => p.id < q.id) ∧
      (∀ pkt ∈ ps, Delivered fs pkt ∧ pkt.data.length ≤ maxPacketSize) ∧
      ps.length = fs.countP Frame.done ∧
      (∀ pkt ∈ a.current, Gathered (openFrames fs pkt.id) pkt ∧
        pkt.data.length ≤ maxPacketSize) ∧
      ∀ fr : Frame, (∃ e, (a.push fr).1 = .error e) ↔ fr.id < lastId fs ∨
        (∃ x ∈ openFrames fs fr.id, x.kind ≠ fr.kind) ∨
        maxPacketSize < ((openFrames fs fr.id ++ [fr]).flatMap Frame.data).length := by
  have haccount := Account.start.pushAll hfs hrun
  rw [List.nil_append, List.nil_append] at haccount
  refine ⟨haccount.ordered, ?_, haccount.count, ?_, ?_⟩
  · intro pkt hpkt
    exact ⟨(haccount.delivered pkt hpkt).1, (haccount.delivered pkt hpkt).2.2⟩
  · intro pkt hpkt
    obtain ⟨before, group, hsplit, hbefore, hgroup, -, hsome⟩ := haccount.buffer
    obtain ⟨hgathered, hid, hlen⟩ := hsome pkt hpkt
    refine ⟨?_, hlen⟩
    rwa [hsplit, hid, openFrames_append hbefore hgroup]
  · intro fr
    rw [PacketAssembler.push_fails_iff]
    exact haccount.refuses_iff

/-- Frames of three packets: one that is never finished, one of two frames and one of one frame. -/
def sampleFrames : List Frame :=
  [⟨1, 1, ⟨2⟩, false, false, [1]⟩, ⟨1, 2, ⟨2⟩, false, false, [2]⟩, ⟨1, 2, ⟨2⟩, true, true, [3]⟩,
    ⟨2, 1, ⟨3⟩, true, false, []⟩]

/-- What comes out of them. -/
def samplePackets : List Packet := [⟨1, 2, ⟨2⟩, true, [2, 3]⟩, ⟨2, 1, ⟨3⟩, false, []⟩]

theorem pushAll_any_peer_sample :
    samplePackets.Pairwise (fun p q => p.id < q.id) ∧
      (∀ pkt ∈ samplePackets, Delivered sampleFrames pkt ∧ pkt.data.length ≤ maxPacketSize) ∧
      samplePackets.length = 2 := by
  have hrun : PacketAssembler.default.pushAll sampleFrames
      = .ok (samplePackets, ⟨2, 2, none, maxPacketSize⟩) := rfl
  obtain ⟨hordered, hdelivered, hcount, -, -⟩ := pushAll_any_peer (by decide) hrun
  exact ⟨hordered, hdelivered, hcount⟩

end Storj.Rpc
