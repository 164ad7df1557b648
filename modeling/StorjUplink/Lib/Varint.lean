import Mathlib.Tactic.Ring
import Mathlib.Data.Nat.Bitwise

/-!
# Numbers in groups of seven bits

The arithmetic of little-endian base-128 numbers, for the loops that read them into a 64-bit word:
the low seven bits of a byte, and the state `Reading` of a loop in front of the rest of a number.
`Base128` says which bytes stand for a number, whether or not they are the shortest ones.

A reader takes byte after byte and puts the low seven bits into the word at a shift that grows by
seven, and stop at the first byte without the top bit.  Readers differ in how many bytes they
accept and in what they do when the word overflows.  `Reading` is the part that they share: in
front of the remaining bytes of `x`, the word holds the bits of `x` below the shift.
`Reading.next` is one turn, and the module of each reader adds its own bound.

Encodings with superfluous zero groups are numbers too.  A writer never makes them, but a reader
accepts them, which matters where a parsed message is written again.
-/

namespace Varint

/-- **The bytes of a number**, seven bits each, the lowest first; all but the last have their top
bit set. -/
inductive Base128 : ℕ → List UInt8 → Prop
  | last {b : UInt8} (h : b.toNat < 128) : Base128 b.toNat [b]
  | more {b : UInt8} {n : ℕ} {bs : List UInt8} (h : 128 ≤ b.toNat) (hn : Base128 n bs) :
      Base128 (b.toNat - 128 + 128 * n) (b :: bs)

lemma Base128.length_pos {n : ℕ} {bs : List UInt8} (h : Base128 n bs) : 0 < bs.length := by
  cases h with
  | last h => exact Nat.one_pos
  | more h hn => exact Nat.succ_pos _

/-- The low seven bits of a byte. -/
lemma and_127 (b : UInt8) : b.toNat &&& 127 = b.toNat % 128 := Nat.and_two_pow_sub_one_eq_mod _ 7

lemma base128_cons {n : ℕ} {b : UInt8} {bs : List UInt8} : Base128 n (b :: bs) ↔
    b.toNat < 128 ∧ n = b.toNat ∧ bs = [] ∨
      128 ≤ b.toNat ∧ ∃ m, Base128 m bs ∧ n = b.toNat % 128 + 128 * m := by
  constructor
  · intro h
    cases h with
    | last h => exact Or.inl ⟨h, rfl, rfl⟩
    | more h hn =>
        have hb := b.toNat_lt
        exact Or.inr ⟨h, _, hn, by omega⟩
  · rintro (⟨h, rfl, rfl⟩ | ⟨h, m, hm, rfl⟩)
    · exact .last h
    · have hb := b.toNat_lt
      have hlow : b.toNat % 128 = b.toNat - 128 := by omega
      rw [hlow]
      exact .more h hm

lemma toNat_low (x : ℕ) : (UInt8.ofNat x &&& 127).toNat = x % 128 := by
  rw [UInt8.toNat_and, UInt8.toNat_ofNat', show (127 : UInt8).toNat = 2 ^ 7 - 1 from rfl,
    Nat.and_two_pow_sub_one_eq_mod]
  omega

/-- A byte that says that another one follows. -/
lemma toNat_more (x : ℕ) : (UInt8.ofNat x &&& 127 ||| 128).toNat = x % 128 + 128 := by
  have hlow : x % 128 < 2 ^ 7 := Nat.mod_lt _ (by decide)
  rw [UInt8.toNat_or, toNat_low, show (128 : UInt8).toNat = 2 ^ 7 * 1 from rfl, Nat.or_comm,
    ← Nat.two_pow_add_eq_or_of_lt hlow]
  omega

/-- The place of the next group. -/
lemma two_pow_next (i : ℕ) : 2 ^ (7 * (i + 1)) = 128 * 2 ^ (7 * i) := by
  rw [Nat.mul_succ, Nat.pow_add, Nat.mul_comm]

/-- Seven bits on top of the ones that were read. -/
lemma or_shift {out v shift : ℕ} (hout : out < 2 ^ shift) (hfit : v * 2 ^ shift < 2 ^ 64) :
    out ||| (v <<< shift) % 2 ^ 64 = out + v * 2 ^ shift := by
  rw [Nat.shiftLeft_eq, Nat.mod_eq_of_lt hfit, Nat.or_comm, Nat.mul_comm,
    ← Nat.two_pow_add_eq_or_of_lt hout, Nat.add_comm]

/-- The state of the loop in front of the varint of `x`: the bits below `shift` are in `out`. -/
structure Reading (x out shift : ℕ) : Prop where
  out_lt : out < 2 ^ shift
  fits : out + x * 2 ^ shift < 2 ^ 64

namespace Reading

variable {x out shift : ℕ} (h : Reading x out shift)

include h

lemma mul_lt : x * 2 ^ shift < 2 ^ 64 := by
  have := h.fits
  omega

/-- After a byte that says that another one follows. -/
lemma next (hx : 128 ≤ x) :
    shift + 7 < 64 ∧ out ||| ((x % 128) <<< shift) % 2 ^ 64 = out + x % 128 * 2 ^ shift ∧
      Reading (x / 128) (out + x % 128 * 2 ^ shift) (shift + 7) := by
  have hpow : 2 ^ (shift + 7) = 128 * 2 ^ shift := by
    rw [Nat.pow_add, Nat.mul_comm]
  have hsplit : x * 2 ^ shift = x / 128 * (128 * 2 ^ shift) + x % 128 * 2 ^ shift := by
    rw [← Nat.mul_assoc, ← Nat.add_mul, Nat.mul_comm (x / 128), Nat.div_add_mod]
  have hlow : x % 128 * 2 ^ shift ≤ 127 * 2 ^ shift :=
    Nat.mul_le_mul_right _ (Nat.le_of_lt_succ (Nat.mod_lt _ (by decide)))
  have hfits := h.fits
  have hout := h.out_lt
  refine ⟨?_, or_shift hout (by omega), ⟨?_, ?_⟩⟩
  · by_contra hge
    have hbig : 2 ^ 64 ≤ 2 ^ (shift + 7) := Nat.pow_le_pow_right (by decide) (by omega)
    have hmul : 1 * (128 * 2 ^ shift) ≤ x / 128 * (128 * 2 ^ shift) :=
      Nat.mul_le_mul_right _ (by omega)
    omega
  · rw [hpow]
    omega
  · rw [hpow]
    omega

end Reading

end Varint
