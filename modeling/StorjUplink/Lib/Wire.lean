import Mathlib.Data.Int.Notation
import Mathlib.Data.Nat.Notation
import Mathlib.Tactic.Common

/-!
# Self-delimiting codes

A code writes a value as bytes from which it can be read back in front of anything else.  Codes are
put together field by field, so a record has one as soon as its fields have.  They are made to
compute with: a number is as many ones as it says and a zero.

The primitives of a program (ciphers, hashes, the messages of a library) are parameters with laws,
and a theorem with such a parameter says nothing if no value satisfies them.  So there have to be
primitives whose laws are provable and which compute, in the kernel, in a reasonable time.  These
codes are what they are made from: reading back is by structural recursion, lengths are small, and
the law of a record is the law of its fields.

They are not the wire formats of any program.  Those are modelled where they are written and read,
with their own bounds and their own errors.
-/

namespace Wire

/-- A way to write values as bytes, with its reader. -/
structure Code (α : Type) where
  write : α → List UInt8
  read : List UInt8 → Option (α × List UInt8)
  read_write : ∀ a rest, read (write a ++ rest) = some (a, rest)

namespace Code

variable {α β : Type}

/-- One byte. -/
def byte : Code UInt8 where
  write b := [b]
  read
    | [] => none
    | b :: rest => some (b, rest)
  read_write _ _ := rfl

/-- Two values, one after the other. -/
def pair (c : Code α) (d : Code β) : Code (α × β) where
  write x := c.write x.1 ++ d.write x.2
  read bytes := (c.read bytes).bind fun (a, rest) => (d.read rest).map fun (b, rest) => ((a, b), rest)
  read_write := by
    rintro ⟨a, b⟩ rest
    simp [c.read_write, d.read_write]

/-- The same bytes for another type. -/
def via (c : Code α) (f : β → α) (g : α → Option β) (h : ∀ b, g (f b) = some b) : Code β where
  write b := c.write (f b)
  read bytes := (c.read bytes).bind fun (a, rest) => (g a).map fun b => (b, rest)
  read_write b rest := by simp [c.read_write, h]

/-- A truth value as a byte. -/
def bool : Code Bool :=
  byte.via (fun b => if b then 1 else 0) (fun n => some (n == 1)) (by decide)

/-- A number as ones. -/
def readOnes : List UInt8 → Option (ℕ × List UInt8)
  | [] => none
  | b :: rest => if b = 0 then some (0, rest) else (readOnes rest).map fun (n, rest) => (n + 1, rest)

def nat : Code ℕ where
  write n := List.replicate n 1 ++ [0]
  read := readOnes
  read_write n rest := by
    induction n with
    | zero => rfl
    | succ n ih =>
        rw [List.replicate_succ, List.cons_append, List.cons_append, readOnes,
          if_neg (by decide), ih]
        rfl

/-- A number with its sign. -/
def int : Code ℤ :=
  (pair bool nat).via (fun x => (decide (x < 0), x.natAbs))
    (fun x => some (if x.1 then -(x.2 : ℤ) else x.2)) (by
      intro x
      by_cases h : x < 0
      · simp only [h, decide_true, if_true]
        congr 1
        omega
      · simp only [h, decide_false]
        congr 1
        rw [if_neg Bool.false_ne_true]
        omega)

/-- A value or none. -/
def option (c : Code α) : Code (Option α) where
  write
    | none => [0]
    | some a => 1 :: c.write a
  read
    | [] => none
    | b :: rest => if b = 0 then some (none, rest)
        else (c.read rest).map fun (a, rest) => (some a, rest)
  read_write := by
    rintro (_ | a) rest
    · rfl
    · simp [c.read_write]

/-- A number of values. -/
def readMany (c : Code α) : ℕ → List UInt8 → Option (List α × List UInt8)
  | 0, bytes => some ([], bytes)
  | n + 1, bytes => (c.read bytes).bind fun (a, rest) =>
      (readMany c n rest).map fun (l, rest) => (a :: l, rest)

lemma readMany_write (c : Code α) (l : List α) (rest : List UInt8) :
    readMany c l.length (l.flatMap c.write ++ rest) = some (l, rest) := by
  induction l with
  | nil => rfl
  | cons a l ih =>
      rw [List.flatMap_cons, List.append_assoc, List.length_cons, readMany, c.read_write,
        Option.bind_some]
      dsimp only
      rw [ih]
      rfl

/-- A list: how many values, and the values. -/
def list (c : Code α) : Code (List α) where
  write l := nat.write l.length ++ l.flatMap c.write
  read bytes := (nat.read bytes).bind fun (n, rest) => readMany c n rest
  read_write l rest := by
    rw [List.append_assoc, nat.read_write, Option.bind_some]
    exact readMany_write c l rest

/-- Bytes with their number. -/
def bytes : Code (List UInt8) := list byte

end Code

end Wire
