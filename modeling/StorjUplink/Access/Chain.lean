import StorjUplink.Access.Caveat

/-!
# The chain of tails

The tail of a macaroon is the HMAC of its caveats, one after the other, over the HMAC of its head.
A holder without the secret extends the chain by adding a caveat to the end and cannot do anything
else: through any sequence of added caveats and of writing and reading the macaroon, the caveats
stay in place, the tail stays the last one of the chain, and the chain of a macaroon is a beginning
of the chain of whatever is derived from it (`attenuation`).

The tail is the only secret that a holder has, and it is spent by extending it.  So the security of
the format is a statement about sequences: the caveats of a macaroon are a beginning of those of
whatever was derived from it, and the tail of the derived one is computed from the tail of the
first.  That nobody can go back is the hash function's part and is not stated here; the hash is an
arbitrary function throughout.

Writing and reading stand among the steps because a macaroon changes hands as text.  A macaroon
with a length over the limit of the parser is not read at all, and one that is read is what was
written.
-/

namespace Storj.Access

open Storj.Enc (Bytes)

/-- `ct_eq`: a comparison that looks at every byte. -/
def ctEq (a b : Bytes) : Bool :=
  if a.length ≠ b.length then false
  else (a.zip b).foldl (fun acc xy => acc ||| (xy.1 ^^^ xy.2)) 0 == 0

/-- The differences come together to zero when there are none. -/
lemma foldl_xor_eq_zero {a b : Bytes} {acc : UInt8} (h : a.length = b.length) :
    (a.zip b).foldl (fun acc xy => acc ||| (xy.1 ^^^ xy.2)) acc = 0 ↔ acc = 0 ∧ a = b := by
  induction a generalizing b acc with
  | nil =>
      obtain rfl : b = [] := List.length_eq_zero_iff.mp h.symm
      simp
  | cons x a ih =>
      cases b with
      | nil => cases h
      | cons y b =>
          rw [List.zip_cons_cons, List.foldl_cons, ih (Nat.succ.inj h), UInt8.or_eq_zero_iff,
            UInt8.xor_eq_zero_iff, List.cons.injEq, and_assoc]

/-- **`ct_eq` is equality.** -/
lemma ctEq_eq_true {a b : Bytes} : ctEq a b = true ↔ a = b := by
  rw [ctEq]
  by_cases h : a.length = b.length
  · rw [if_neg (not_not.mpr h), beq_iff_eq, foldl_xor_eq_zero h]
    simp
  · rw [if_pos h]
    refine ⟨nofun, ?_⟩
    rintro rfl
    exact absurd rfl h

namespace Macaroon

variable (prim : AccessPrimitives)

/-- The loop of `Macaroon::derive_tail`: the tail after some caveats. -/
def chainTail (tail : Vector UInt8 32) (caveats : List Bytes) : Vector UInt8 32 :=
  caveats.foldl (fun tail cav => sign prim tail.toList cav) tail

/-- `Macaroon::derive_tail`: the tail that the secret gives, which the validator compares with the
one that it was sent. -/
def deriveTail (m : Macaroon) (secret : Bytes) : Vector UInt8 32 :=
  chainTail prim (sign prim secret m.head) m.caveats

/-- `Macaroon::validate`, by the comparison in constant time. -/
def validate (m : Macaroon) (secret : Bytes) : Bool :=
  ctEq (m.deriveTail prim secret).toList m.tail.toList

/-- The loop of `Macaroon::tails`: the tails after each of some caveats. -/
def chainTails (tail : Vector UInt8 32) : List Bytes → List (Vector UInt8 32)
  | [] => []
  | cav :: caveats =>
      let tail := sign prim tail.toList cav
      tail :: chainTails tail caveats

/-- `Macaroon::tails`: the tail before the first caveat, and the one after each. -/
def tails (m : Macaroon) (secret : Bytes) : List (Vector UInt8 32) :=
  let tail := sign prim secret m.head
  tail :: chainTails prim tail m.caveats

variable {prim} {m m' : Macaroon} {secret : Bytes} {tail : Vector UInt8 32}

/-- **A macaroon is valid when its tail is the last one of its chain.** -/
lemma validate_iff : m.validate prim secret = true ↔ m.tail = m.deriveTail prim secret := by
  rw [validate, ctEq_eq_true, Vector.toList_inj, eq_comm]

lemma chainTail_append (tail : Vector UInt8 32) (l l' : List Bytes) :
    chainTail prim tail (l ++ l') = chainTail prim (chainTail prim tail l) l' := List.foldl_append

lemma chainTails_append (tail : Vector UInt8 32) (l l' : List Bytes) :
    chainTails prim tail (l ++ l') =
      chainTails prim tail l ++ chainTails prim (chainTail prim tail l) l' := by
  induction l generalizing tail with
  | nil => rfl
  | cons c l ih => exact congrArg _ (ih _)

/-- The last tail of a chain is the derived one. -/
lemma getLast?_chainTails (tail : Vector UInt8 32) (l : List Bytes) :
    (tail :: chainTails prim tail l).getLast? = some (chainTail prim tail l) := by
  induction l generalizing tail with
  | nil => rfl
  | cons c l ih =>
      rw [chainTails, List.getLast?_cons_cons]
      exact ih _

lemma getLast?_tails (m : Macaroon) (secret : Bytes) :
    (m.tails prim secret).getLast? = some (m.deriveTail prim secret) :=
  getLast?_chainTails _ _

/-! ## Derived macaroons

Three kinds of steps, of which two add the same caveat in two layers of the code.  What a sequence
of them does is an append and a fold.
-/

/-- What is done to a macaroon: a caveat is added, to it or to the API key it makes, or it is
written and read. -/
inductive Step where
  | addFirstPartyCaveat (caveat : Bytes)
  | restrict (caveat : Caveat)
  | reencode

variable (prim) in
/-- One step, unless what was written cannot be read. -/
def step (m : Macaroon) : Step → Option Macaroon
  | .addFirstPartyCaveat caveat => some (m.addFirstPartyCaveat prim caveat)
  | .restrict caveat => some ((ApiKey.mk m).restrict prim caveat).mac
  | .reencode => (parse m.serialize).toOption

variable (prim) in
/-- A sequence of steps. -/
def derive (m : Macaroon) : List Step → Option Macaroon
  | [] => some m
  | s :: steps => (m.step prim s).bind fun m => m.derive steps

variable (prim) in
/-- The caveats that a step adds. -/
def Step.added : Step → List Bytes
  | .addFirstPartyCaveat caveat => [caveat]
  | .restrict caveat => [caveat.encode prim]
  | .reencode => []

/-- **What one step does**: its caveats at the end, and the tail that follows. -/
lemma step_eq {s : Step} (h : m.step prim s = some m') :
    m' = ⟨m.head, m.caveats ++ s.added prim, chainTail prim m.tail (s.added prim)⟩ := by
  cases s with
  | addFirstPartyCaveat caveat =>
      cases h
      rfl
  | restrict caveat =>
      cases h
      rfl
  | reencode =>
      have hparse : parse m.serialize = .ok m' := by
        rw [step] at h
        cases hp : parse m.serialize with
        | error e =>
            rw [hp] at h
            cases h
        | ok _ =>
            rw [hp] at h
            cases h
            rfl
      rw [(eq_of_parse_serialize hparse).1, Step.added, List.append_nil]
      rfl

/-- **What a sequence of steps does.** -/
lemma derive_eq {steps : List Step} (h : m.derive prim steps = some m') :
    m' = ⟨m.head, m.caveats ++ steps.flatMap (Step.added prim),
      chainTail prim m.tail (steps.flatMap (Step.added prim))⟩ := by
  induction steps generalizing m with
  | nil =>
      cases h
      rw [List.flatMap_nil, List.append_nil]
      rfl
  | cons s steps ih =>
      rw [derive] at h
      obtain ⟨m₁, hstep, h⟩ := Option.bind_eq_some_iff.mp h
      rw [ih h, step_eq hstep, List.flatMap_cons, chainTail_append, List.append_assoc]

/-- Writing and reading is no step at all for a macaroon in the limit of the varints. -/
lemma step_reencode (h : m.Fits) : m.step prim .reencode = some m := by
  rw [step, parse_serialize h]
  rfl

/-- **The attenuation chain.**  Whatever is derived from a fresh macaroon has its head and exactly
the caveats that were added, in order; it is valid, and its tail is the last one of its chain.  The
chain of any macaroon begins the chain of whatever is derived from it.  A macaroon is valid exactly
when its tail is the HMAC of its caveats over its head. -/
theorem attenuation (prim : AccessPrimitives) (secret : Bytes) :
    (∀ head steps m, (fromParts prim head secret).derive prim steps = some m →
      m.head = head ∧ m.caveats = steps.flatMap (Step.added prim) ∧
      m.validate prim secret = true ∧ (m.tails prim secret).getLast? = some m.tail) ∧
    (∀ m steps m', derive prim m steps = some m' →
      m.tails prim secret <+: m'.tails prim secret) ∧
    (∀ m : Macaroon, m.validate prim secret = true ↔
      m.tail = m.caveats.foldl (fun tail cav => prim.hmacSha256 tail.toList cav)
        (prim.hmacSha256 secret m.head)) ∧
    ∀ m : Macaroon, m.Fits → step prim m .reencode = some m := by
  refine ⟨fun head steps m h => ?_, fun m steps m' h => ?_, fun m => validate_iff,
    fun m => step_reencode⟩
  · rw [derive_eq h]
    refine ⟨rfl, List.nil_append _, validate_iff.mpr rfl, ?_⟩
    rw [getLast?_tails]
    rfl
  · rw [derive_eq h, tails, tails]
    dsimp only
    rw [chainTails_append, List.cons_prefix_cons]
    exact ⟨rfl, List.prefix_append _ _⟩

end Macaroon

end Storj.Access
