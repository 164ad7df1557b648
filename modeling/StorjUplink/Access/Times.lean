import StorjUplink.Access.Sample

/-!
# The times of a caveat

A caveat keeps its times as `SystemTime` and its time to live as `Duration`, and writes them as
seconds and nanoseconds.  Before the epoch the nanoseconds count upwards from the second below, so
writing borrows a second and reading adds it back.

The reading functions call operations that may have no result: `checked_add` and `checked_sub` of a
time return none, and the sum of two durations panics.  `systemFromTimestampSteps` and
`stdFromDurationSteps` make these calls one by one; on the numbers of a message none of them panics
and they compute what `systemFromTimestamp` and `stdFromDuration` say.
-/

namespace Storj.Access

open MachineInt

/-! ## Reading, call by call

`SystemTime` holds a signed number of seconds, so adding may leave its range.  The numbers of a
message are small enough for that never to happen.
-/

instance (x : ℤ) : Decidable (InI64 x) := inferInstanceAs (Decidable (_ ∧ _))

/-- A time that `SystemTime` holds: whole seconds in an `i64`, and nanoseconds. -/
def Representable (t : ℤ) : Prop := InI64 (t / nanosPerSec)

instance (t : ℤ) : Decidable (Representable t) := inferInstanceAs (Decidable (InI64 _))

/-- `SystemTime::checked_add` and `checked_sub`, from the exact result. -/
def checkedTime (t : ℤ) : Option ℤ := if Representable t then some t else none

/-- `system_from_timestamp`, with the times between its calls.  The seconds are added to the epoch
or taken from it first, then the nanoseconds are added. -/
def systemFromTimestampSteps (ts : Pb.Timestamp) : Option ℤ := do
  let nanos := (max ts.nanos 0).toNat
  let durSecs := ts.seconds.natAbs * nanosPerSec
  let durNanos := nanos
  if ts.seconds ≥ 0 then
    let t ← checkedTime (0 + durSecs)
    checkedTime (t + durNanos)
  else
    let t ← checkedTime (0 - durSecs)
    checkedTime (t + durNanos)

/-- The sum of two durations, which panics when the seconds do not fit into a `u64`. -/
def addDurations (d e : ℕ) : Except String ℕ :=
  if (d + e) / nanosPerSec < 2 ^ 64 then .ok (d + e) else .error "overflow when adding durations"

/-- `std_from_duration`, with its addition. -/
def stdFromDurationSteps (d : Pb.Duration) : Except String (Option ℕ) :=
  if d.seconds < 0 then .ok none
  else do
    let secs := d.seconds.toNat
    let nanos := (max d.nanos 0).toNat
    let sum ← addDurations (secs * nanosPerSec) nanos
    .ok (some sum)

/-- **Reading a timestamp.** -/
lemma systemFromTimestampSteps_eq {ts : Pb.Timestamp} (h : InI64 ts.seconds) :
    systemFromTimestampSteps ts = systemFromTimestamp ts := by
  obtain ⟨hlow, hhigh⟩ := h
  have hexact : (if ts.seconds ≥ 0 then (0 : ℤ) + (ts.seconds.natAbs * nanosPerSec : ℕ)
      else 0 - (ts.seconds.natAbs * nanosPerSec : ℕ)) = ts.seconds * nanosPerSec := by
    rw [nanosPerSec]
    split_ifs with h
    · omega
    · omega
  have hfirst : checkedTime (ts.seconds * nanosPerSec) = some (ts.seconds * nanosPerSec) := by
    rw [checkedTime, if_pos]
    rw [Representable, Int.mul_ediv_cancel _ (by decide)]
    exact ⟨hlow, hhigh⟩
  have hnanos : (((max ts.nanos 0).toNat : ℕ) : ℤ) = max ts.nanos 0 :=
    Int.toNat_of_nonneg (le_max_right _ _)
  have hsecond : checkedTime (ts.seconds * nanosPerSec + max ts.nanos 0)
      = systemFromTimestamp ts := by
    rw [checkedTime, systemFromTimestamp]
    simp only [Representable, InI64, i64Min, i64Max, nanosPerSec] at *
    congr 1
    rw [eq_iff_iff]
    omega
  rw [systemFromTimestampSteps]
  split_ifs at hexact ⊢ with hpos
  · rw [hexact, hfirst, Option.bind_eq_bind, Option.bind_some, hnanos, hsecond]
  · rw [hexact, hfirst, Option.bind_eq_bind, Option.bind_some, hnanos, hsecond]

/-- **Reading a duration never panics.** -/
lemma stdFromDurationSteps_eq {d : Pb.Duration} (hseconds : InI64 d.seconds)
    (hnanos : InI32 d.nanos) : stdFromDurationSteps d = .ok (stdFromDuration d) := by
  rw [stdFromDurationSteps, stdFromDuration]
  split_ifs with hneg
  · rfl
  · have hfits : (d.seconds.toNat * nanosPerSec + (max d.nanos 0).toNat) / nanosPerSec < 2 ^ 64 := by
      simp only [InI64, InI32, i64Min, i64Max, nanosPerSec] at *
      omega
    have hmax : (max d.nanos 0).toNat = d.nanos.toNat := by omega
    dsimp only
    rw [addDurations, if_pos hfits, Fallible.ok_bind, hmax]

/-! ## Writing and reading back

A written time has its nanoseconds between zero and a second on both sides of the epoch.
-/

/-- The nanoseconds of a written time are a fraction of a second. -/
lemma nanos_timestamp (t : ℤ) :
    0 ≤ (timestampFromSystem t).nanos ∧ (timestampFromSystem t).nanos ≤ 999999999 := by
  rw [timestampFromSystem]
  dsimp only
  split_ifs with h hnanos
  all_goals
    simp only [nanosPerSec] at *
    omega

/-- **A time is read back.**  Before the epoch the borrowed second is returned. -/
lemma systemFromTimestamp_timestampFromSystem {t : ℤ} (h : |t| < 2 ^ 63 * nanosPerSec) :
    systemFromTimestamp (timestampFromSystem t) = some t := by
  have hnanos := (nanos_timestamp t).1
  rw [abs_lt] at h
  have hvalue : (timestampFromSystem t).seconds * nanosPerSec + (timestampFromSystem t).nanos
      = t := by
    rw [timestampFromSystem]
    dsimp only
    split_ifs with hpos hzero
    all_goals
      simp only [i64Max, nanosPerSec] at *
      omega
  rw [systemFromTimestamp, max_eq_left hnanos, hvalue, if_pos]
  simp only [i64Max, nanosPerSec] at *
  omega

/-- **A time to live is read back.** -/
lemma stdFromDuration_durationFromStd {d : ℕ} (h : d < 2 ^ 63 * nanosPerSec) :
    stdFromDuration (durationFromStd d) = some d := by
  have hseconds : ¬(durationFromStd d).seconds < 0 := by
    simp only [durationFromStd, i64Max, nanosPerSec]
    omega
  rw [stdFromDuration, if_neg hseconds, Option.some_inj]
  simp only [durationFromStd, i64Max, nanosPerSec] at *
  omega

namespace Caveat

/-- The times of a caveat that can be written: less than `2 ^ 63` seconds from the epoch, and as
long a time to live. -/
structure Writable (c : Caveat) : Prop where
  notAfter : ∀ t ∈ c.notAfter, |t| < 2 ^ 63 * nanosPerSec
  notBefore : ∀ t ∈ c.notBefore, |t| < 2 ^ 63 * nanosPerSec
  maxObjectTtl : ∀ d ∈ c.maxObjectTtl, d < 2 ^ 63 * nanosPerSec

/-- A field is written and read back when its values are. -/
lemma bind_map_of_forall {α β : Type} {f : α → β} {g : β → Option α} {x : Option α}
    (h : ∀ a ∈ x, g (f a) = some a) : (x.map f).bind g = x := by
  cases x with
  | none => rfl
  | some a => exact h a rfl

lemma fromProto_toProto {c : Caveat} (h : c.Writable) : fromProto c.toProto = c := by
  have hafter := bind_map_of_forall fun t ht =>
    systemFromTimestamp_timestampFromSystem (h.notAfter t ht)
  have hbefore := bind_map_of_forall fun t ht =>
    systemFromTimestamp_timestampFromSystem (h.notBefore t ht)
  have httl := bind_map_of_forall fun d hd =>
    stdFromDuration_durationFromStd (h.maxObjectTtl d hd)
  rw [fromProto, toProto]
  dsimp only
  rw [hafter, hbefore, httl]

/-- **Caveat round trip.**  What a caveat with writable times is encoded to decodes to it; the
written times always have their nanoseconds in range; and no timestamp and no duration of a message
makes the decoder panic, which reads them as it should. -/
theorem decode_encode_self {prim : AccessPrimitives} (hprim : prim.Lawful) :
    (∀ c : Caveat, c.Writable → decode prim (encode prim c) = .ok c) ∧
      (∀ (c : Caveat), ∀ ts, ts ∈ c.toProto.notAfter ∨ ts ∈ c.toProto.notBefore →
        0 ≤ ts.nanos ∧ ts.nanos ≤ 999999999) ∧
      (∀ ts : Pb.Timestamp, InI64 ts.seconds → InI32 ts.nanos →
        systemFromTimestampSteps ts = systemFromTimestamp ts) ∧
      ∀ d : Pb.Duration, InI64 d.seconds → InI32 d.nanos →
        stdFromDurationSteps d = .ok (stdFromDuration d) := by
  refine ⟨?_, ?_, fun ts hseconds _ => systemFromTimestampSteps_eq hseconds,
    fun d hseconds hnanos => stdFromDurationSteps_eq hseconds hnanos⟩
  · intro c hc
    rw [decode, encode, hprim.caveat _ c.inRange_toProto]
    dsimp only
    rw [fromProto_toProto hc]
  · rintro c ts (hts | hts)
    · obtain ⟨t, -, rfl⟩ := Option.map_eq_some_iff.mp hts
      exact nanos_timestamp t
    · obtain ⟨t, -, rfl⟩ := Option.map_eq_some_iff.mp hts
      exact nanos_timestamp t

/-- A caveat with a time one nanosecond before the epoch and the earliest time that can be
written. -/
def sampleTimes : Caveat where
  disallow := (fromPermission {}).disallow
  allowedPaths := [⟨[98], [1, 2]⟩]
  notAfter := some (-1)
  notBefore := some (1 - 2 ^ 63 * nanosPerSec)
  maxObjectTtl := some (2 ^ 63 * nanosPerSec - 1)
  nonce := [7]

theorem decode_encode_self_sample :
    decode bytePrimitives (encode bytePrimitives sampleTimes) = .ok sampleTimes := by
  refine (decode_encode_self bytePrimitives_lawful).1 sampleTimes ⟨?_, ?_, ?_⟩
  · rintro t ⟨⟩
    decide
  · rintro t ⟨⟩
    decide
  · rintro t ⟨⟩
    decide

end Caveat

end Storj.Access
