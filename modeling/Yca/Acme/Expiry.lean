import Mathlib.Algebra.BigOperators.Ring.Finset
import Mathlib.Algebra.Ring.Int.Defs
import Mathlib.Data.List.TakeWhile
import Mathlib.Data.Rat.Floor
import Mathlib.Tactic.GCongr
import Mathlib.Tactic.Linarith
import Mathlib.Tactic.NormNum
import Mathlib.Tactic.Positivity
import Yca.Core.Numerals
import Yca.Core.Rounding

/-!
# Expiry arguments

`parseExpiry` of `acme/main.go` reads how long an account binding may be used: a number
of days (`90d`) or any duration of Go.  Durations are 64-bit counts of nanoseconds.

What an argument denotes is stated in exact arithmetic (`amount`).  Of the day counts only
the upper end is checked before the multiplication, so counts far below zero come back
positive.  The durations of Go are summed up in 64 bits, where the sum may start again at
zero, and their fractions are read by floating-point numbers (`Core.Rounding`), where the
digits behind the nanoseconds may round up.
-/

namespace Yca
namespace Acme
namespace Expiry

open Yca.Core

section Numbers

/-- A number in an `int64` register. -/
def int64 (n : Int) : Int :=
  n.bmod (2 ^ 64)

def isDigit (b : UInt8) : Bool :=
  decide (0x30 ≤ b.toNat) && decide (b.toNat ≤ 0x39)

/-- The value of a digit. -/
def digit (b : UInt8) : Fin 10 :=
  Fin.ofNat 10 (b.toNat - 0x30)

/-- The number some digits denote. -/
def number (ds : List (Fin 10)) : Nat :=
  numeral 10 (ds.map Fin.val)

/-- Whether a text starts with a minus sign, and the text behind its sign. -/
def signed : List UInt8 → Bool × List UInt8
  | [] => (false, [])
  | c :: cs =>
      if c = 0x2D then (true, cs)
      else if c = 0x2B then (false, cs)
      else (false, c :: cs)

/-- The integer a text denotes: digits, with or without a sign. -/
def integer (s : List UInt8) : Option Int :=
  let ds := (signed s).2
  if ds.isEmpty || !ds.all isDigit then none
  else
    let n := number (ds.map digit)
    some (if (signed s).1 then -(n : Int) else n)

/-- `strconv.ParseInt(s, 10, 64)`; `none` where it returns an error. -/
def parseInt (s : List UInt8) : Option Int :=
  match integer s with
  | none => none
  | some n => if n < -2 ^ 63 ∨ 2 ^ 63 ≤ n then none else some n

end Numbers

section Terms

/-- The units of a duration. -/
inductive TimeUnit
  | nanosecond
  | microsecond
  | millisecond
  | second
  | minute
  | hour
  deriving DecidableEq, Repr

/-- Nanoseconds of a unit. -/
def TimeUnit.nanos : TimeUnit → Nat
  | .nanosecond => 1
  | .microsecond => 1000
  | .millisecond => 1000000
  | .second => 1000000000
  | .minute => 60000000000
  | .hour => 3600000000000

/-- `unitMap` of package `time`; `µs` may be spelled with either character. -/
def unitMap : List (List UInt8 × TimeUnit) :=
  [ ([0x6E, 0x73], .nanosecond),
    ([0x75, 0x73], .microsecond),
    ([0xC2, 0xB5, 0x73], .microsecond),
    ([0xCE, 0xBC, 0x73], .microsecond),
    ([0x6D, 0x73], .millisecond),
    ([0x73], .second),
    ([0x6D], .minute),
    ([0x68], .hour) ]

/-- One number of a duration with its unit. -/
structure Term where
  /-- The digits before the point. -/
  whole : List (Fin 10)
  /-- The digits behind the point. -/
  fraction : List (Fin 10)
  unit : TimeUnit
  deriving DecidableEq, Repr

/-- The unit a text starts with runs up to the next number. -/
def isUnitByte (b : UInt8) : Bool :=
  !(b == 0x2E || isDigit b)

/-- The fraction a text starts with, and what is behind it. -/
def takeFraction : List UInt8 → List UInt8 × List UInt8
  | [] => ([], [])
  | c :: cs => if c = 0x2E then (cs.takeWhile isDigit, cs.dropWhile isDigit) else ([], c :: cs)

/-- The term a text starts with, and the text behind it. -/
def takeTerm (s : List UInt8) : Option (Term × List UInt8) :=
  let whole := s.takeWhile isDigit
  let fraction := (takeFraction (s.dropWhile isDigit)).1
  let s := (takeFraction (s.dropWhile isDigit)).2
  let u := s.takeWhile isUnitByte
  if whole.isEmpty && fraction.isEmpty then none
  else
    -- a missing unit is not in the map either
    match unitMap.lookup u with
    | none => none
    | some unit => some (⟨whole.map digit, fraction.map digit, unit⟩, s.drop u.length)

theorem length_takeFraction (s : List UInt8) :
    (takeFraction s).2.length ≤ s.length := by
  cases s with
  | nil => exact Nat.le_refl 0
  | cons c cs =>
      rw [takeFraction]
      split_ifs
      · exact ((List.dropWhile_sublist isDigit).length_le).trans (Nat.le_succ _)
      · exact Nat.le_refl _

/-- A term takes a part of the text: its unit is not empty. -/
theorem takeTerm_length
    {s rest : List UInt8}
    {t : Term}
    (h : takeTerm s = some (t, rest)) :
    rest.length < s.length := by
  have hnil : unitMap.lookup [] = none := by decide
  unfold takeTerm at h
  simp only at h
  split_ifs at h
  split at h
  · exact absurd h (by simp)
  · rename_i unit hunit
    obtain ⟨_, rfl⟩ := Prod.mk.inj (Option.some.inj h)
    have hbehind := length_takeFraction (s.dropWhile isDigit)
    have hwhole := (List.dropWhile_sublist (l := s) isDigit).length_le
    have htaken := (List.takeWhile_sublist (l := (takeFraction (s.dropWhile isDigit)).2) isUnitByte).length_le
    have hne : (takeFraction (s.dropWhile isDigit)).2.takeWhile isUnitByte ≠ [] := by
      intro hu
      rw [hu, hnil] at hunit
      exact absurd hunit (by simp)
    have hpos := List.length_pos_of_ne_nil hne
    rw [List.length_drop]
    omega

/-- The terms of a duration; `none` where it is not of the form. -/
def terms (s : List UInt8) : Option (List Term) :=
  if s.isEmpty then some []
  else
    match _h : takeTerm s with
    | none => none
    | some (t, rest) => (terms rest).map fun ts => t :: ts
  termination_by s.length
  decreasing_by exact takeTerm_length _h

end Terms

section Durations

/-- The result of a `float64` operation: the nearest number of 53 bits.  Of the bounds
of its exponent nothing is seen below: where they would matter, behind hundreds of zeros, a
fraction comes to nothing either way (`fractionNanos_of_long`). -/
def float64 (x : ℚ) : ℚ :=
  roundTo 53 x

/-- `leadingInt`. -/
def leadingInt : List (Fin 10) → Nat → Option Nat
  | [], x => some x
  | d :: ds, x =>
      if x > 2 ^ 63 / 10 then none
      else
        let x := (x * 10 + d.val) % 2 ^ 64
        if x > 2 ^ 63 then none else leadingInt ds x

/-- `leadingFraction`: digits beyond the precision are passed over. -/
def leadingFraction : List (Fin 10) → Nat → ℚ → Nat × ℚ
  | [], x, scale => (x, scale)
  | d :: ds, x, scale =>
      if x > (2 ^ 63 - 1) / 10 then (x, scale)
      else
        let y := (x * 10 + d.val) % 2 ^ 64
        if y > 2 ^ 63 then (x, scale) else leadingFraction ds y (float64 (scale * 10))

/-- `uint64(float64(f) * (float64(unit) / scale))`. -/
def fractionNanos (f : Nat) (scale : ℚ) (unit : TimeUnit) : Nat :=
  ⌊float64 (float64 f * float64 (float64 unit.nanos / scale))⌋₊

/-- What a term adds to the loop of `time.ParseDuration`, a `uint64`. -/
def Term.parsed (t : Term) : Option Nat :=
  match leadingInt t.whole 0 with
  | none => none
  | some v =>
      if v > 2 ^ 63 / t.unit.nanos then none
      else
        let v := v * t.unit.nanos % 2 ^ 64
        let f := leadingFraction t.fraction 0 1
        if f.1 > 0 then
          let v := (v + fractionNanos f.1 f.2 t.unit) % 2 ^ 64
          if v > 2 ^ 63 then none else some v
        else some v

/-- The loop of `time.ParseDuration`. -/
def durationLoop : List Term → Nat → Option Nat
  | [], d => some d
  | t :: ts, d =>
      match t.parsed with
      | none => none
      | some v =>
          let d := (d + v) % 2 ^ 64
          if d > 2 ^ 63 then none else durationLoop ts d

/-- `time.ParseDuration`; `none` where it returns an error. -/
def parseDuration (s : List UInt8) : Option Int :=
  let rest := (signed s).2
  if rest = [0x30] then some 0
  else if rest.isEmpty then none
  else
    match terms rest with
    | none => none
    | some ts =>
        match durationLoop ts 0 with
        | none => none
        | some d =>
            if (signed s).1 then some (int64 (-int64 d))
            else if d > 2 ^ 63 - 1 then none
            else some (int64 d)

end Durations

section Expiries

/-- `24 * time.Hour`. -/
def day : Int :=
  86400000000000

inductive ExpiryError
  /-- `invalid --expires %q (<N>d or a duration such as 12h)` -/
  | invalid
  /-- `--expires must be positive, got %q` -/
  | notPositive
  deriving DecidableEq, Repr

/-- `strings.CutSuffix(s, "d")`. -/
def cutDays (s : List UInt8) : Option (List UInt8) :=
  if s.getLast? = some 0x64 then some s.dropLast else none

/-- The last check of `parseExpiry`. -/
def positive (d : Int) : Except ExpiryError Int :=
  if d ≤ 0 then .error .notPositive else .ok d

/-- `parseExpiry`. -/
def parseExpiry (s : List UInt8) : Except ExpiryError Int :=
  match cutDays s with
  | some n =>
      match parseInt n with
      | none => .error .invalid
      | some days =>
          if days > (2 ^ 63 - 1) / day then .error .invalid
          else positive (int64 (int64 (days * 24) * (TimeUnit.nanos .hour)))
  | none =>
      match parseDuration s with
      | none => .error .invalid
      | some d => positive d

/-- The nanoseconds of a term, by all of its digits. -/
def Term.exact (t : Term) : ℚ :=
  number (t.whole ++ t.fraction) * t.unit.nanos / 10 ^ t.fraction.length

/-- The whole nanoseconds some terms denote. -/
def denoted (ts : List Term) : Int :=
  ⌊(ts.map Term.exact).sum⌋

/-- The nanoseconds a duration of Go denotes. -/
def goDuration (s : List UInt8) : Option Int :=
  let rest := (signed s).2
  if rest = [0x30] then some 0
  else if rest.isEmpty then none
  else
    match terms rest with
    | none => none
    | some ts => some (if (signed s).1 then -denoted ts else denoted ts)

/-- The nanoseconds an argument denotes: those of so many days, or those of a duration. -/
def amount (s : List UInt8) : Option Int :=
  match cutDays s with
  | some n =>
      match integer n with
      | none => none
      | some days => some (days * day)
  | none => goDuration s

end Expiries

section Registers

theorem int64_of_lt
    {n : Int}
    (hlow : -2 ^ 63 ≤ n)
    (hhigh : n < 2 ^ 63) :
    int64 n = n := by
  refine Int.bmod_eq_of_le ?_ ?_
  · omega
  · omega

/-- A product of registers is the product, once around for all. -/
theorem int64_mul (a b : Int) : int64 (int64 a * b) = int64 (a * b) :=
  Int.bmod_mul_bmod

/-- A register shows a positive number when the lower half of its range is hit. -/
theorem int64_pos_iff (n : Int) : 0 < int64 n ↔ 0 < n % 2 ^ 64 ∧ n % 2 ^ 64 < 2 ^ 63 := by
  have hmod := Int.emod_lt_of_pos n (show (0 : Int) < 2 ^ 64 by decide)
  have hnonneg := Int.emod_nonneg n (show (2 : Int) ^ 64 ≠ 0 by decide)
  rw [int64, Int.bmod_def]
  split_ifs with hlow
  · omega
  · omega

end Registers

section Fractions

theorem TimeUnit.nanos_pos (u : TimeUnit) : 0 < u.nanos := by
  cases u <;> decide

theorem TimeUnit.nanos_le (u : TimeUnit) : u.nanos ≤ 3600000000000 := by
  cases u <;> decide

theorem number_append (ds es : List (Fin 10)) :
    number (ds ++ es) = number ds * 10 ^ es.length + number es := by
  rw [number, List.map_append, numeral_append, List.length_map]
  rfl

theorem number_concat (ds : List (Fin 10)) (d : Fin 10) :
    number (ds ++ [d]) = number ds * 10 + d := by
  rw [number, List.map_append, List.map_singleton, numeral_concat, Nat.mul_comm]
  rfl

theorem number_lt (ds : List (Fin 10)) : number ds < 10 ^ ds.length := by
  have h : number ds < 10 ^ (ds.map Fin.val).length := by
    refine numeral_lt fun d hd => ?_
    obtain ⟨e, _, rfl⟩ := List.mem_map.mp hd
    exact e.isLt
  rwa [List.length_map] at h

/-- Of a fraction some leading digits are read, under a power of ten that may have lost a
part each time it grew. -/
theorem leadingFraction_spec
    (ds pre : List (Fin 10))
    {scale : ℚ}
    (hpre : number pre ≤ 2 ^ 63)
    (hscale : 0 < scale) :
    ∃ k ≤ ds.length,
      (leadingFraction ds (number pre) scale).1 = number (pre ++ ds.take k) ∧
      number (pre ++ ds.take k) ≤ 2 ^ 63 ∧
      scale * (10 * (1 - 1 / 2 ^ 53)) ^ k ≤ (leadingFraction ds (number pre) scale).2 := by
  induction ds generalizing pre scale with
  | nil =>
      exact ⟨0, Nat.le_refl 0, by simp [leadingFraction], by simpa using hpre,
        by simp [leadingFraction]⟩
  | cons d ds ih =>
      have hd := d.isLt
      have hstop : ∃ k ≤ (d :: ds).length,
          number pre = number (pre ++ (d :: ds).take k) ∧
          number (pre ++ (d :: ds).take k) ≤ 2 ^ 63 ∧
          scale * (10 * (1 - 1 / 2 ^ 53)) ^ k ≤ scale :=
        ⟨0, Nat.zero_le _, by simp, by simpa using hpre, by simp⟩
      rw [leadingFraction]
      split_ifs with hbig
      · exact hstop
      · have hnext : (number pre * 10 + d.val) % 2 ^ 64 = number (pre ++ [d]) := by
          rw [number_concat]
          omega
        simp only [hnext]
        split_ifs with hover
        · exact hstop
        · have hgrown : scale * (10 * (1 - 1 / 2 ^ 53)) ≤ float64 (scale * 10) := by
            have h := le_roundTo (p := 53) (x := scale * 10) (by positivity)
            rw [float64]
            linarith
          have hpos : 0 < float64 (scale * 10) := by
            refine lt_of_lt_of_le (mul_pos hscale ?_) hgrown
            norm_num
          obtain ⟨k, hk, hvalue, hle, hlow⟩ := ih (pre ++ [d]) (Nat.not_lt.mp hover) hpos
          refine ⟨k + 1, Nat.succ_le_succ hk, ?_, ?_, ?_⟩
          · rw [hvalue, List.take_succ_cons, List.append_assoc, List.singleton_append]
          · rwa [List.append_assoc, List.singleton_append] at hle
          · refine le_trans ?_ hlow
            rw [pow_succ', ← mul_assoc]
            exact mul_le_mul_of_nonneg_right hgrown (by norm_num)

/-- The floating-point product behind `fractionNanos` is not far above the exact one. -/
theorem fractionFloat_le
    (f : Nat)
    {scale : ℚ}
    (hscale : 0 < scale)
    (unit : TimeUnit) :
    float64 (float64 f * float64 (float64 unit.nanos / scale)) ≤
      11 / 10 * (f * (unit.nanos / scale)) := by
  have hunit : float64 unit.nanos = unit.nanos := by
    have hsmall := unit.nanos_le
    exact roundTo_natCast (by omega)
  have hquotient : (0 : ℚ) ≤ unit.nanos / scale := by positivity
  have hf : float64 f ≤ f * (1 + 1 / 2 ^ 53) := roundTo_le (by positivity)
  have hq : float64 (unit.nanos / scale) ≤ unit.nanos / scale * (1 + 1 / 2 ^ 53) :=
    roundTo_le hquotient
  have hf0 : 0 ≤ float64 f := roundTo_nonneg (by positivity)
  have hq0 : 0 ≤ float64 (unit.nanos / scale) := roundTo_nonneg hquotient
  rw [hunit]
  calc float64 (float64 f * float64 (unit.nanos / scale))
      ≤ float64 f * float64 (unit.nanos / scale) * (1 + 1 / 2 ^ 53) :=
        roundTo_le (mul_nonneg hf0 hq0)
    _ ≤ f * (1 + 1 / 2 ^ 53) * (unit.nanos / scale * (1 + 1 / 2 ^ 53)) * (1 + 1 / 2 ^ 53) := by
        gcongr
    _ = (1 + 1 / 2 ^ 53) ^ 3 * (f * (unit.nanos / scale)) := by ring
    _ ≤ 11 / 10 * (f * (unit.nanos / scale)) := by
        refine mul_le_mul_of_nonneg_right ?_ (mul_nonneg (by positivity) hquotient)
        norm_num

theorem fractionFloat_nonneg
    (f : Nat)
    {scale : ℚ}
    (hscale : 0 < scale)
    (unit : TimeUnit) :
    0 ≤ float64 (float64 f * float64 (float64 unit.nanos / scale)) := by
  have hunit : 0 ≤ float64 unit.nanos := roundTo_nonneg (by positivity)
  have hf : 0 ≤ float64 f := roundTo_nonneg (by positivity)
  have hq : 0 ≤ float64 (float64 unit.nanos / scale) := roundTo_nonneg (div_nonneg hunit hscale.le)
  exact roundTo_nonneg (mul_nonneg hf hq)

theorem fractionNanos_zero (scale : ℚ) (unit : TimeUnit) : fractionNanos 0 scale unit = 0 := by
  simp [fractionNanos, float64]

/-- Behind many digits a fraction comes to nothing. -/
theorem fractionNanos_of_long
    {f : Nat}
    (hf : f ≤ 2 ^ 63)
    {scale : ℚ}
    (hscale : 9 ^ 45 ≤ scale)
    (unit : TimeUnit) :
    fractionNanos f scale unit = 0 := by
  have hpos : 0 < scale := lt_of_lt_of_le (by norm_num) hscale
  have hf' : (f : ℚ) ≤ 2 ^ 63 := by exact_mod_cast hf
  have hunit : (unit.nanos : ℚ) ≤ 3600000000000 := by exact_mod_cast unit.nanos_le
  rw [fractionNanos, Nat.floor_eq_zero]
  calc float64 (float64 f * float64 (float64 unit.nanos / scale))
      ≤ 11 / 10 * (f * (unit.nanos / scale)) := fractionFloat_le f hpos unit
    _ ≤ 11 / 10 * (2 ^ 63 * (3600000000000 / 9 ^ 45)) := by gcongr
    _ < 1 := by norm_num

/-- What is read of a fraction is at most twice what it denotes. -/
theorem fractionNanos_le
    {f k : Nat}
    (hf : f ≤ 2 ^ 63)
    {scale : ℚ}
    (hscale : (10 * (1 - 1 / 2 ^ 53)) ^ k ≤ scale)
    (unit : TimeUnit) :
    (fractionNanos f scale unit : ℚ) ≤ 2 * (f * unit.nanos / 10 ^ k) := by
  have hnine : (9 : ℚ) ≤ 10 * (1 - 1 / 2 ^ 53) := by norm_num
  rcases Nat.lt_or_ge k 45 with hk | hk
  · have hshare : (9 / 10 : ℚ) ≤ (1 - 1 / 2 ^ 53) ^ k := by
      have hle : (1 - 1 / 2 ^ 53 : ℚ) ^ 45 ≤ (1 - 1 / 2 ^ 53) ^ k :=
        pow_le_pow_of_le_one (by norm_num) (by norm_num) hk.le
      refine le_trans ?_ hle
      norm_num
    have hlow : 9 / 10 * 10 ^ k ≤ scale := by
      refine le_trans ?_ hscale
      rw [mul_pow, mul_comm]
      exact mul_le_mul_of_nonneg_left hshare (by positivity)
    have hpos : 0 < scale := lt_of_lt_of_le (by positivity) hlow
    calc (fractionNanos f scale unit : ℚ)
        ≤ float64 (float64 f * float64 (float64 unit.nanos / scale)) :=
          Nat.floor_le (fractionFloat_nonneg f hpos unit)
      _ ≤ 11 / 10 * (f * (unit.nanos / scale)) := fractionFloat_le f hpos unit
      _ ≤ 11 / 10 * (f * (unit.nanos / (9 / 10 * 10 ^ k))) := by gcongr
      _ = 11 / 9 * (f * unit.nanos / 10 ^ k) := by
          field_simp
      _ ≤ 2 * (f * unit.nanos / 10 ^ k) :=
          mul_le_mul_of_nonneg_right (by norm_num) (by positivity)
  · have hlong : 9 ^ 45 ≤ scale :=
      calc (9 : ℚ) ^ 45 ≤ 9 ^ k := pow_le_pow_right₀ (by norm_num) hk
        _ ≤ (10 * (1 - 1 / 2 ^ 53)) ^ k := pow_le_pow_left₀ (by norm_num) hnine k
        _ ≤ scale := hscale
    rw [fractionNanos_of_long hf hlong, Nat.cast_zero]
    positivity

end Fractions

section Exact

/-- More digits make no number smaller. -/
theorem number_le_append (ds es : List (Fin 10)) :
    number ds ≤ number (ds ++ es) := by
  rw [number_append]
  exact (Nat.le_mul_of_pos_right _ (by positivity)).trans (Nat.le_add_right _ _)

/-- The digits that are read are the number they denote. -/
theorem leadingInt_eq_some
    (ds pre : List (Fin 10))
    {v : Nat}
    (hpre : number pre ≤ 2 ^ 63) :
    leadingInt ds (number pre) = some v ↔ number (pre ++ ds) = v ∧ v ≤ 2 ^ 63 := by
  induction ds generalizing pre with
  | nil =>
      rw [leadingInt, Option.some.injEq, List.append_nil]
      constructor
      · rintro rfl
        exact ⟨rfl, hpre⟩
      · exact fun h => h.1
  | cons d ds ih =>
      have hd := d.isLt
      have hnext := number_concat pre d
      have hrest : number (pre ++ [d]) ≤ number (pre ++ d :: ds) := by
        have h := number_le_append (pre ++ [d]) ds
        rwa [List.append_assoc, List.singleton_append] at h
      rw [leadingInt]
      split_ifs with hbig
      · refine iff_of_false (by simp) ?_
        rintro ⟨rfl, hle⟩
        omega
      · have hsame : (number pre * 10 + d.val) % 2 ^ 64 = number (pre ++ [d]) := by omega
        simp only [hsame]
        split_ifs with hover
        · refine iff_of_false (by simp) ?_
          rintro ⟨rfl, hle⟩
          omega
        · rw [ih (pre ++ [d]) (Nat.not_lt.mp hover), List.append_assoc, List.singleton_append]

/-- The nanoseconds of the fraction of a term, as they are read. -/
def Term.part (t : Term) : Nat :=
  fractionNanos (leadingFraction t.fraction 0 1).1 (leadingFraction t.fraction 0 1).2 t.unit

/-- The nanoseconds of a term, as they are read. -/
def Term.reading (t : Term) : Nat :=
  number t.whole * t.unit.nanos + t.part

/-- The nanoseconds of the fraction of a term, as it is written. -/
def Term.fractional (t : Term) : ℚ :=
  number t.fraction * t.unit.nanos / 10 ^ t.fraction.length

theorem Term.exact_eq (t : Term) :
    t.exact = number t.whole * t.unit.nanos + t.fractional := by
  have hpow : (10 : ℚ) ^ t.fraction.length ≠ 0 := by positivity
  rw [Term.exact, Term.fractional, number_append]
  push_cast
  field_simp

theorem Term.part_le (t : Term) :
    (t.part : ℚ) ≤ 2 * t.fractional := by
  obtain ⟨k, hk, hvalue, hle, hlow⟩ :=
    leadingFraction_spec t.fraction [] (Nat.zero_le _) (zero_lt_one' ℚ)
  have hnil : number [] = 0 := rfl
  rw [hnil, List.nil_append] at hvalue
  rw [List.nil_append] at hle
  rw [hnil, one_mul] at hlow
  -- the digits passed over only add to what the fraction denotes
  have hsplit : number (t.fraction.take k) * 10 ^ (t.fraction.length - k) ≤ number t.fraction := by
    have h := number_append (t.fraction.take k) (t.fraction.drop k)
    rw [List.take_append_drop, List.length_drop] at h
    omega
  have hpow : (10 : ℚ) ^ t.fraction.length = 10 ^ k * 10 ^ (t.fraction.length - k) := by
    rw [← pow_add, Nat.add_sub_cancel' hk]
  calc (t.part : ℚ)
      ≤ 2 * (number (t.fraction.take k) * t.unit.nanos / 10 ^ k) := by
        rw [Term.part, hvalue]
        exact fractionNanos_le hle hlow t.unit
    _ = 2 * ((number (t.fraction.take k) * 10 ^ (t.fraction.length - k) : ℕ) * t.unit.nanos /
          10 ^ t.fraction.length) := by
        rw [hpow]
        push_cast
        field_simp
    _ ≤ 2 * t.fractional := by
        rw [Term.fractional]
        gcongr

/-- A fraction is read as no more than two of its unit. -/
theorem Term.part_le_unit (t : Term) : t.part ≤ 2 * t.unit.nanos := by
  have hlt : (number t.fraction : ℚ) ≤ 10 ^ t.fraction.length := by
    exact_mod_cast (number_lt t.fraction).le
  have h : (t.part : ℚ) ≤ 2 * t.unit.nanos := by
    refine t.part_le.trans ?_
    rw [Term.fractional, mul_div_right_comm]
    have hshare : (number t.fraction : ℚ) / 10 ^ t.fraction.length ≤ 1 :=
      div_le_one_of_le₀ hlt (by positivity)
    nlinarith [Nat.cast_nonneg (α := ℚ) t.unit.nanos]
  exact_mod_cast h

theorem Term.reading_le (t : Term) : (t.reading : ℚ) ≤ 2 * t.exact := by
  have hpart := t.part_le
  have hwhole : (0 : ℚ) ≤ number t.whole * t.unit.nanos := by positivity
  rw [Term.reading, t.exact_eq, Nat.cast_add, Nat.cast_mul]
  linarith

/-- A term is taken when it is read as no more than half of a `uint64`, and is counted as
it is read. -/
theorem Term.parsed_eq_some
    {t : Term}
    {v : Nat} :
    t.parsed = some v ↔ t.reading = v ∧ v ≤ 2 ^ 63 := by
  have hunit := t.unit.nanos_le
  have hpos := t.unit.nanos_pos
  have hpart := t.part_le_unit
  have hzero : (leadingFraction t.fraction 0 1).1 = 0 → t.part = 0 := by
    intro h
    rw [Term.part, h, fractionNanos_zero]
  have hfold : fractionNanos (leadingFraction t.fraction 0 1).1 (leadingFraction t.fraction 0 1).2
      t.unit = t.part := rfl
  have hread (w : Nat) : leadingInt t.whole 0 = some w ↔ number t.whole = w ∧ w ≤ 2 ^ 63 :=
    leadingInt_eq_some t.whole [] (Nat.zero_le _)
  unfold Term.parsed
  split
  · rename_i hnone
    refine iff_of_false (by simp) ?_
    rintro ⟨rfl, hle⟩
    have hwhole : number t.whole ≤ number t.whole * t.unit.nanos := Nat.le_mul_of_pos_right _ hpos
    rw [Term.reading] at hle
    rw [(hread _).mpr ⟨rfl, by omega⟩] at hnone
    exact absurd hnone (by simp)
  · rename_i w hw
    obtain ⟨rfl, _⟩ := (hread w).mp hw
    split_ifs with hbig
    · have hproduct := (Nat.div_lt_iff_lt_mul hpos).mp hbig
      refine iff_of_false (by simp) ?_
      rintro ⟨rfl, hle⟩
      rw [Term.reading] at hle
      omega
    · have hproduct : number t.whole * t.unit.nanos ≤ 2 ^ 63 :=
        Nat.mul_le_of_le_div _ _ _ (Nat.not_lt.mp hbig)
      have hsame : number t.whole * t.unit.nanos % 2 ^ 64 = number t.whole * t.unit.nanos :=
        Nat.mod_eq_of_lt (by omega)
      have hsum : (number t.whole * t.unit.nanos + t.part) % 2 ^ 64 = t.reading := by
        rw [Term.reading]
        exact Nat.mod_eq_of_lt (by omega)
      simp only [hsame, hfold, hsum]
      split_ifs with hdigits hover
      · refine iff_of_false (by simp) ?_
        rintro ⟨rfl, hle⟩
        omega
      · rw [Option.some.injEq]
        constructor
        · rintro rfl
          exact ⟨rfl, Nat.not_lt.mp hover⟩
        · exact fun h => h.1
      · have hwhole : t.reading = number t.whole * t.unit.nanos := by
          rw [Term.reading, hzero (by omega), Nat.add_zero]
        rw [Option.some.injEq, ← hwhole]
        constructor
        · rintro rfl
          exact ⟨rfl, by omega⟩
        · exact fun h => h.1

/-- The nanoseconds of a sequence of terms, as they are read. -/
def total (ts : List Term) : Nat :=
  (ts.map Term.reading).sum

theorem total_cons (t : Term) (ts : List Term) : total (t :: ts) = t.reading + total ts :=
  rfl

theorem total_append (ts us : List Term) : total (ts ++ us) = total ts + total us := by
  rw [total, List.map_append, List.sum_append]
  rfl

/-- The whole units are read as they are written, so only the fractions can make a
difference. -/
theorem total_eq_denoted_iff (ts : List Term) :
    (total ts : Int) = denoted ts ↔
      ((ts.map Term.part).sum : Int) = ⌊(ts.map Term.fractional).sum⌋ := by
  have hread : total ts =
      (ts.map fun t => number t.whole * t.unit.nanos).sum + (ts.map Term.part).sum := by
    rw [total, ← List.sum_map_add]
    rfl
  have hexact : (ts.map Term.exact).sum =
      ((ts.map fun t => number t.whole * t.unit.nanos).sum : ℕ) +
        (ts.map Term.fractional).sum := by
    rw [Nat.cast_list_sum, List.map_map, ← List.sum_map_add]
    refine congrArg List.sum (List.map_congr_left fun t _ => ?_)
    rw [t.exact_eq, Function.comp_apply, Nat.cast_mul]
  rw [denoted, hexact, Int.floor_natCast_add, hread, Nat.cast_add]
  omega

/-- What is read is at most twice what is denoted. -/
theorem total_le (ts : List Term) : (total ts : ℚ) ≤ 2 * (ts.map Term.exact).sum := by
  induction ts with
  | nil => simp [total]
  | cons t ts ih =>
      have hterm := t.reading_le
      rw [total_cons, Nat.cast_add, List.map_cons, List.sum_cons]
      linarith

/-- A round of the loop. -/
theorem durationLoop_cons
    {t : Term}
    {ts : List Term}
    {d n : Nat}
    (h : durationLoop (t :: ts) d = some n) :
    ∃ v, t.parsed = some v ∧ (d + v) % 2 ^ 64 ≤ 2 ^ 63 ∧
      durationLoop ts ((d + v) % 2 ^ 64) = some n := by
  rw [durationLoop] at h
  split at h
  · exact absurd h (by simp)
  · rename_i v hv
    simp only at h
    split_ifs at h with hover
    exact ⟨v, hv, Nat.not_lt.mp hover, h⟩

theorem durationLoop_append (ts us : List Term) (d : Nat) :
    durationLoop (ts ++ us) d =
      (durationLoop ts d).bind (durationLoop us) := by
  induction ts generalizing d with
  | nil => rfl
  | cons t ts ih =>
      rw [List.cons_append, durationLoop, durationLoop]
      cases t.parsed with
      | none => rfl
      | some v =>
          simp only
          split_ifs
          · rfl
          · exact ih _

theorem durationLoop_le
    {ts : List Term}
    {d n : Nat}
    (hd : d ≤ 2 ^ 63)
    (h : durationLoop ts d = some n) :
    n ≤ 2 ^ 63 ∧ n ≤ d + total ts := by
  induction ts generalizing d with
  | nil =>
      obtain rfl := Option.some.inj h
      exact ⟨hd, Nat.le_add_right _ _⟩
  | cons t ts ih =>
      obtain ⟨v, hv, hsmall, hmore⟩ := durationLoop_cons h
      obtain ⟨rfl, _⟩ := Term.parsed_eq_some.mp hv
      have hle := Nat.mod_le (d + t.reading) (2 ^ 64)
      obtain ⟨hn, hsum⟩ := ih hsmall hmore
      refine ⟨hn, ?_⟩
      rw [total_cons]
      omega

/-- The sum of the loop is exact unless the register starts again at zero: it only does
where a half of its range stands in it and the other half is added. -/
theorem durationLoop_cases
    {ts : List Term}
    {d n : Nat}
    (hd : d ≤ 2 ^ 63)
    (h : durationLoop ts d = some n) :
    n = d + total ts ∨
      ∃ pre t post, ts = pre ++ t :: post ∧ durationLoop pre d = some (2 ^ 63) ∧
        t.parsed = some (2 ^ 63) ∧ durationLoop post 0 = some n := by
  induction ts generalizing d with
  | nil =>
      obtain rfl := Option.some.inj h
      exact Or.inl rfl
  | cons t ts ih =>
      obtain ⟨v, hv, hsmall, hmore⟩ := durationLoop_cons h
      obtain ⟨hreading, hle⟩ := Term.parsed_eq_some.mp hv
      by_cases hwrap : d + v < 2 ^ 64
      · rw [Nat.mod_eq_of_lt hwrap] at hsmall hmore
        rcases ih hsmall hmore with hsum | ⟨pre, t', post, rfl, hpre, ht', hpost⟩
        · left
          rw [hsum, total_cons, hreading, Nat.add_assoc]
        · refine Or.inr ⟨t :: pre, t', post, rfl, ?_, ht', hpost⟩
          rw [durationLoop, hv]
          simp only
          rw [Nat.mod_eq_of_lt hwrap, if_neg (Nat.not_lt.mpr hsmall), hpre]
      · obtain rfl : d = 2 ^ 63 := by omega
        obtain rfl : v = 2 ^ 63 := by omega
        exact Or.inr ⟨[], t, ts, rfl, rfl, hv, hmore⟩

/-- Terms that are read as no more than half of a `uint64` are summed up. -/
theorem durationLoop_of_le
    {ts : List Term}
    {d : Nat}
    (h : d + total ts ≤ 2 ^ 63) :
    durationLoop ts d = some (d + total ts) := by
  induction ts generalizing d with
  | nil => rfl
  | cons t ts ih =>
      rw [total_cons] at h
      have hparsed : t.parsed = some t.reading := Term.parsed_eq_some.mpr ⟨rfl, by omega⟩
      have hsame : (d + t.reading) % 2 ^ 64 = d + t.reading := Nat.mod_eq_of_lt (by omega)
      rw [durationLoop, hparsed]
      simp only [hsame]
      rw [if_neg (by omega), ih (by omega), total_cons, Nat.add_assoc]

/-- A fraction of few digits is read with all of them. -/
theorem leadingFraction_of_short
    (ds pre : List (Fin 10))
    (h : pre.length + ds.length ≤ 15) :
    leadingFraction ds (number pre) (10 ^ pre.length) =
      (number (pre ++ ds), 10 ^ (pre ++ ds).length) := by
  induction ds generalizing pre with
  | nil => rw [leadingFraction, List.append_nil]
  | cons d ds ih =>
      rw [List.length_cons] at h
      have hd := d.isLt
      have hlt := number_lt pre
      have hpow : 10 ^ pre.length ≤ 10 ^ 14 := Nat.pow_le_pow_right (by decide) (by omega)
      have hgrown := number_concat pre d
      have hnext : (number pre * 10 + d.val) % 2 ^ 64 = number (pre ++ [d]) := by omega
      have hvalue : number (pre ++ [d]) ≤ 2 ^ 63 := by omega
      have hscale : float64 ((10 : ℚ) ^ pre.length * 10) = 10 ^ (pre ++ [d]).length := by
        rw [List.length_append, List.length_singleton, ← pow_succ]
        exact_mod_cast roundTo_natCast (p := 53) (n := 10 ^ (pre.length + 1)) (by omega)
      rw [leadingFraction, if_neg (by omega)]
      simp only [hnext, hscale]
      rw [if_neg (Nat.not_lt.mpr hvalue), ih (pre ++ [d]) (by simp; omega), List.append_assoc,
        List.singleton_append]

/-- A term whose fraction ends with the nanoseconds or before is read as it is written. -/
theorem Term.reading_of_dvd
    {t : Term}
    (h : 10 ^ t.fraction.length ∣ t.unit.nanos) :
    (t.reading : ℚ) = t.exact := by
  have hunit := t.unit.nanos_le
  have hlt := number_lt t.fraction
  have hle := Nat.le_of_dvd t.unit.nanos_pos h
  have hlength : t.fraction.length < 13 := by
    by_contra hlong
    have hpow : 10 ^ 13 ≤ 10 ^ t.fraction.length := Nat.pow_le_pow_right (by decide) (by omega)
    omega
  obtain ⟨q, hq⟩ := h
  have hread := leadingFraction_of_short t.fraction [] (by simp; omega)
  have hpow : (10 : ℚ) ^ t.fraction.length ≠ 0 := by positivity
  have hproduct : number t.fraction * q < 2 ^ 53 := by
    have hmul : number t.fraction * q ≤ 10 ^ t.fraction.length * q := Nat.mul_le_mul_right _ hlt.le
    omega
  have hpart : t.part = number t.fraction * q := by
    have hnil : number [] = 0 := rfl
    rw [hnil, List.length_nil, pow_zero, List.nil_append] at hread
    rw [Term.part, hread, fractionNanos]
    have hnanos : float64 t.unit.nanos = t.unit.nanos := roundTo_natCast (by omega)
    have hquotient : float64 ((t.unit.nanos : ℚ) / 10 ^ t.fraction.length) = q := by
      have hdiv : (t.unit.nanos : ℚ) / 10 ^ t.fraction.length = q := by
        rw [hq]
        push_cast
        field_simp
      rw [hdiv]
      exact roundTo_natCast (by nlinarith)
    have hdigits : float64 (number t.fraction) = number t.fraction :=
      roundTo_natCast (by omega)
    rw [hnanos, hquotient, hdigits, ← Nat.cast_mul, float64, roundTo_natCast hproduct,
      Nat.floor_natCast]
  rw [Term.reading, t.exact_eq, Term.fractional, hpart, hq]
  push_cast
  field_simp

end Exact

section Kept

/-- A count of days below zero whose nanoseconds, in an `int64`, are above. -/
def NegativeDays (s : List UInt8) : Prop :=
  ∃ n days, cutDays s = some n ∧ integer n = some days ∧ -2 ^ 63 ≤ days ∧ days < 0 ∧
    0 < days * day % 2 ^ 64 ∧ days * day % 2 ^ 64 < 2 ^ 63

/-- A duration whose terms come to half the range of a `uint64`, then to the other half
in one term, and then to something that fits. -/
def Restarts (s : List UInt8) : Prop :=
  cutDays s = none ∧ (signed s).1 = false ∧
    ∃ pre t post n, terms (signed s).2 = some (pre ++ t :: post) ∧
      durationLoop pre 0 = some (2 ^ 63) ∧ t.parsed = some (2 ^ 63) ∧
      durationLoop post 0 = some n ∧ 0 < n ∧ n < 2 ^ 63

/-- A duration that fits, whose fractions are not read as the whole nanoseconds that all
of their digits denote. -/
def Drifts (s : List UInt8) : Prop :=
  cutDays s = none ∧ (signed s).1 = false ∧
    ∃ ts, terms (signed s).2 = some ts ∧ 0 < total ts ∧ total ts < 2 ^ 63 ∧
      ((ts.map Term.part).sum : Int) ≠ ⌊(ts.map Term.fractional).sum⌋

theorem terms_nil : terms [] = some [] := by
  rw [terms]
  rfl

theorem terms_of_none
    {s : List UInt8}
    (hs : s ≠ [])
    (h : takeTerm s = none) :
    terms s = none := by
  rw [terms, if_neg (by simpa using hs)]
  split
  · rfl
  · rename_i t rest hterm
    rw [h] at hterm
    exact absurd hterm (by simp)

theorem terms_cons
    {s rest : List UInt8}
    {t : Term}
    (h : takeTerm s = some (t, rest)) :
    terms s = (terms rest).map fun ts => t :: ts := by
  have hs : s ≠ [] := by
    rintro rfl
    exact absurd (takeTerm_length h) (Nat.not_lt_zero _)
  rw [terms, if_neg (by simpa using hs)]
  split
  · rename_i hterm
    rw [h] at hterm
    exact absurd hterm (by simp)
  · rename_i t' rest' hterm
    obtain ⟨rfl, rfl⟩ := Prod.mk.inj (Option.some.inj (h.symm.trans hterm))
    rfl

theorem durationLoop_zero_le
    {ts : List Term}
    {n : Nat}
    (h : durationLoop ts 0 = some n) :
    n ≤ 2 ^ 63 ∧ n ≤ total ts := by
  have hle := durationLoop_le (Nat.zero_le _) h
  rwa [Nat.zero_add] at hle

/-- The register of a negative duration is not above zero. -/
theorem int64_neg_le {n : Nat} (h : n ≤ 2 ^ 63) : int64 (-int64 n) ≤ 0 := by
  rcases Nat.lt_or_eq_of_le h with hlt | rfl
  · have hn : int64 (n : Int) = n := int64_of_lt (by omega) (by omega)
    rw [hn, int64_of_lt (by omega) (by omega)]
    omega
  · decide

/-- What the terms of a duration without a minus denote, if there are any. -/
theorem goDuration_of_terms
    {s : List UInt8}
    {ts : List Term}
    (hsign : (signed s).1 = false)
    (hterms : terms (signed s).2 = some ts)
    (hts : ts ≠ []) :
    goDuration s = some (denoted ts) := by
  have htext : (signed s).2 ≠ [0x30] := by
    intro heq
    rw [heq, terms_of_none (by decide) (by decide)] at hterms
    exact absurd hterms (by simp)
  have hempty : (signed s).2.isEmpty = false := by
    rw [List.isEmpty_eq_false_iff]
    intro heq
    rw [heq, terms_nil] at hterms
    exact hts (Option.some.inj hterms).symm
  simp only [goDuration, hterms, hsign, hempty]
  rw [if_neg htext]
  rfl

/-- What `time.ParseDuration` makes of a text, above zero. -/
theorem parseDuration_eq_some
    {s : List UInt8}
    {d : Int}
    (hd : 0 < d) :
    parseDuration s = some d ↔
      (signed s).1 = false ∧ ∃ ts n, terms (signed s).2 = some ts ∧
        durationLoop ts 0 = some n ∧ n < 2 ^ 63 ∧ d = n := by
  have hzero : terms [0x30] = none := terms_of_none (by decide) (by decide)
  simp only [parseDuration]
  split_ifs with htext hempty hneg
  · rw [htext, hzero]
    constructor
    · intro h
      have := Option.some.inj h
      omega
    · rintro ⟨_, ts, n, hts, _⟩
      exact absurd hts (by simp)
  · rw [List.isEmpty_iff.mp hempty, terms_nil]
    constructor
    · intro h
      exact absurd h (by simp)
    · rintro ⟨_, ts, n, hts, hn, _, rfl⟩
      obtain rfl := Option.some.inj hts
      obtain rfl := Option.some.inj hn
      exact absurd hd (by decide)
  -- behind a minus sign nothing is above zero
  · refine iff_of_false ?_ fun h => Bool.false_ne_true (h.1.symm.trans hneg)
    cases terms (signed s).2 with
    | none => simp
    | some ts =>
        cases hloop : durationLoop ts 0 with
        | none => simp [hloop]
        | some n =>
            have hle := int64_neg_le (durationLoop_zero_le hloop).1
            simp only [hloop, Option.some.injEq]
            omega
  · have hsign : (signed s).1 = false := by simpa using hneg
    cases terms (signed s).2 with
    | none => simp
    | some ts =>
        cases hloop : durationLoop ts 0 with
        | none => simp [hloop]
        | some n =>
            constructor
            · intro h
              simp only at h
              rw [hloop] at h
              simp only at h
              split_ifs at h with hover
              have hlt : n < 2 ^ 63 := by omega
              have heq := Option.some.inj h
              rw [int64_of_lt (by omega) (by omega)] at heq
              exact ⟨hsign, ts, n, rfl, hloop, hlt, heq.symm⟩
            · rintro ⟨_, ts', n', hts, hloop', hlt, rfl⟩
              obtain rfl := Option.some.inj hts
              obtain rfl := Option.some.inj (hloop.symm.trans hloop')
              simp only [hloop]
              rw [if_neg (by omega), int64_of_lt (by omega) (by omega)]

/-- Above zero, a duration of Go is read as it is written unless it restarts or drifts. -/
theorem goDuration_of_parsed
    {s : List UInt8}
    (hgo : cutDays s = none)
    {d : Int}
    (hd : 0 < d)
    (h : parseDuration s = some d) :
    goDuration s = some d ↔ ¬ Restarts s ∧ ¬ Drifts s := by
  obtain ⟨hsign, ts, n, hterms, hloop, hn, rfl⟩ := (parseDuration_eq_some hd).mp h
  have hts : ts ≠ [] := by
    rintro rfl
    obtain rfl := Option.some.inj hloop
    exact absurd hd (by decide)
  rw [goDuration_of_terms hsign hterms hts, Option.some.injEq]
  constructor
  · intro hsum
    have hlow : (ts.map Term.exact).sum < n + 1 := by
      have h := Int.lt_floor_add_one (ts.map Term.exact).sum
      rwa [← denoted, hsum, Int.cast_natCast] at h
    have htwice : total ts < 2 * n + 2 := by
      have h : (total ts : ℚ) < 2 * n + 2 := by
        have hle := total_le ts
        linarith
      exact_mod_cast h
    constructor
    · rintro ⟨_, _, pre, t, post, n', hsplit, hpre, ht, hpost, _, _⟩
      obtain rfl := Option.some.inj (hterms.symm.trans hsplit)
      -- the loop behind the restart ends where the whole loop ends
      have hsame : n' = n := by
        rw [durationLoop_append, hpre, Option.bind_some, durationLoop, ht] at hloop
        simp only [Nat.reduceAdd, Nat.reducePow] at hloop
        exact Option.some.inj (hpost.symm.trans hloop)
      have hpreLe := (durationLoop_zero_le hpre).2
      have hpostLe := (durationLoop_zero_le hpost).2
      have htLe := (Term.parsed_eq_some.mp ht).1
      rw [total_append, total_cons] at htwice
      omega
    · rintro ⟨_, _, ts', hterms', _, hfits, hdrift⟩
      obtain rfl := Option.some.inj (hterms.symm.trans hterms')
      have hread := durationLoop_of_le (d := 0) (by rw [Nat.zero_add]; exact hfits.le)
      rw [hloop, Nat.zero_add] at hread
      obtain rfl := Option.some.inj hread
      exact hdrift ((total_eq_denoted_iff ts).mp hsum.symm)
  · rintro ⟨hrestart, hdrift⟩
    rcases durationLoop_cases (Nat.zero_le _) hloop with hsum | ⟨pre, t, post, rfl, hpre, ht, hpost⟩
    · by_contra hne
      rw [Nat.zero_add] at hsum
      refine hdrift ⟨hgo, hsign, ts, hterms, by omega, by omega, ?_⟩
      intro hfractions
      have hsame := (total_eq_denoted_iff ts).mpr hfractions
      rw [← hsum] at hsame
      exact hne hsame.symm
    · exact absurd ⟨hgo, hsign, pre, t, post, n, hterms, hpre, ht, hpost, by omega, hn⟩ hrestart

theorem parseInt_eq_some
    {s : List UInt8}
    {n : Int} :
    parseInt s = some n ↔ integer s = some n ∧ -2 ^ 63 ≤ n ∧ n < 2 ^ 63 := by
  unfold parseInt
  cases integer s with
  | none => simp
  | some m =>
      simp only
      split_ifs with hrange
      · refine iff_of_false (by simp) ?_
        rintro ⟨hm, hlow, hhigh⟩
        obtain rfl := Option.some.inj hm
        omega
      · constructor
        · intro h
          obtain rfl := Option.some.inj h
          exact ⟨rfl, by omega, by omega⟩
        · rintro ⟨hm, _⟩
          exact hm

/-- Above zero, a count of days is read as it is written unless it is below zero. -/
theorem days_of_parsed
    {s n : List UInt8}
    (hdays : cutDays s = some n)
    {days : Int}
    (hparse : parseInt n = some days)
    (hle : days ≤ (2 ^ 63 - 1) / day)
    (hpos : 0 < int64 (days * day)) :
    days * day = int64 (days * day) ↔ ¬ NegativeDays s := by
  obtain ⟨hnumber, hlow, hhigh⟩ := parseInt_eq_some.mp hparse
  have hday : (2 ^ 63 - 1) / day = 106751 := by decide
  rw [hday] at hle
  constructor
  · rintro hsame ⟨n', days', hcut, hint, _, hneg, _⟩
    obtain rfl := Option.some.inj (hdays.symm.trans hcut)
    obtain rfl := Option.some.inj (hnumber.symm.trans hint)
    have hproduct : days * day < 0 := Int.mul_neg_of_neg_of_pos hneg (by decide)
    omega
  · intro hfree
    have hnonneg : 0 ≤ days := by
      by_contra hneg
      refine hfree ⟨n, days, hdays, hnumber, hlow, by omega, ?_⟩
      exact (int64_pos_iff _).mp hpos
    rw [day, int64_of_lt (by omega) (by omega)]

/-- A duration that restarts is taken. -/
theorem Restarts.parsed
    {s : List UInt8}
    (h : Restarts s) :
    ∃ d, 0 < d ∧ parseDuration s = some d := by
  obtain ⟨_, hsign, pre, t, post, n, hterms, hpre, ht, hpost, hpos, hn⟩ := h
  have hd : (0 : Int) < n := by omega
  refine ⟨n, hd, (parseDuration_eq_some hd).mpr ⟨hsign, _, n, hterms, ?_, hn, rfl⟩⟩
  rw [durationLoop_append, hpre, Option.bind_some, durationLoop, ht]
  simpa using hpost

/-- So is one that drifts. -/
theorem Drifts.parsed
    {s : List UInt8}
    (h : Drifts s) :
    ∃ d, 0 < d ∧ parseDuration s = some d := by
  obtain ⟨_, hsign, ts, hterms, hpos, hfits, _⟩ := h
  have hd : (0 : Int) < total ts := by omega
  have hread := durationLoop_of_le (d := 0) (by rw [Nat.zero_add]; exact hfits.le)
  rw [Nat.zero_add] at hread
  exact ⟨total ts, hd, (parseDuration_eq_some hd).mpr ⟨hsign, ts, total ts, hterms, hread, hfits, rfl⟩⟩

/-- No duration drifts whose fractions all end with the nanoseconds or before. -/
theorem not_drifts_of_dvd
    {s : List UInt8}
    (h : ∀ ts, terms (signed s).2 = some ts → ∀ t ∈ ts, 10 ^ t.fraction.length ∣ t.unit.nanos) :
    ¬ Drifts s := by
  rintro ⟨_, _, ts, hterms, _, _, hne⟩
  have hsame : (ts.map Term.exact).sum = (total ts : ℚ) := by
    rw [total, Nat.cast_list_sum, List.map_map]
    refine congrArg List.sum (List.map_congr_left fun t ht => ?_)
    exact (Term.reading_of_dvd (h ts hterms t ht)).symm
  refine hne ((total_eq_denoted_iff ts).mp ?_)
  rw [denoted, hsame, Int.floor_natCast]

theorem positive_eq_ok {x d : Int} : positive x = .ok d ↔ 0 < d ∧ d = x := by
  unfold positive
  split_ifs with hx
  · refine iff_of_false (by simp) ?_
    rintro ⟨hd, rfl⟩
    omega
  · constructor
    · intro h
      obtain rfl := Except.ok.inj h
      exact ⟨by omega, rfl⟩
    · rintro ⟨_, rfl⟩
      rfl

/-- What `parseExpiry` accepts. -/
theorem parseExpiry_eq_ok
    {s : List UInt8}
    {d : Int} :
    parseExpiry s = .ok d ↔
      0 < d ∧ ((cutDays s = none ∧ parseDuration s = some d) ∨
        ∃ n days, cutDays s = some n ∧ parseInt n = some days ∧ days ≤ (2 ^ 63 - 1) / day ∧
          d = int64 (days * day)) := by
  have hproduct (x : Int) : int64 (int64 (x * 24) * (TimeUnit.nanos .hour)) = int64 (x * day) := by
    rw [int64_mul, Int.mul_assoc]
    rfl
  unfold parseExpiry
  cases hcut : cutDays s with
  | none =>
      cases hparse : parseDuration s with
      | none => simp
      | some x =>
          simp only [positive_eq_ok]
          simp [eq_comm]
  | some n =>
      cases hparse : parseInt n with
      | none => simp [hparse]
      | some days =>
          simp only [hparse, hproduct]
          split_ifs with hbig
          · refine iff_of_false (by simp) ?_
            rintro ⟨_, ⟨hnone, _⟩ | ⟨n', days', hn, hparse', hle, _⟩⟩
            · exact absurd hnone (by simp)
            · obtain rfl := Option.some.inj hn
              obtain rfl := Option.some.inj (hparse.symm.trans hparse')
              exact absurd hbig (Int.not_lt.mpr hle)
          · rw [positive_eq_ok]
            constructor
            · rintro ⟨hd, rfl⟩
              exact ⟨hd, Or.inr ⟨n, days, rfl, hparse, Int.not_lt.mp hbig, rfl⟩⟩
            · rintro ⟨hd, ⟨hnone, _⟩ | ⟨n', days', hn, hparse', _, hsame⟩⟩
              · exact absurd hnone (by simp)
              · obtain rfl := Option.some.inj hn
                obtain rfl := Option.some.inj (hparse.symm.trans hparse')
                exact ⟨hd, hsame⟩

/-- **Expiry arguments.**  What `parseExpiry` accepts is positive and what the argument
denotes, unless the argument is a count of days below zero that comes back positive, a
duration at which the register of package `time` starts again, or one whose fractions its
floating-point numbers do not hold. -/
theorem expiry_kept_iff (s : List UInt8) :
    (∀ d, parseExpiry s = .ok d → 0 < d ∧ amount s = some d) ↔
      ¬ NegativeDays s ∧ ¬ Restarts s ∧ ¬ Drifts s := by
  simp only [parseExpiry_eq_ok]
  cases hcut : cutDays s with
  | none =>
      have hnoDays : ¬ NegativeDays s := by
        rintro ⟨n, days, hn, _⟩
        exact absurd (hcut.symm.trans hn) (by simp)
      have hamount : amount s = goDuration s := by
        simp only [amount, hcut]
      rw [hamount]
      constructor
      · intro h
        have hfree {d : Int} (hd : 0 < d) (hparse : parseDuration s = some d) :=
          (goDuration_of_parsed hcut hd hparse).mp (h d ⟨hd, Or.inl ⟨rfl, hparse⟩⟩).2
        refine ⟨hnoDays, fun hrestart => ?_, fun hdrift => ?_⟩
        · obtain ⟨d, hd, hparse⟩ := hrestart.parsed
          exact (hfree hd hparse).1 hrestart
        · obtain ⟨d, hd, hparse⟩ := hdrift.parsed
          exact (hfree hd hparse).2 hdrift
      · rintro ⟨_, hfree⟩ d ⟨hd, ⟨_, hparse⟩ | ⟨n, days, hn, _⟩⟩
        · exact ⟨hd, (goDuration_of_parsed hcut hd hparse).mpr hfree⟩
        · exact absurd hn (by simp)
  | some n =>
      have hgo : ¬ Restarts s := by
        rintro ⟨hnone, _⟩
        exact absurd (hcut.symm.trans hnone) (by simp)
      have hexact : ¬ Drifts s := by
        rintro ⟨hnone, _⟩
        exact absurd (hcut.symm.trans hnone) (by simp)
      have hamount (days : Int) (hint : integer n = some days) :
          amount s = some (days * day) := by
        simp only [amount, hcut, hint]
      constructor
      · refine fun h => ⟨fun hneg => ?_, hgo, hexact⟩
        obtain ⟨n', days, hn, hint, hlow, hzero, hrange⟩ := id hneg
        obtain rfl := Option.some.inj (hcut.symm.trans hn)
        have hparse := parseInt_eq_some.mpr ⟨hint, hlow, by omega⟩
        have hmax : 0 ≤ (2 ^ 63 - 1) / day := by decide
        have hle : days ≤ (2 ^ 63 - 1) / day := Int.le_trans (Int.le_of_lt hzero) hmax
        have hpos := (int64_pos_iff _).mpr hrange
        have hvalue := (h _ ⟨hpos, Or.inr ⟨n, days, rfl, hparse, hle, rfl⟩⟩).2
        rw [hamount days hint] at hvalue
        exact (days_of_parsed hcut hparse hle hpos).mp (Option.some.inj hvalue) hneg
      · rintro ⟨hfree, _⟩ d ⟨hd, ⟨hnone, _⟩ | ⟨n', days, hn, hparse, hle, rfl⟩⟩
        · exact absurd hnone (by simp)
        · obtain rfl := Option.some.inj hn
          refine ⟨hd, ?_⟩
          rw [hamount days (parseInt_eq_some.mp hparse).1]
          exact congrArg some ((days_of_parsed hcut hparse hle hd).mpr hfree)

/-- `-106752d`, a negative number of days that is taken for more than 292 years. -/
def farBelow : List UInt8 :=
  [0x2D, 0x31, 0x30, 0x36, 0x37, 0x35, 0x32, 0x64]

theorem negative_days_accepted :
    parseExpiry farBelow = .ok 9223371273709551616 ∧
      amount farBelow = some (-9223372800000000000) ∧
      ¬ ∀ d, parseExpiry farBelow = .ok d → 0 < d ∧ amount farBelow = some d := by
  have hparse : parseExpiry farBelow = .ok 9223371273709551616 := by decide
  have hamount : amount farBelow = some (-9223372800000000000) := by decide
  refine ⟨hparse, hamount, fun h => ?_⟩
  have hsame := (h _ hparse).2
  rw [hamount] at hsame
  exact absurd hsame (by decide)

/-- `0.999999999999999999h` is read as one hour. -/
example :
    Drifts ([0x30, 0x2E] ++ List.replicate 18 0x39 ++ [0x68]) := by
  refine ⟨by decide, by decide, [⟨[0], List.replicate 18 9, .hour⟩], ?_, by decide +kernel,
    by decide +kernel, by decide +kernel⟩
  have hterm : takeTerm ([0x30, 0x2E] ++ List.replicate 18 0x39 ++ [0x68]) =
      some (⟨[0], List.replicate 18 9, .hour⟩, []) := by
    decide
  show terms ([0x30, 0x2E] ++ List.replicate 18 0x39 ++ [0x68]) = _
  rw [terms_cons hterm, terms_nil]
  rfl

/-- `9223372036854775808ns`. -/
def halfText : List UInt8 :=
  [0x39, 0x32, 0x32, 0x33, 0x33, 0x37, 0x32, 0x30, 0x33, 0x36, 0x38, 0x35, 0x34, 0x37, 0x37, 0x35,
    0x38, 0x30, 0x38, 0x6E, 0x73]

/-- Half the range of a `uint64`, in one term. -/
def half : Term :=
  ⟨[9, 2, 2, 3, 3, 7, 2, 0, 3, 6, 8, 5, 4, 7, 7, 5, 8, 0, 8], [], .nanosecond⟩

/-- Two halves leave nothing of a duration but what is behind them. -/
example : Restarts (halfText ++ halfText ++ [0x31, 0x68]) := by
  refine ⟨by decide, by decide, [half], half, [⟨[1], [], .hour⟩], 3600000000000, ?_, by decide,
    by decide, by decide, by decide, by decide⟩
  have hfirst : takeTerm (halfText ++ halfText ++ [0x31, 0x68]) = some (half, halfText ++ [0x31, 0x68]) := by
    decide
  have hsecond : takeTerm (halfText ++ [0x31, 0x68]) = some (half, [0x31, 0x68]) := by decide
  have hthird : takeTerm [0x31, 0x68] = some (⟨[1], [], .hour⟩, []) := by decide
  show terms (halfText ++ halfText ++ [0x31, 0x68]) = _
  rw [terms_cons hfirst, terms_cons hsecond, terms_cons hthird, terms_nil]
  rfl

end Kept

end Expiry
end Acme
end Yca
