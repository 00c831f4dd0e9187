import GoMesi.Go.Strings

/-!
# Go numbers

Decimal numerals of package `strconv`, and the 64-bit arithmetic of `time.Duration`.

A duration is an integer here. Sums and differences of durations wrap around at 64 bits, which is
written out wherever the code subtracts (`wrap64`).
-/

namespace GoMesi

/-! ## Numerals -/

namespace Strconv

/-- The errors of `strconv.ParseUint`. -/
inductive NumError
  | syntax_ | range
  deriving DecidableEq, Repr

/-- The value of a decimal digit. -/
def digit? (b : UInt8) : Option ℕ := if 0x30 ≤ b ∧ b ≤ 0x39 then some (b.toNat - 0x30) else none

/-- `strconv.ParseUint` in base 10 with 64 bits. A numeral that is too large is reported as soon as
that is known, before the rest of it is looked at. -/
def parseUint (s : Bytes) : Except NumError ℕ :=
  if s = [] then .error .syntax_ else loop 0 s
where
  loop (n : ℕ) : Bytes → Except NumError ℕ
    | [] => .ok n
    | b :: rest =>
      match digit? b with
      | none => .error .syntax_
      | some d =>
        if (2 ^ 64 - 1) / 10 + 1 ≤ n then .error .range
        else if 2 ^ 64 ≤ n * 10 + d then .error .range
        else loop (n * 10 + d) rest

/-- What `strconv.ParseFloat` returns when it accepts its argument. -/
inductive Float
  | finite (q : ℚ)
  | posInf
  | negInf
  | nan
  deriving DecidableEq

/-- `x > 0` -/
def Float.isPos : Float → Bool
  | finite q => decide (0 < q)
  | posInf => true
  | negInf => false
  | nan => false

/-- The decimal numeral of an integer, as `%d` prints it. -/
def formatInt (n : ℤ) : Bytes := lit (toString n)

end Strconv

/-! ## Durations -/

/-- A `time.Duration`, in nanoseconds. -/
abbrev Duration := ℤ

/-- Two's complement wrap-around at 64 bits. -/
def wrap64 (x : ℤ) : ℤ := x.bmod (2 ^ 64)

theorem wrap64_of_mem {x : ℤ} (hlo : -2 ^ 63 ≤ x) (hhi : x < 2 ^ 63) : wrap64 x = x := by
  rw [wrap64]
  exact Int.bmod_eq_of_le (by omega) (by omega)

/-- `time.Second` -/
def second : Duration := 1000000000

/-- `time.Duration(x * float64(time.Second))` for `x > 0`: cut to whole nanoseconds, and the least
64-bit integer when the result does not fit. -/
def secondsToDuration : Strconv.Float → Duration
  | .finite q => if ⌊q * second⌋ < 2 ^ 63 then ⌊q * second⌋ else -2 ^ 63
  | _ => -2 ^ 63

end GoMesi
