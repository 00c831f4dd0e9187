import Mathlib.Tactic.Linarith
import Mathlib.Tactic.Positivity

/-!
# Signed integers of C

The result of an operation on a signed type must be a value of the type; C says nothing about a
program where it is not. So an operation is the one on `ℤ`, followed by a check that gives `none`
for what is outside of the type, and a computation that gives a result has stayed within its types.
-/

namespace C

/-- A signed type of at least 32 bits, such as `int`, `long` or `int64_t`. -/
structure IntType where
  bits : ℕ
  le_bits : 32 ≤ bits

namespace IntType

/-- `int32_t` -/
def int32 : IntType := ⟨32, le_rfl⟩

/-- `int64_t` -/
def int64 : IntType := ⟨64, by decide⟩

variable (T : IntType) {x y : ℤ}

/-- The values of the type. -/
def Contains (x : ℤ) : Prop := -2 ^ (T.bits - 1) ≤ x ∧ x < 2 ^ (T.bits - 1)

instance (x : ℤ) : Decidable (T.Contains x) := inferInstanceAs (Decidable (_ ∧ _))

/-- The result of an operation. -/
def value (x : ℤ) : Option ℤ := if T.Contains x then some x else none

variable {T}

theorem value_of_contains (h : T.Contains x) : T.value x = some x := if_pos h

/-- The values of a type are an interval around zero. -/
theorem Contains.mono (h : T.Contains y) (h0 : 0 ≤ x) (hxy : x ≤ y) : T.Contains x := by
  refine ⟨?_, hxy.trans_lt h.2⟩
  have hpos : (0 : ℤ) < 2 ^ (T.bits - 1) := by positivity
  linarith

theorem contains_of_lt (h0 : -2 ^ 31 ≤ x) (h : x < 2 ^ 31) : T.Contains x := by
  have hle : (2 : ℤ) ^ 31 ≤ 2 ^ (T.bits - 1) :=
    pow_le_pow_right₀ (by decide) (Nat.le_sub_one_of_lt T.le_bits)
  refine ⟨?_, h.trans_le hle⟩
  linarith

end IntType

end C
