import GoMesi.Go.Strconv
import Mathlib.Data.Nat.Digits.Defs
import Mathlib.Tactic.Ring

/-!
# Decimal numerals

What `strconv.ParseUint` accepts: one digit or more and nothing else, with a value below 2⁶⁴. Leading
zeros are allowed. The value is that of the digits in base ten; the checks for overflow on the way do
not change which numerals are accepted, because a value that has reached the bound stays above it.
-/

namespace GoMesi

open Strings

namespace Strconv

/-- A decimal digit. -/
def IsDigit (b : UInt8) : Prop := 0x30 ≤ b ∧ b ≤ 0x39

/-- The value of decimal digits, the most significant one first. -/
def digitsValue (s : Bytes) : ℕ := Nat.ofDigits 10 ((s.map fun b ↦ b.toNat - 0x30).reverse)

/-- A decimal numeral and its value. -/
structure Decimal (s : Bytes) (n : ℕ) : Prop where
  ne_nil : s ≠ []
  digits : ∀ b ∈ s, IsDigit b
  value : n = digitsValue s

theorem digitsValue_cons (b : UInt8) (s : Bytes) :
    digitsValue (b :: s) = (b.toNat - 0x30) * 10 ^ s.length + digitsValue s := by
  rw [digitsValue, List.map_cons, List.reverse_cons, Nat.ofDigits_append, List.length_reverse,
    List.length_map, Nat.ofDigits_singleton, digitsValue]
  ring

theorem Decimal.unique {s : Bytes} {m n : ℕ} (hm : Decimal s m) (hn : Decimal s n) : m = n :=
  hm.value.trans hn.value.symm

/-- The numerals that the loop of `ParseUint` accepts after digits with the value `n`. -/
theorem loop_eq_ok_iff {n m : ℕ} (hn : n < 2 ^ 64) (s : Bytes) :
    parseUint.loop n s = .ok m ↔
      (∀ b ∈ s, IsDigit b) ∧ m = n * 10 ^ s.length + digitsValue s ∧ m < 2 ^ 64 := by
  induction s generalizing n with
  | nil =>
    have hvalue : n * 10 ^ ([] : Bytes).length + digitsValue [] = n := by simp [digitsValue]
    rw [parseUint.loop, hvalue]
    constructor
    · rintro ⟨⟩
      exact ⟨nofun, rfl, hn⟩
    · rintro ⟨-, rfl, -⟩
      rfl
  | cons b rest ih =>
    have hvalue : n * 10 ^ (b :: rest).length + digitsValue (b :: rest) =
        (n * 10 + (b.toNat - 0x30)) * 10 ^ rest.length + digitsValue rest := by
      rw [digitsValue_cons, List.length_cons]
      ring
    have hle : n * 10 + (b.toNat - 0x30) ≤
        (n * 10 + (b.toNat - 0x30)) * 10 ^ rest.length + digitsValue rest :=
      (Nat.le_mul_of_pos_right _ (by positivity)).trans (Nat.le_add_right _ _)
    rw [parseUint.loop, digit?]
    by_cases hdigit : 0x30 ≤ b ∧ b ≤ 0x39
    swap
    · rw [if_neg hdigit]
      constructor
      · rintro ⟨⟩
      · rintro ⟨hdigits, -, -⟩
        exact absurd (hdigits b List.mem_cons_self) hdigit
    rw [if_pos hdigit, hvalue]
    dsimp only
    -- A value that is too large now is too large in the end.
    have hlarge (h : 2 ^ 64 ≤ n * 10 + (b.toNat - 0x30)) :
        ¬ ((∀ b' ∈ b :: rest, IsDigit b') ∧
          m = (n * 10 + (b.toNat - 0x30)) * 10 ^ rest.length + digitsValue rest ∧ m < 2 ^ 64) := by
      rintro ⟨-, hm, hlt⟩
      omega
    split_ifs with hcutoff hrange
    · exact iff_of_false nofun (hlarge (by omega))
    · exact iff_of_false nofun (hlarge hrange)
    · rw [ih (by omega), List.forall_mem_cons]
      exact and_congr_left' (and_iff_right hdigit).symm

theorem parseUint_eq_ok_iff {s : Bytes} {n : ℕ} :
    parseUint s = .ok n ↔ Decimal s n ∧ n < 2 ^ 64 := by
  rw [parseUint]
  by_cases hnil : s = []
  · rw [if_pos hnil]
    exact iff_of_false nofun fun h ↦ h.1.ne_nil hnil
  · rw [if_neg hnil, loop_eq_ok_iff (by decide), Nat.zero_mul, Nat.zero_add]
    constructor
    · rintro ⟨hdigits, hvalue, hlt⟩
      exact ⟨⟨hnil, hdigits, hvalue⟩, hlt⟩
    · rintro ⟨h, hlt⟩
      exact ⟨h.digits, h.value, hlt⟩

end Strconv

/-! ## Other characters -/

namespace Strconv

theorem Decimal.not_mem {s : Bytes} {n : ℕ} (h : Decimal s n) {c : UInt8} (hc : ¬ IsDigit c) :
    c ∉ s :=
  fun hmem ↦ hc (h.digits c hmem)

theorem not_isDigit_minus : ¬ IsDigit 0x2d := by
  rw [IsDigit]
  decide

theorem not_isDigit_point : ¬ IsDigit 0x2e := by
  rw [IsDigit]
  decide

theorem Decimal.not_hasPrefix {s : Bytes} {n : ℕ} (h : Decimal s n) :
    ¬ hasPrefix s (lit "-") = true := by
  intro hminus
  have hsub : lit "-" <+: s := List.isPrefixOf_iff_prefix.mp hminus
  exact h.not_mem not_isDigit_minus (hsub.mem (by decide))

theorem Decimal.not_contains {s : Bytes} {n : ℕ} (h : Decimal s n) :
    ¬ contains s (lit ".") = true := by
  intro hpoint
  obtain ⟨i, hi⟩ := Option.isSome_iff_exists.mp hpoint
  obtain ⟨pre, post, hs, -⟩ := index_spec hi
  refine h.not_mem not_isDigit_point ?_
  rw [hs]
  exact List.mem_append_left _ (List.mem_append_right _ (by decide))

end Strconv

/-! ## Numbers in decimal -/

namespace Strconv

/-- The bytes of a literal without other characters than those of ASCII. -/
theorem lit_ofList {cs : List Char} (h : ∀ c ∈ cs, c.toNat < 0x80) :
    lit (String.ofList cs) = cs.map fun c ↦ UInt8.ofNat c.toNat := by
  have hbytes : lit (String.ofList cs) = cs.flatMap String.utf8EncodeChar := by
    rw [lit]
    simp [String.toUTF8, String.ofList, List.utf8Encode]
  rw [hbytes, ← List.flatMap_singleton' (cs.map _), List.flatMap_map]
  refine List.flatMap_congr fun c hc ↦ ?_
  have hle : c.val.toNat ≤ 0x7f := Nat.le_of_lt_succ (h c hc)
  rw [String.utf8EncodeChar, if_pos hle]
  rfl

theorem formatInt_natCast (n : ℕ) :
    formatInt n = (Nat.toDigits 10 n).map fun c ↦ UInt8.ofNat c.toNat := by
  have hstring : toString (n : ℤ) = String.ofList (Nat.toDigits 10 n) :=
    Nat.toString_eq_ofList_toDigits
  rw [formatInt, hstring]
  refine lit_ofList fun c hc ↦ ?_
  have hdigit : c.isDigit = true := Nat.isDigit_of_mem_toDigits (by decide) (by decide) hc
  rw [Char.isDigit, Bool.and_eq_true, decide_eq_true_eq, decide_eq_true_eq] at hdigit
  have hle : c.val.toNat ≤ 57 := UInt32.le_iff_toNat_le.mp hdigit.2
  exact Nat.lt_of_le_of_lt hle (by decide)

theorem lit_append (s t : String) : lit (s ++ t) = lit s ++ lit t := by
  simp [lit, String.toUTF8, String.toByteArray_append]

theorem formatInt_negSucc (n : ℕ) : formatInt (.negSucc n) = 0x2d :: formatInt (n + 1 : ℕ) := by
  have hstring : toString (Int.negSucc n) = "-" ++ toString ((n + 1 : ℕ) : ℤ) := rfl
  rw [formatInt, hstring, lit_append, formatInt]
  rfl

theorem formatInt_of_lt {n : ℕ} (h : n < 10) : formatInt n = [UInt8.ofNat (0x30 + n)] := by
  rw [formatInt_natCast, Nat.toDigits_of_lt_base h, List.map_singleton,
    Nat.toNat_digitChar_of_lt_ten h]

/-- The last digit comes after the others. -/
theorem formatInt_of_le {n : ℕ} (h : 10 ≤ n) :
    formatInt n = formatInt (n / 10 : ℕ) ++ [UInt8.ofNat (0x30 + n % 10)] := by
  rw [formatInt_natCast, formatInt_natCast, Nat.toDigits_of_base_le (by decide) h, List.map_append,
    List.map_singleton, Nat.toNat_digitChar_of_lt_ten (Nat.mod_lt n (by decide))]

theorem length_formatInt_le_iff {n k : ℕ} (hk : 0 < k) :
    (formatInt n).length ≤ k ↔ n < 10 ^ k := by
  rw [formatInt_natCast, List.length_map, Nat.length_toDigits_le_iff (by decide) hk]

theorem length_formatInt_pos (n : ℕ) : 0 < (formatInt n).length := by
  rw [formatInt_natCast, List.length_map]
  exact Nat.length_toDigits_pos

theorem digitsValue_concat (s : Bytes) (b : UInt8) :
    digitsValue (s ++ [b]) = digitsValue s * 10 + (b.toNat - 0x30) := by
  rw [digitsValue, List.map_append, List.reverse_append, List.map_singleton, List.reverse_singleton,
    List.singleton_append, Nat.ofDigits_cons, digitsValue]
  ring

/-- A number in decimal is a numeral of the number. -/
theorem decimal_formatInt (n : ℕ) : Decimal (formatInt n) n := by
  have hdigit {d : ℕ} (hd : d < 10) :
      IsDigit (UInt8.ofNat (0x30 + d)) ∧ (UInt8.ofNat (0x30 + d)).toNat - 0x30 = d := by
    have htoNat : (UInt8.ofNat (0x30 + d)).toNat = 0x30 + d := by
      rw [UInt8.toNat_ofNat']
      omega
    refine ⟨⟨UInt8.le_iff_toNat_le.mpr ?_, UInt8.le_iff_toNat_le.mpr ?_⟩, by omega⟩ <;> rw [htoNat]
    · exact Nat.le_add_right _ _
    · change 0x30 + d ≤ 57
      omega
  induction n using Nat.strong_induction_on with
  | h n ih =>
    by_cases hn : n < 10
    · rw [formatInt_of_lt hn]
      refine ⟨List.cons_ne_nil _ _, fun b hb ↦ ?_, ?_⟩
      · rw [List.mem_singleton.mp hb]
        exact (hdigit hn).1
      · rw [← List.nil_append [_], digitsValue_concat, (hdigit hn).2]
        simp [digitsValue]
    · have hmod : n % 10 < 10 := Nat.mod_lt n (by decide)
      have hrest := ih (n / 10) (by omega)
      rw [formatInt_of_le (not_lt.mp hn)]
      refine ⟨by simp, fun b hb ↦ ?_, ?_⟩
      · rcases List.mem_append.mp hb with hb | hb
        · exact hrest.digits b hb
        · rw [List.mem_singleton.mp hb]
          exact (hdigit hmod).1
      · rw [digitsValue_concat, (hdigit hmod).2, ← hrest.value]
        omega

end Strconv

end GoMesi
