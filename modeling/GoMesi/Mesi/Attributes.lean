import GoMesi.Go.Decimal
import GoMesi.Mesi.Include
import GoMesi.Mesi.Markup
import GoMesi.Mesi.Simulate

/-!
# The numeric attributes of an include element

Three attributes are numbers: `timeout` and `max-depth` tighten the configuration for one include,
and `ab-ratio` splits its traffic. Depths and ratios are decimal numerals, and everything else is
rejected. A timeout is whatever `strconv.ParseFloat` takes. Its conversion to a `time.Duration` is not
guarded, so that a number of seconds beyond 292 years becomes the least duration, and the include
fails at once.
-/

namespace GoMesi

open Strings Strconv

/-! ## The maximal depth -/

theorem trimSpace_nil : trimSpace [] = [] := rfl

namespace EsiParserConfig

variable {P : Platform} (c : EsiParserConfig) (token : EsiIncludeToken)

end EsiParserConfig

/-! ## A/B ratios -/

/-- The texts of the attribute that are accepted, with their ratios: blank ones, and two numerals
around a colon. -/
inductive ABRatio.Text (raw : Bytes) : ABRatio → Prop
  | blank (h : trimSpace raw = []) : Text raw ⟨50, 50⟩
  | sides {left right : Bytes} {a b : ℕ} (hraw : trimSpace raw = left ++ 0x3a :: right)
    (hleft : 0x3a ∉ left) (hright : 0x3a ∉ right) (ha : Decimal (trimSpace left) a)
    (hb : Decimal (trimSpace right) b) (hamax : a ≤ 1000000) (hbmax : b ≤ 1000000)
    (hzero : ¬ (a = 0 ∧ b = 0)) : Text raw ⟨a, b⟩

theorem parseABSide_eq_ok_iff (P : Platform) {side : Bytes} {n : ℕ} :
    parseABSide P side = .ok n ↔ Decimal (trimSpace side) n ∧ n ≤ maxABRatio := by
  rw [parseABSide]
  by_cases hnil : trimSpace side = []
  · rw [if_pos hnil]
    exact iff_of_false nofun fun h ↦ h.1.ne_nil hnil
  by_cases hminus : hasPrefix (trimSpace side) (lit "-") = true
  · rw [if_neg hnil, if_pos hminus]
    exact iff_of_false nofun fun h ↦ h.1.not_hasPrefix hminus
  by_cases hpoint : contains (trimSpace side) (lit ".") = true
  · rw [if_neg hnil, if_neg hminus, if_pos hpoint]
    exact iff_of_false nofun fun h ↦ h.1.not_contains hpoint
  rw [if_neg hnil, if_neg hminus, if_neg hpoint]
  have hparse {m : ℕ} :
      parseUint (trimSpace side) = .ok m ↔ Decimal (trimSpace side) m ∧ m < 2 ^ 64 :=
    parseUint_eq_ok_iff
  generalize parseUint (trimSpace side) = parsed at *
  have hbound : maxABRatio < 2 ^ 64 := by decide
  cases parsed with
  | error e =>
    refine iff_of_false nofun fun h ↦ ?_
    exact absurd (hparse.mpr ⟨h.1, h.2.trans_lt hbound⟩) nofun
  | ok m =>
    have hm := (hparse.mp rfl).1
    dsimp only
    split_ifs with hlarge
    · refine iff_of_false nofun fun h ↦ ?_
      rw [hm.unique h.1] at hlarge
      exact absurd h.2 (not_le.mpr hlarge)
    · constructor
      · rintro ⟨⟩
        exact ⟨hm, not_lt.mp hlarge⟩
      · rintro ⟨h, -⟩
        rw [hm.unique h]

theorem split_of_not_mem {s : Bytes} {sep : UInt8} (h : sep ∉ s) : split s sep = [s] :=
  List.splitOn_eq_singleton h

theorem split_append_cons {s : Bytes} {sep : UInt8} (h : sep ∉ s) (t : Bytes) :
    split (s ++ sep :: t) sep = s :: split t sep :=
  List.splitOn_append_cons_self_of_not_mem h t

/-- A string has two parts if there is one separator between them. -/
theorem split_eq_pair_iff {s left right : Bytes} {sep : UInt8} :
    split s sep = [left, right] ↔ s = left ++ sep :: right ∧ sep ∉ left ∧ sep ∉ right := by
  constructor
  · intro h
    by_cases hmem : sep ∈ s
    swap
    · rw [split_of_not_mem hmem] at h
      cases h
    obtain ⟨front, back, rfl, hfront⟩ := List.eq_append_cons_of_mem hmem
    rw [split_append_cons hfront] at h
    obtain ⟨rfl, hback⟩ := List.cons.inj h
    by_cases hmem' : sep ∈ back
    · obtain ⟨mid, rest, rfl, hmid⟩ := List.eq_append_cons_of_mem hmem'
      rw [split_append_cons hmid] at hback
      exact absurd (List.cons.inj hback).2 (List.splitOn_ne_nil sep rest)
    · rw [split_of_not_mem hmem'] at hback
      obtain rfl := List.singleton_inj.mp hback
      exact ⟨rfl, hfront, hmem'⟩
  · rintro ⟨rfl, hleft, hright⟩
    rw [split_append_cons hleft, split_of_not_mem hright]

theorem ABRatio.text_blank_iff {raw : Bytes} (h : trimSpace raw = []) (ratio : ABRatio) :
    ratio.Text raw ↔ ratio = ⟨50, 50⟩ := by
  constructor
  · intro htext
    cases htext with
    | blank _ => rfl
    | sides hraw _ _ _ _ _ _ _ =>
      rw [h] at hraw
      exact absurd hraw.symm (by simp)
  · rintro rfl
    exact .blank h

theorem ABRatio.text_sides_iff {raw left right : Bytes} (hraw : trimSpace raw = left ++ 0x3a :: right)
    (hleft : 0x3a ∉ left) (hright : 0x3a ∉ right) (ratio : ABRatio) :
    ratio.Text raw ↔ (Decimal (trimSpace left) ratio.a ∧ ratio.a ≤ maxABRatio) ∧
      (Decimal (trimSpace right) ratio.b ∧ ratio.b ≤ maxABRatio) ∧ ¬ (ratio.a = 0 ∧ ratio.b = 0) := by
  constructor
  · intro h
    cases h with
    | blank h =>
      rw [h] at hraw
      exact absurd hraw.symm (by simp)
    | sides hraw' hleft' hright' ha hb hamax hbmax hzero =>
      have hparts := split_eq_pair_iff.mpr ⟨hraw, hleft, hright⟩
      rw [split_eq_pair_iff.mpr ⟨hraw', hleft', hright'⟩] at hparts
      obtain ⟨rfl, hrights⟩ := List.cons.inj hparts
      obtain rfl := List.singleton_inj.mp hrights
      exact ⟨⟨ha, hamax⟩, ⟨hb, hbmax⟩, hzero⟩
  · rintro ⟨⟨ha, hamax⟩, ⟨hb, hbmax⟩, hzero⟩
    exact .sides hraw hleft hright ha hb hamax hbmax hzero

/-- The grammar of the attribute. -/
theorem parseAB_eq_ok_iff (P : Platform) (token : EsiIncludeToken) (ratio : ABRatio) :
    token.parseAB P = .ok ratio ↔ ratio.Text token.abRatio := by
  rw [EsiIncludeToken.parseAB]
  by_cases hunset : token.abRatio = []
  · rw [if_pos hunset, hunset, ABRatio.text_blank_iff trimSpace_nil, Except.ok.injEq]
    exact eq_comm
  rw [if_neg hunset]
  dsimp only
  by_cases hblank : trimSpace token.abRatio = []
  · rw [if_pos hblank, ABRatio.text_blank_iff hblank, Except.ok.injEq]
    exact eq_comm
  rw [if_neg hblank]
  -- Without two parts there is no ratio.
  have hparts (h : ratio.Text token.abRatio) :
      ∃ left right, split (trimSpace token.abRatio) 0x3a = [left, right] := by
    cases h with
    | blank h => exact absurd h hblank
    | @sides left right _ _ hraw hleft hright _ _ _ _ _ =>
      exact ⟨left, right, split_eq_pair_iff.mpr ⟨hraw, hleft, hright⟩⟩
  by_cases hcolon : contains (trimSpace token.abRatio) (lit ":") = true
  swap
  · rw [if_pos hcolon]
    refine iff_of_false nofun fun h ↦ ?_
    obtain ⟨left, right, hsplit⟩ := hparts h
    rw [Bool.not_eq_true, contains_eq_false_iff] at hcolon
    refine hcolon ⟨left, right, ?_⟩
    rw [(split_eq_pair_iff.mp hsplit).1, List.append_assoc]
    rfl
  rw [if_neg (not_not.mpr hcolon)]
  by_cases hpair : ∃ left right, split (trimSpace token.abRatio) 0x3a = [left, right]
  swap
  · refine iff_of_false ?_ fun h ↦ hpair (hparts h)
    split
    · rename_i left right heq
      exact absurd ⟨left, right, heq⟩ hpair
    · exact nofun
  obtain ⟨left, right, hsplit⟩ := hpair
  obtain ⟨hraw, hleft, hright⟩ := split_eq_pair_iff.mp hsplit
  rw [hsplit, ABRatio.text_sides_iff hraw hleft hright, ← parseABSide_eq_ok_iff P,
    ← parseABSide_eq_ok_iff P]
  dsimp only
  cases parseABSide P left with
  | error e => exact iff_of_false nofun fun h ↦ absurd h.1 nofun
  | ok a =>
    cases parseABSide P right with
    | error e => exact iff_of_false nofun fun h ↦ absurd h.2.1 nofun
    | ok b =>
      dsimp only
      simp only [Except.ok.injEq]
      split_ifs with hzero
      · refine iff_of_false nofun ?_
        rintro ⟨rfl, rfl, hnot⟩
        exact hnot hzero
      · constructor
        · rintro ⟨⟩
          exact ⟨rfl, rfl, hzero⟩
        · rintro ⟨rfl, rfl, -⟩
          rfl

/-! ## The split -/

/-- `int(n)` where an `int` has `bits` bits. -/
def toInt (bits n : ℕ) : ℤ := (n : ℤ).bmod (2 ^ bits)

/-- `selectUrl` with the generator `rng`, where an `int` has `bits` bits. -/
def ABRatio.selectUrlWith (bits : ℕ) (ratio : ABRatio) (token : EsiIncludeToken) (rng : ℤ → ℤ) :
    Bytes :=
  if token.alt = [] then token.src
  else
    let sum := (ratio.a + ratio.b) % 2 ^ 64
    if sum = 0 then token.src
    else if sum > 2 ^ (bits - 1) - 1 then token.alt
    else
      let randomValue := rng (toInt bits sum)
      if randomValue < toInt bits ratio.a then token.src else token.alt

theorem ABRatio.Text.bounds {raw : Bytes} {ratio : ABRatio} (h : ratio.Text raw) :
    ratio.a ≤ 1000000 ∧ ratio.b ≤ 1000000 ∧ 0 < ratio.a + ratio.b := by
  cases h with
  | blank _ => decide
  | sides _ _ _ _ _ hamax hbmax hzero =>
    refine ⟨hamax, hbmax, ?_⟩
    dsimp only
    omega

theorem toInt_of_lt {bits n : ℕ} (hbits : 32 ≤ bits) (hn : n ≤ 2000000) : toInt bits n = n := by
  have hpow : 2 ^ 32 ≤ 2 ^ bits := Nat.pow_le_pow_right (by decide) hbits
  rw [toInt]
  generalize 2 ^ bits = modulus at *
  exact Int.bmod_eq_of_le (by omega) (by omega)

/-- An accepted ratio needs no more than 32 bits: neither the sum nor a conversion overflows, and the
guards are not reached. -/
theorem ABRatio.Text.selectUrlWith_eq {raw : Bytes} {ratio : ABRatio} (h : ratio.Text raw)
    {token : EsiIncludeToken} (halt : token.alt ≠ []) {bits : ℕ} (hbits : 32 ≤ bits) (rng : ℤ → ℤ) :
    ratio.selectUrlWith bits token rng =
      if rng ((ratio.a + ratio.b : ℕ) : ℤ) < ratio.a then token.src else token.alt := by
  obtain ⟨ha, hb, hpos⟩ := h.bounds
  have hsum : (ratio.a + ratio.b) % 2 ^ 64 = ratio.a + ratio.b := Nat.mod_eq_of_lt (by omega)
  have hmax : 2 ^ 31 ≤ 2 ^ (bits - 1) := Nat.pow_le_pow_right (by decide) (by omega)
  rw [selectUrlWith, if_neg halt]
  dsimp only
  rw [hsum, if_neg hpos.ne', if_neg (by omega), toInt_of_lt hbits (by omega),
    toInt_of_lt hbits (by omega)]

/-- What a render asks for is the generator `rand.Intn` on a target with 64 bits. -/
theorem ABRatio.Text.selectUrl_eq {raw : Bytes} {ratio : ABRatio} (h : ratio.Text raw)
    {token : EsiIncludeToken} (halt : token.alt ≠ []) (element : Path) :
    ratio.selectUrl token element =
      (do
        let randomValue ← ask (.intn element (ratio.a + ratio.b))
        return ratio.selectUrlWith 64 token fun _ ↦ (randomValue : ℕ)) := by
  obtain ⟨ha, hb, hpos⟩ := h.bounds
  rw [selectUrl, if_neg halt, if_neg hpos.ne', if_neg (by omega)]
  congr 1
  funext randomValue
  rw [h.selectUrlWith_eq halt (by decide)]
  simp only [Nat.cast_lt]

/-- Of the values in turn the first `a` are below `a`, and the other `b` are not. -/
theorem map_range_add {α : Type} (a b : ℕ) (x y : α) :
    (List.range (a + b)).map (fun v : ℕ ↦ if (v : ℤ) < a then x else y) =
      List.replicate a x ++ List.replicate b y := by
  rw [List.range_add, List.map_append, List.map_map]
  congr 1
  · rw [List.map_congr_left (g := fun _ ↦ x), List.map_const', List.length_range]
    intro v hv
    exact if_pos (Nat.cast_lt.mpr (List.mem_range.mp hv))
  · rw [List.map_congr_left (g := fun _ ↦ y), List.map_const', List.length_range]
    intro v _
    exact if_neg (by simp)

/-- How an accepted ratio splits the traffic on a target where an `int` has `bits` bits. -/
structure ABRatio.Splits (ratio : ABRatio) (token : EsiIncludeToken) (bits : ℕ) : Prop where
  /-- No overflow in the sum. -/
  sum : (ratio.a + ratio.b) % 2 ^ 64 = ratio.a + ratio.b
  /-- No overflow in a conversion. -/
  ints : toInt bits (ratio.a + ratio.b) = ratio.a + ratio.b ∧ toInt bits ratio.a = ratio.a
  /-- The generator is asked for a number below the sum. -/
  asks : ∀ rng : ℤ → ℤ, ratio.selectUrlWith bits token rng =
    ratio.selectUrlWith bits token fun _ ↦ rng (ratio.a + ratio.b)
  /-- Of the numbers it can give, one after the other, `a` pick the first URL and `b` the second. -/
  counts : (List.range (ratio.a + ratio.b)).map
      (fun v : ℕ ↦ ratio.selectUrlWith bits token fun _ ↦ v) =
    List.replicate ratio.a token.src ++ List.replicate ratio.b token.alt

/-- **Main result.** The grammar of the attribute, and the split for every accepted ratio. -/
theorem parseAB_splits (P : Platform) (token : EsiIncludeToken) :
    (∀ ratio, token.parseAB P = .ok ratio ↔ ratio.Text token.abRatio) ∧
      ∀ ratio, token.parseAB P = .ok ratio → token.alt ≠ [] → ∀ bits, bits = 32 ∨ bits = 64 →
        ratio.Splits token bits := by
  refine ⟨parseAB_eq_ok_iff P token, fun ratio hratio halt bits hbits ↦ ?_⟩
  have htext := (parseAB_eq_ok_iff P token ratio).mp hratio
  have hle : 32 ≤ bits := by omega
  obtain ⟨ha, hb, -⟩ := htext.bounds
  constructor
  · exact Nat.mod_eq_of_lt (by omega)
  · refine ⟨?_, toInt_of_lt hle (by omega)⟩
    rw [toInt_of_lt hle (by omega)]
    push_cast
    rfl
  · intro rng
    rw [htext.selectUrlWith_eq halt hle, htext.selectUrlWith_eq halt hle]
    push_cast
    rfl
  · simp only [htext.selectUrlWith_eq halt hle]
    exact map_range_add ratio.a ratio.b token.src token.alt

/-- Two to one. -/
theorem parseAB_splits_twoToOne :
    ABRatio.Splits ⟨2, 1⟩ { alt := lit "b", abRatio := lit " 02 : 1" } 32 :=
  (parseAB_splits (.ofElements []) { alt := lit "b", abRatio := lit " 02 : 1" }).2 ⟨2, 1⟩
    (by decide +kernel) (by decide) 32 (.inl rfl)

end GoMesi
