import GoMesi.Go.Strings

/-!
# Bytes and runes

Some functions of package `strings` see a string as bytes and others as runes, and a program that
uses both sees the two at once. They agree as far as ASCII goes: an ASCII byte is a rune of its own
wherever it stands, even behind an encoding that breaks off, so that whatever is cut at an ASCII
byte has the runes of its pieces.

White space at the ends is a matter of encodings. No encoding of a space is the beginning of
another, and none is the end of another, so that there is only one way to trim.
-/

namespace GoMesi

namespace Strings

/-! ## ASCII -/

theorem asciiLower_lt {b : UInt8} (hb : b < 0x80) : asciiLower b < 0x80 := by
  rw [asciiLower]
  split_ifs with h
  · have hle := UInt8.le_iff_toNat_le.mp h.2
    rw [UInt8.lt_iff_toNat_lt, UInt8.toNat_add]
    have h₁ : (0x5a : UInt8).toNat = 90 := rfl
    have h₂ : (0x20 : UInt8).toNat = 32 := rfl
    have h₃ : (0x80 : UInt8).toNat = 128 := rfl
    omega
  · exact hb

theorem isASCII_lower {s : Bytes} (hs : isASCII s = true) : isASCII (s.map asciiLower) = true := by
  simp only [isASCII, List.all_map, List.all_eq_true, Function.comp_apply,
    decide_eq_true_eq] at hs ⊢
  exact fun b hb ↦ asciiLower_lt (hs b hb)

/-- An ASCII string has one rune a byte. -/
theorem runesAux_of_isASCII {s : Bytes} (hs : isASCII s = true) :
    runesAux s.length s = s.map UInt8.toNat := by
  induction s with
  | nil => rfl
  | cons b s ih =>
    simp only [isASCII, List.all_cons, Bool.and_eq_true, decide_eq_true_eq] at hs
    have hdecode : decodeRune (b :: s) = (b.toNat, 1) := by
      simp only [decodeRune, if_pos hs.1]
    simp only [List.length_cons, runesAux, hdecode, List.map_cons, List.drop_succ_cons,
      List.drop_zero]
    exact congrArg _ (ih hs.2)

/-! ## The runes of a concatenation -/

theorem runesAux_eq {n : ℕ} {s : Bytes} (hn : s.length ≤ n) : runesAux n s = runes s := by
  induction n using Nat.strong_induction_on generalizing s with
  | _ n ih =>
    match n, s with
    | 0, s =>
      obtain rfl := List.length_eq_zero_iff.mp (Nat.le_zero.mp hn)
      rfl
    | n + 1, [] => rfl
    | n + 1, b :: s =>
      have hwidth := decodeRune_width (List.cons_ne_nil b s)
      have hlength : ((b :: s).drop (decodeRune (b :: s)).2).length ≤ s.length := by
        rw [List.length_drop, List.length_cons]
        omega
      have hle : s.length ≤ n := Nat.le_of_succ_le_succ hn
      rw [runes, List.length_cons, runesAux, runesAux,
        ih n (Nat.lt_succ_self n) (hlength.trans hle)]
      · rw [ih s.length (Nat.lt_succ_of_le hle) hlength]
      · simp
      · simp

theorem runes_nil : runes [] = [] := rfl

theorem runes_of_ne_nil {s : Bytes} (hs : s ≠ []) :
    runes s = (decodeRune s).1 :: runes (s.drop (decodeRune s).2) := by
  have hwidth := decodeRune_width hs
  obtain ⟨b, s, rfl⟩ := List.exists_cons_of_ne_nil hs
  have hlength : ((b :: s).drop (decodeRune (b :: s)).2).length ≤ s.length := by
    rw [List.length_drop, List.length_cons]
    omega
  rw [runes, List.length_cons, runesAux, runesAux_eq hlength]
  simp

theorem runes_cons_of_lt {b : UInt8} (hb : b < 0x80) (s : Bytes) :
    runes (b :: s) = b.toNat :: runes s := by
  rw [runes_of_ne_nil (List.cons_ne_nil b s), decodeRune_of_lt hb, List.drop_succ_cons,
    List.drop_zero]

/-- **An ASCII byte separates.** The runes of a string that is cut at an ASCII byte are those of its
pieces. -/
theorem runes_append_cons {c : UInt8} (hc : c < 0x80) (s t : Bytes) :
    runes (s ++ c :: t) = runes s ++ c.toNat :: runes t := by
  induction hn : s.length using Nat.strong_induction_on generalizing s with
  | _ n ih =>
    subst hn
    by_cases hs : s = []
    · subst hs
      rw [List.nil_append, runes_cons_of_lt hc, runes_nil, List.nil_append]
    · have hwidth := decodeRune_width hs
      have hlt : (s.drop (decodeRune s).2).length < s.length := by
        rw [List.length_drop]
        omega
      rw [runes_of_ne_nil (by simp), runes_of_ne_nil hs, decodeRune_append hc hs,
        List.drop_append_of_le_length hwidth.2, ih _ hlt _ rfl, List.cons_append]

/-! ## Lower case -/

/-- `unicode.ToLower` of the ASCII runes. -/
def LowersASCII (U : Unicode) : Prop :=
  ∀ b : UInt8, b < 0x80 → U.toLower b.toNat = (asciiLower b).toNat

theorem encodeRune_of_lt {b : UInt8} (hb : b < 0x80) : encodeRune b.toNat = [b] := by
  have hlt : b.toNat < 0x80 := UInt8.lt_iff_toNat_lt.mp hb
  rw [encodeRune]
  simp [hlt]

/-- The lower case of a string is that of its runes. -/
theorem toLower_eq {U : Unicode} (hU : LowersASCII U) (s : Bytes) :
    toLower U s = (runes s).flatMap fun r ↦ encodeRune (U.toLower r) := by
  rw [toLower]
  split_ifs with hs
  · rw [runes, runesAux_of_isASCII hs, List.flatMap_map]
    symm
    rw [← List.flatMap_pure_eq_map]
    refine List.flatMap_congr fun b hb ↦ ?_
    have hlt : b < 0x80 := by simpa using List.all_eq_true.mp hs b hb
    rw [hU b hlt, encodeRune_of_lt (asciiLower_lt hlt)]
    rfl
  · rfl

theorem toLower_of_isASCII (U : Unicode) {s : Bytes} (hs : isASCII s = true) :
    toLower U s = s.map asciiLower := by
  rw [toLower, if_pos hs]

theorem toLower_append_cons {U : Unicode} (hU : LowersASCII U) {c : UInt8} (hc : c < 0x80)
    (s t : Bytes) : toLower U (s ++ c :: t) = toLower U s ++ asciiLower c :: toLower U t := by
  rw [toLower_eq hU, toLower_eq hU, toLower_eq hU, runes_append_cons hc, List.flatMap_append,
    List.flatMap_cons, hU c hc, encodeRune_of_lt (asciiLower_lt hc)]
  rfl

/-! ## White space at the ends -/

/-- A sequence of encodings of a table. -/
def Runs (table : List Bytes) (s : Bytes) : Prop :=
  ∃ ws : List Bytes, (∀ w ∈ ws, w ∈ table) ∧ s = ws.flatten

/-- White space, as `unicode.IsSpace` has it. -/
def IsSpaces (s : Bytes) : Prop := Runs spaces s

/-- No encoding of a table is a proper prefix of another, and none is empty. -/
def PrefixFree (table : List Bytes) : Prop :=
  (∀ v ∈ table, ∀ w ∈ table, v <+: w → v = w) ∧ ∀ w ∈ table, w ≠ []

/-- A string that starts with no encoding of a table, whatever follows it. -/
def Firm (table : List Bytes) (s : Bytes) : Prop := ∀ t, ∀ w ∈ table, ¬ w <+: s ++ t

theorem prefixFree_spaces : PrefixFree spaces := by
  unfold PrefixFree
  decide

theorem prefixFree_reverse_spaces : PrefixFree (spaces.map List.reverse) := by
  unfold PrefixFree
  decide

theorem hasPrefix_iff {s w : Bytes} : hasPrefix s w = true ↔ w <+: s := List.isPrefixOf_iff_prefix

/-- A byte that starts no encoding makes a string firm. -/
theorem Firm.of_head {table : List Bytes} {c : UInt8} (h : ∀ w ∈ table, w.head? ≠ some c)
    (hne : ∀ w ∈ table, w ≠ []) (s : Bytes) : Firm table (c :: s) := by
  intro t w hw hpre
  obtain ⟨b, w', rfl⟩ := List.exists_cons_of_ne_nil (hne w hw)
  rw [List.cons_append, List.cons_prefix_cons] at hpre
  exact h _ hw (congrArg some hpre.1)

section

variable {table : List Bytes} (htable : PrefixFree table)

include htable

/-- The encoding at the front is the one that is found. -/
theorem find_hasPrefix {w : Bytes} (hw : w ∈ table) (s : Bytes) :
    table.find? (hasPrefix (w ++ s)) = some w := by
  have hisSome : (table.find? (hasPrefix (w ++ s))).isSome = true := by
    rw [List.find?_isSome]
    exact ⟨w, hw, hasPrefix_iff.mpr (List.prefix_append w s)⟩
  obtain ⟨v, hv⟩ := Option.isSome_iff_exists.mp hisSome
  have hmem := List.mem_of_find?_eq_some hv
  have hpre : v <+: w ++ s := hasPrefix_iff.mp (List.find?_some hv)
  rw [hv]
  -- of two prefixes of one string one is a prefix of the other
  rcases List.prefix_or_prefix_of_prefix hpre (List.prefix_append w s) with h | h
  · rw [htable.1 v hmem w hw h]
  · rw [htable.1 w hw v hmem h]

theorem trimFront_append {a s : Bytes} (ha : Runs table a) (hs : Firm table s) (t : Bytes) {n : ℕ}
    (hn : a.length ≤ n) : trimFront table n (a ++ (s ++ t)) = s ++ t := by
  obtain ⟨ws, hws, rfl⟩ := ha
  induction ws generalizing n with
  | nil =>
    rw [List.flatten_nil, List.nil_append]
    cases n with
    | zero => rfl
    | succ n =>
      have hnone : table.find? (hasPrefix (s ++ t)) = none := by
        rw [List.find?_eq_none]
        intro w hw hpre
        exact hs t w hw (hasPrefix_iff.mp hpre)
      rw [trimFront, hnone]
  | cons w ws ih =>
    have hw : w ∈ table := hws w List.mem_cons_self
    have hpos : 0 < w.length := List.length_pos_of_ne_nil (htable.2 w hw)
    rw [List.flatten_cons, List.length_append] at hn
    obtain ⟨n, rfl⟩ : ∃ m, n = m + 1 := ⟨n - 1, by omega⟩
    rw [List.flatten_cons, List.append_assoc, trimFront, find_hasPrefix htable hw]
    simp only [List.drop_left]
    exact ih (fun v hv ↦ hws v (List.mem_cons_of_mem w hv)) (by omega)

end

/-- What is trimmed at the front is a sequence of encodings. -/
theorem exists_runs_trimFront (table : List Bytes) (n : ℕ) (s : Bytes) :
    ∃ a, Runs table a ∧ s = a ++ trimFront table n s := by
  induction n generalizing s with
  | zero => exact ⟨[], ⟨[], by simp, rfl⟩, rfl⟩
  | succ n ih =>
    rw [trimFront]
    cases hfind : table.find? (hasPrefix s) with
    | none => exact ⟨[], ⟨[], by simp, rfl⟩, rfl⟩
    | some w =>
      have hw := List.mem_of_find?_eq_some hfind
      obtain ⟨r, rfl⟩ : w <+: s := hasPrefix_iff.mp (List.find?_some hfind)
      obtain ⟨a, ⟨ws, hws, rfl⟩, ha⟩ := ih r
      refine ⟨w ++ ws.flatten, ⟨w :: ws, ?_, rfl⟩, ?_⟩
      · intro v hv
        rcases List.mem_cons.mp hv with rfl | hv
        · exact hw
        · exact hws v hv
      · rw [List.append_assoc]
        simp only [List.drop_left]
        rw [← ha]

theorem Runs.reverse {table : List Bytes} {s : Bytes} (h : Runs table s) :
    Runs (table.map List.reverse) s.reverse := by
  obtain ⟨ws, hws, rfl⟩ := h
  refine ⟨(ws.map List.reverse).reverse, ?_, ?_⟩
  · intro w hw
    obtain ⟨v, hv, rfl⟩ := List.mem_map.mp (List.mem_reverse.mp hw)
    exact List.mem_map_of_mem (hws v hv)
  · rw [List.reverse_flatten]

theorem reverse_reverse_table (table : List Bytes) :
    (table.map List.reverse).map List.reverse = table := by
  rw [List.map_map]
  simp

/-- **Trimming.** A string is a word with white space around it exactly if the word is what
`strings.TrimSpace` leaves of it, for a word with no white space at its ends. -/
theorem trimSpace_eq_iff {s w : Bytes} (hfront : Firm spaces w)
    (hback : Firm (spaces.map List.reverse) w.reverse) :
    trimSpace s = w ↔ ∃ a b, IsSpaces a ∧ IsSpaces b ∧ s = a ++ w ++ b := by
  constructor
  · intro h
    obtain ⟨a, ha, hs⟩ := exists_runs_trimFront spaces s.length s
    obtain ⟨b, hb, hfrontEq⟩ := exists_runs_trimFront (spaces.map List.reverse)
      (trimFront spaces s.length s).length (trimFront spaces s.length s).reverse
    refine ⟨a, b.reverse, ha, ?_, ?_⟩
    · rw [IsSpaces, ← reverse_reverse_table spaces]
      exact hb.reverse
    · rw [trimSpace, ← List.reverse_inj, List.reverse_reverse] at h
      rw [h] at hfrontEq
      have hrev := congrArg List.reverse hfrontEq
      rw [List.reverse_reverse, List.reverse_append, List.reverse_reverse] at hrev
      rw [List.append_assoc, ← hrev, ← hs]
  · rintro ⟨a, b, ha, hb, rfl⟩
    have hdropFront : trimFront spaces (a ++ w ++ b).length (a ++ w ++ b) = w ++ b := by
      rw [List.append_assoc]
      exact trimFront_append prefixFree_spaces ha hfront b (by simp)
    rw [trimSpace, hdropFront, List.reverse_append]
    have hdropBack := trimFront_append (n := (w ++ b).length) prefixFree_reverse_spaces hb.reverse
      hback [] (by simp)
    rw [List.append_nil] at hdropBack
    rw [hdropBack, List.reverse_reverse]

end Strings

end GoMesi
