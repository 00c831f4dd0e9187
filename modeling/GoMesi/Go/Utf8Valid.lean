import GoMesi.Go.Utf8

/-!
# Valid UTF-8

A decoder that replaces what is no encoding by U+FFFD gives a valid string back and changes every
other one: the replacement takes three bytes, and it stands for one.
-/

namespace GoMesi

namespace Strings

/-! ## One rune -/

theorem ofNat_eq {n : ℕ} {b : UInt8} (h : n = b.toNat) : UInt8.ofNat n = b := by
  rw [h, UInt8.ofNat_toNat]

theorem cont_iff {b lo hi : UInt8} : cont b lo hi = true ↔ lo.toNat ≤ b.toNat ∧ b.toNat ≤ hi.toNat := by
  rw [cont, Bool.and_eq_true, decide_eq_true_eq, decide_eq_true_eq, UInt8.le_iff_toNat_le,
    UInt8.le_iff_toNat_le]

/-- The second byte of an encoding continues it. -/
theorem cont_of_second₃ {b₀ b₁ : UInt8} (h : decodeRune.second₃ b₀ b₁ = true) :
    0x80 ≤ b₁.toNat ∧ b₁.toNat ≤ 0xbf ∧ (b₀ = 0xe0 → 0xa0 ≤ b₁.toNat) ∧
      (b₀ = 0xed → b₁.toNat ≤ 0x9f) := by
  rw [decodeRune.second₃] at h
  by_cases he0 : b₀ = 0xe0
  · rw [if_pos he0, cont_iff] at h
    refine ⟨?_, h.2, fun _ ↦ h.1, ?_⟩
    · exact le_trans (by decide) h.1
    · rintro rfl
      exact absurd he0 (by decide)
  by_cases hed : b₀ = 0xed
  · rw [if_neg he0, if_pos hed, cont_iff] at h
    exact ⟨h.1, h.2.trans (by decide), fun h0 ↦ absurd h0 he0, fun _ ↦ h.2⟩
  · rw [if_neg he0, if_neg hed, cont_iff] at h
    exact ⟨h.1, h.2, fun h0 ↦ absurd h0 he0, fun hd ↦ absurd hd hed⟩

theorem cont_of_second₄ {b₀ b₁ : UInt8} (h : decodeRune.second₄ b₀ b₁ = true) :
    0x80 ≤ b₁.toNat ∧ b₁.toNat ≤ 0xbf ∧ (b₀ = 0xf0 → 0x90 ≤ b₁.toNat) ∧
      (b₀ = 0xf4 → b₁.toNat ≤ 0x8f) := by
  rw [decodeRune.second₄] at h
  by_cases hf0 : b₀ = 0xf0
  · rw [if_pos hf0, cont_iff] at h
    refine ⟨?_, h.2, fun _ ↦ h.1, ?_⟩
    · exact le_trans (by decide) h.1
    · rintro rfl
      exact absurd hf0 (by decide)
  by_cases hf4 : b₀ = 0xf4
  · rw [if_neg hf0, if_pos hf4, cont_iff] at h
    exact ⟨h.1, h.2.trans (by decide), fun h0 ↦ absurd h0 hf0, fun _ ↦ h.2⟩
  · rw [if_neg hf0, if_neg hf4, cont_iff] at h
    exact ⟨h.1, h.2, fun h0 ↦ absurd h0 hf0, fun hd ↦ absurd hd hf4⟩

theorem encodeRune_two {b₀ b₁ : UInt8} (h₀ : 0xc2 ≤ b₀) (h₀' : b₀ ≤ 0xdf)
    (h₁ : cont b₁ 0x80 0xbf = true) :
    encodeRune (b₀.toNat % 32 * 64 + b₁.toNat % 64) = [b₀, b₁] := by
  have hlo : 0xc2 ≤ b₀.toNat := UInt8.le_iff_toNat_le.mp h₀
  have hhi : b₀.toNat ≤ 0xdf := UInt8.le_iff_toNat_le.mp h₀'
  obtain ⟨hlo₁, hhi₁⟩ : 0x80 ≤ b₁.toNat ∧ b₁.toNat ≤ 0xbf := cont_iff.mp h₁
  have hone : ¬ b₀.toNat % 32 * 64 + b₁.toNat % 64 < 0x80 := by omega
  have htwo : b₀.toNat % 32 * 64 + b₁.toNat % 64 < 0x800 := by omega
  rw [encodeRune, if_neg hone, if_pos htwo]
  simp only [List.cons.injEq, and_true]
  exact ⟨ofNat_eq (by omega), ofNat_eq (by omega)⟩

theorem encodeRune_three {b₀ b₁ b₂ : UInt8} (h₀ : 0xe0 ≤ b₀) (h₀' : b₀ ≤ 0xef)
    (h₁ : decodeRune.second₃ b₀ b₁ = true) (h₂ : cont b₂ 0x80 0xbf = true) :
    encodeRune (b₀.toNat % 16 * 4096 + b₁.toNat % 64 * 64 + b₂.toNat % 64) = [b₀, b₁, b₂] := by
  have hlo : 0xe0 ≤ b₀.toNat := UInt8.le_iff_toNat_le.mp h₀
  have hhi : b₀.toNat ≤ 0xef := UInt8.le_iff_toNat_le.mp h₀'
  obtain ⟨hlo₁, hhi₁, he0, hed⟩ := cont_of_second₃ h₁
  obtain ⟨hlo₂, hhi₂⟩ : 0x80 ≤ b₂.toNat ∧ b₂.toNat ≤ 0xbf := cont_iff.mp h₂
  -- Without overlong forms the rune has three bytes, and it is no surrogate.
  have hlarge : b₀.toNat = 0xe0 → 0xa0 ≤ b₁.toNat := fun h ↦ he0 (UInt8.toNat_inj.mp h)
  have hsurrogate : b₀.toNat = 0xed → b₁.toNat ≤ 0x9f := fun h ↦ hed (UInt8.toNat_inj.mp h)
  obtain ⟨r, hr⟩ : ∃ r, r = b₀.toNat % 16 * 4096 + b₁.toNat % 64 * 64 + b₂.toNat % 64 := ⟨_, rfl⟩
  have htwo : ¬ r < 0x800 := by omega
  have hvalid : ¬ (0xd800 ≤ r ∧ r ≤ 0xdfff ∨ 0x10ffff < r) := by omega
  have hthree : r < 0x10000 := by omega
  rw [← hr, encodeRune, if_neg fun h ↦ htwo (lt_trans h (by decide)), if_neg htwo, if_neg hvalid,
    if_pos hthree]
  simp only [List.cons.injEq, and_true]
  exact ⟨ofNat_eq (by omega), ofNat_eq (by omega), ofNat_eq (by omega)⟩

theorem encodeRune_four {b₀ b₁ b₂ b₃ : UInt8} (h₀ : 0xf0 ≤ b₀) (h₀' : b₀ ≤ 0xf4)
    (h₁ : decodeRune.second₄ b₀ b₁ = true) (h₂ : cont b₂ 0x80 0xbf = true)
    (h₃ : cont b₃ 0x80 0xbf = true) :
    encodeRune (b₀.toNat % 8 * 262144 + b₁.toNat % 64 * 4096 + b₂.toNat % 64 * 64 + b₃.toNat % 64) =
      [b₀, b₁, b₂, b₃] := by
  have hlo : 0xf0 ≤ b₀.toNat := UInt8.le_iff_toNat_le.mp h₀
  have hhi : b₀.toNat ≤ 0xf4 := UInt8.le_iff_toNat_le.mp h₀'
  obtain ⟨hlo₁, hhi₁, hf0, hf4⟩ := cont_of_second₄ h₁
  obtain ⟨hlo₂, hhi₂⟩ : 0x80 ≤ b₂.toNat ∧ b₂.toNat ≤ 0xbf := cont_iff.mp h₂
  obtain ⟨hlo₃, hhi₃⟩ : 0x80 ≤ b₃.toNat ∧ b₃.toNat ≤ 0xbf := cont_iff.mp h₃
  have hlarge : b₀.toNat = 0xf0 → 0x90 ≤ b₁.toNat := fun h ↦ hf0 (UInt8.toNat_inj.mp h)
  have hmax : b₀.toNat = 0xf4 → b₁.toNat ≤ 0x8f := fun h ↦ hf4 (UInt8.toNat_inj.mp h)
  obtain ⟨r, hr⟩ : ∃ r, r = b₀.toNat % 8 * 262144 + b₁.toNat % 64 * 4096 + b₂.toNat % 64 * 64 +
    b₃.toNat % 64 := ⟨_, rfl⟩
  have htwo : ¬ r < 0x800 := by omega
  have hvalid : ¬ (0xd800 ≤ r ∧ r ≤ 0xdfff ∨ 0x10ffff < r) := by omega
  have hthree : ¬ r < 0x10000 := by omega
  rw [← hr, encodeRune, if_neg fun h ↦ htwo (lt_trans h (by decide)), if_neg htwo, if_neg hvalid,
    if_neg hthree]
  simp only [List.cons.injEq, and_true]
  exact ⟨ofNat_eq (by omega), ofNat_eq (by omega), ofNat_eq (by omega), ofNat_eq (by omega)⟩

/-- What stands at the front of a string: a byte that starts no encoding, or the encoding of a rune.
All bytes of an encoding but the first are above ASCII. -/
theorem decodeRune_spec {s : Bytes} (hs : s ≠ []) :
    (decodeRune s = (0xfffd, 1) ∧ ∃ b t, s = b :: t ∧ ¬ b < 0x80) ∨
      encodeRune (decodeRune s).1 = s.take (decodeRune s).2 ∧
        ∀ b ∈ (s.take (decodeRune s).2).tail, 0x80 ≤ b.toNat := by
  obtain ⟨b₀, t, rfl⟩ := List.exists_cons_of_ne_nil hs
  by_cases hascii : b₀ < 0x80
  · right
    rw [decodeRune_of_lt hascii, List.take_succ_cons, List.take_zero]
    exact ⟨encodeRune_of_lt hascii, by simp⟩
  have htwo {b₁ : UInt8} (h : (0xc2 ≤ b₀ && b₀ ≤ 0xdf && cont b₁ 0x80 0xbf) = true) :
      encodeRune (b₀.toNat % 32 * 64 + b₁.toNat % 64) = [b₀, b₁] ∧ 0x80 ≤ b₁.toNat := by
    simp only [Bool.and_eq_true, decide_eq_true_eq] at h
    exact ⟨encodeRune_two h.1.1 h.1.2 h.2, (cont_iff.mp h.2).1⟩
  have hthree {b₁ b₂ : UInt8}
      (h : (0xe0 ≤ b₀ && b₀ ≤ 0xef && decodeRune.second₃ b₀ b₁ && cont b₂ 0x80 0xbf) = true) :
      encodeRune (b₀.toNat % 16 * 4096 + b₁.toNat % 64 * 64 + b₂.toNat % 64) = [b₀, b₁, b₂] ∧
        0x80 ≤ b₁.toNat ∧ 0x80 ≤ b₂.toNat := by
    simp only [Bool.and_eq_true, decide_eq_true_eq] at h
    exact ⟨encodeRune_three h.1.1.1 h.1.1.2 h.1.2 h.2, (cont_of_second₃ h.1.2).1, (cont_iff.mp h.2).1⟩
  have hfour {b₁ b₂ b₃ : UInt8}
      (h : (0xf0 ≤ b₀ && b₀ ≤ 0xf4 && decodeRune.second₄ b₀ b₁ && cont b₂ 0x80 0xbf &&
        cont b₃ 0x80 0xbf) = true) :
      encodeRune (b₀.toNat % 8 * 262144 + b₁.toNat % 64 * 4096 + b₂.toNat % 64 * 64 +
          b₃.toNat % 64) = [b₀, b₁, b₂, b₃] ∧
        0x80 ≤ b₁.toNat ∧ 0x80 ≤ b₂.toNat ∧ 0x80 ≤ b₃.toNat := by
    simp only [Bool.and_eq_true, decide_eq_true_eq] at h
    exact ⟨encodeRune_four h.1.1.1.1 h.1.1.1.2 h.1.1.2 h.1.2 h.2, (cont_of_second₄ h.1.1.2).1,
      (cont_iff.mp h.1.2).1, (cont_iff.mp h.2).1⟩
  match t with
  | [] =>
    refine .inl ⟨?_, b₀, [], rfl, hascii⟩
    simp only [decodeRune, if_neg hascii]
  | [b₁] =>
    simp only [decodeRune, if_neg hascii]
    split_ifs with h₂
    · simp [htwo h₂]
    · exact .inl ⟨rfl, b₀, _, rfl, hascii⟩
  | [b₁, b₂] =>
    simp only [decodeRune, if_neg hascii]
    split_ifs with h₂ h₃
    · simp [htwo h₂]
    · simp [hthree h₃]
    · exact .inl ⟨rfl, b₀, _, rfl, hascii⟩
  | b₁ :: b₂ :: b₃ :: rest =>
    simp only [decodeRune, if_neg hascii]
    split_ifs with h₂ h₃ h₄
    · simp [htwo h₂]
    · simp [hthree h₃]
    · simp [hfour h₄]
    · exact .inl ⟨rfl, b₀, _, rfl, hascii⟩

/-! ## Strings -/

/-- A string whose bytes have been decoded and encoded again. -/
def toValid (s : Bytes) : Bytes := (runes s).flatMap encodeRune

/-- `utf8.ValidString` -/
def validString (s : Bytes) : Bool :=
  go s.length s
where
  /-- With fuel for each byte. -/
  go : ℕ → Bytes → Bool
    | 0, _ => true
    | _ + 1, [] => true
    | fuel + 1, s => decide (decodeRune s ≠ (0xfffd, 1)) && go fuel (s.drop (decodeRune s).2)

theorem toValid_of_ne_nil {s : Bytes} (hs : s ≠ []) :
    toValid s = encodeRune (decodeRune s).1 ++ toValid (s.drop (decodeRune s).2) := by
  rw [toValid, runes_of_ne_nil hs, List.flatMap_cons, toValid]

theorem toValid_cons_of_lt {b : UInt8} (hb : b < 0x80) (s : Bytes) :
    toValid (b :: s) = b :: toValid s := by
  rw [toValid, runes_cons_of_lt hb, List.flatMap_cons, encodeRune_of_lt hb, toValid]
  rfl

/-- Strings do not get shorter. -/
theorem length_le_toValid (s : Bytes) : s.length ≤ (toValid s).length := by
  induction hn : s.length using Nat.strong_induction_on generalizing s with
  | h n ih =>
    subst hn
    by_cases hs : s = []
    · rw [hs]
      exact Nat.zero_le _
    have hwidth := decodeRune_width hs
    have hrest := ih _ (by rw [List.length_drop]; omega) (s.drop (decodeRune s).2) rfl
    rw [toValid_of_ne_nil hs, List.length_append]
    rw [List.length_drop] at hrest
    rcases decodeRune_spec hs with ⟨hbad, -⟩ | ⟨hencode, -⟩
    · have hthree : (encodeRune (decodeRune s).1).length = 3 := by
        rw [hbad]
        rfl
      have hone : (decodeRune s).2 = 1 := by rw [hbad]
      omega
    · rw [hencode, List.length_take]
      omega

/-- Decoding and encoding change nothing if and only if the string is valid. -/
theorem toValid_eq_self_iff {s : Bytes} : toValid s = s ↔ validString s = true := by
  have hgo (n : ℕ) (s : Bytes) (hn : s.length ≤ n) : toValid s = s ↔ validString.go n s = true := by
    induction n generalizing s with
    | zero =>
      obtain rfl := List.length_eq_zero_iff.mp (Nat.le_zero.mp hn)
      exact iff_of_true rfl rfl
    | succ n ih =>
      by_cases hs : s = []
      · rw [hs]
        exact iff_of_true rfl rfl
      have hwidth := decodeRune_width hs
      have hgo : validString.go (n + 1) s =
          (decide (decodeRune s ≠ (0xfffd, 1)) && validString.go n (s.drop (decodeRune s).2)) := by
        obtain ⟨b, t, rfl⟩ := List.exists_cons_of_ne_nil hs
        rfl
      rw [hgo, toValid_of_ne_nil hs, Bool.and_eq_true, decide_eq_true_eq,
        ← ih _ (by rw [List.length_drop]; omega)]
      by_cases hbad : decodeRune s = (0xfffd, 1)
      · -- The replacement is longer than the byte it stands for.
        refine iff_of_false (fun h ↦ ?_) fun h ↦ h.1 hbad
        have hlength := congrArg List.length h
        have hthree : (encodeRune (decodeRune s).1).length = 3 := by
          rw [hbad]
          rfl
        have hrest := length_le_toValid (s.drop (decodeRune s).2)
        rw [hbad] at hrest
        rw [List.length_append, hthree, hbad] at hlength
        rw [List.length_drop] at hrest
        omega
      · obtain ⟨hencode, -⟩ := (decodeRune_spec hs).resolve_left fun h ↦ hbad h.1
        rw [hencode, and_iff_right hbad]
        constructor
        · intro h
          exact List.append_cancel_left (h.trans (List.take_append_drop _ s).symm)
        · intro h
          rw [h, List.take_append_drop]
  exact hgo s.length s le_rfl

/-- Decoding and encoding put no NUL into a string. -/
theorem zero_not_mem_toValid {s : Bytes} (h : 0 ∉ s) : 0 ∉ toValid s := by
  induction hn : s.length using Nat.strong_induction_on generalizing s with
  | h n ih =>
    subst hn
    by_cases hs : s = []
    · rw [hs]
      exact List.not_mem_nil
    have hwidth := decodeRune_width hs
    have hrest := ih _ (by rw [List.length_drop]; omega) (s := s.drop (decodeRune s).2)
      (fun hmem ↦ h (List.mem_of_mem_drop hmem)) rfl
    rw [toValid_of_ne_nil hs, List.mem_append, not_or]
    refine ⟨?_, hrest⟩
    rcases decodeRune_spec hs with ⟨hbad, -⟩ | ⟨hencode, -⟩
    · rw [hbad]
      decide
    · rw [hencode]
      exact fun hmem ↦ h (List.mem_of_mem_take hmem)

/-! ## The bytes that stay -/

/-- ASCII stays as it is, and what is above it gives way to something above it. -/
inductive Replaced : Bytes → Bytes → Prop
  | nil : Replaced [] []
  | ascii {b : UInt8} {s t : Bytes} (hb : b < 0x80) (h : Replaced s t) : Replaced (b :: s) (b :: t)
  | wide {u v s t : Bytes} (hu : u ≠ [] ∧ ∀ b ∈ u, ¬ b < 0x80) (hv : v ≠ [] ∧ ∀ b ∈ v, ¬ b < 0x80)
    (h : Replaced s t) : Replaced (u ++ s) (v ++ t)

namespace Replaced

variable {s t : Bytes} {p : UInt8 → Bool}

/-- What is picked of ASCII is the same. -/
theorem filter_eq (h : Replaced s t) (hp : ∀ b, ¬ b < 0x80 → p b = false) :
    s.filter p = t.filter p := by
  have hwide {u : Bytes} (hu : ∀ b ∈ u, ¬ b < 0x80) : u.filter p = [] := by
    rw [List.filter_eq_nil_iff]
    intro b hb
    rw [hp b (hu b hb)]
    exact Bool.false_ne_true
  induction h with
  | nil => rfl
  | ascii hb h ih => rw [List.filter_cons, List.filter_cons, ih]
  | wide hu hv h ih => rw [List.filter_append, List.filter_append, hwide hu.2, hwide hv.2, ih]

theorem mem_iff (h : Replaced s t) {b : UInt8} (hb : b < 0x80) : b ∈ s ↔ b ∈ t := by
  have hfilter := h.filter_eq (p := (· == b)) fun c hc ↦
    beq_false_of_ne fun heq ↦ hc (heq ▸ hb)
  have hmem (u : Bytes) : b ∈ u ↔ b ∈ u.filter (· == b) := by
    rw [List.mem_filter, beq_self_eq_true]
    exact (and_iff_left rfl).symm
  rw [hmem s, hmem t, hfilter]

theorem symm (h : Replaced s t) : Replaced t s := by
  induction h with
  | nil => exact .nil
  | ascii hb h ih => exact .ascii hb ih
  | wide hu hv h ih => exact .wide hv hu ih

theorem append {s' t' : Bytes} (h : Replaced s t) (h' : Replaced s' t') :
    Replaced (s ++ s') (t ++ t') := by
  induction h with
  | nil => exact h'
  | ascii hb h ih => exact .ascii hb ih
  | wide hu hv h ih =>
    rw [List.append_assoc, List.append_assoc]
    exact .wide hu hv ih

theorem reverse (h : Replaced s t) : Replaced s.reverse t.reverse := by
  have hwide {u : Bytes} (hu : u ≠ [] ∧ ∀ b ∈ u, ¬ b < 0x80) :
      u.reverse ≠ [] ∧ ∀ b ∈ u.reverse, ¬ b < 0x80 :=
    ⟨fun hnil ↦ hu.1 (List.reverse_eq_nil_iff.mp hnil), fun b hb ↦ hu.2 b (List.mem_reverse.mp hb)⟩
  induction h with
  | nil => exact .nil
  | ascii hb h ih =>
    rw [List.reverse_cons, List.reverse_cons]
    exact ih.append (.ascii hb .nil)
  | @wide u v s t hu hv h ih =>
    rw [List.reverse_append, List.reverse_append, ← List.append_nil u.reverse,
      ← List.append_nil v.reverse]
    exact ih.append (.wide (hwide hu) (hwide hv) .nil)

end Replaced

end Strings

end GoMesi
