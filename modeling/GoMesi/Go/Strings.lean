import Mathlib

/-!
# Go strings

A Go string is a sequence of bytes, usually but not necessarily valid UTF-8, and so it is a list
of bytes here. The functions of package `strings` follow their documentation on every byte
sequence. The ones that search and cut work on bytes. The ones that look at letters or white space
decode UTF-8 first, where a byte that starts no valid encoding stands for U+FFFD.

The tables of package `unicode` are a parameter (`Unicode`): the lower case of a rune and a
representative of its simple case folding class, of which only the ASCII part is fixed.
-/

namespace GoMesi

/-- A Go string. -/
abbrev Bytes := List UInt8

/-- The bytes of a string literal of the source. -/
def lit (s : String) : Bytes := s.toUTF8.data.toList

/-- A decoded code point, Go's `rune`. -/
abbrev Rune := ℕ

namespace Strings

/-! ## Searching and cutting -/

/-- `strings.HasPrefix`. -/
def hasPrefix (s sub : Bytes) : Bool := sub.isPrefixOf s

/-- `strings.HasSuffix`. -/
def hasSuffix (s sub : Bytes) : Bool := sub.isSuffixOf s

/-- `strings.Index`, with `none` for `-1`. -/
def index : Bytes → Bytes → Option ℕ
  | [], sub => if hasPrefix [] sub then some 0 else none
  | c :: s, sub => if hasPrefix (c :: s) sub then some 0 else (index s sub).map (· + 1)

/-- `strings.LastIndex`, with `none` for `-1`. -/
def lastIndex : Bytes → Bytes → Option ℕ
  | [], sub => if hasPrefix [] sub then some 0 else none
  | c :: s, sub =>
    match lastIndex s sub with
    | some n => some (n + 1)
    | none => if hasPrefix (c :: s) sub then some 0 else none

/-- `strings.Contains`. -/
def contains (s sub : Bytes) : Bool := (index s sub).isSome

/-- `strings.TrimSuffix`. -/
def trimSuffix (s suffix : Bytes) : Bytes :=
  if hasSuffix s suffix then s.take (s.length - suffix.length) else s

/-- `strings.TrimLeft` with a cutset of one byte. -/
def trimLeft (s : Bytes) (c : UInt8) : Bytes := s.dropWhile (· == c)

/-- `strings.TrimRight` with a cutset of one byte. -/
def trimRight (s : Bytes) (c : UInt8) : Bytes := (s.reverse.dropWhile (· == c)).reverse

/-- `strings.Split` at a separator of one byte. -/
def split (s : Bytes) (sep : UInt8) : List Bytes := s.splitOn sep

/-- The half-open slice `s[i:j]`. -/
def slice (s : Bytes) (i j : ℕ) : Bytes := (s.take j).drop i

theorem index_spec {s sub : Bytes} {n : ℕ} (h : index s sub = some n) :
    ∃ pre post, s = pre ++ sub ++ post ∧ pre.length = n := by
  induction s generalizing n with
  | nil =>
    rw [index] at h
    split_ifs at h with hp
    obtain ⟨post, hpost⟩ := List.isPrefixOf_iff_prefix.mp hp
    exact ⟨[], post, by simpa using hpost.symm, by simpa using h⟩
  | cons c s ih =>
    rw [index] at h
    split_ifs at h with hp
    · obtain ⟨post, hpost⟩ := List.isPrefixOf_iff_prefix.mp hp
      exact ⟨[], post, by simpa using hpost.symm, by simpa using h⟩
    · obtain ⟨m, hm, rfl⟩ := Option.map_eq_some_iff.mp h
      obtain ⟨pre, post, rfl, hlen⟩ := ih hm
      exact ⟨c :: pre, post, by simp, by simp [hlen]⟩

/-- What is found lies within the string. -/
theorem index_le {s sub : Bytes} {n : ℕ} (h : index s sub = some n) :
    n + sub.length ≤ s.length := by
  obtain ⟨pre, post, rfl, rfl⟩ := index_spec h
  simp

/-- Going past something found leaves less of the string. -/
theorem index_drop_lt {s sub : Bytes} {n : ℕ} (h : index s sub = some n) (hsub : sub ≠ []) :
    (s.drop (n + sub.length)).length < s.length := by
  have hle := index_le h
  have hpos := List.length_pos_of_ne_nil hsub
  rw [List.length_drop]
  omega

/-- The same for something found after the first `m` bytes. -/
theorem index_drop_drop_lt {s sub : Bytes} {m n : ℕ} (h : index (s.drop m) sub = some n)
    (hsub : sub ≠ []) : (s.drop (m + n + sub.length)).length < s.length := by
  have hlt := index_drop_lt h hsub
  rw [List.drop_drop, ← Nat.add_assoc, List.length_drop, List.length_drop (i := m)] at hlt
  rw [List.length_drop]
  omega

/-! ## White space -/

/-- The UTF-8 encodings of the runes for which `unicode.IsSpace` holds. -/
def spaces : List Bytes :=
  [[0x09], [0x0a], [0x0b], [0x0c], [0x0d], [0x20], [0xc2, 0x85], [0xc2, 0xa0],
    [0xe1, 0x9a, 0x80], [0xe2, 0x80, 0x80], [0xe2, 0x80, 0x81], [0xe2, 0x80, 0x82],
    [0xe2, 0x80, 0x83], [0xe2, 0x80, 0x84], [0xe2, 0x80, 0x85], [0xe2, 0x80, 0x86],
    [0xe2, 0x80, 0x87], [0xe2, 0x80, 0x88], [0xe2, 0x80, 0x89], [0xe2, 0x80, 0x8a],
    [0xe2, 0x80, 0xa8], [0xe2, 0x80, 0xa9], [0xe2, 0x80, 0xaf], [0xe2, 0x81, 0x9f],
    [0xe3, 0x80, 0x80]]

/-- Drop encodings of `table` from the front as long as one stands there. `fuel` bounds their
number, and the length of the string is always enough. -/
def trimFront (table : List Bytes) : ℕ → Bytes → Bytes
  | 0, s => s
  | fuel + 1, s =>
    match table.find? (hasPrefix s) with
    | some sp => trimFront table fuel (s.drop sp.length)
    | none => s

/-- `strings.TrimSpace`. -/
def trimSpace (s : Bytes) : Bytes :=
  let front := trimFront spaces s.length s
  (trimFront (spaces.map List.reverse) front.length front.reverse).reverse

/-- `strings.Fields` from a field on that has begun with `field`. -/
def fieldsAux : ℕ → Bytes → Bytes → List Bytes
  | 0, field, _ => if field = [] then [] else [field]
  | _ + 1, field, [] => if field = [] then [] else [field]
  | fuel + 1, field, c :: rest =>
    match spaces.find? (hasPrefix (c :: rest)) with
    | some sp =>
      (if field = [] then [] else [field]) ++ fieldsAux fuel [] ((c :: rest).drop sp.length)
    | none => fieldsAux fuel (field ++ [c]) rest

/-- `strings.Fields`. -/
def fields (s : Bytes) : List Bytes := fieldsAux s.length [] s

/-! ## UTF-8 -/

def cont (b : UInt8) (lo hi : UInt8) : Bool := lo ≤ b && b ≤ hi

/-- `utf8.DecodeRuneInString`: the first rune of a non-empty string and its width. -/
def decodeRune : Bytes → Rune × ℕ
  | [] => (0xfffd, 0)
  | b₀ :: rest =>
    let tail (b : UInt8) : ℕ := b.toNat % 64
    if b₀ < 0x80 then (b₀.toNat, 1)
    else
      match rest with
      | b₁ :: b₂ :: b₃ :: _ =>
        if 0xc2 ≤ b₀ && b₀ ≤ 0xdf && cont b₁ 0x80 0xbf then
          (b₀.toNat % 32 * 64 + tail b₁, 2)
        else if 0xe0 ≤ b₀ && b₀ ≤ 0xef && second₃ b₀ b₁ && cont b₂ 0x80 0xbf then
          (b₀.toNat % 16 * 4096 + tail b₁ * 64 + tail b₂, 3)
        else if 0xf0 ≤ b₀ && b₀ ≤ 0xf4 && second₄ b₀ b₁ && cont b₂ 0x80 0xbf
            && cont b₃ 0x80 0xbf then
          (b₀.toNat % 8 * 262144 + tail b₁ * 4096 + tail b₂ * 64 + tail b₃, 4)
        else (0xfffd, 1)
      | [b₁, b₂] =>
        if 0xc2 ≤ b₀ && b₀ ≤ 0xdf && cont b₁ 0x80 0xbf then
          (b₀.toNat % 32 * 64 + tail b₁, 2)
        else if 0xe0 ≤ b₀ && b₀ ≤ 0xef && second₃ b₀ b₁ && cont b₂ 0x80 0xbf then
          (b₀.toNat % 16 * 4096 + tail b₁ * 64 + tail b₂, 3)
        else (0xfffd, 1)
      | [b₁] =>
        if 0xc2 ≤ b₀ && b₀ ≤ 0xdf && cont b₁ 0x80 0xbf then
          (b₀.toNat % 32 * 64 + tail b₁, 2)
        else (0xfffd, 1)
      | [] => (0xfffd, 1)
where
  /-- The second byte of a three-byte encoding: no overlong forms and no surrogates. -/
  second₃ (b₀ b₁ : UInt8) : Bool :=
    if b₀ = 0xe0 then cont b₁ 0xa0 0xbf
    else if b₀ = 0xed then cont b₁ 0x80 0x9f
    else cont b₁ 0x80 0xbf
  /-- The second byte of a four-byte encoding: no overlong forms, at most U+10FFFF. -/
  second₄ (b₀ b₁ : UInt8) : Bool :=
    if b₀ = 0xf0 then cont b₁ 0x90 0xbf
    else if b₀ = 0xf4 then cont b₁ 0x80 0x8f
    else cont b₁ 0x80 0xbf

theorem decodeRune_of_lt {b : UInt8} (hb : b < 0x80) (s : Bytes) :
    decodeRune (b :: s) = (b.toNat, 1) := by
  simp only [decodeRune, if_pos hb]

/-- A rune takes at least one byte and no more than there are. -/
theorem decodeRune_width {s : Bytes} (hs : s ≠ []) :
    0 < (decodeRune s).2 ∧ (decodeRune s).2 ≤ s.length := by
  match s with
  | [] => exact absurd rfl hs
  | [b₀] =>
    simp only [decodeRune]
    split_ifs <;> simp
  | [b₀, b₁] =>
    simp only [decodeRune]
    split_ifs <;> simp
  | [b₀, b₁, b₂] =>
    simp only [decodeRune]
    split_ifs <;> simp
  | b₀ :: b₁ :: b₂ :: b₃ :: rest =>
    simp only [decodeRune]
    split_ifs <;> simp

/-- An ASCII byte continues no encoding. -/
theorem cont_of_lt {c lo hi : UInt8} (hc : c < 0x80) (hlo : 0x80 ≤ lo) : cont c lo hi = false := by
  have hlt : ¬ lo ≤ c := by
    rw [UInt8.le_iff_toNat_le] at hlo ⊢
    rw [UInt8.lt_iff_toNat_lt] at hc
    omega
  rw [cont, decide_eq_false hlt, Bool.false_and]

theorem second₃_of_lt {c : UInt8} (hc : c < 0x80) (b₀ : UInt8) :
    decodeRune.second₃ b₀ c = false := by
  rw [decodeRune.second₃]
  split_ifs <;> exact cont_of_lt hc (by decide)

theorem second₄_of_lt {c : UInt8} (hc : c < 0x80) (b₀ : UInt8) :
    decodeRune.second₄ b₀ c = false := by
  rw [decodeRune.second₄]
  split_ifs <;> exact cont_of_lt hc (by decide)

/-- An encoding that breaks off at an ASCII byte is read as if the string ended there. -/
theorem decodeRune_append {c : UInt8} (hc : c < 0x80) {s : Bytes} (hs : s ≠ []) (t : Bytes) :
    decodeRune (s ++ c :: t) = decodeRune s := by
  have h₁ : cont c 0x80 0xbf = false := cont_of_lt hc (by decide)
  match s with
  | [] => exact absurd rfl hs
  | [b₀] =>
    match t with
    | [] => simp [decodeRune, h₁]
    | [t₀] => simp [decodeRune, h₁, second₃_of_lt hc]
    | t₀ :: t₁ :: t => simp [decodeRune, h₁, second₃_of_lt hc, second₄_of_lt hc]
  | [b₀, b₁] =>
    match t with
    | [] => simp [decodeRune, h₁]
    | t₀ :: t => simp [decodeRune, h₁]
  | [b₀, b₁, b₂] => simp [decodeRune, h₁]
  | b₀ :: b₁ :: b₂ :: b₃ :: rest => simp [decodeRune]

/-- The runes a `range` loop over the string visits. -/
def runesAux : ℕ → Bytes → List Rune
  | 0, _ => []
  | _ + 1, [] => []
  | fuel + 1, s => (decodeRune s).1 :: runesAux fuel (s.drop (decodeRune s).2)

def runes (s : Bytes) : List Rune := runesAux s.length s

/-- `utf8.AppendRune`. -/
def encodeRune (r : Rune) : Bytes :=
  let byte (n : ℕ) : UInt8 := UInt8.ofNat n
  if r < 0x80 then [byte r]
  else if r < 0x800 then [byte (0xc0 + r / 64), byte (0x80 + r % 64)]
  else if 0xd800 ≤ r ∧ r ≤ 0xdfff ∨ 0x10ffff < r then [0xef, 0xbf, 0xbd]
  else if r < 0x10000 then
    [byte (0xe0 + r / 4096), byte (0x80 + r / 64 % 64), byte (0x80 + r % 64)]
  else [byte (0xf0 + r / 262144), byte (0x80 + r / 4096 % 64), byte (0x80 + r / 64 % 64),
    byte (0x80 + r % 64)]

/-- Lower case of an ASCII letter. -/
def asciiLower (b : UInt8) : UInt8 := if 0x41 ≤ b ∧ b ≤ 0x5a then b + 32 else b

/-- Upper case of an ASCII letter. -/
def asciiUpper (b : UInt8) : UInt8 := if 0x61 ≤ b ∧ b ≤ 0x7a then b - 32 else b

/-- Every byte is below `utf8.RuneSelf`. -/
def isASCII (s : Bytes) : Bool := s.all (· < 0x80)

end Strings

/-- The tables of package `unicode`. -/
structure Unicode where
  /-- `unicode.ToLower`. -/
  toLower : Rune → Rune
  /-- A representative of the class of a rune under `unicode.SimpleFold`. -/
  fold : Rune → Rune
  /-- Only ASCII letters fold within ASCII. -/
  fold_ascii : ∀ b : UInt8, b < 0x80 → fold b.toNat = (Strings.asciiLower b).toNat

namespace Strings

/-- `strings.ToLower`. -/
def toLower (U : Unicode) (s : Bytes) : Bytes :=
  if isASCII s then s.map asciiLower else (runes s).flatMap fun r ↦ encodeRune (U.toLower r)

/-- `strings.EqualFold`: equality of the runes under simple case folding. -/
def equalFold (U : Unicode) (s t : Bytes) : Bool :=
  (runes s).map U.fold == (runes t).map U.fold

end Strings

end GoMesi
