import GoMesi.Go.Decimal
import GoMesi.Go.Utf8Valid

/-!
# JSON

`json.Unmarshal`: a text is read as a whole, with nothing but white space around a value and with at
most 10000 arrays and objects in one another, before anything is decoded. A string is decoded rune by
rune, so that what is not valid UTF-8 becomes U+FFFD; a control character in it is an error. The
members of an object go to the fields of a struct by their names, or else by names that differ in
the case of their letters; a later member overrides an earlier one, members without a field are
ignored, and a value of another type is an error.

The last part is about texts that are written by a program that escapes what it has to
(`stringBody_flatMap`).
-/

namespace GoMesi

open Strings Strconv

namespace Json

/-- A value. A number is its text. -/
inductive Value
  | null
  | bool (b : Bool)
  | number (text : Bytes)
  | string (s : Bytes)
  | array (elements : List Value)
  | object (members : List (Bytes × Value))

/-! ## Reading -/

def isSpace (c : UInt8) : Bool := c == 0x20 || c == 0x09 || c == 0x0d || c == 0x0a

def skipSpace (s : Bytes) : Bytes := s.dropWhile isSpace

/-- The value of a hexadecimal digit. -/
def hex? (c : UInt8) : Option ℕ :=
  if 0x30 ≤ c ∧ c ≤ 0x39 then some (c.toNat - 0x30)
  else if 0x41 ≤ c ∧ c ≤ 0x46 then some (c.toNat - 0x37)
  else if 0x61 ≤ c ∧ c ≤ 0x66 then some (c.toNat - 0x57)
  else none

/-- Four hexadecimal digits. -/
def getu4 : Bytes → Option (ℕ × Bytes)
  | a :: b :: c :: d :: s => do
    some ((← hex? a) * 4096 + (← hex? b) * 256 + (← hex? c) * 16 + (← hex? d), s)
  | _ => none

/-- `\u` and four digits: the second half of a surrogate pair, as far as syntax goes. -/
def nextU4 : Bytes → Option (ℕ × Bytes)
  | b :: u :: s => if b = 0x5c ∧ u = 0x75 then getu4 s else none
  | _ => none

/-- The rune of an escape with the number `r`, and what is left after it. -/
def surrogate (r : ℕ) (s : Bytes) : Rune × Bytes :=
  if 0xd800 ≤ r ∧ r ≤ 0xdfff then
    match nextU4 s with
    | some (r', s') =>
      if r ≤ 0xdbff ∧ 0xdc00 ≤ r' ∧ r' ≤ 0xdfff then
        ((r - 0xd800) * 1024 + (r' - 0xdc00) + 0x10000, s')
      else (0xfffd, s)
    | none => (0xfffd, s)
  else (r, s)

/-- What follows a backslash: the bytes the escape stands for, and what is left. -/
def escape : Bytes → Option (Bytes × Bytes)
  | [] => none
  | c :: s =>
    if c = 0x22 ∨ c = 0x5c ∨ c = 0x2f then some ([c], s)
    else if c = 0x62 then some ([0x08], s)
    else if c = 0x66 then some ([0x0c], s)
    else if c = 0x6e then some ([0x0a], s)
    else if c = 0x72 then some ([0x0d], s)
    else if c = 0x74 then some ([0x09], s)
    else if c = 0x75 then (getu4 s).map fun r ↦
      (encodeRune (surrogate r.1 r.2).1, (surrogate r.1 r.2).2)
    else none

/-- A string after its opening quote. The length of the text is fuel enough. -/
def stringBody : ℕ → Bytes → Option (Bytes × Bytes)
  | 0, _ => none
  | _ + 1, [] => none
  | fuel + 1, c :: s =>
    if c = 0x22 then some ([], s)
    else if c = 0x5c then do
      let (t, rest) ← escape s
      let (more, rest) ← stringBody fuel rest
      some (t ++ more, rest)
    else if c < 0x20 then none
    else do
      let (more, rest) ← stringBody fuel ((c :: s).drop (decodeRune (c :: s)).2)
      some (encodeRune (decodeRune (c :: s)).1 ++ more, rest)

/-- A string. -/
def string : Bytes → Option (Bytes × Bytes)
  | [] => none
  | c :: s => if c = 0x22 then stringBody s.length s else none

def isDigit (c : UInt8) : Bool := decide (0x30 ≤ c) && decide (c ≤ 0x39)

/-- One digit or more. -/
def digits (s : Bytes) : Option (Bytes × Bytes) :=
  if s.takeWhile isDigit = [] then none else some (s.takeWhile isDigit, s.dropWhile isDigit)

/-- A byte of `set`, if there is one. -/
def optionally (set : Bytes) : Bytes → Bytes × Bytes
  | [] => ([], [])
  | c :: s => if c ∈ set then ([c], s) else ([], c :: s)

/-- The integer part of a number, without leading zeros. -/
def intPart : Bytes → Option (Bytes × Bytes)
  | [] => none
  | c :: s => if c = 0x30 then some ([c], s) else digits (c :: s)

def fracPart (s : Bytes) : Option (Bytes × Bytes) :=
  if s.head? = some 0x2e then (digits s.tail).map fun r ↦ (0x2e :: r.1, r.2) else some ([], s)

def expPart (s : Bytes) : Option (Bytes × Bytes) :=
  let e := optionally [0x65, 0x45] s
  if e.1 = [] then some ([], s)
  else
    let sign := optionally [0x2b, 0x2d] e.2
    (digits sign.2).map fun r ↦ (e.1 ++ sign.1 ++ r.1, r.2)

/-- A number: its text. -/
def number (s : Bytes) : Option (Bytes × Bytes) := do
  let sign := optionally [0x2d] s
  let (int, s) ← intPart sign.2
  let (frac, s) ← fracPart s
  let (exp, s) ← expPart s
  some (sign.1 ++ int ++ frac ++ exp, s)

/-- A word of the language. -/
def word (s : Bytes) : Option (Value × Bytes) :=
  if hasPrefix s (lit "null") then some (.null, s.drop 4)
  else if hasPrefix s (lit "true") then some (.bool true, s.drop 4)
  else if hasPrefix s (lit "false") then some (.bool false, s.drop 5)
  else none

/-- A value that is neither an array nor an object. -/
def scalar (s : Bytes) : Option (Value × Bytes) :=
  if s.head? = some 0x22 then (string s).map fun r ↦ (.string r.1, r.2)
  else (word s).or ((number s).map fun r ↦ (.number r.1, r.2))

/-- The elements of an array, from the first one on. -/
def elements (value : Bytes → Option (Value × Bytes)) : ℕ → Bytes → Option (List Value × Bytes)
  | 0, _ => none
  | fuel + 1, s => do
    let (v, s) ← value s
    match skipSpace s with
    | [] => none
    | c :: s =>
      if c = 0x5d then some ([v], s)
      else if c = 0x2c then do
        let (vs, s) ← elements value fuel s
        some (v :: vs, s)
      else none

/-- The members of an object, from the first one on. -/
def members (value : Bytes → Option (Value × Bytes)) :
    ℕ → Bytes → Option (List (Bytes × Value) × Bytes)
  | 0, _ => none
  | fuel + 1, s => do
    let (key, s) ← string (skipSpace s)
    if (skipSpace s).head? ≠ some 0x3a then none
    else
      let (v, s) ← value (skipSpace s).tail
      match skipSpace s with
      | [] => none
      | c :: s =>
        if c = 0x7d then some ([(key, v)], s)
        else if c = 0x2c then do
          let (ms, s) ← members value fuel s
          some ((key, v) :: ms, s)
        else none

/-- A value with at most `depth` arrays and objects in one another. -/
def value : (depth : ℕ) → Bytes → Option (Value × Bytes)
  | 0, s => scalar (skipSpace s)
  | depth + 1, s =>
    match skipSpace s with
    | [] => none
    | c :: s =>
      if c = 0x7b then
        if (skipSpace s).head? = some 0x7d then some (.object [], (skipSpace s).tail)
        else (members (value depth) s.length s).map fun r ↦ (.object r.1, r.2)
      else if c = 0x5b then
        if (skipSpace s).head? = some 0x5d then some (.array [], (skipSpace s).tail)
        else (elements (value depth) s.length s).map fun r ↦ (.array r.1, r.2)
      else scalar (c :: s)

/-- A text with one value. -/
def parse (s : Bytes) : Option Value :=
  match value 10000 s with
  | none => none
  | some (v, rest) => if skipSpace rest = [] then some v else none

/-! ## Decoding -/

/-- The field that a member goes to. -/
def field (U : Unicode) (names : List Bytes) (key : Bytes) : Option Bytes :=
  if key ∈ names then some key else names.find? fun name ↦ equalFold U key name

/-- A value for a `string` that has been `old`. -/
def asString (old : Bytes) : Value → Option Bytes
  | .string s => some s
  | .null => some old
  | _ => none

/-- A value for an `int` behind a pointer. -/
def asIntPtr : Value → Option (Option ℤ)
  | .number text => (parseInt text).map some
  | .null => some none
  | _ => none
where
  /-- `strconv.ParseInt` for 64 bits. -/
  parseInt (text : Bytes) : Option ℤ :=
    match optionally [0x2d] text with
    | (sign, s) =>
      match parseUint s with
      | .error _ => none
      | .ok n =>
        if sign = [] then if n < 2 ^ 63 then some n else none
        else if n ≤ 2 ^ 63 then some (-n) else none

/-- A value for a `bool` that has been `old`. -/
def asBool (old : Bool) : Value → Option Bool
  | .bool b => some b
  | .null => some old
  | _ => none

/-- A value for a `bool` behind a pointer. -/
def asBoolPtr : Value → Option (Option Bool)
  | .bool b => some (some b)
  | .null => some none
  | _ => none

/-- A value for a `[]string` that has been `old`. -/
def asStrings (old : List Bytes) : Value → Option (List Bytes)
  | .array vs => go old vs
  | .null => some []
  | _ => none
where
  /-- One element after the other. -/
  go : List Bytes → List Value → Option (List Bytes)
    | _, [] => some []
    | old, v :: vs => do
      let s ← asString (old.headD []) v
      some (s :: (← go old.tail vs))

/-- A value for a struct that has been `init`. -/
def asStruct {σ : Type} (assign : σ → Bytes → Value → Option σ) (init : σ) : Value → Option σ
  | .object ms => ms.foldlM (fun c m ↦ assign c m.1 m.2) init
  | .null => some init
  | _ => none

/-! ## Strings that are written with escapes -/

/-- A byte is written as it is, or as an escape that stands for it. -/
def Escapes (esc : UInt8 → Bytes) : Prop :=
  ∀ b, (esc b = [b] ∧ b ≠ 0x22 ∧ b ≠ 0x5c) ∨
    b < 0x80 ∧ ∃ t, esc b = 0x5c :: t ∧ ∀ rest, escape (t ++ rest) = some ([b], rest)

/-- No control character is written as it is. -/
def legible (esc : UInt8 → Bytes) (s : Bytes) : Bool :=
  s.all fun b ↦ decide (b < 0x20 → esc b ≠ [b])

/-- A string between its quotes. -/
def quoted (esc : UInt8 → Bytes) (s : Bytes) : Bytes := 0x22 :: (s.flatMap esc ++ [0x22])

/-- No byte of a rune but the first can be a control character. -/
theorem legible_drop {esc : UInt8 → Bytes} {b : UInt8} (hb : ¬ b < 0x20) (s : Bytes) :
    legible esc ((b :: s).drop (decodeRune (b :: s)).2) = legible esc (b :: s) := by
  have hwidth := decodeRune_width (List.cons_ne_nil b s)
  have htail : ∀ c ∈ ((b :: s).take (decodeRune (b :: s)).2).tail, 0x80 ≤ c.toNat := by
    rcases decodeRune_spec (List.cons_ne_nil b s) with ⟨hbad, -⟩ | ⟨-, htail⟩
    · rw [hbad]
      exact nofun
    · exact htail
  have htake : legible esc ((b :: s).take (decodeRune (b :: s)).2) = true := by
    obtain ⟨w, hw⟩ : ∃ w, (decodeRune (b :: s)).2 = w + 1 :=
      Nat.exists_eq_succ_of_ne_zero hwidth.1.ne'
    rw [hw, List.take_succ_cons] at htail ⊢
    rw [legible, List.all_eq_true]
    intro c hc
    rw [decide_eq_true_eq]
    intro hcontrol
    rcases List.mem_cons.mp hc with rfl | hc
    · exact absurd hcontrol hb
    · have hlarge := htail c hc
      have hsmall : c.toNat < 0x20 := UInt8.lt_iff_toNat_lt.mp hcontrol
      omega
  conv_rhs => rw [← List.take_append_drop (decodeRune (b :: s)).2 (b :: s), legible, List.all_append]
  rw [legible] at htake
  rw [htake, Bool.true_and]
  rfl

section Strings

variable {esc : UInt8 → Bytes} (hesc : Escapes esc)

include hesc

theorem Escapes.of_not_lt {b : UInt8} (hb : ¬ b < 0x80) : esc b = [b] := by
  rcases hesc b with ⟨h, -⟩ | ⟨h, -⟩
  · exact h
  · exact absurd h hb

theorem Escapes.flatMap_of_not_lt {s : Bytes} (hs : ∀ b ∈ s, ¬ b < 0x80) : s.flatMap esc = s := by
  rw [← List.flatMap_singleton' s, List.flatMap_assoc]
  refine List.flatMap_congr fun b hb ↦ ?_
  rw [List.flatMap_singleton, hesc.of_not_lt (hs b hb)]

/-- An ASCII byte is written with an ASCII byte at the front. -/
theorem Escapes.head_lt {c : UInt8} (hc : c < 0x80) : ∃ d t, esc c = d :: t ∧ d < 0x80 := by
  rcases hesc c with ⟨h, -⟩ | ⟨-, t, h, -⟩
  · exact ⟨c, [], h, hc⟩
  · exact ⟨0x5c, t, h, by decide⟩

/-- The rune at the front of a string is still there after the string has been written, if its first
byte is. -/
theorem Escapes.decodeRune_flatMap {b : UInt8} (hplain : esc b = [b]) (s rest : Bytes) :
    decodeRune ((b :: s).flatMap esc ++ 0x22 :: rest) = decodeRune (b :: s) ∧
      ((b :: s).flatMap esc ++ 0x22 :: rest).drop (decodeRune (b :: s)).2 =
        ((b :: s).drop (decodeRune (b :: s)).2).flatMap esc ++ 0x22 :: rest := by
  by_cases hb : b < 0x80
  · rw [List.flatMap_cons, hplain, List.singleton_append, List.cons_append, decodeRune_of_lt hb,
      decodeRune_of_lt hb]
    exact ⟨rfl, rfl⟩
  -- `p` is the string up to its first ASCII byte, which no encoding goes beyond.
  obtain ⟨p, q, hs, hp, hq⟩ : ∃ p q, s = p ++ q ∧ (∀ c ∈ p, ¬ c < 0x80) ∧
      ∀ c ∈ q.head?, c < 0x80 := by
    refine ⟨s.takeWhile fun c ↦ !decide (c < 0x80), s.dropWhile fun c ↦ !decide (c < 0x80),
      List.takeWhile_append_dropWhile.symm, fun c hc ↦ ?_, fun c hc ↦ ?_⟩
    · simpa using List.mem_takeWhile_imp hc
    · have := List.head?_dropWhile_not (fun c ↦ !decide (c < 0x80)) s
      rw [Option.mem_def.mp hc] at this
      simpa using this
  have hbp : ∀ c ∈ b :: p, ¬ c < 0x80 := by
    rw [List.forall_mem_cons]
    exact ⟨hb, hp⟩
  have hplain' : (b :: p).flatMap esc = b :: p := hesc.flatMap_of_not_lt hbp
  have hwidth := decodeRune_width (List.cons_ne_nil b p)
  have hcut (d : UInt8) (hd : d < 0x80) (t : Bytes) :
      decodeRune (b :: p ++ d :: t) = decodeRune (b :: p) ∧
        (b :: p ++ d :: t).drop (decodeRune (b :: p)).2 =
          (b :: p).drop (decodeRune (b :: p)).2 ++ d :: t :=
    ⟨decodeRune_append hd (List.cons_ne_nil b p) t, List.drop_append_of_le_length hwidth.2⟩
  have hrest : ((b :: p).drop (decodeRune (b :: p)).2).flatMap esc =
      (b :: p).drop (decodeRune (b :: p)).2 :=
    hesc.flatMap_of_not_lt fun c hc ↦ hbp c (List.mem_of_mem_drop hc)
  cases q with
  | nil =>
    rw [List.append_nil] at hs
    subst hs
    obtain ⟨hdecode, hdrop⟩ := hcut 0x22 (by decide) rest
    rw [hplain', hdecode, hdrop, hrest]
    exact ⟨rfl, rfl⟩
  | cons c q =>
    have hc : c < 0x80 := hq c rfl
    obtain ⟨d, t, hd, hlt⟩ := hesc.head_lt hc
    obtain ⟨hdecode, hdrop⟩ := hcut c hc q
    obtain ⟨hdecode', hdrop'⟩ := hcut d hlt (t ++ (q.flatMap esc ++ 0x22 :: rest))
    have hbs : b :: s = b :: p ++ c :: q := by rw [hs, List.cons_append]
    have htext : (b :: s).flatMap esc ++ 0x22 :: rest =
        b :: p ++ d :: (t ++ (q.flatMap esc ++ 0x22 :: rest)) := by
      rw [hbs, List.flatMap_append, hplain', List.flatMap_cons, hd]
      simp only [List.append_assoc, List.cons_append]
    rw [htext, hbs, hdecode, hdecode', hdrop, hdrop', List.flatMap_append, hrest, List.flatMap_cons, hd]
    refine ⟨rfl, ?_⟩
    simp only [List.append_assoc, List.cons_append]

/-- **A string that is written with escapes** is read as it is, up to what is not valid UTF-8, unless
a control character in it has been written without one. -/
theorem stringBody_flatMap {n : ℕ} {s rest : Bytes}
    (hn : (s.flatMap esc ++ 0x22 :: rest).length ≤ n) :
    stringBody n (s.flatMap esc ++ 0x22 :: rest) =
      if legible esc s then some (toValid s, rest) else none := by
  induction hl : s.length using Nat.strong_induction_on generalizing n s with
  | h l ih =>
    subst hl
    cases s with
    | nil =>
      obtain ⟨n, rfl⟩ : ∃ m, n = m + 1 := Nat.exists_eq_succ_of_ne_zero (by
        rintro rfl
        simp at hn)
      rfl
    | cons b s =>
      have hlegible : legible esc (b :: s) = (decide (b < 0x20 → esc b ≠ [b]) && legible esc s) := rfl
      obtain ⟨n, rfl⟩ : ∃ m, n = m + 1 := Nat.exists_eq_succ_of_ne_zero (by
        rintro rfl
        simp at hn)
      rcases hesc b with ⟨hplain, hquote, hbackslash⟩ | ⟨hascii, t, ht, hescape⟩
      · have htext : (b :: s).flatMap esc ++ 0x22 :: rest = b :: (s.flatMap esc ++ 0x22 :: rest) := by
          rw [List.flatMap_cons, hplain]
          rfl
        rw [htext, stringBody, if_neg hquote, if_neg hbackslash]
        by_cases hcontrol : b < 0x20
        · rw [if_pos hcontrol, hlegible, decide_eq_false fun h ↦ h hcontrol hplain]
          rfl
        obtain ⟨hdecode, hdrop⟩ := hesc.decodeRune_flatMap hplain s rest
        have hwidth := decodeRune_width (List.cons_ne_nil b s)
        have hrest := ih _ (by rw [List.length_drop]; omega) (n := n)
          (s := (b :: s).drop (decodeRune (b :: s)).2) (by
            rw [← hdrop, List.length_drop]
            omega) rfl
        rw [← htext, if_neg hcontrol, hdecode, hdrop, hrest, legible_drop hcontrol]
        cases legible esc (b :: s) with
        | false => rfl
        | true =>
          rw [toValid_of_ne_nil (List.cons_ne_nil b s)]
          rfl
      · have htext : (b :: s).flatMap esc ++ 0x22 :: rest =
            0x5c :: (t ++ (s.flatMap esc ++ 0x22 :: rest)) := by
          rw [List.flatMap_cons, ht]
          simp only [List.append_assoc, List.cons_append]
        have hrest := ih s.length (Nat.lt_succ_self _) (n := n) (s := s) (by
          rw [htext, List.length_cons, List.length_append] at hn
          omega) rfl
        have hne : esc b ≠ [b] := by
          intro h
          rw [ht, List.cons.injEq] at h
          have hnil := hescape []
          rw [h.2] at hnil
          exact nomatch hnil
        rw [htext, stringBody, if_neg (by decide), if_pos rfl, hescape, hlegible,
          decide_eq_true fun _ ↦ hne, toValid_cons_of_lt hascii]
        dsimp only [Option.bind_eq_bind, Option.bind_some]
        rw [hrest]
        cases legible esc s <;> rfl

theorem string_quoted (s rest : Bytes) : string (quoted esc s ++ rest) =
    if legible esc s then some (toValid s, rest) else none := by
  have htext : quoted esc s ++ rest = 0x22 :: (s.flatMap esc ++ 0x22 :: rest) := by
    rw [quoted, List.cons_append, List.append_assoc, List.singleton_append]
  rw [htext, string, if_pos rfl]
  exact stringBody_flatMap hesc le_rfl

end Strings

/-- A name is read as it is. -/
theorem string_name {s : Bytes} (hs : ∀ b ∈ s, b < 0x80 ∧ ¬ b < 0x20 ∧ b ≠ 0x22 ∧ b ≠ 0x5c)
    (rest : Bytes) : string (0x22 :: (s ++ 0x22 :: rest)) = some (s, rest) := by
  rw [string, if_pos rfl]
  have hbody (n : ℕ) (hn : s.length < n) : stringBody n (s ++ 0x22 :: rest) = some (s, rest) := by
    induction s generalizing n with
    | nil =>
      obtain ⟨n, rfl⟩ := Nat.exists_eq_succ_of_ne_zero (Nat.ne_zero_of_lt hn)
      rfl
    | cons b s ih =>
      obtain ⟨n, rfl⟩ := Nat.exists_eq_succ_of_ne_zero (Nat.ne_zero_of_lt hn)
      rw [List.forall_mem_cons] at hs
      obtain ⟨⟨hascii, hcontrol, hquote, hbackslash⟩, hs⟩ := hs
      rw [List.cons_append, stringBody, if_neg hquote, if_neg hbackslash, if_neg hcontrol,
        decodeRune_of_lt hascii, List.drop_succ_cons, List.drop_zero,
        ih hs n (Nat.lt_of_succ_lt_succ hn), encodeRune_of_lt hascii]
      rfl
  exact hbody _ (by simp)

/-! ## Texts of values -/

/-- A byte that follows a value. -/
def EndsValue (c : UInt8) : Prop := c = 0x2c ∨ c = 0x5d ∨ c = 0x7d

/-- A text is read as a value before a byte that ends it, or it is refused. -/
structure ReadsAs (depth : ℕ) (s : Bytes) (v : Option Value) : Prop where
  starts : ∃ c t, s = c :: t ∧ isSpace c = false ∧ c ≠ 0x5d
  run : ∀ {c : UInt8} (rest : Bytes), EndsValue c →
    value depth (s ++ c :: rest) = v.map fun v ↦ (v, c :: rest)

theorem skipSpace_cons {c : UInt8} (hc : isSpace c = false) (s : Bytes) :
    skipSpace (c :: s) = c :: s :=
  List.dropWhile_cons_of_neg (Bool.eq_false_iff.mp hc)

theorem EndsValue.isSpace {c : UInt8} (hc : EndsValue c) : isSpace c = false := by
  rcases hc with rfl | rfl | rfl <;> rfl

theorem value_of_scalar {c : UInt8} (hspace : isSpace c = false) (hobject : c ≠ 0x7b)
    (harray : c ≠ 0x5b) (depth : ℕ) (s : Bytes) : value depth (c :: s) = scalar (c :: s) := by
  cases depth with
  | zero => rw [value, skipSpace_cons hspace]
  | succ depth =>
    rw [value, skipSpace_cons hspace]
    dsimp only
    rw [if_neg hobject, if_neg harray]

theorem reads_quoted {esc : UInt8 → Bytes} (hesc : Escapes esc) (depth : ℕ) (s : Bytes) :
    ReadsAs depth (quoted esc s) (if legible esc s then some (.string (toValid s)) else none) where
  starts := ⟨0x22, _, rfl, rfl, by decide⟩
  run {c} rest _ := by
    rw [quoted, List.cons_append, value_of_scalar rfl (by decide) (by decide), scalar,
      if_pos List.head?_cons, ← List.cons_append, ← quoted, string_quoted hesc]
    cases legible esc s <;> rfl

/-! ### Numbers -/

theorem isDigit_iff {c : UInt8} : isDigit c = true ↔ IsDigit c := by
  rw [isDigit, Bool.and_eq_true, decide_eq_true_eq, decide_eq_true_eq]
  rfl

/-- A numeral that is written without leading zeros. -/
structure Numeral (s : Bytes) : Prop where
  ne_nil : s ≠ []
  digits : ∀ b ∈ s, IsDigit b
  lead : s.head? = some 0x30 → s = [0x30]

theorem numeral_formatInt (n : ℕ) : Numeral (formatInt n) where
  ne_nil := (decimal_formatInt n).ne_nil
  digits := (decimal_formatInt n).digits
  lead hzero := by
    have hpos (m : ℕ) (hm : 0 < m) : (formatInt m).head? ≠ some 0x30 := by
      induction m using Nat.strong_induction_on with
      | h m ih =>
        by_cases hlt : m < 10
        · rw [formatInt_of_lt hlt, List.head?_cons, Ne, Option.some.injEq]
          interval_cases m <;> decide
        · rw [formatInt_of_le (not_lt.mp hlt), List.head?_append_of_ne_nil _
            (decimal_formatInt _).ne_nil]
          exact ih (m / 10) (by omega) (by omega)
    obtain rfl : n = 0 := Nat.eq_zero_of_not_pos fun h ↦ hpos n h hzero
    rfl

theorem number_eq {sign s : Bytes} (hsign : sign = [] ∨ sign = [0x2d]) (hs : Numeral s) {c : UInt8}
    (hc : EndsValue c) (rest : Bytes) :
    number (sign ++ (s ++ c :: rest)) = some (sign ++ s, c :: rest) := by
  obtain ⟨d, t, rfl⟩ := List.exists_cons_of_ne_nil hs.ne_nil
  have hd : IsDigit d := hs.digits d List.mem_cons_self
  have hsign : optionally [0x2d] (sign ++ (d :: t ++ c :: rest)) = (sign, d :: t ++ c :: rest) := by
    rcases hsign with rfl | rfl
    · have hminus : d ∉ [(0x2d : UInt8)] := by
        rw [List.mem_singleton]
        rintro rfl
        exact not_isDigit_minus hd
      exact if_neg hminus
    · rfl
  have hdigit : ¬ isDigit c = true := by rcases hc with rfl | rfl | rfl <;> decide
  have hint : intPart (d :: t ++ c :: rest) = some (d :: t, c :: rest) := by
    rw [List.cons_append, intPart]
    by_cases hzero : d = 0x30
    · have hone := hs.lead (congrArg some hzero)
      rw [List.cons.injEq] at hone
      rw [if_pos hzero, hone.2, List.nil_append]
    · have hall : ∀ b ∈ d :: t, isDigit b = true := fun b hb ↦ isDigit_iff.mpr (hs.digits b hb)
      rw [if_neg hzero, ← List.cons_append, digits, List.takeWhile_append_of_pos hall,
        List.dropWhile_append_of_pos hall, List.takeWhile_cons_of_neg hdigit,
        List.dropWhile_cons_of_neg hdigit, List.append_nil, if_neg (List.cons_ne_nil d t)]
  have hfrac : fracPart (c :: rest) = some ([], c :: rest) := by
    rcases hc with rfl | rfl | rfl <;> rfl
  have hexp : expPart (c :: rest) = some ([], c :: rest) := by
    rcases hc with rfl | rfl | rfl <;> rfl
  rw [number, hsign]
  dsimp only [Option.bind_eq_bind]
  rw [hint, Option.bind_some]
  dsimp only
  rw [hfrac, Option.bind_some]
  dsimp only
  rw [hexp, Option.bind_some, List.append_nil, List.append_nil]

/-- A number that is written in decimal. -/
theorem reads_formatInt (depth : ℕ) (n : ℤ) :
    ReadsAs depth (formatInt n) (some (.number (formatInt n))) := by
  obtain ⟨sign, s, hn, hsign, hs⟩ : ∃ sign s, formatInt n = sign ++ s ∧
      (sign = [] ∨ sign = [0x2d]) ∧ Numeral s := by
    cases n with
    | ofNat n => exact ⟨[], formatInt n, rfl, .inl rfl, numeral_formatInt n⟩
    | negSucc n => exact ⟨[0x2d], formatInt (n + 1 : ℕ), formatInt_negSucc n, .inr rfl, numeral_formatInt _⟩
  obtain ⟨d, t, hd, hstart⟩ : ∃ d t, sign ++ s = d :: t ∧ (d = 0x2d ∨ IsDigit d) := by
    rcases hsign with rfl | rfl
    · obtain ⟨d, t, rfl⟩ := List.exists_cons_of_ne_nil hs.ne_nil
      exact ⟨d, t, rfl, .inr (hs.digits d List.mem_cons_self)⟩
    · exact ⟨0x2d, s, rfl, .inl rfl⟩
  have hrange : 0x2d ≤ d.toNat ∧ d.toNat ≤ 0x39 := by
    rcases hstart with rfl | ⟨hlo, hhi⟩
    · decide
    · have h₁ : 0x30 ≤ d.toNat := UInt8.le_iff_toNat_le.mp hlo
      have h₂ : d.toNat ≤ 0x39 := UInt8.le_iff_toNat_le.mp hhi
      omega
  have hne {e : UInt8} (he : ¬ (0x2d ≤ e.toNat ∧ e.toNat ≤ 0x39)) : d ≠ e := by
    rintro rfl
    exact he hrange
  have hspace : isSpace d = false := by
    rw [isSpace, Bool.or_eq_false_iff, Bool.or_eq_false_iff, Bool.or_eq_false_iff]
    exact ⟨⟨⟨beq_false_of_ne (hne (by decide)), beq_false_of_ne (hne (by decide))⟩,
      beq_false_of_ne (hne (by decide))⟩, beq_false_of_ne (hne (by decide))⟩
  have hword (rest : Bytes) : word (d :: rest) = none := by
    have hother {w : Bytes} {e : UInt8} (he : w.head? = some e) (hd : d ≠ e) :
        ¬ hasPrefix (d :: rest) w = true := by
      obtain ⟨w, rfl⟩ : ∃ w', w = e :: w' := List.head?_eq_some_iff.mp he
      rw [hasPrefix_iff, List.cons_prefix_cons]
      exact fun h ↦ hd h.1.symm
    rw [word, if_neg (hother (e := 0x6e) (by decide) (hne (by decide))),
      if_neg (hother (e := 0x74) (by decide) (hne (by decide))),
      if_neg (hother (e := 0x66) (by decide) (hne (by decide)))]
  rw [hn]
  refine ⟨⟨d, t, hd, hspace, hne (by decide)⟩, fun {c} rest hc ↦ ?_⟩
  have hnumber := number_eq hsign hs hc rest
  rw [← List.append_assoc, hd, List.cons_append] at hnumber
  have hquote : ¬ (d :: (t ++ c :: rest)).head? = some 0x22 := by
    rw [List.head?_cons, Option.some.injEq]
    exact hne (by decide)
  rw [hd, List.cons_append, value_of_scalar hspace (hne (by decide)) (hne (by decide)), scalar,
    if_neg hquote, hword, hnumber]
  rfl

/-! ### Arrays and objects -/

/-- Elements with commas between them. -/
def commas (texts : List Bytes) : Bytes := [0x2c].intercalate texts

theorem commas_singleton (s : Bytes) : commas [s] = s := List.intercalate_singleton

theorem commas_cons_cons (s t : Bytes) (texts : List Bytes) :
    commas (s :: t :: texts) = s ++ 0x2c :: commas (t :: texts) := by
  simp [commas, List.intercalate]

/-- There are enough commas for the fuel. -/
theorem length_le_commas (texts : List Bytes) : texts.length ≤ (commas texts).length + 1 := by
  induction texts with
  | nil => exact Nat.zero_le _
  | cons s texts ih =>
    cases texts with
    | nil => simp
    | cons t texts =>
      have hlength : (0x2c :: commas (t :: texts)).length = (commas (t :: texts)).length + 1 :=
        List.length_cons
      rw [commas_cons_cons, List.length_append, List.length_cons]
      omega

section

variable {ι : Type} {depth : ℕ} {text : ι → Bytes} {val : ι → Option Value}

theorem elements_eq {x : ι} {xs : List ι} (h : ∀ y ∈ x :: xs, ReadsAs depth (text y) (val y)) {n : ℕ}
    (hn : xs.length < n) (rest : Bytes) :
    elements (value depth) n (commas ((x :: xs).map text) ++ 0x5d :: rest) =
      ((x :: xs).mapM val).map fun vs ↦ (vs, rest) := by
  induction xs generalizing x n with
  | nil =>
    obtain ⟨n, rfl⟩ := Nat.exists_eq_succ_of_ne_zero (Nat.ne_zero_of_lt hn)
    have htext : commas ([x].map text) = text x := commas_singleton _
    rw [htext, elements, (h x List.mem_cons_self).run rest (.inr (.inl rfl)), List.mapM_cons,
      List.mapM_nil]
    cases val x <;> rfl
  | cons y ys ih =>
    obtain ⟨n, rfl⟩ := Nat.exists_eq_succ_of_ne_zero (Nat.ne_zero_of_lt hn)
    have hrest := ih (fun z hz ↦ h z (List.mem_cons_of_mem x hz)) (Nat.lt_of_succ_lt_succ hn)
    have htext : commas ((x :: y :: ys).map text) ++ 0x5d :: rest =
        text x ++ 0x2c :: (commas ((y :: ys).map text) ++ 0x5d :: rest) := by
      rw [List.map_cons, List.map_cons, commas_cons_cons, List.append_assoc, List.cons_append]
    rw [htext, elements, (h x List.mem_cons_self).run _ (.inl rfl), List.mapM_cons]
    cases val x with
    | none => rfl
    | some v =>
      -- what follows the comma is an array that starts later
      change ((elements (value depth) n (commas ((y :: ys).map text) ++ 0x5d :: rest)).bind _) = _
      rw [hrest]
      cases (y :: ys).mapM val <;> rfl

/-- The text of a member. -/
def member (name : Bytes) (text : Bytes) : Bytes := 0x22 :: (name ++ 0x22 :: 0x3a :: text)

/-- A name of a member, which needs no escapes. -/
def IsName (s : Bytes) : Prop := ∀ b ∈ s, b < 0x80 ∧ ¬ b < 0x20 ∧ b ≠ 0x22 ∧ b ≠ 0x5c

theorem members_succ {name text : Bytes} {v : Option Value} (hname : IsName name)
    (h : ReadsAs depth text v) (n : ℕ) {c : UInt8} (hc : EndsValue c) (rest : Bytes) :
    members (value depth) (n + 1) (member name text ++ c :: rest) =
      v.bind fun v ↦
        if c = 0x7d then some ([(name, v)], rest)
        else if c = 0x2c then
          (members (value depth) n rest).bind fun r ↦ some ((name, v) :: r.1, r.2)
        else none := by
  have htext : member name text ++ c :: rest =
      0x22 :: (name ++ 0x22 :: (0x3a :: (text ++ c :: rest))) := by
    simp only [member, List.cons_append, List.append_assoc]
  have hcolon : skipSpace (0x3a :: (text ++ c :: rest)) = 0x3a :: (text ++ c :: rest) :=
    skipSpace_cons rfl _
  rw [htext, members, skipSpace_cons rfl, string_name hname]
  dsimp only [Option.bind_eq_bind, Option.bind_some]
  rw [hcolon, if_neg (not_not.mpr List.head?_cons), List.tail_cons, h.run rest hc]
  cases v with
  | none => rfl
  | some v =>
    dsimp only [Option.map_some, Option.bind_some]
    rw [skipSpace_cons hc.isSpace]

theorem members_eq {name : ι → Bytes} {x : ι} {xs : List ι}
    (h : ∀ y ∈ x :: xs, IsName (name y) ∧ ReadsAs depth (text y) (val y)) {n : ℕ} (hn : xs.length < n)
    (rest : Bytes) :
    members (value depth) n
        (commas ((x :: xs).map fun y ↦ member (name y) (text y)) ++ 0x7d :: rest) =
      ((x :: xs).mapM fun y ↦ (val y).map fun v ↦ (name y, v)).map fun ms ↦ (ms, rest) := by
  obtain ⟨hname, hreads⟩ := h x List.mem_cons_self
  induction xs generalizing x n with
  | nil =>
    obtain ⟨n, rfl⟩ := Nat.exists_eq_succ_of_ne_zero (Nat.ne_zero_of_lt hn)
    have htext : commas ([x].map fun y ↦ member (name y) (text y)) = member (name x) (text x) :=
      commas_singleton _
    rw [htext, members_succ hname hreads n (.inr (.inr rfl)), List.mapM_cons, List.mapM_nil]
    cases val x <;> rfl
  | cons y ys ih =>
    obtain ⟨n, rfl⟩ := Nat.exists_eq_succ_of_ne_zero (Nat.ne_zero_of_lt hn)
    have hmore := fun z hz ↦ h z (List.mem_cons_of_mem x hz)
    obtain ⟨hname', hreads'⟩ := hmore y List.mem_cons_self
    have hrest := ih hmore (Nat.lt_of_succ_lt_succ hn) hname' hreads'
    have htext : commas ((x :: y :: ys).map fun y ↦ member (name y) (text y)) ++ 0x7d :: rest =
        member (name x) (text x) ++
          0x2c :: (commas ((y :: ys).map fun y ↦ member (name y) (text y)) ++ 0x7d :: rest) := by
      rw [List.map_cons, List.map_cons, commas_cons_cons, List.append_assoc, List.cons_append]
    rw [List.mapM_cons, htext, members_succ hname hreads n (.inl rfl), hrest]
    cases val x with
    | none => rfl
    | some v => cases (y :: ys).mapM fun y ↦ (val y).map fun v ↦ (name y, v) <;> rfl

/-- An array with an element. -/
theorem reads_array {x : ι} {xs : List ι} (h : ∀ y ∈ x :: xs, ReadsAs depth (text y) (val y)) :
    ReadsAs (depth + 1) (0x5b :: (commas ((x :: xs).map text) ++ [0x5d]))
      (((x :: xs).mapM val).map .array) where
  starts := ⟨0x5b, _, rfl, rfl, by decide⟩
  run {c} rest _ := by
    obtain ⟨d, t, hd, hspace, hne⟩ := (h x List.mem_cons_self).starts
    obtain ⟨t', ht'⟩ : ∃ t', commas ((x :: xs).map text) = d :: t' := by
      cases xs with
      | nil => exact ⟨t, (commas_singleton _).trans hd⟩
      | cons y ys => exact ⟨_, (commas_cons_cons _ _ _).trans (by rw [hd, List.cons_append])⟩
    have hlength := length_le_commas ((x :: xs).map text)
    rw [List.length_map, List.length_cons] at hlength
    have helements := elements_eq h
      (n := (commas ((x :: xs).map text) ++ 0x5d :: c :: rest).length)
      (by rw [List.length_append, List.length_cons]; omega) (c :: rest)
    have htext : 0x5b :: (commas ((x :: xs).map text) ++ [0x5d]) ++ c :: rest =
        0x5b :: (commas ((x :: xs).map text) ++ 0x5d :: c :: rest) := by
      rw [List.cons_append, List.append_assoc, List.singleton_append]
    have hfirst : ¬ (skipSpace (commas ((x :: xs).map text) ++ 0x5d :: c :: rest)).head? =
        some 0x5d := by
      rw [ht', List.cons_append, skipSpace_cons hspace, List.head?_cons, Option.some.injEq]
      exact hne
    rw [htext, value, skipSpace_cons rfl]
    dsimp only
    rw [if_neg (by decide), if_pos rfl, if_neg hfirst, helements]
    cases (x :: xs).mapM val <;> rfl

theorem reads_array_nil (depth : ℕ) : ReadsAs (depth + 1) [0x5b, 0x5d] (some (.array [])) where
  starts := ⟨0x5b, _, rfl, rfl, by decide⟩
  run _ _ := rfl

/-- An object with a member, whatever follows it. -/
theorem value_object {name : ι → Bytes} {x : ι} {xs : List ι}
    (h : ∀ y ∈ x :: xs, IsName (name y) ∧ ReadsAs depth (text y) (val y)) (rest : Bytes) :
    value (depth + 1)
        (0x7b :: (commas ((x :: xs).map fun y ↦ member (name y) (text y)) ++ 0x7d :: rest)) =
      ((x :: xs).mapM fun y ↦ (val y).map fun v ↦ (name y, v)).map fun ms ↦ (.object ms, rest) := by
  have hlength := length_le_commas ((x :: xs).map fun y ↦ member (name y) (text y))
  rw [List.length_map, List.length_cons] at hlength
  have hmembers := members_eq h
    (n := (commas ((x :: xs).map fun y ↦ member (name y) (text y)) ++ 0x7d :: rest).length)
    (by rw [List.length_append, List.length_cons]; omega) rest
  obtain ⟨t', ht'⟩ : ∃ t', commas ((x :: xs).map fun y ↦ member (name y) (text y)) = 0x22 :: t' := by
    cases xs with
    | nil => exact ⟨_, commas_singleton _⟩
    | cons y ys => exact ⟨_, commas_cons_cons _ _ _⟩
  have hfirst : ¬ (skipSpace (commas ((x :: xs).map fun y ↦ member (name y) (text y)) ++
      0x7d :: rest)).head? = some 0x7d := by
    rw [ht', List.cons_append, skipSpace_cons rfl, List.head?_cons, Option.some.injEq]
    decide
  rw [value, skipSpace_cons rfl]
  dsimp only
  rw [if_pos rfl, if_neg hfirst, hmembers]
  cases (x :: xs).mapM fun y ↦ (val y).map fun v ↦ (name y, v) <;> rfl

/-- A text that is an object. -/
theorem parse_object {name : ι → Bytes} {x : ι} {xs : List ι}
    (h : ∀ y ∈ x :: xs, IsName (name y) ∧ ReadsAs 9999 (text y) (val y)) :
    parse (0x7b :: (commas ((x :: xs).map fun y ↦ member (name y) (text y)) ++ [0x7d])) =
      ((x :: xs).mapM fun y ↦ (val y).map fun v ↦ (name y, v)).map .object := by
  rw [parse, value_object h []]
  cases (x :: xs).mapM fun y ↦ (val y).map fun v ↦ (name y, v) <;> rfl

end

/-! ### Words -/

/-- A text is read as a name, or it is refused. -/
structure ReadsName (s : Bytes) (key : Option Bytes) : Prop where
  starts : ∃ t, s = 0x22 :: t
  run : ∀ rest, string (s ++ rest) = key.map fun key ↦ (key, rest)

theorem readsName_quoted {esc : UInt8 → Bytes} (hesc : Escapes esc) (s : Bytes) :
    ReadsName (quoted esc s) (if legible esc s then some (toValid s) else none) where
  starts := ⟨_, rfl⟩
  run rest := by
    rw [string_quoted hesc]
    cases legible esc s <;> rfl

section

variable {ι : Type} {depth : ℕ} {name text : ι → Bytes} {key : ι → Option Bytes}
  {val : ι → Option Value}

/-- A name and a value. -/
def pairText (name text : Bytes) : Bytes := name ++ 0x3a :: text

/-- A member, if its name and its value are read. -/
def pair? (key : Option Bytes) (val : Option Value) : Option (Bytes × Value) :=
  key.bind fun key ↦ val.map fun v ↦ (key, v)

theorem members_pair {name text : Bytes} {key : Option Bytes} {v : Option Value}
    (hname : ReadsName name key) (h : ReadsAs depth text v) (n : ℕ) {c : UInt8} (hc : EndsValue c)
    (rest : Bytes) :
    members (value depth) (n + 1) (pairText name text ++ c :: rest) =
      (pair? key v).bind fun m ↦
        if c = 0x7d then some ([m], rest)
        else if c = 0x2c then (members (value depth) n rest).bind fun r ↦ some (m :: r.1, r.2)
        else none := by
  have htext : pairText name text ++ c :: rest = name ++ (0x3a :: (text ++ c :: rest)) := by
    rw [pairText, List.append_assoc, List.cons_append]
  have hcolon : skipSpace (0x3a :: (text ++ c :: rest)) = 0x3a :: (text ++ c :: rest) :=
    skipSpace_cons rfl _
  have hquote : skipSpace (name ++ 0x3a :: (text ++ c :: rest)) =
      name ++ 0x3a :: (text ++ c :: rest) := by
    obtain ⟨t, ht⟩ := hname.starts
    rw [ht, List.cons_append]
    exact skipSpace_cons rfl _
  rw [htext, members, hquote, hname.run]
  cases key with
  | none => rfl
  | some key =>
    dsimp only [Option.bind_eq_bind, Option.bind_some, Option.map_some]
    rw [hcolon, if_neg (not_not.mpr List.head?_cons), List.tail_cons, h.run rest hc]
    cases v with
    | none => rfl
    | some v =>
      dsimp only [Option.map_some, Option.bind_some, pair?]
      rw [skipSpace_cons hc.isSpace]

theorem members_pairs {x : ι} {xs : List ι}
    (h : ∀ y ∈ x :: xs, ReadsName (name y) (key y) ∧ ReadsAs depth (text y) (val y)) {n : ℕ}
    (hn : xs.length < n) (rest : Bytes) :
    members (value depth) n
        (commas ((x :: xs).map fun y ↦ pairText (name y) (text y)) ++ 0x7d :: rest) =
      ((x :: xs).mapM fun y ↦ pair? (key y) (val y)).map fun ms ↦ (ms, rest) := by
  obtain ⟨hname, hreads⟩ := h x List.mem_cons_self
  induction xs generalizing x n with
  | nil =>
    obtain ⟨n, rfl⟩ := Nat.exists_eq_succ_of_ne_zero (Nat.ne_zero_of_lt hn)
    have htext : commas ([x].map fun y ↦ pairText (name y) (text y)) = pairText (name x) (text x) :=
      commas_singleton _
    rw [htext, members_pair hname hreads n (.inr (.inr rfl)), List.mapM_cons, List.mapM_nil]
    cases pair? (key x) (val x) <;> rfl
  | cons y ys ih =>
    obtain ⟨n, rfl⟩ := Nat.exists_eq_succ_of_ne_zero (Nat.ne_zero_of_lt hn)
    have hmore := fun z hz ↦ h z (List.mem_cons_of_mem x hz)
    obtain ⟨hname', hreads'⟩ := hmore y List.mem_cons_self
    have hrest := ih hmore (Nat.lt_of_succ_lt_succ hn) hname' hreads'
    have htext : commas ((x :: y :: ys).map fun y ↦ pairText (name y) (text y)) ++ 0x7d :: rest =
        pairText (name x) (text x) ++
          0x2c :: (commas ((y :: ys).map fun y ↦ pairText (name y) (text y)) ++ 0x7d :: rest) := by
      rw [List.map_cons, List.map_cons, commas_cons_cons, List.append_assoc, List.cons_append]
    rw [List.mapM_cons, htext, members_pair hname hreads n (.inl rfl), hrest]
    cases pair? (key x) (val x) with
    | none => rfl
    | some m => cases (y :: ys).mapM fun y ↦ pair? (key y) (val y) <;> rfl

/-- An object with a member. -/
theorem reads_object {x : ι} {xs : List ι}
    (h : ∀ y ∈ x :: xs, ReadsName (name y) (key y) ∧ ReadsAs depth (text y) (val y)) :
    ReadsAs (depth + 1)
      (0x7b :: (commas ((x :: xs).map fun y ↦ pairText (name y) (text y)) ++ [0x7d]))
      (((x :: xs).mapM fun y ↦ pair? (key y) (val y)).map .object) where
  starts := ⟨0x7b, _, rfl, rfl, by decide⟩
  run {c} rest _ := by
    have hlength := length_le_commas ((x :: xs).map fun y ↦ pairText (name y) (text y))
    rw [List.length_map, List.length_cons] at hlength
    have hmembers := members_pairs h
      (n := (commas ((x :: xs).map fun y ↦ pairText (name y) (text y)) ++
        0x7d :: c :: rest).length)
      (by rw [List.length_append, List.length_cons]; omega) (c :: rest)
    obtain ⟨t, ht⟩ := (h x List.mem_cons_self).1.starts
    have hpair : pairText (name x) (text x) = 0x22 :: (t ++ 0x3a :: text x) := by
      rw [pairText, ht, List.cons_append]
    obtain ⟨t', ht'⟩ : ∃ t', commas ((x :: xs).map fun y ↦ pairText (name y) (text y)) =
        0x22 :: t' := by
      cases xs with
      | nil => exact ⟨_, (commas_singleton _).trans hpair⟩
      | cons y ys =>
        rw [List.map_cons, List.map_cons, commas_cons_cons, hpair, List.cons_append]
        exact ⟨_, rfl⟩
    have hfirst : ¬ (skipSpace (commas ((x :: xs).map fun y ↦ pairText (name y) (text y)) ++
        0x7d :: c :: rest)).head? = some 0x7d := by
      rw [ht', List.cons_append, skipSpace_cons rfl, List.head?_cons, Option.some.injEq]
      decide
    have htext : 0x7b :: (commas ((x :: xs).map fun y ↦ pairText (name y) (text y)) ++ [0x7d]) ++
        c :: rest = 0x7b :: (commas ((x :: xs).map fun y ↦ pairText (name y) (text y)) ++
          0x7d :: c :: rest) := by
      rw [List.cons_append, List.append_assoc, List.singleton_append]
    rw [htext, value, skipSpace_cons rfl]
    dsimp only
    rw [if_pos rfl, if_neg hfirst, hmembers]
    cases (x :: xs).mapM fun y ↦ pair? (key y) (val y) <;> rfl

theorem reads_object_nil (depth : ℕ) : ReadsAs (depth + 1) [0x7b, 0x7d] (some (.object [])) where
  starts := ⟨0x7b, _, rfl, rfl, by decide⟩
  run _ _ := rfl

end

/-! ## Members with their texts -/

section

variable {ι : Type} {depth : ℕ} {name text : ι → Bytes} {val : ι → Option Value}

end

/-! ## Decoding what has been written -/

theorem optionally_of_ne {c d : UInt8} (h : c ≠ d) (s : Bytes) : optionally [d] (c :: s) = ([], c :: s) :=
  if_neg (by rwa [List.mem_singleton])

/-- A number in decimal is the number, if it fits into 64 bits. -/
theorem asIntPtr_formatInt {n : ℤ} (hlo : -2 ^ 63 ≤ n) (hhi : n < 2 ^ 63) :
    asIntPtr (.number (formatInt n)) = some (some n) := by
  have hparse (m : ℕ) (hm : m ≤ 2 ^ 63) : parseUint (formatInt m) = .ok m :=
    parseUint_eq_ok_iff.mpr ⟨decimal_formatInt m, by omega⟩
  cases n with
  | ofNat n =>
    have hlt : n < 2 ^ 63 := by
      have : ((n : ℕ) : ℤ) < 2 ^ 63 := hhi
      omega
    obtain ⟨c, s, hs⟩ := List.exists_cons_of_ne_nil (decimal_formatInt n).ne_nil
    have hc : c ≠ 0x2d := by
      rintro rfl
      exact not_isDigit_minus ((decimal_formatInt n).digits _ (hs ▸ List.mem_cons_self))
    have hsign : optionally [0x2d] (formatInt n) = ([], formatInt n) := by
      rw [hs]
      exact optionally_of_ne hc s
    change (asIntPtr.parseInt (formatInt n)).map some = _
    rw [asIntPtr.parseInt, hsign]
    dsimp only
    rw [hparse n hlt.le]
    dsimp only
    rw [if_pos rfl, if_pos hlt]
    rfl
  | negSucc n =>
    have hle : n + 1 ≤ 2 ^ 63 := by omega
    have hsign : optionally [0x2d] (formatInt (.negSucc n)) = ([0x2d], formatInt (n + 1 : ℕ)) := by
      rw [formatInt_negSucc]
      rfl
    rw [asIntPtr, asIntPtr.parseInt, hsign]
    dsimp only
    rw [hparse _ hle]
    dsimp only
    rw [if_neg (by decide), if_pos hle]
    rfl

theorem asStrings_map (ss : List Bytes) : asStrings [] (.array (ss.map .string)) = some ss := by
  have hgo (ss : List Bytes) : asStrings.go [] (ss.map .string) = some ss := by
    induction ss with
    | nil => rfl
    | cons s ss ih =>
      rw [List.map_cons, asStrings.go, List.tail_nil, ih]
      rfl
  exact hgo ss

/-- The elements of an array of strings. -/
theorem mapM_quoted (esc : UInt8 → Bytes) (ss : List Bytes) :
    (ss.mapM fun s ↦ if legible esc s then some (Value.string (toValid s)) else none) =
      if ss.all (legible esc) then some ((ss.map toValid).map .string) else none := by
  induction ss with
  | nil => rfl
  | cons s ss ih =>
    rw [List.mapM_cons, ih, List.all_cons]
    cases legible esc s with
    | false => rfl
    | true => cases ss.all (legible esc) <;> rfl

end Json

end GoMesi
