import GoMesi.Go.Strings

/-!
# The ESI tokenizer

`tokenizer.go` and `unescape.go`. Both scan a fixed string `s` with a position that only moves
forward. The loops here carry the position and `rest`, which is `s[pos:]`, and recurse on the
length of `rest`.

No loop has a step bound. That a malformed tag cannot hold one up is the content of its
`decreasing_by` block: what a scan finds is not empty, so going past it leaves less of the string.
-/

namespace GoMesi

open Strings

/-- The tag types of the tokenizer. -/
inductive TagType
  | inline | choose | try_ | remove | vars | comment | include_
  deriving DecidableEq, Repr

/-- The name of the tag in the markup. -/
def TagType.name : TagType → Bytes
  | inline => lit "inline"
  | choose => lit "choose"
  | try_ => lit "try"
  | remove => lit "remove"
  | vars => lit "vars"
  | comment => lit "comment"
  | include_ => lit "include"

/-- `"<esi:" + tag` -/
def TagType.openTag (t : TagType) : Bytes := lit "<esi:" ++ t.name

/-- `"</esi:" + tag + ">"` -/
def TagType.closeTag (t : TagType) : Bytes := lit "</esi:" ++ t.name ++ lit ">"

theorem TagType.openTag_ne_nil (t : TagType) : t.openTag ≠ [] := by cases t <;> decide

theorem TagType.closeTag_ne_nil (t : TagType) : t.closeTag ≠ [] := by cases t <;> decide

/-- A token: static text, or an ESI tag with its content. -/
structure EsiToken where
  /-- The text of a static token. -/
  staticContent : Bytes := []
  /-- The whole element of an ESI token. -/
  esiTagContent : Bytes := []
  /-- The type of an ESI token, absent for static text. -/
  esiTagType : Option TagType := none
  deriving DecidableEq, Repr

def EsiToken.isEsi (token : EsiToken) : Bool :=
  token.esiTagType.isSome && !token.esiTagContent.isEmpty

/-- The position of the `closeTag` that matches the first `openTag` in `s`. The callers pass a
close tag that is not empty. -/
def findMatchingEndTag (s openTag closeTag : Bytes) (hne : closeTag ≠ []) : Option ℕ :=
  loop 0 0 s
where
  /-- The depth is an integer: a close tag before any open tag takes it below zero. -/
  loop (depth : ℤ) (pos : ℕ) (rest : Bytes) : Option ℕ :=
    match hclose : index rest closeTag with
    | none => none
    | some nextClose =>
      match (index rest openTag).filter (· < nextClose) with
      | some nextOpen =>
        match hend : index (rest.drop nextOpen) (lit ">") with
        | none => none
        | some tagEnd =>
          have := index_drop_drop_lt hend (by decide : lit ">" ≠ [])
          loop (depth + 1) (pos + nextOpen + tagEnd + 1) (rest.drop (nextOpen + tagEnd + 1))
      | none =>
        have := index_drop_lt hclose hne
        if depth - 1 = 0 then some (pos + nextClose)
        else loop (depth - 1) (pos + nextClose + closeTag.length)
          (rest.drop (nextClose + closeTag.length))
  termination_by rest.length
  decreasing_by all_goals assumption

/-- The tag types in the order `esiTokenizer` looks for them. -/
def unsupportedTags : List TagType :=
  [.inline, .choose, .try_, .remove, .vars, .comment, .include_]

/-- The better of the best candidate so far and the first tag of type `t`. -/
def pickTag (input : Bytes) (best : Option (ℕ × TagType)) (t : TagType) :
    Option (ℕ × TagType) :=
  match index input t.openTag, best with
  | none, _ => best
  | some idx, none => some (idx, t)
  | some idx, some (start, _) => if idx < start then some (idx, t) else best

/-- The first tag of the input and where it starts. Of two tags at one position the earlier in
`unsupportedTags` is taken. -/
def firstTag (input : Bytes) : Option (ℕ × TagType) :=
  unsupportedTags.foldl (pickTag input) none

/-- The length of the element of type `tag` that `s` starts with, its end tag included. -/
def tagEnd (tag : TagType) (s : Bytes) : Option ℕ :=
  match tag with
  | .comment => (index s (lit ">")).map (· + 1)
  | .include_ =>
    match index s (lit ">") with
    | none => none
    | some e =>
      -- not self-closed: the element ends at the first close tag
      if s[e - 1]? ≠ some 0x2f then
        (index s tag.closeTag).map (· + tag.closeTag.length)
      else some (e + 1)
  | _ => (findMatchingEndTag s tag.openTag tag.closeTag tag.closeTag_ne_nil).map
      (· + tag.closeTag.length)

theorem pickTag_spec {s : Bytes} {best : Option (ℕ × TagType)} {u : TagType}
    (hbest : ∀ n t, best = some (n, t) → index s t.openTag = some n) {n : ℕ} {t : TagType}
    (h : pickTag s best u = some (n, t)) : index s t.openTag = some n := by
  cases hidx : index s u.openTag with
  | none =>
    simp only [pickTag, hidx] at h
    exact hbest n t h
  | some idx =>
    have : some (idx, u) = some (n, t) ∨ best = some (n, t) := by
      cases best with
      | none => exact .inl (by simpa only [pickTag, hidx] using h)
      | some b =>
        simp only [pickTag, hidx] at h
        split_ifs at h
        · exact .inl h
        · exact .inr h
    rcases this with heq | heq
    · obtain ⟨rfl, rfl⟩ := Prod.mk.inj (Option.some.inj heq)
      exact hidx
    · exact hbest n t heq

theorem firstTag_spec {s : Bytes} {n : ℕ} {t : TagType} (h : firstTag s = some (n, t)) :
    index s t.openTag = some n := by
  suffices ∀ (l : List TagType) (best : Option (ℕ × TagType)),
      (∀ n t, best = some (n, t) → index s t.openTag = some n) →
      ∀ n t, l.foldl (pickTag s) best = some (n, t) → index s t.openTag = some n from
    this unsupportedTags none (by simp) n t h
  intro l
  induction l with
  | nil => exact fun best hbest ↦ hbest
  | cons a l ih => exact fun best hbest ↦ ih _ fun n t hnt ↦ pickTag_spec hbest hnt

theorem tagEnd_pos {tag : TagType} {s : Bytes} {n : ℕ} (h : tagEnd tag s = some n) : 0 < n := by
  have hlen := List.length_pos_of_ne_nil tag.closeTag_ne_nil
  cases tag with
  | comment =>
    obtain ⟨e, -, rfl⟩ := Option.map_eq_some_iff.mp h
    omega
  | include_ =>
    simp only [tagEnd] at h
    split at h
    · simp at h
    · split_ifs at h
      · obtain ⟨e, -, rfl⟩ := Option.map_eq_some_iff.mp h
        omega
      · obtain rfl := Option.some.inj h
        omega
  | _ =>
    obtain ⟨e, -, rfl⟩ := Option.map_eq_some_iff.mp h
    omega

/-- Going past a tag leaves less of the input. -/
theorem firstTag_drop_lt {s : Bytes} {n m : ℕ} {t : TagType} (h : firstTag s = some (n, t))
    (hm : 0 < m) : (s.drop (n + m)).length < s.length := by
  have hle := index_le (firstTag_spec h)
  have hpos := List.length_pos_of_ne_nil t.openTag_ne_nil
  rw [List.length_drop]
  omega

/-- `esiTokenizer`. -/
def esiTokenizer (rest : Bytes) : List EsiToken :=
  match hfirst : firstTag rest with
  | none => [{ staticContent := rest }]
  | some (start, tag) =>
    let text : List EsiToken := if start > 0 then [{ staticContent := rest.take start }] else []
    match hend : tagEnd tag (rest.drop start) with
    | none => text ++ [{ staticContent := rest.drop start }]
    | some len =>
      have := firstTag_drop_lt hfirst (tagEnd_pos hend)
      text ++ { esiTagContent := (rest.drop start).take len, esiTagType := some tag } ::
        esiTokenizer (rest.drop (start + len))
termination_by rest.length
decreasing_by assumption

/-- `unescape`: the bodies of `<!--esi ... -->` comments stand in their place. An unclosed one is
kept as it is. -/
def unescape (rest : Bytes) : Bytes :=
  match hstart : index rest (lit "<!--esi") with
  | none => rest
  | some start =>
    let body := rest.drop (start + (lit "<!--esi").length)
    match hend : index body (lit "-->") with
    | none => rest.take start ++ rest.drop start
    | some len =>
      have := Nat.lt_trans (index_drop_lt hend (by decide)) (index_drop_lt hstart (by decide))
      rest.take start ++ body.take len ++ unescape (body.drop (len + (lit "-->").length))
termination_by rest.length
decreasing_by assumption

/-- `findUnquotedCloseBracket`: the position of the first `>` outside quotes. -/
def findUnquotedCloseBracket (s : Bytes) : Option ℕ := loop none 0 s
where
  /-- `quote` is the quote character the scan is inside of. -/
  loop (quote : Option UInt8) (i : ℕ) : Bytes → Option ℕ
    | [] => none
    | c :: rest =>
      match quote with
      | some q => loop (if c = q then none else quote) (i + 1) rest
      | none =>
        if c = 0x22 ∨ c = 0x27 then loop (some c) (i + 1) rest
        else if c = 0x3e then some i
        else loop none (i + 1) rest

/-- `processInlineBlock`. -/
def processInlineBlock (raw : Bytes) : Bytes :=
  match findUnquotedCloseBracket raw with
  | none => raw
  | some closeBracket =>
    let body := raw.drop (closeBracket + 1)
    match lastIndex body (lit "</esi:inline>") with
    | none => body
    | some closeTag => body.take closeTag

/-! ## Lengths

What the parser hands to a nested render is no longer than the text it was cut from. -/

/-- The content of a token is no longer than the input. -/
theorem length_le_of_mem_esiTokenizer {input : Bytes} {token : EsiToken}
    (h : token ∈ esiTokenizer input) : token.esiTagContent.length ≤ input.length := by
  fun_induction esiTokenizer input with
  | case1 rest hfirst => simp_all
  | case2 rest start tag hfirst text hend =>
    rcases List.mem_append.mp h with h | h
    · by_cases hs : start > 0 <;> simp_all [text]
    · simp_all
  | case3 rest start tag hfirst text len hend hlt ih =>
    rcases List.mem_append.mp h with h | h
    · by_cases hs : start > 0 <;> simp_all [text]
    · rcases List.mem_cons.mp h with rfl | h
      · simp only [List.length_take, List.length_drop]
        omega
      · exact (ih h).trans hlt.le

theorem length_unescape_le (s : Bytes) : (unescape s).length ≤ s.length := by
  fun_induction unescape s with
  | case1 rest hstart => exact le_rfl
  | case2 rest start hstart body hend => exact (congrArg List.length (List.take_append_drop _ _)).le
  | case3 rest start hstart body len hend hlt ih =>
    have hs := index_le hstart
    have he := index_le hend
    simp only [List.length_append, List.length_take, List.length_drop, body] at *
    omega

end GoMesi
