import GoMesi.Mesi.TagSearch

/-!
# Inline blocks

The tokenizer finds the end of a block by counting tags and takes no notice of quotes, and
`processInlineBlock` looks for the end of the opening tag outside of quotes and for the last close tag.
What the tokenizer finds is the close tag that matches in the sense of `Balanced`, in which an opening
tag ends at its first `>` (`findMatchingEndTag_eq_some_iff`). That tag is at the end of the block, so it
is the last one, and the text in between is returned as it is, whatever is nested in it.
-/

namespace GoMesi

open Strings

/-! ## Matching tags -/

/-- The blocks with the opening tag `o` and the close tag `c` in a text are closed where they should
be. An opening tag goes up to its first `>`. -/
inductive Balanced (o c : Bytes) : Bytes → Prop
  | text {s : Bytes} (ho : ¬ o <:+: s) (hc : ¬ c <:+: s) : Balanced o c s
  | block {s attrs body rest : Bytes} (ho : ¬ o <:+: s) (hc : ¬ c <:+: s) (hattrs : 0x3e ∉ attrs)
    (hbody : Balanced o c body) (hrest : Balanced o c rest) :
    Balanced o c (s ++ (o ++ (attrs ++ lit ">" ++ (body ++ c))) ++ rest)

/-- A text after which one close tag closes the outermost of `depth` blocks, of which the text closes
the others. -/
inductive Closes (o c : Bytes) : (depth : ℕ) → Bytes → Prop
  | last {s : Bytes} (hs : Balanced o c s) : Closes o c 1 s
  | next {depth : ℕ} {s rest : Bytes} (hs : Balanced o c s) (hrest : Closes o c depth rest) :
    Closes o c (depth + 1) (s ++ (c ++ rest))

variable {o c : Bytes}

/-- A block in front of the text. -/
theorem Closes.block {depth : ℕ} {s attrs body rest : Bytes} (ho : ¬ o <:+: s) (hc : ¬ c <:+: s)
    (hattrs : 0x3e ∉ attrs) (hbody : Balanced o c body) (h : Closes o c depth rest) :
    Closes o c depth (s ++ (o ++ (attrs ++ lit ">" ++ (body ++ c))) ++ rest) := by
  cases h with
  | last hs => exact .last (.block ho hc hattrs hbody hs)
  | next hs hrest =>
    rw [← List.append_assoc]
    exact .next (.block ho hc hattrs hbody hs) hrest

/-! ## The scan for the end of a block -/

section Scan

variable {hne : c ≠ []}

/-- The text before the next close tag, if no block is opened before. -/
theorem balanced_of_no_open {s t : Bytes} {n : ℕ} (hne : c ≠ []) (ho : o ≠ [])
    (hclose : index (s ++ c ++ t) c = some n)
    (hopen : (index (s ++ c ++ t) o).filter (fun m : ℕ ↦ m < n) = none) (hs : s.length = n) :
    Balanced o c s := by
  refine .text ?_ (not_isInfix_of_index hclose hne (List.append_assoc _ _ _) hs.le)
  rintro ⟨a, b, rfl⟩
  have hpos := List.length_pos_of_ne_nil ho
  simp only [List.length_append] at hs
  cases hm : index (a ++ o ++ b ++ c ++ t) o with
  | none => exact index_eq_none_iff.mp hm ⟨a, b ++ c ++ t, by simp⟩
  | some m =>
    rw [hm] at hopen
    have hle : n ≤ m := by simpa using Option.filter_eq_none_iff.mp hopen
    refine not_isPrefix_drop_of_index hm a.length (by omega) ?_
    rw [show a ++ o ++ b ++ c ++ t = a ++ (o ++ (b ++ c ++ t)) by simp, List.drop_left]
    exact List.prefix_append _ _

/-- The scan ends at a close tag, and what it has gone past closes all blocks but one. -/
theorem exists_closes_of_loop (ho : o ≠ []) (hbracket : 0x3e ∉ o) {depth : ℤ} {pos n : ℕ}
    {rest : Bytes} (hdepth : 0 < depth)
    (h : findMatchingEndTag.loop o c hne depth pos rest = some n) :
    ∃ x r, rest = x ++ (c ++ r) ∧ n = pos + x.length ∧ Closes o c depth.toNat x := by
  fun_induction findMatchingEndTag.loop o c hne depth pos rest with
  | case1 => exact absurd h (by simp)
  | case2 => exact absurd h (by simp)
  | case3 depth pos rest nextClose hclose nextOpen hopen tagEnd hend hlt ih =>
    obtain ⟨hopen, hbefore⟩ := Option.filter_eq_some_iff.mp hopen
    have hbefore : nextOpen < nextClose := by simpa using hbefore
    obtain ⟨s, t, rfl, hs⟩ := index_spec hopen
    rw [List.append_assoc] at *
    rw [← hs, List.drop_left] at hend
    obtain ⟨attrs, rest, rfl, hattrs, htag⟩ := exists_of_index_byte hbracket hend
    have hsopen : ¬ o <:+: s := not_isInfix_of_index hopen ho rfl hs.le
    have hsclose : ¬ c <:+: s := not_isInfix_of_index hclose hne rfl (hs.le.trans hbefore.le)
    have hdrop : (s ++ (o ++ (attrs ++ 0x3e :: rest))).drop (nextOpen + tagEnd + 1) = rest := by
      rw [show s ++ (o ++ (attrs ++ 0x3e :: rest)) = (s ++ (o ++ (attrs ++ [0x3e]))) ++ rest by simp]
      refine List.drop_left' ?_
      simp only [List.length_append, List.length_singleton]
      omega
    rw [hdrop] at ih h
    obtain ⟨x, r, rfl, hn, hcloses⟩ := ih (by omega) h
    obtain ⟨d, hd⟩ : ∃ d : ℕ, depth.toNat = d + 1 := ⟨depth.toNat - 1, by omega⟩
    rw [show (depth + 1).toNat = d + 1 + 1 by omega] at hcloses
    rw [hd]
    -- the first part closes the block that has just been opened
    cases hcloses with
    | @next _ body y hbody hy =>
      refine ⟨_, r, ?_, ?_, hy.block hsopen hsclose hattrs hbody⟩
      · simp [lit_bracket]
      · simp only [List.length_append] at hn ⊢
        rw [lit_bracket]
        simp only [List.length_singleton]
        omega
  | case4 depth pos rest nextClose hclose hopen hlt hone =>
    obtain ⟨s, t, rfl, hs⟩ := index_spec hclose
    refine ⟨s, t, List.append_assoc _ _ _, by rw [← Option.some.inj h, hs], ?_⟩
    rw [show depth.toNat = 1 by omega]
    exact .last (balanced_of_no_open hne ho hclose hopen hs)
  | case5 depth pos rest nextClose hclose hopen hlt hone ih =>
    obtain ⟨s, t, rfl, hs⟩ := index_spec hclose
    have hdrop : (s ++ c ++ t).drop (nextClose + c.length) = t := by
      refine List.drop_left' ?_
      rw [List.length_append, hs]
    rw [hdrop] at ih h
    obtain ⟨x, r, rfl, hn, hcloses⟩ := ih (by omega) h
    refine ⟨s ++ (c ++ x), r, by simp, by simp only [List.length_append]; omega, ?_⟩
    rw [show depth.toNat = (depth - 1).toNat + 1 by omega]
    exact .next (balanced_of_no_open hne ho hclose hopen hs) hcloses

/-- Two tags that do not begin with each other. -/
structure Apart (o c : Bytes) : Prop where
  isTag_open : IsTag o
  isTag_close : IsTag c
  bracket : 0x3e ∉ o
  not_open : ∀ r, ¬ o <+: c ++ r
  not_close : ∀ r, ¬ c <+: o ++ r

/-- An opening tag that is followed by a close tag at some place counts up. -/
theorem loop_opening (h : Apart o c) {attrs r : Bytes} (hattrs : 0x3e ∉ attrs) (hr : c <:+: r)
    (depth : ℤ) (pos : ℕ) :
    findMatchingEndTag.loop o c hne depth pos (o ++ (attrs ++ lit ">" ++ r)) =
      findMatchingEndTag.loop o c hne (depth + 1) (pos + (o ++ (attrs ++ lit ">")).length) r := by
  obtain ⟨n, hn⟩ : ∃ n, index (o ++ (attrs ++ lit ">" ++ r)) c = some n := by
    refine Option.ne_none_iff_exists'.mp fun hnone ↦ index_eq_none_iff.mp hnone ?_
    exact hr.trans ⟨o ++ (attrs ++ lit ">"), [], by simp⟩
  have hpos : 0 < n := by
    rw [Nat.pos_iff_ne_zero]
    rintro rfl
    exact h.not_close _ (index_eq_zero_iff.mp hn)
  have hopen : index (o ++ (attrs ++ lit ">" ++ r)) o = some 0 :=
    index_eq_zero_iff.mpr (List.prefix_append _ _)
  have hend : index ((o ++ (attrs ++ lit ">" ++ r)).drop 0) (lit ">") =
      some (o ++ attrs).length := by
    have hnotMem : 0x3e ∉ o ++ attrs := by simp [h.bracket, hattrs]
    rw [List.drop_zero, ← index_bracket hnotMem r]
    simp
  have hlength : (o ++ (attrs ++ lit ">")).length = (o ++ attrs).length + 1 := by
    rw [lit_bracket]
    simp [Nat.add_assoc]
  rw [findMatchingEndTag_loop_open hn (by rw [hopen]; exact filter_zero hpos) (o := 0) hend,
    Nat.zero_add, Nat.add_zero, hlength, Nat.add_assoc]
  congr 1
  rw [← hlength, show o ++ (attrs ++ lit ">" ++ r) = o ++ (attrs ++ lit ">") ++ r by simp,
    List.drop_left]

/-- A close tag counts down. -/
theorem loop_closing {depth : ℤ} (hdepth : 1 < depth) (pos : ℕ) (r : Bytes) :
    findMatchingEndTag.loop o c hne depth pos (c ++ r) =
      findMatchingEndTag.loop o c hne (depth - 1) (pos + c.length) r := by
  have hclose : index (c ++ r) c = some 0 := index_eq_zero_iff.mpr (List.prefix_append _ _)
  rw [findMatchingEndTag_loop_close hclose (filter_lt_zero _), if_neg (by omega), Nat.add_zero,
    Nat.zero_add, List.drop_left]

/-- A balanced text is gone past, and the depth after it is the depth before it. -/
theorem loop_balanced (h : Apart o c) {s r : Bytes} (hs : Balanced o c s) (hr : TagNext r)
    {depth : ℤ} (hdepth : 0 < depth) (pos : ℕ) :
    findMatchingEndTag.loop o c hne depth pos (s ++ r) =
      findMatchingEndTag.loop o c hne depth (pos + s.length) r := by
  have hskip {s r : Bytes} (ho : ¬ o <:+: s) (hc : ¬ c <:+: s) (hr : TagNext r) (depth : ℤ)
      (pos : ℕ) : findMatchingEndTag.loop o c hne depth pos (s ++ r) =
        findMatchingEndTag.loop o c hne depth (pos + s.length) r :=
    findMatchingEndTag_loop_skip (index_append_of_absent h.isTag_close.2.1 hc hr)
      (index_append_of_absent h.isTag_open.2.1 ho hr) depth pos
  induction hs generalizing r depth pos with
  | text ho hc => exact hskip ho hc hr depth pos
  | @block s attrs body rest ho hc hattrs _ _ ihbody ihrest =>
    have hassoc : s ++ (o ++ (attrs ++ lit ">" ++ (body ++ c))) ++ rest ++ r =
        s ++ (o ++ (attrs ++ lit ">" ++ (body ++ (c ++ (rest ++ r))))) := by simp
    rw [hassoc, hskip ho hc (h.isTag_open.tagNext _), loop_opening h hattrs ⟨body, rest ++ r, by simp⟩,
      ihbody (h.isTag_close.tagNext _) (by omega), loop_closing (by omega), add_sub_cancel_right,
      ihrest hr hdepth]
    congr 1
    simp only [List.length_append]
    omega

/-- **The end of a block.** The scan finds the close tag that matches the opening tag at the
beginning, and nothing else. -/
theorem findMatchingEndTag_eq_some_iff (hne : c ≠ []) (h : Apart o c) {t : Bytes} {n : ℕ} :
    findMatchingEndTag (o ++ t) o c hne = some n ↔ ∃ attrs body r,
      t = attrs ++ lit ">" ++ (body ++ (c ++ r)) ∧ 0x3e ∉ attrs ∧ Balanced o c body ∧
        n = (o ++ (attrs ++ lit ">")).length + body.length := by
  have ho : o ≠ [] := by
    rw [h.isTag_open.eq_cons]
    exact List.cons_ne_nil _ _
  constructor
  · intro hn
    rw [findMatchingEndTag] at hn
    have hopen : index (o ++ t) o = some 0 := index_eq_zero_iff.mpr (List.prefix_append _ _)
    cases hclose : index (o ++ t) c with
    | none =>
      rw [findMatchingEndTag_loop_none hclose] at hn
      exact absurd hn (by simp)
    | some m =>
      have hpos : 0 < m := by
        rw [Nat.pos_iff_ne_zero]
        rintro rfl
        exact h.not_close _ (index_eq_zero_iff.mp hclose)
      have hfirst : (index (o ++ t) o).filter (fun n : ℕ ↦ n < m) = some 0 := by
        rw [hopen]
        exact filter_zero hpos
      cases hend : index ((o ++ t).drop 0) (lit ">") with
      | none =>
        rw [findMatchingEndTag_loop_unclosed hclose hfirst hend] at hn
        exact absurd hn (by simp)
      | some e =>
        rw [findMatchingEndTag_loop_open hclose hfirst hend] at hn
        rw [List.drop_zero] at hend
        obtain ⟨attrs, rest, rfl, hattrs, rfl⟩ := exists_of_index_byte h.bracket hend
        have hdrop : (o ++ (attrs ++ 0x3e :: rest)).drop (0 + (o.length + attrs.length) + 1) =
            rest := by
          rw [show o ++ (attrs ++ 0x3e :: rest) = (o ++ (attrs ++ [0x3e])) ++ rest by simp]
          refine List.drop_left' ?_
          simp only [List.length_append, List.length_singleton]
          omega
        rw [hdrop] at hn
        obtain ⟨x, r, rfl, rfl, hcloses⟩ := exists_closes_of_loop ho h.bracket (by omega) hn
        cases hcloses with
        | last hx =>
          refine ⟨attrs, x, r, by simp [lit_bracket], hattrs, hx, ?_⟩
          simp only [List.length_append, lit_bracket, List.length_singleton]
          omega
        | next hs hrest => cases hrest
  · rintro ⟨attrs, body, r, rfl, hattrs, hbody, rfl⟩
    have hclose : index (c ++ r) c = some 0 := index_eq_zero_iff.mpr (List.prefix_append _ _)
    rw [findMatchingEndTag, loop_opening h hattrs ⟨body, r, by simp⟩,
      loop_balanced h hbody (h.isTag_close.tagNext _) (by omega),
      findMatchingEndTag_loop_close hclose (filter_lt_zero _), if_pos (by omega)]
    congr 1
    omega

/-- There is one close tag that matches. -/
theorem Balanced.close_unique (h : Apart o c) {body r body' r' : Bytes} (hbody : Balanced o c body)
    (hbody' : Balanced o c body') (heq : body ++ (c ++ r) = body' ++ (c ++ r')) : body = body' := by
  have hc : c ≠ [] := by
    rw [h.isTag_close.eq_cons]
    exact List.cons_ne_nil _ _
  have hfound := (findMatchingEndTag_eq_some_iff hc h).mpr
    ⟨[], body, r, rfl, List.not_mem_nil, hbody, rfl⟩
  have hfound' := (findMatchingEndTag_eq_some_iff hc h).mpr
    ⟨[], body', r', rfl, List.not_mem_nil, hbody', rfl⟩
  rw [heq, hfound', Option.some_inj] at hfound
  exact (List.append_inj heq (Nat.add_left_cancel hfound.symm)).1

end Scan

/-! ## Quotes -/

/-- A text in which every quote is closed and no `>` is outside of quotes. -/
inductive Quoted : Bytes → Prop
  | nil : Quoted []
  | plain {b : UInt8} {s : Bytes} (hquote : b ≠ 0x22 ∧ b ≠ 0x27) (hbracket : b ≠ 0x3e)
    (hs : Quoted s) : Quoted (b :: s)
  | value {q : UInt8} {v s : Bytes} (hq : q = 0x22 ∨ q = 0x27) (hv : q ∉ v) (hs : Quoted s) :
    Quoted (q :: (v ++ q :: s))

theorem findUnquotedCloseBracket_value {q : UInt8} {v : Bytes} (hv : q ∉ v) (i : ℕ) (s : Bytes) :
    findUnquotedCloseBracket.loop (some q) i (v ++ q :: s) =
      findUnquotedCloseBracket.loop none (i + v.length + 1) s := by
  induction v generalizing i with
  | nil => simp [findUnquotedCloseBracket.loop]
  | cons b v ih =>
    obtain ⟨hb, hv⟩ : q ≠ b ∧ q ∉ v := by simpa using hv
    rw [List.cons_append, findUnquotedCloseBracket.loop, if_neg (Ne.symm hb), ih hv]
    congr 1
    simp only [List.length_cons]
    omega

/-- The first `>` outside of quotes. -/
theorem findUnquotedCloseBracket_loop {s : Bytes} (hs : Quoted s) (i : ℕ) (r : Bytes) :
    findUnquotedCloseBracket.loop none i (s ++ 0x3e :: r) = some (i + s.length) := by
  induction hs generalizing i with
  | nil => simp [findUnquotedCloseBracket.loop]
  | plain hquote hbracket _ ih =>
    rw [List.cons_append, findUnquotedCloseBracket.loop, if_neg (by tauto), if_neg hbracket, ih]
    congr 1
    simp only [List.length_cons]
    omega
  | value hq hv _ ih =>
    rw [List.cons_append, List.append_assoc, List.cons_append, findUnquotedCloseBracket.loop,
      if_pos hq, findUnquotedCloseBracket_value hv, ih]
    congr 1
    simp only [List.length_cons, List.length_append]
    omega

theorem Quoted.append {s t : Bytes} (hs : Quoted s) (ht : Quoted t) : Quoted (s ++ t) := by
  induction hs with
  | nil => exact ht
  | plain hquote hbracket _ ih => exact .plain hquote hbracket ih
  | value hq hv _ ih =>
    rw [List.cons_append, List.append_assoc, List.cons_append]
    exact .value hq hv ih

/-! ## The last occurrence -/

theorem lastIndex_of_length_lt {s sub : Bytes} (h : s.length < sub.length) :
    lastIndex s sub = none := by
  have hlong {s : Bytes} (h : s.length < sub.length) : hasPrefix s sub = false := by
    rw [hasPrefix, Bool.eq_false_iff, ne_eq, List.isPrefixOf_iff_prefix]
    exact fun hpre ↦ absurd hpre.length_le (not_le.mpr h)
  induction s with
  | nil => rw [lastIndex, hlong h, if_neg Bool.false_ne_true]
  | cons b s ih =>
    rw [lastIndex, ih (Nat.lt_of_succ_lt h), hlong h]
    rfl

/-- What stands at the end occurs there last. -/
theorem lastIndex_append {sub : Bytes} (hsub : sub ≠ []) (s : Bytes) :
    lastIndex (s ++ sub) sub = some s.length := by
  induction s with
  | nil =>
    obtain ⟨b, sub', rfl⟩ := List.exists_cons_of_ne_nil hsub
    have hself : hasPrefix (b :: sub') (b :: sub') = true :=
      List.isPrefixOf_iff_prefix.mpr (List.prefix_refl _)
    rw [List.nil_append, lastIndex, lastIndex_of_length_lt (by simp), if_pos hself]
    rfl
  | cons b s ih =>
    rw [List.cons_append, lastIndex, ih]
    rfl

/-! ## Inline blocks -/

theorem apart_inline : Apart TagType.inline.openTag TagType.inline.closeTag where
  isTag_open := by decide
  isTag_close := by decide
  bracket := by decide
  not_open r h := (List.prefix_or_prefix_of_prefix h (List.prefix_append _ _)).elim
    (by decide) (by decide)
  not_close r h := (List.prefix_or_prefix_of_prefix h (List.prefix_append _ _)).elim
    (by decide) (by decide)

/-- A balanced text without what is in front of it, if that has no tag and a `>` at its end. -/
theorem Balanced.of_prepend (hbracket : 0x3e ∉ o) {mid s : Bytes} (ho : ¬ o <:+: mid)
    (hmid : mid = [] ∨ ∃ v, mid = v ++ lit ">") (h : Balanced o c (mid ++ s)) : Balanced o c s := by
  generalize hw : mid ++ s = w at h
  cases h with
  | text ho hc =>
    have hinfix : s <:+: w := hw ▸ (List.suffix_append _ _).isInfix
    exact .text (fun h ↦ ho (h.trans hinfix)) fun h ↦ hc (h.trans hinfix)
  | @block u attrs body rest huo huc hattrs hbody hrest =>
    rw [List.append_assoc u, List.append_eq_append_iff] at hw
    rcases hw with ⟨as, rfl, hs⟩ | ⟨as, rfl, hs⟩
    · have hinfix : as <:+: mid ++ as := (List.suffix_append _ _).isInfix
      rw [hs, ← List.append_assoc]
      exact .block (fun h ↦ huo (h.trans hinfix)) (fun h ↦ huc (h.trans hinfix)) hattrs hbody hrest
    · cases as with
      | nil =>
        have hnil {t : Bytes} (h : ¬ t <:+: u) : ¬ t <:+: [] := fun h' ↦ h (h'.trans ⟨[], u, by simp⟩)
        rw [List.nil_append] at hs
        rw [← hs, ← List.nil_append (_ ++ rest), ← List.append_assoc]
        exact .block (hnil huo) (hnil huc) hattrs hbody hrest
      | cons b as =>
        -- the opening tag would be in the part in front, or have its `>`
        exfalso
        rw [List.append_assoc o] at hs
        rcases List.prefix_or_prefix_of_prefix (List.prefix_append o _)
          (hs ▸ List.prefix_append (b :: as) s) with hpre | hpre
        · exact ho (hpre.isInfix.trans (List.suffix_append _ _).isInfix)
        · rcases hmid with hmid | ⟨v, hmid⟩
          · simp at hmid
          · have hlast := congrArg List.getLast? hmid
            rw [List.getLast?_append_of_ne_nil _ (List.cons_ne_nil _ _), lit_bracket,
              List.getLast?_concat] at hlast
            exact hbracket (hpre.subset (List.mem_of_getLast? hlast))

/-- The opening tag is cut off at its first `>` outside of quotes. -/
theorem processInlineBlock_eq {attrs : Bytes} (hattrs : Quoted attrs) (rest : Bytes) :
    processInlineBlock (TagType.inline.openTag ++ (attrs ++ lit ">" ++ rest)) =
      match lastIndex rest TagType.inline.closeTag with
      | none => rest
      | some closeTag => rest.take closeTag := by
  have hopen : Quoted TagType.inline.openTag := by
    rw [show TagType.inline.openTag = [0x3c, 0x65, 0x73, 0x69, 0x3a, 0x69, 0x6e, 0x6c, 0x69, 0x6e, 0x65]
      from by decide]
    repeat' first | exact .nil | refine .plain (by decide) (by decide) ?_
  have hraw : TagType.inline.openTag ++ (attrs ++ lit ">" ++ rest) =
      TagType.inline.openTag ++ attrs ++ 0x3e :: rest := by
    simp [lit_bracket]
  have hbracket : findUnquotedCloseBracket (TagType.inline.openTag ++ attrs ++ 0x3e :: rest) =
      some (TagType.inline.openTag ++ attrs).length := by
    rw [findUnquotedCloseBracket, findUnquotedCloseBracket_loop (hopen.append hattrs), Nat.zero_add]
  have hdrop : (TagType.inline.openTag ++ attrs ++ 0x3e :: rest).drop
      ((TagType.inline.openTag ++ attrs).length + 1) = rest := by
    rw [List.append_cons _ _ rest]
    refine List.drop_left' ?_
    rw [List.length_append, List.length_singleton]
  rw [hraw, processInlineBlock, hbracket]
  dsimp only
  rw [hdrop]
  rfl

/-- The element goes from its opening tag to the close tag that matches it. -/
def Matched (o c raw : Bytes) : Prop :=
  ∃ attrs body, raw = o ++ (attrs ++ lit ">" ++ (body ++ c)) ∧ 0x3e ∉ attrs ∧ Balanced o c body

theorem matched_of_mem_esiTokenizer {input raw : Bytes}
    (hmem : { esiTagContent := raw, esiTagType := some .inline } ∈ esiTokenizer input) :
    Matched TagType.inline.openTag TagType.inline.closeTag raw := by
  obtain ⟨s, len, ⟨t, rfl⟩, hend, hraw⟩ := exists_tagEnd_of_mem hmem rfl
  obtain ⟨n, hn, rfl⟩ := Option.map_eq_some_iff.mp hend
  obtain ⟨attrs, body, r, rfl, hattrs, hbody, rfl⟩ :=
    (findMatchingEndTag_eq_some_iff _ apart_inline).mp hn
  refine ⟨attrs, body, hraw.trans ?_, hattrs, hbody⟩
  rw [show TagType.inline.openTag ++ (attrs ++ lit ">" ++ (body ++ (TagType.inline.closeTag ++ r))) =
    TagType.inline.openTag ++ (attrs ++ lit ">" ++ (body ++ TagType.inline.closeTag)) ++ r by simp]
  refine List.take_left' ?_
  simp only [List.length_append]
  omega

/-- What comes after the opening tag is the body and the close tag, or nothing: the close tag has
its only `>` at its end. -/
theorem rest_of_matched {p rest x : Bytes}
    (h : p ++ lit ">" ++ rest = x ++ TagType.inline.closeTag) :
    rest = [] ∨ ∃ body, rest = body ++ TagType.inline.closeTag := by
  rcases List.append_eq_append_iff.mp h with ⟨as, -, hrest⟩ | ⟨as, hp, hclose⟩
  · exact .inr ⟨as, hrest⟩
  · cases as with
    | nil => exact .inr ⟨[], by simpa using hclose.symm⟩
    | cons b as =>
      left
      by_contra hne
      have hlast := congrArg List.getLast? hp
      rw [lit_bracket, List.getLast?_concat,
        List.getLast?_append_of_ne_nil _ (List.cons_ne_nil _ _)] at hlast
      have hmem : 0x3e ∈ b :: as := List.mem_of_getLast? hlast.symm
      refine absurd ?_ (by decide : 0x3e ∉ TagType.inline.closeTag.dropLast)
      rw [hclose, List.dropLast_append_of_ne_nil hne]
      exact List.mem_append_left _ hmem

/-- **Main result.** The token of an inline block ends with the close tag that matches its opening
tag. If the quotes of the opening tag are closed, then what is between its first `>` outside of quotes
and that close tag is returned as it is. If there is no tag among the attributes, that is a text of its
own in which the nested blocks are closed. -/
theorem processInlineBlock_verbatim {input raw attrs rest : Bytes}
    (hmem : { esiTagContent := raw, esiTagType := some .inline } ∈ esiTokenizer input)
    (hattrs : Quoted attrs)
    (hraw : raw = TagType.inline.openTag ++ (attrs ++ lit ">" ++ rest)) :
    Matched TagType.inline.openTag TagType.inline.closeTag raw ∧
      processInlineBlock raw =
        slice raw (raw.length - rest.length) (raw.length - TagType.inline.closeTag.length) ∧
      (¬ TagType.inline.openTag <:+: attrs ++ lit ">" →
        ¬ TagType.inline.closeTag <:+: attrs ++ lit ">" → ∃ body, rest = body ++ TagType.inline.closeTag ∧
          Balanced TagType.inline.openTag TagType.inline.closeTag body ∧
            processInlineBlock raw = body) := by
  have hmatched := matched_of_mem_esiTokenizer hmem
  obtain ⟨attrs₀, body₀, hraw₀, hattrs₀, hbody₀⟩ := hmatched
  have hshape : TagType.inline.openTag ++ attrs ++ lit ">" ++ rest =
      TagType.inline.openTag ++ (attrs₀ ++ lit ">" ++ body₀) ++ TagType.inline.closeTag := by
    rw [hraw] at hraw₀
    simpa using hraw₀
  have hprocess := processInlineBlock_eq hattrs rest
  rw [← hraw] at hprocess
  have hopening : raw = TagType.inline.openTag ++ (attrs ++ lit ">") ++ rest := by
    rw [hraw]
    simp
  refine ⟨⟨attrs₀, body₀, hraw₀, hattrs₀, hbody₀⟩, ?_, ?_⟩
  · rcases rest_of_matched hshape with rfl | ⟨body, rfl⟩
    · rw [hprocess, lastIndex_of_length_lt (by decide), slice]
      exact (List.drop_of_length_le (by simp)).symm
    · have htake : raw.take (raw.length - TagType.inline.closeTag.length) =
          TagType.inline.openTag ++ (attrs ++ lit ">") ++ body := by
        rw [hopening, ← List.append_assoc _ body]
        refine List.take_left' ?_
        simp only [List.length_append]
        omega
      rw [hprocess, lastIndex_append (by decide), slice, htake]
      dsimp only
      rw [List.take_left]
      refine (List.drop_left' ?_).symm
      rw [hopening]
      simp only [List.length_append]
      omega
  · intro hopen hclose
    have hcancel : attrs ++ lit ">" ++ rest =
        attrs₀ ++ lit ">" ++ body₀ ++ TagType.inline.closeTag := by
      simpa using hshape
    rcases rest_of_matched hshape with rfl | ⟨body, rfl⟩
    · rw [List.append_nil] at hcancel
      exact absurd ⟨_, [], by rw [hcancel, List.append_nil]⟩ hclose
    · refine ⟨body, rfl, ?_, ?_⟩
      · -- the opening tag may have a `>` within quotes, up to which the tokenizer goes
        obtain ⟨a, mid, heq, ha, hmid⟩ := exists_first_bracket attrs
        rw [← List.append_assoc _ body, List.append_cancel_right_eq, heq, List.append_assoc _ mid]
          at hcancel
        obtain ⟨-, hbody⟩ := first_bracket_unique hcancel ha hattrs₀
        rw [← hbody] at hbody₀
        refine hbody₀.of_prepend apart_inline.bracket (fun h ↦ hopen (h.trans ?_)) hmid
        rw [heq]
        exact (List.suffix_append _ _).isInfix
      · rw [hprocess, lastIndex_append (by decide)]
        exact List.take_left

/-- A `>` in an attribute, and a block within the block. -/
def nestedInline : Bytes := lit "<esi:inline a=\"b>c\">d<esi:inline>e</esi:inline>f</esi:inline>"

theorem processInlineBlock_verbatim_nested :
    processInlineBlock nestedInline = lit "d<esi:inline>e</esi:inline>f" := by
  have hmem : { esiTagContent := nestedInline, esiTagType := some .inline } ∈
      esiTokenizer (lit "x" ++ nestedInline ++ lit "</esi:inline>") := by
    decide +kernel
  have hattrs : Quoted (lit " a=\"b>c\"") :=
    .plain (by decide) (by decide) (.plain (by decide) (by decide) (.plain (by decide) (by decide)
      (.value (.inl rfl) (by decide : _ ∉ lit "b>c") .nil)))
  obtain ⟨-, -, hbody⟩ := processInlineBlock_verbatim hmem hattrs
    (show nestedInline = TagType.inline.openTag ++ (lit " a=\"b>c\"" ++ lit ">" ++
      lit "d<esi:inline>e</esi:inline>f</esi:inline>") by decide)
  obtain ⟨body, hrest, -, hprocess⟩ := hbody (by decide) (by decide)
  rw [hprocess, ← List.append_left_inj TagType.inline.closeTag, ← hrest]
  decide

end GoMesi
