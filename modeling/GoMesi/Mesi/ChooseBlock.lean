import GoMesi.Mesi.Nesting

/-!
# A choose block around a text

A text is put into a choose block as the branch of a test that is true. What `unescape`, the
tokenizer and `extractChooseBlocks` make of the block is said here: nothing around the text is
touched, the block is the only token, and its only branch is the text, provided that the when and
choose tags in it are balanced.
-/

namespace GoMesi

open Strings

/-- The elements that have to be nested properly in the branch. -/
def whenNames : List ElementName := [.when_, .choose]

/-- The text before the body of the only branch. -/
def chooseOpen : Bytes := lit "<esi:choose><esi:when test=\"true\">"

/-- The text after it. -/
def chooseClose : Bytes := lit "</esi:when></esi:choose>"

/-- A choose block whose only branch is selected. -/
def chooseWrap (body : Bytes) : Bytes := chooseOpen ++ (body ++ chooseClose)

/-! ## Unescaping -/

section

variable {s p r : Bytes} {n len : ℕ}

theorem unescape_of_none (h : index s (lit "<!--esi") = none) : unescape s = s := by
  rw [unescape]
  split
  · rfl
  · simp_all

theorem unescape_of_unclosed (h : index s (lit "<!--esi") = some n)
    (hend : index (s.drop (n + (lit "<!--esi").length)) (lit "-->") = none) : unescape s = s := by
  rw [unescape]
  split
  · rfl
  · rename_i n' hn
    obtain rfl : n = n' := Option.some.inj (h.symm.trans hn)
    dsimp only
    split
    · exact List.take_append_drop _ _
    · simp_all

theorem unescape_of_comment (h : index s (lit "<!--esi") = some n)
    (hend : index (s.drop (n + (lit "<!--esi").length)) (lit "-->") = some len) :
    unescape s = s.take n ++ ((s.drop (n + (lit "<!--esi").length)).take len ++
      unescape ((s.drop (n + (lit "<!--esi").length)).drop (len + (lit "-->").length))) := by
  rw [unescape]
  split
  · simp_all
  · rename_i n' hn
    obtain rfl : n = n' := Option.some.inj (h.symm.trans hn)
    dsimp only
    split
    · simp_all
    · rename_i len' hlen
      obtain rfl : len = len' := Option.some.inj (hend.symm.trans hlen)
      exact List.append_assoc ..

/-- Text before which no comment starts stays as it is. -/
theorem unescape_append_right
    (h : index (p ++ r) (lit "<!--esi") = (index r (lit "<!--esi")).map (· + p.length)) :
    unescape (p ++ r) = p ++ unescape r := by
  cases hstart : index r (lit "<!--esi") with
  | none =>
    rw [hstart, Option.map_none] at h
    rw [unescape_of_none h, unescape_of_none hstart]
  | some n =>
    rw [hstart, Option.map_some, Nat.add_comm] at h
    have hdrop : (p ++ r).drop (p.length + n + (lit "<!--esi").length) =
        r.drop (n + (lit "<!--esi").length) := by
      rw [Nat.add_assoc, List.drop_length_add_append]
    cases hend : index (r.drop (n + (lit "<!--esi").length)) (lit "-->") with
    | none => rw [unescape_of_unclosed h (hdrop ▸ hend), unescape_of_unclosed hstart hend]
    | some len =>
      rw [unescape_of_comment h (hdrop ▸ hend), unescape_of_comment hstart hend, hdrop,
        List.take_length_add_append]
      simp only [List.append_assoc]

/-- Neither does text after which a tag comes, without the end of a comment in it. -/
theorem unescape_append_left (hr : TagNext r) (hstart : index r (lit "<!--esi") = none)
    (hend : index r (lit "-->") = none) : unescape (s ++ r) = unescape s ++ r := by
  have hnone {t s : Bytes} (ht : 0x3c ∉ t.tail) (hrt : index r t = none) (hst : index s t = none) :
      index (s ++ r) t = none := by
    rw [index_append_of_absent ht (index_eq_none_iff.mp hst) hr, hrt, Option.map_none]
  fun_induction unescape s with
  | case1 s hs => exact unescape_of_none (hnone (by decide) hstart hs)
  | case2 s n hs body hlast =>
    have hbody : (s ++ r).drop (n + (lit "<!--esi").length) = body ++ r :=
      List.drop_append_of_le_length (index_le hs)
    rw [unescape_of_unclosed (index_append_left hs) (hbody ▸ hnone (by decide) hend hlast),
      List.take_append_drop]
  | case3 s n hs body len hlast _ ih =>
    have hle := index_le hs
    have hbody : (s ++ r).drop (n + (lit "<!--esi").length) = body ++ r :=
      List.drop_append_of_le_length hle
    rw [unescape_of_comment (index_append_left hs) (hbody ▸ index_append_left hlast), hbody,
      List.drop_append_of_le_length (index_le hlast), ih,
      List.take_append_of_le_length (by omega),
      List.take_append_of_le_length (Nat.le_of_add_right_le (index_le hlast))]
    simp only [List.append_assoc]

end

theorem unescape_chooseWrap (s : Bytes) : unescape (chooseWrap s) = chooseWrap (unescape s) := by
  have hpieces : chooseWrap s =
      lit "<esi:choose>" ++ (lit "<esi:when test=\"true\">" ++ (s ++ chooseClose)) := by
    rw [← List.append_assoc]
    rfl
  have hpre {p : Bytes} (h : ¬ lit "<!--esi" <+: p ∧ ¬ p <+: lit "<!--esi") (r : Bytes) :
      ¬ lit "<!--esi" <+: p ++ r := fun hlong ↦
    (List.prefix_or_prefix_of_prefix hlong (List.prefix_append _ _)).elim h.1 h.2
  rw [hpieces, unescape_append_right, unescape_append_right,
    unescape_append_left (by decide +kernel) (by decide +kernel) (by decide +kernel)]
  · rw [← List.append_assoc]
    rfl
  · exact index_append_of_isTag (by decide) (by decide) (hpre (by decide) _)
  · exact index_append_of_isTag (by decide) (by decide) (hpre (by decide) _)

/-! ## Tokenizing -/

theorem chooseWrap_eq (s : Bytes) :
    chooseWrap s = ElementName.choose.element [] (ElementName.when_.element (lit " test=\"true\"") s) := by
  simp only [chooseWrap, chooseOpen, chooseClose, ElementName.element, ElementName.openTag,
    ElementName.closeTag, List.append_assoc, List.nil_append]
  rfl

theorem pickTag_of_zero {s : Bytes} {t : TagType} (u : TagType) :
    pickTag s (some (0, t)) u = some (0, t) := by
  cases h : index s u.openTag <;> simp [pickTag, h]

theorem firstTag_chooseWrap (s : Bytes) : firstTag (chooseWrap s) = some (0, .choose) := by
  have hchoose : index (chooseWrap s) TagType.choose.openTag = some 0 := by
    rw [chooseWrap, chooseOpen]
    exact index_append_left (by decide +kernel)
  have hinline : index (chooseWrap s) TagType.inline.openTag ≠ some 0 := by
    rw [ne_eq, index_eq_zero_iff, chooseWrap_eq, ElementName.element]
    intro h
    exact (List.prefix_or_prefix_of_prefix h (List.prefix_append _ _)).elim (by decide +kernel)
      (by decide +kernel)
  have hpick : pickTag (chooseWrap s) (pickTag (chooseWrap s) none .inline) .choose =
      some (0, .choose) := by
    cases h : index (chooseWrap s) TagType.inline.openTag with
    | none => simp [pickTag, h, hchoose]
    | some n =>
      have hn : 0 < n := Nat.pos_of_ne_zero fun hzero ↦ hinline (hzero ▸ h)
      simp [pickTag, h, hchoose, hn]
  rw [firstTag, unsupportedTags, List.foldl_cons, List.foldl_cons, hpick]
  simp only [List.foldl_cons, pickTag_of_zero, List.foldl_nil]

variable {s : Bytes}

theorem nested_when (hs : Nested whenNames s) :
    Nested whenNames (ElementName.when_.element (lit " test=\"true\"") s) := by
  have hattrs : Free whenNames (lit " test=\"true\"" ++ lit ">") := by decide +kernel
  have h := Nested.element_append (by decide : ElementName.when_ ∈ whenNames) hattrs hs
    (.text (s := []) (by decide +kernel))
  rwa [List.append_nil] at h

theorem tagEnd_chooseWrap (hs : Nested whenNames s) :
    tagEnd .choose (chooseWrap s) = some (chooseWrap s).length := by
  have hattrs : Free whenNames ([] ++ lit ">") := by decide +kernel
  have hend := findMatchingEndTag_element (by decide : ElementName.choose ∈ whenNames) hattrs
    (nested_when hs) []
  rw [List.append_nil, ← chooseWrap_eq] at hend
  have hlength : (chooseWrap s).length = (ElementName.choose.openTag ++ ([] ++ lit ">") ++
      ElementName.when_.element (lit " test=\"true\"") s).length + (lit "</esi:choose>").length := by
    rw [chooseWrap_eq, ElementName.element]
    simp only [List.length_append, ElementName.closeTag]
    omega
  change (findMatchingEndTag (chooseWrap s) ElementName.choose.openTag ElementName.choose.closeTag
    _).map (· + (lit "</esi:choose>").length) = _
  rw [hend, Option.map_some, hlength]

/-- The whole text is one token. -/
theorem esiTokenizer_chooseWrap (hs : Nested whenNames s) :
    esiTokenizer (chooseWrap s) =
      [{ esiTagContent := chooseWrap s, esiTagType := some .choose }, {}] := by
  have hfirst := firstTag_chooseWrap s
  have hend := tagEnd_chooseWrap hs
  have hnil : esiTokenizer [] = [{}] := by decide +kernel
  rw [esiTokenizer]
  split
  · simp_all
  · rename_i start tag hfirst'
    obtain ⟨rfl, rfl⟩ := Prod.mk.inj (Option.some.inj (hfirst.symm.trans hfirst'))
    dsimp only
    split
    · simp_all
    · rename_i len hlen
      obtain rfl : (chooseWrap s).length = len :=
        Option.some.inj (hend.symm.trans (by simpa using hlen))
      simp [hnil]

/-! ## The branch -/

/-- A child tag that is found at the beginning stands there. -/
theorem findChooseChildTag_zero {s tag : Bytes} (h : findChooseChildTag s tag = some 0) :
    tag <+: s := by
  suffices ∀ pos rest n, findChooseChildTag.loop tag pos rest = some n →
      pos ≤ n ∧ (n = pos → tag <+: rest) from (this 0 s 0 h).2 rfl
  intro pos rest
  fun_induction findChooseChildTag.loop tag pos rest with
  | case1 => simp
  | case2 => simp
  | case3 pos rest n hn m hnested e hclose hidx hlt ih =>
    intro k hk
    have hpos := findChooseClose_pos hclose
    obtain ⟨hle, -⟩ := ih k hk
    exact ⟨by omega, fun heq ↦ by omega⟩
  | case4 pos rest n hn hnested =>
    intro k hk
    obtain rfl : pos + n = k := Option.some.inj hk
    refine ⟨Nat.le_add_right .., fun heq ↦ index_eq_zero_iff.mp ?_⟩
    rwa [Nat.add_eq_left.mp heq] at hn

/-- What is left after the branch has no more branches. -/
theorem extractChooseBlocks_loop_end (whens : List EsiWhenBlock) (otherwise : Bytes) :
    extractChooseBlocks.loop (lit "</esi:choose>") whens otherwise = (whens, otherwise) := by
  have hwhen : findChooseChildTag (lit "</esi:choose>") (lit "<esi:when") = none := by
    decide +kernel
  have hotherwise : findChooseChildTag (lit "</esi:choose>") (lit "<esi:otherwise") = none := by
    decide +kernel
  rw [extractChooseBlocks.loop]
  split <;> simp_all

theorem before_zero_right (x : Option ℕ) : before x (some 0) = false := by
  cases x <;> simp [before]

theorem before_zero_left {x : Option ℕ} (h : x ≠ some 0) : before (some 0) x = true := by
  cases x with
  | none => rfl
  | some n => exact decide_eq_true (Nat.pos_of_ne_zero fun hzero ↦ h (hzero ▸ rfl))

theorem extractChooseBlocks_chooseWrap (hs : Nested whenNames s) :
    extractChooseBlocks (chooseWrap s) = ([⟨lit "true", s⟩], []) := by
  have hbracket : index (chooseWrap s) (lit ">") = some 11 := by
    rw [chooseWrap, chooseOpen]
    exact index_append_left (by decide +kernel)
  have hrest : (chooseWrap s).drop (11 + 1) =
      lit "<esi:when test=\"true\">" ++ (s ++ chooseClose) := rfl
  have hwhen : findChooseChildTag (lit "<esi:when test=\"true\">" ++ (s ++ chooseClose))
      (lit "<esi:when") = some 0 := by
    have hzero : index (lit "<esi:when test=\"true\">" ++ (s ++ chooseClose)) (lit "<esi:when") =
      some 0 := index_append_left (by decide +kernel)
    rw [findChooseChildTag, findChooseChildTag.loop]
    split
    · simp_all
    · rename_i n hn
      obtain rfl : 0 = n := Option.some.inj (hzero.symm.trans hn)
      split
      · rename_i m hm
        rw [filter_lt_zero] at hm
        simp at hm
      · rfl
  have hotherwise : findChooseChildTag (lit "<esi:when test=\"true\">" ++ (s ++ chooseClose))
      (lit "<esi:otherwise") ≠ some 0 := by
    intro hzero
    exact (List.prefix_or_prefix_of_prefix (findChooseChildTag_zero hzero)
      (List.prefix_append _ _)).elim (by decide +kernel) (by decide +kernel)
  have htest : index (lit "<esi:when test=\"true\">" ++ (s ++ chooseClose)) (lit "test=\"") =
      some 10 := index_append_left (by decide +kernel)
  have hquote : index (lit "true\">" ++ (s ++ chooseClose)) (lit "\"") = some 4 :=
    index_append_left (by decide +kernel)
  have hbody : findWhenClose (s ++ chooseClose) = some s.length :=
    findChildClose_nested (by decide) (List.Subset.refl _) hs _
  rw [extractChooseBlocks, hbracket]
  dsimp only
  rw [hrest, extractChooseBlocks.loop]
  rw [hwhen]
  split
  · simp_all
  · rw [if_neg (by rw [before_zero_right]; simp), if_pos (before_zero_left hotherwise)]
    have htag : (lit "<esi:when test=\"true\">" ++ (s ++ chooseClose)).drop
        (10 + (lit "test=\"").length) = lit "true\">" ++ (s ++ chooseClose) := rfl
    have hvalue : (lit "true\">" ++ (s ++ chooseClose)).drop 4 = lit "\">" ++ (s ++ chooseClose) :=
      rfl
    have hend : index (lit "\">" ++ (s ++ chooseClose)) (lit ">") = some 1 :=
      index_append_left (by decide +kernel)
    have htest' : (lit "true\">" ++ (s ++ chooseClose)).take 4 = lit "true" := rfl
    have hbranch : (lit "\">" ++ (s ++ chooseClose)).drop (1 + 1) = s ++ chooseClose := rfl
    have hlast : (s ++ chooseClose).drop (s.length + (lit "</esi:when>").length) =
        lit "</esi:choose>" := by
      rw [List.drop_length_add_append]
      rfl
    simp only [Option.getD_some, List.drop_zero, htest, htag, hquote, hvalue, htest']
    split
    · rename_i hnone
      rw [List.drop_zero, htag, hvalue, hend] at hnone
      simp at hnone
    · rename_i tagEnd htagEnd
      rw [List.drop_zero, htag, hvalue, hend] at htagEnd
      obtain rfl : 1 = tagEnd := Option.some.inj htagEnd
      simp only [hbranch, hbody, hlast, extractChooseBlocks_loop_end, List.take_left, List.nil_append]

end GoMesi
