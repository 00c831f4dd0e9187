import GoMesi.Mesi.Tokenizer

/-!
# What the tokens spell

The tokens of an input are consecutive pieces of it. Nothing is lost and nothing is repeated,
whatever the input looks like (`esiTokenizer_lossless`). An unterminated tag ends the scan and the
rest is one static token, and only that token can be empty.
-/

namespace GoMesi

open Strings

/-- The piece of the input a token stands for. -/
def EsiToken.text (token : EsiToken) : Bytes := token.staticContent ++ token.esiTagContent

/-- What is found after a text that it cannot overlap with is found at its end or later. -/
theorem length_le_of_prefix_drop {p s sub : Bytes} {n : ℕ} (hp : p <+: s) (hsub : sub <+: s.drop n)
    (h : ∀ i < p.length, ¬ sub <+: p.drop i ∧ ¬ p.drop i <+: sub) : p.length ≤ n := by
  by_contra! hlt
  obtain ⟨r, rfl⟩ := hp
  rw [List.drop_append_of_le_length hlt.le] at hsub
  exact (List.prefix_or_prefix_of_prefix hsub (List.prefix_append _ _)).elim (h n hlt).1 (h n hlt).2

theorem prefix_drop_of_index {s sub : Bytes} {n : ℕ} (h : index s sub = some n) :
    sub <+: s.drop n := by
  obtain ⟨pre, post, rfl, rfl⟩ := index_spec h
  exact ⟨post, by simp⟩

/-- A close tag stands where the scan for it ends. -/
theorem findMatchingEndTag_spec {s openTag closeTag : Bytes} {hne : closeTag ≠ []} {n : ℕ}
    (h : findMatchingEndTag s openTag closeTag hne = some n) : closeTag <+: s.drop n := by
  suffices ∀ depth pos rest, findMatchingEndTag.loop openTag closeTag hne depth pos rest = some n →
      ∃ m, n = pos + m ∧ closeTag <+: rest.drop m by
    obtain ⟨m, rfl, hm⟩ := this 0 0 s h
    simpa using hm
  intro depth pos rest
  fun_induction findMatchingEndTag.loop openTag closeTag hne depth pos rest with
  | case1 => simp
  | case2 => simp
  | case3 depth pos rest nextClose hclose nextOpen hopen tagEnd hend hlt ih =>
    intro h
    obtain ⟨m, rfl, hm⟩ := ih h
    refine ⟨nextOpen + tagEnd + 1 + m, by omega, ?_⟩
    rwa [List.drop_drop] at hm
  | case4 depth pos rest nextClose hclose hopen hlt hdepth =>
    intro h
    exact ⟨nextClose, (Option.some.inj h).symm, prefix_drop_of_index hclose⟩
  | case5 depth pos rest nextClose hclose hopen hlt hdepth ih =>
    intro h
    obtain ⟨m, rfl, hm⟩ := ih h
    refine ⟨nextClose + closeTag.length + m, by omega, ?_⟩
    rwa [List.drop_drop] at hm

/-- No end of a tag overlaps with its beginning. -/
theorem TagType.closeTag_apart (t : TagType) : ∀ i < t.openTag.length,
    ¬ t.closeTag <+: t.openTag.drop i ∧ ¬ t.openTag.drop i <+: t.closeTag := by
  cases t <;> decide +kernel

theorem TagType.bracket_apart (t : TagType) : ∀ i < t.openTag.length,
    ¬ lit ">" <+: t.openTag.drop i ∧ ¬ t.openTag.drop i <+: lit ">" := by
  cases t <;> decide +kernel

/-- An element is not shorter than its opening tag. -/
theorem openTag_length_le_tagEnd {tag : TagType} {s : Bytes} {n : ℕ} (h : tagEnd tag s = some n)
    (hs : tag.openTag <+: s) : tag.openTag.length ≤ n := by
  have hbracket {e : ℕ} (he : index s (lit ">") = some e) : tag.openTag.length ≤ e :=
    length_le_of_prefix_drop hs (prefix_drop_of_index he) tag.bracket_apart
  have hclose {e : ℕ} (he : tag.closeTag <+: s.drop e) : tag.openTag.length ≤ e :=
    length_le_of_prefix_drop hs he tag.closeTag_apart
  cases tag with
  | comment =>
    obtain ⟨e, he, rfl⟩ := Option.map_eq_some_iff.mp h
    exact Nat.le_add_right_of_le (hbracket he)
  | include_ =>
    simp only [tagEnd] at h
    split at h
    · simp at h
    · rename_i e he
      split_ifs at h
      · obtain ⟨e', he', rfl⟩ := Option.map_eq_some_iff.mp h
        exact Nat.le_add_right_of_le (hclose (prefix_drop_of_index he'))
      · obtain rfl := Option.some.inj h
        exact Nat.le_add_right_of_le (hbracket he)
  | _ =>
    obtain ⟨e, he, rfl⟩ := Option.map_eq_some_iff.mp h
    exact Nat.le_add_right_of_le (hclose (findMatchingEndTag_spec he))

/-- An ESI token starts with its own tag. -/
theorem openTag_prefix_take {rest : Bytes} {start len : ℕ} {tag : TagType}
    (hfirst : firstTag rest = some (start, tag)) (hend : tagEnd tag (rest.drop start) = some len) :
    tag.openTag <+: (rest.drop start).take len := by
  have hs := prefix_drop_of_index (firstTag_spec hfirst)
  exact List.prefix_take_iff.mpr ⟨hs, openTag_length_le_tagEnd hend hs⟩

/-! ## One round of the loop -/

/-- The static token before a tag. -/
def textBefore (rest : Bytes) (start : ℕ) : List EsiToken :=
  if start > 0 then [{ staticContent := rest.take start }] else []

theorem flatMap_textBefore (rest : Bytes) (start : ℕ) :
    (textBefore rest start).flatMap EsiToken.text = rest.take start := by
  rw [textBefore]
  split_ifs with hstart
  · simp [EsiToken.text]
  · obtain rfl : start = 0 := by omega
    simp

theorem mem_textBefore {rest : Bytes} {start : ℕ} {token : EsiToken} (hle : start ≤ rest.length)
    (h : token ∈ textBefore rest start) : token.esiTagType = none ∧ token.text ≠ [] := by
  rw [textBefore] at h
  split_ifs at h with hstart
  · obtain rfl := List.mem_singleton.mp h
    refine ⟨rfl, List.ne_nil_of_length_pos ?_⟩
    simp only [EsiToken.text, List.append_nil, List.length_take]
    omega
  · simp at h

theorem start_le {rest : Bytes} {start : ℕ} {tag : TagType}
    (h : firstTag rest = some (start, tag)) : start ≤ rest.length :=
  Nat.le_of_add_right_le (index_le (firstTag_spec h))

variable {rest : Bytes} {start len : ℕ} {tag : TagType}

theorem esiTokenizer_of_none (h : firstTag rest = none) :
    esiTokenizer rest = [{ staticContent := rest }] := by
  rw [esiTokenizer]
  split
  · rfl
  · simp_all

theorem esiTokenizer_of_unclosed (hfirst : firstTag rest = some (start, tag))
    (hend : tagEnd tag (rest.drop start) = none) :
    esiTokenizer rest = textBefore rest start ++ [{ staticContent := rest.drop start }] := by
  rw [esiTokenizer]
  split
  · simp_all
  · rename_i start' tag' hfirst'
    obtain ⟨rfl, rfl⟩ := Prod.mk.inj (Option.some.inj (hfirst.symm.trans hfirst'))
    dsimp only
    split
    · rfl
    · simp_all

theorem esiTokenizer_of_element (hfirst : firstTag rest = some (start, tag))
    (hend : tagEnd tag (rest.drop start) = some len) :
    esiTokenizer rest = textBefore rest start ++
      { esiTagContent := (rest.drop start).take len, esiTagType := some tag } ::
        esiTokenizer (rest.drop (start + len)) := by
  rw [esiTokenizer]
  split
  · simp_all
  · rename_i start' tag' hfirst'
    obtain ⟨rfl, rfl⟩ := Prod.mk.inj (Option.some.inj (hfirst.symm.trans hfirst'))
    dsimp only
    split
    · simp_all
    · rename_i len' hend'
      obtain rfl : len = len' := Option.some.inj (hend.symm.trans hend')
      rfl

theorem esiTokenizer_ne_nil (input : Bytes) : esiTokenizer input ≠ [] := by
  rw [esiTokenizer]
  split
  · simp
  · dsimp only
    split <;> simp

/-! ## All of them -/

theorem flatMap_esiTokenizer (input : Bytes) :
    (esiTokenizer input).flatMap EsiToken.text = input := by
  induction hlen : input.length using Nat.strong_induction_on generalizing input with
  | _ n ih =>
    cases hfirst : firstTag input with
    | none => simp [esiTokenizer_of_none hfirst, EsiToken.text]
    | some first =>
      obtain ⟨start, tag⟩ := first
      cases hend : tagEnd tag (input.drop start) with
      | none =>
        rw [esiTokenizer_of_unclosed hfirst hend, List.flatMap_append, flatMap_textBefore]
        simp [EsiToken.text]
      | some len =>
        have hlt := firstTag_drop_lt hfirst (tagEnd_pos hend)
        rw [esiTokenizer_of_element hfirst hend, List.flatMap_append, flatMap_textBefore,
          List.flatMap_cons, ih _ (hlen ▸ hlt) _ rfl, EsiToken.text, List.nil_append,
          ← List.drop_drop, List.take_append_drop, List.take_append_drop]

/-- An ESI token is what a place in the input starts with, up to the end of the tag there. -/
theorem exists_tagEnd_of_mem {input : Bytes} {token : EsiToken} (h : token ∈ esiTokenizer input)
    (htag : token.esiTagType = some tag) :
    ∃ s len, tag.openTag <+: s ∧ tagEnd tag s = some len ∧ token.esiTagContent = s.take len := by
  induction hlen : input.length using Nat.strong_induction_on generalizing input with
  | _ n ih =>
    cases hfirst : firstTag input with
    | none =>
      rw [esiTokenizer_of_none hfirst] at h
      simp [List.mem_singleton.mp h] at htag
    | some first =>
      obtain ⟨start, tag'⟩ := first
      have hle := start_le hfirst
      cases hend : tagEnd tag' (input.drop start) with
      | none =>
        rw [esiTokenizer_of_unclosed hfirst hend] at h
        rcases List.mem_append.mp h with h | h
        · simp [(mem_textBefore hle h).1] at htag
        · simp [List.mem_singleton.mp h] at htag
      | some len =>
        have hlt := firstTag_drop_lt hfirst (tagEnd_pos hend)
        rw [esiTokenizer_of_element hfirst hend] at h
        rcases List.mem_append.mp h with h | h
        · simp [(mem_textBefore hle h).1] at htag
        · rcases List.mem_cons.mp h with rfl | h
          · obtain rfl : tag' = tag := Option.some.inj htag
            exact ⟨_, len, prefix_drop_of_index (firstTag_spec hfirst), hend, rfl⟩
          · exact ih _ (hlen ▸ hlt) h rfl

theorem openTag_prefix_of_mem {input : Bytes} {token : EsiToken} (h : token ∈ esiTokenizer input)
    (htag : token.esiTagType = some tag) : tag.openTag <+: token.esiTagContent := by
  obtain ⟨s, len, hs, hend, hcontent⟩ := exists_tagEnd_of_mem h htag
  rw [hcontent]
  exact List.prefix_take_iff.mpr ⟨hs, openTag_length_le_tagEnd hend hs⟩

theorem text_ne_nil_of_mem_dropLast {input : Bytes} {token : EsiToken}
    (h : token ∈ (esiTokenizer input).dropLast) : token.text ≠ [] := by
  induction hlen : input.length using Nat.strong_induction_on generalizing input with
  | _ n ih =>
    cases hfirst : firstTag input with
    | none => simp [esiTokenizer_of_none hfirst] at h
    | some first =>
      obtain ⟨start, tag⟩ := first
      have hle := start_le hfirst
      cases hend : tagEnd tag (input.drop start) with
      | none =>
        rw [esiTokenizer_of_unclosed hfirst hend, List.dropLast_concat] at h
        exact (mem_textBefore hle h).2
      | some len =>
        have hlt := firstTag_drop_lt hfirst (tagEnd_pos hend)
        rw [esiTokenizer_of_element hfirst hend, List.dropLast_append_of_ne_nil (by simp),
          List.dropLast_cons_of_ne_nil (esiTokenizer_ne_nil _)] at h
        rcases List.mem_append.mp h with h | h
        · exact (mem_textBefore hle h).2
        · rcases List.mem_cons.mp h with rfl | h
          · intro hnil
            refine tag.openTag_ne_nil (List.prefix_nil.mp ?_)
            rw [← (List.append_eq_nil_iff.mp hnil).2]
            exact openTag_prefix_take hfirst hend
          · exact ih _ (hlen ▸ hlt) h rfl

/-- **Main result.** The tokens spell the input, an ESI token starts with the tag of its type, and
no token but the last one is empty. -/
theorem esiTokenizer_lossless (input : Bytes) :
    (esiTokenizer input).flatMap EsiToken.text = input ∧
      (∀ token ∈ esiTokenizer input, ∀ tag, token.esiTagType = some tag →
        tag.openTag <+: token.esiTagContent) ∧
      ∀ token ∈ (esiTokenizer input).dropLast, token.text ≠ [] :=
  ⟨flatMap_esiTokenizer input, fun _ h _ htag ↦ openTag_prefix_of_mem h htag,
    fun _ h ↦ text_ne_nil_of_mem_dropLast h⟩

end GoMesi
