import GoMesi.Mesi.TagSearch

/-!
# Where an include element ends

Of all elements an include element is the only one whose end `esiTokenizer` takes from plain
searches: for the first `>`, and for the first close tag after that if there is no `/` before the `>`.
An attribute may have a `>` in its value, and the body of an include may have includes with bodies of
their own. When the token is the element is said exactly by `esiTokenizer_include_iff`.
-/

namespace GoMesi

open Strings

/-! ## Elements -/

/-- White space in the sense of XML. -/
def isXmlSpace (b : UInt8) : Bool := b = 0x20 || b = 0x09 || b = 0x0a || b = 0x0d

/-- An attribute with the white space before it and the equals sign as it is written. -/
structure Attribute where
  space : Bytes
  name : Bytes
  eq : Bytes
  quote : UInt8
  value : Bytes

namespace Attribute

def print (x : Attribute) : Bytes := x.space ++ x.name ++ x.eq ++ [x.quote] ++ x.value ++ [x.quote]

/-- The attribute is well formed. -/
structure Ok (x : Attribute) : Prop where
  space : x.space ≠ [] ∧ ∀ b ∈ x.space, isXmlSpace b
  name : 0x3c ∉ x.name ∧ 0x3e ∉ x.name
  eq : ∃ left right, x.eq = left ++ lit "=" ++ right ∧ ∀ b ∈ left ++ right, isXmlSpace b
  quote : x.quote = 0x22 ∨ x.quote = 0x27
  value : x.quote ∉ x.value ∧ 0x3c ∉ x.value

end Attribute

/-- An include element, with the white space before the end of its opening tag. Without a body it is
self-closed. -/
structure IncludeElement where
  attrs : List Attribute
  space : Bytes
  body : Option Bytes

namespace IncludeElement

/-- What stands between the name and the end of the opening tag. -/
def attributes (e : IncludeElement) : Bytes := e.attrs.flatMap Attribute.print ++ e.space

/-- The end of the opening tag, and what comes after it. -/
def ending (e : IncludeElement) : Bytes :=
  match e.body with
  | none => lit "/>"
  | some body => lit ">" ++ (body ++ TagType.include_.closeTag)

def print (e : IncludeElement) : Bytes := TagType.include_.openTag ++ (e.attributes ++ e.ending)

/-- The opening tag is well formed. -/
structure Ok (e : IncludeElement) : Prop where
  attrs : ∀ x ∈ e.attrs, x.Ok
  space : ∀ b ∈ e.space, isXmlSpace b

/-- The token of the element. -/
def token (e : IncludeElement) : EsiToken :=
  { esiTagContent := e.print, esiTagType := some .include_ }

end IncludeElement

/-- There is a `/` before the first `>`. -/
def SlashFirst (s : Bytes) : Prop := ∃ p q, s = p ++ (lit "/>" ++ q) ∧ 0x3e ∉ p

/-- The end of the element is where the searches find one. -/
def IncludeElement.Plain (e : IncludeElement) : Prop :=
  (e.body = none → 0x3e ∉ e.attributes) ∧
    ∀ body, e.body = some body →
      ¬ SlashFirst e.attributes ∧ ¬ TagType.include_.closeTag <:+: body

/-! ## Bytes -/

theorem notMem_of_isXmlSpace {s : Bytes} (h : ∀ b ∈ s, isXmlSpace b) {c : UInt8}
    (hc : isXmlSpace c = false) : c ∉ s := fun hmem ↦ by
  have := h c hmem
  rw [hc] at this
  exact Bool.noConfusion this

theorem Attribute.Ok.notMem_print {x : Attribute} (h : x.Ok) : 0x3c ∉ x.print := by
  obtain ⟨left, right, heq, hspace⟩ := h.eq
  have hquote : (0x3c : UInt8) ≠ x.quote := by
    rcases h.quote with hq | hq <;> rw [hq] <;> decide
  have hleft := notMem_of_isXmlSpace (c := 0x3c) (fun b hb ↦ hspace b (List.mem_append_left _ hb)) rfl
  have hright := notMem_of_isXmlSpace (c := 0x3c) (fun b hb ↦ hspace b (List.mem_append_right _ hb)) rfl
  have hfirst := notMem_of_isXmlSpace (c := 0x3c) h.space.2 rfl
  have hlit : (0x3c : UInt8) ∉ lit "=" := by decide
  rw [Attribute.print, heq]
  simp only [List.mem_append, List.mem_singleton, not_or]
  exact ⟨⟨⟨⟨⟨hfirst, h.name.1⟩, ⟨hleft, hlit⟩, hright⟩, hquote⟩, h.value.2⟩, hquote⟩

namespace IncludeElement

variable {e : IncludeElement}

theorem Ok.notMem_attributes (h : e.Ok) : 0x3c ∉ e.attributes := by
  rw [attributes, List.mem_append, List.mem_flatMap, not_or]
  refine ⟨?_, notMem_of_isXmlSpace h.space rfl⟩
  rintro ⟨x, hx, hmem⟩
  exact (h.attrs x hx).notMem_print hmem

/-- The attributes end with a quote, with white space, or not at all. -/
theorem Ok.getLast?_attributes (h : e.Ok) : e.attributes.getLast? ≠ some 0x2f := by
  rw [attributes]
  rcases List.eq_nil_or_concat e.space with hspace | ⟨l, b, hspace⟩
  · rw [hspace, List.append_nil]
    rcases List.eq_nil_or_concat e.attrs with hattrs | ⟨l, x, hattrs⟩
    · simp [hattrs]
    · have hx := h.attrs x (by simp [hattrs])
      have hlast : (e.attrs.flatMap Attribute.print).getLast? = some x.quote := by
        rw [hattrs, List.concat_eq_append, List.flatMap_append, List.flatMap_singleton,
          Attribute.print, ← List.append_assoc, List.getLast?_concat]
      rw [hlast]
      rcases hx.quote with hq | hq <;> rw [hq] <;> decide
  · rw [hspace, List.concat_eq_append, ← List.append_assoc, List.getLast?_concat]
    intro heq
    have hb := h.space b (by simp [hspace])
    rw [Option.some.inj heq] at hb
    exact Bool.noConfusion hb

end IncludeElement

/-! ## The end of an element -/

theorem isTag_closeTag : IsTag TagType.include_.closeTag := by decide

theorem isTag_openTag : IsTag TagType.include_.openTag := by decide

theorem closeTag_absent {s : Bytes} (hs : 0x3c ∉ s) : ¬ TagType.include_.closeTag <:+: s := by
  rintro ⟨p, q, rfl⟩
  refine hs (List.mem_append_left _ (List.mem_append_right _ ?_))
  decide

/-- What the searches find in an element whose first `>` stands after `a`. -/
theorem tagEnd_include {a : Bytes} (ha : 0x3e ∉ a) (r : Bytes) :
    tagEnd .include_ (TagType.include_.openTag ++ (a ++ (lit ">" ++ r))) =
      if a.getLast? = some 0x2f then some ((TagType.include_.openTag ++ a).length + 1)
      else (index (TagType.include_.openTag ++ (a ++ (lit ">" ++ r))) TagType.include_.closeTag).map
        (· + TagType.include_.closeTag.length) := by
  have hopen : 0x3e ∉ TagType.include_.openTag ++ a := by
    rw [List.mem_append, not_or]
    exact ⟨by decide, ha⟩
  have hindex : index (TagType.include_.openTag ++ (a ++ (lit ">" ++ r))) (lit ">") =
      some (TagType.include_.openTag ++ a).length := by
    rw [← List.append_assoc]
    exact index_bracket hopen r
  have hlast : (TagType.include_.openTag ++ (a ++ (lit ">" ++ r)))[(TagType.include_.openTag ++ a).length
      - 1]? = some 0x2f ↔ a.getLast? = some 0x2f := by
    have hpos : 0 < (TagType.include_.openTag ++ a).length := by
      rw [List.length_append]
      exact Nat.add_pos_left (by decide) _
    rw [← List.append_assoc, List.getElem?_append_left (Nat.sub_lt hpos Nat.one_pos),
      ← List.getLast?_eq_getElem?, List.getLast?_append]
    cases a.getLast? with
    | none => exact iff_of_false (by decide) (by simp)
    | some c => rfl
  simp only [tagEnd, hindex]
  rw [ite_not]
  exact if_congr hlast rfl rfl

/-- Past an opening tag with these attributes. -/
theorem index_closeTag_opening {a : Bytes} (ha : 0x3c ∉ a) (r : Bytes) :
    index (TagType.include_.openTag ++ (a ++ lit ">" ++ r)) TagType.include_.closeTag =
      (index r TagType.include_.closeTag).map
        (· + (TagType.include_.openTag ++ (a ++ lit ">")).length) := by
  refine index_append_of_opening isTag_closeTag isTag_openTag (fun hpre ↦ ?_) ?_
  · exact (List.prefix_or_prefix_of_prefix hpre (List.prefix_append _ _)).elim (by decide)
      (by decide)
  · refine closeTag_absent fun hmem ↦ ?_
    rcases List.mem_append.mp hmem with hmem | hmem
    · exact ha hmem
    · exact absurd hmem (by decide)

/-- Attributes that do not end with a `/` have one before their first `>`, if there is one before the
first `>` after the name. -/
theorem getLast?_first_bracket {s a rest : Bytes} (heq : s ++ lit ">" = a ++ lit ">" ++ rest)
    (ha : 0x3e ∉ a) (hrest : rest = [] ∨ ∃ v, rest = v ++ lit ">") (hs : s.getLast? ≠ some 0x2f) :
    a.getLast? = some 0x2f ↔ SlashFirst s := by
  constructor
  · intro hlast
    rcases hrest with rfl | ⟨v, rfl⟩
    · rw [List.append_nil] at heq
      exact absurd (List.append_cancel_right heq ▸ hlast) hs
    · obtain ⟨p, rfl⟩ := List.getLast?_eq_some_iff.mp hlast
      refine ⟨p, v, ?_, fun hmem ↦ ha (List.mem_append_left _ hmem)⟩
      rw [← List.append_assoc] at heq
      rw [List.append_cancel_right heq, List.append_assoc, List.append_assoc]
      rfl
  · rintro ⟨p, q, rfl, hp⟩
    have hp' : 0x3e ∉ p ++ [0x2f] := by
      rw [List.mem_append, not_or]
      exact ⟨hp, by decide⟩
    have heq' : p ++ (lit "/>" ++ q) ++ lit ">" = p ++ [0x2f] ++ lit ">" ++ (q ++ lit ">") := by
      simp only [List.append_assoc]
      rfl
    obtain ⟨rfl, -⟩ := first_bracket_unique (heq.symm.trans heq') ha hp'
    exact List.getLast?_concat

namespace IncludeElement

variable {e : IncludeElement}

/-- A self-closed element. -/
theorem tagEnd_selfClosed (h : e.Ok) (hbody : e.body = none) (post : Bytes) :
    tagEnd .include_ (e.print ++ post) = some e.print.length ↔ 0x3e ∉ e.attributes := by
  have hprint : e.print = TagType.include_.openTag ++ (e.attributes ++ lit "/" ++ lit ">") := by
    rw [print, ending, hbody, List.append_assoc]
    rfl
  obtain ⟨a, rest, heq, ha, hrest⟩ := exists_first_bracket (e.attributes ++ lit "/")
  have hwhole : e.print ++ post = TagType.include_.openTag ++ (a ++ (lit ">" ++ (rest ++ post))) := by
    rw [hprint, heq]
    simp only [List.append_assoc]
  constructor
  · intro hend hmem
    have hshort : rest ≠ [] := by
      rintro rfl
      rw [List.append_nil] at heq
      exact ha (List.append_cancel_right heq ▸ List.mem_append_left _ hmem)
    have hlength : (TagType.include_.openTag ++ a).length + 1 < e.print.length := by
      have hpos := List.length_pos_of_ne_nil hshort
      rw [hprint, heq]
      simp only [List.length_append, lit_bracket, List.length_singleton]
      omega
    have hslash : 0x3c ∉ e.attributes ++ lit "/" := by
      rw [List.mem_append, not_or]
      exact ⟨h.notMem_attributes, by decide⟩
    have hclose : index (e.print ++ post) TagType.include_.closeTag =
        (index post TagType.include_.closeTag).map (· + e.print.length) := by
      rw [hprint, List.append_assoc]
      exact index_closeTag_opening hslash post
    rw [hwhole, tagEnd_include ha, ← hwhole] at hend
    split_ifs at hend
    · exact hlength.ne (Option.some.inj hend)
    · obtain ⟨n, hn, hsum⟩ := Option.map_eq_some_iff.mp hend
      obtain ⟨m, -, rfl⟩ := Option.map_eq_some_iff.mp (hclose.symm.trans hn)
      have hpos := List.length_pos_of_ne_nil TagType.include_.closeTag_ne_nil
      omega
  · intro hfree
    have hslash : 0x3e ∉ e.attributes ++ lit "/" := by
      rw [List.mem_append, not_or]
      exact ⟨hfree, by decide⟩
    have hassoc : e.print ++ post =
        TagType.include_.openTag ++ (e.attributes ++ lit "/" ++ (lit ">" ++ post)) := by
      rw [hprint]
      simp only [List.append_assoc]
    have hlast : (e.attributes ++ lit "/").getLast? = some 0x2f := List.getLast?_concat
    rw [hassoc, tagEnd_include hslash, if_pos hlast, hprint]
    simp only [List.length_append, lit_bracket, List.length_singleton, Nat.add_assoc]

/-- An element with a body. -/
theorem tagEnd_withBody (h : e.Ok) {body : Bytes} (hbody : e.body = some body) (post : Bytes) :
    tagEnd .include_ (e.print ++ post) = some e.print.length ↔
      ¬ SlashFirst e.attributes ∧ ¬ TagType.include_.closeTag <:+: body := by
  have hprint : e.print = TagType.include_.openTag ++ (e.attributes ++ lit ">") ++
      (body ++ TagType.include_.closeTag) := by
    rw [print, ending, hbody]
    simp only [List.append_assoc]
  have hlength : e.print.length = (TagType.include_.openTag ++ (e.attributes ++ lit ">")).length +
      body.length + TagType.include_.closeTag.length := by
    rw [hprint]
    simp only [List.length_append, Nat.add_assoc]
  have hpos := List.length_pos_of_ne_nil TagType.include_.closeTag_ne_nil
  obtain ⟨a, rest, heq, ha, hrest⟩ := exists_first_bracket e.attributes
  have hwhole : e.print ++ post = TagType.include_.openTag ++ (a ++ (lit ">" ++
      (rest ++ (body ++ (TagType.include_.closeTag ++ post))))) := by
    rw [hprint, heq]
    simp only [List.append_assoc]
  have hclose : index (e.print ++ post) TagType.include_.closeTag =
      (index (body ++ (TagType.include_.closeTag ++ post)) TagType.include_.closeTag).map
        (· + (TagType.include_.openTag ++ (e.attributes ++ lit ">")).length) := by
    have hassoc : e.print ++ post = TagType.include_.openTag ++ (e.attributes ++ lit ">" ++
        (body ++ (TagType.include_.closeTag ++ post))) := by
      rw [hprint]
      simp only [List.append_assoc]
    rw [hassoc]
    exact index_closeTag_opening h.notMem_attributes _
  have hlast := getLast?_first_bracket heq ha hrest h.getLast?_attributes
  rw [hwhole, tagEnd_include ha, ← hwhole]
  split_ifs with hslash
  · refine iff_of_false (fun hend ↦ ?_) fun hnot ↦ hnot.1 (hlast.mp hslash)
    have hsum := congrArg List.length heq
    have := Option.some.inj hend
    simp only [List.length_append, lit_bracket, List.length_singleton] at this hlength hsum
    omega
  · rw [hclose]
    by_cases hin : TagType.include_.closeTag <:+: body
    · refine iff_of_false (fun hend ↦ ?_) fun hnot ↦ hnot.2 hin
      obtain ⟨m, hm⟩ := Option.ne_none_iff_exists'.mp fun hnone ↦ index_eq_none_iff.mp hnone hin
      have hle := index_le hm
      rw [index_append_left hm, Option.map_some, Option.map_some, Option.some.injEq] at hend
      omega
    · refine iff_of_true ?_ ⟨fun hfirst ↦ hslash (hlast.mpr hfirst), hin⟩
      have hself : index (TagType.include_.closeTag ++ post) TagType.include_.closeTag = some 0 :=
        index_eq_zero_iff.mpr (List.prefix_append _ _)
      rw [index_append_of_absent isTag_closeTag.2.1 hin (isTag_closeTag.tagNext post), hself]
      simp only [Option.map_some, Nat.zero_add, hlength]
      congr 1
      omega

/-- An element ends where the searches find its end if and only if it is plain. -/
theorem tagEnd_print_iff (h : e.Ok) (post : Bytes) :
    tagEnd .include_ (e.print ++ post) = some e.print.length ↔ e.Plain := by
  cases hbody : e.body with
  | none => simp [tagEnd_selfClosed h hbody, Plain, hbody]
  | some body => simp [tagEnd_withBody h hbody, Plain, hbody]

end IncludeElement

/-! ## The tokens -/

/-- The tokenizer arrives at `rest`, with the tokens `tokens` for what stands before it. -/
inductive Arrives (input : Bytes) : List EsiToken → Bytes → Prop
  | start : Arrives input [] input
  | next {tokens : List EsiToken} {rest : Bytes} {start len : ℕ} {tag : TagType}
      (h : Arrives input tokens rest) (hfirst : firstTag rest = some (start, tag))
      (hend : tagEnd tag (rest.drop start) = some len) :
      Arrives input (tokens ++ (textBefore rest start ++
        [{ esiTagContent := (rest.drop start).take len, esiTagType := some tag }]))
          (rest.drop (start + len))

theorem Arrives.esiTokenizer_eq {input rest : Bytes} {tokens : List EsiToken}
    (h : Arrives input tokens rest) : esiTokenizer input = tokens ++ esiTokenizer rest := by
  induction h with
  | start => rfl
  | next _ hfirst hend ih =>
    rw [ih, esiTokenizer_of_element hfirst hend]
    simp only [List.append_assoc, List.singleton_append]

/-- The first tag is the one that stands before all others. -/
theorem firstTag_eq {s : Bytes} {n : ℕ} {t : TagType} (ht : index s t.openTag = some n)
    (h : ∀ u ≠ t, ∀ m, index s u.openTag = some m → n < m) : firstTag s = some (n, t) := by
  -- the candidate is this tag, or a later one
  suffices ∀ (l : List TagType) (best : Option (ℕ × TagType)),
      (best = some (n, t) ∨ t ∈ l ∧ ∀ m v, best = some (m, v) → n < m) →
        l.foldl (pickTag s) best = some (n, t) from
    this unsupportedTags none (.inr ⟨by cases t <;> decide, by simp⟩)
  intro l
  induction l with
  | nil => simp
  | cons u l ih =>
    intro best hbest
    rw [List.foldl_cons]
    refine ih _ ?_
    by_cases hu : u = t
    · subst hu
      left
      rcases hbest with rfl | ⟨-, hlater⟩
      · simp [pickTag, ht]
      · rcases best with - | ⟨m, v⟩
        · simp [pickTag, ht]
        · simp [pickTag, ht, hlater m v rfl]
    · cases hm : index s u.openTag with
      | none =>
        simp only [pickTag, hm]
        exact hbest.imp_right fun hlater ↦
          ⟨(List.mem_cons.mp hlater.1).resolve_left (Ne.symm hu), hlater.2⟩
      | some m =>
        have hlt := h u hu m hm
        rcases hbest with rfl | ⟨hmem, hlater⟩
        · exact .inl (by simp [pickTag, hm, hlt.le])
        · refine .inr ⟨(List.mem_cons.mp hmem).resolve_left (Ne.symm hu), ?_⟩
          rcases best with - | ⟨m', v⟩
          · simp only [pickTag, hm, Option.some.injEq, Prod.mk.injEq]
            rintro _ _ ⟨rfl, rfl⟩
            exact hlt
          · simp only [pickTag, hm]
            split_ifs
            · rintro _ _ ⟨rfl, rfl⟩
              exact hlt
            · exact hlater

/-- Text without the beginning of a tag. -/
def TagFree (s : Bytes) : Prop := ∀ t : TagType, ¬ t.openTag <:+: s

instance (s : Bytes) : Decidable (TagFree s) :=
  decidable_of_iff (∀ t ∈ unsupportedTags, ¬ t.openTag <:+: s)
    ⟨fun h t ↦ h t (by cases t <;> decide), fun h t _ ↦ h t⟩

theorem TagType.isTag_openTag (t : TagType) : IsTag t.openTag := by cases t <;> decide

theorem TagType.openTag_apart {t u : TagType} (h : t ≠ u) : ¬ t.openTag <+: u.openTag := by
  revert h
  cases t <;> cases u <;> decide

/-- The tag after a text without tags. -/
theorem firstTag_append {p : Bytes} (hp : TagFree p) (t : TagType) (r : Bytes) :
    firstTag (p ++ (t.openTag ++ r)) = some (p.length, t) := by
  have hindex (u : TagType) : index (p ++ (t.openTag ++ r)) u.openTag =
      (index (t.openTag ++ r) u.openTag).map (· + p.length) :=
    index_append_of_absent u.isTag_openTag.2.1 (hp u) (t.isTag_openTag.tagNext r)
  refine firstTag_eq ?_ fun u hu m hm ↦ ?_
  · rw [hindex, index_eq_zero_iff.mpr (List.prefix_append _ _), Option.map_some, Nat.zero_add]
  · rw [hindex] at hm
    obtain ⟨k, hk, rfl⟩ := Option.map_eq_some_iff.mp hm
    refine Nat.lt_add_of_pos_left (Nat.pos_of_ne_zero ?_)
    rintro rfl
    exact (List.prefix_or_prefix_of_prefix (index_eq_zero_iff.mp hk) (List.prefix_append _ _)).elim
      (TagType.openTag_apart hu) (TagType.openTag_apart hu.symm)

theorem tagEnd_include_le {s : Bytes} {n : ℕ} (h : tagEnd .include_ s = some n) : n ≤ s.length := by
  simp only [tagEnd] at h
  split at h
  · simp at h
  · rename_i e he
    split_ifs at h
    · obtain ⟨e', he', rfl⟩ := Option.map_eq_some_iff.mp h
      exact index_le he'
    · obtain rfl := Option.some.inj h
      exact index_le he

/-- **Main result.** Wherever the tokenizer comes to an include element, the element is its token and
what follows is tokenized as if it were not there, if and only if the element is plain. -/
theorem esiTokenizer_include_iff {input : Bytes} {tokens : List EsiToken} {p post : Bytes}
    {e : IncludeElement} (he : e.Ok) (hp : TagFree p)
    (harrives : Arrives input tokens (p ++ (e.print ++ post))) :
    esiTokenizer input = tokens ++ (textBefore (p ++ (e.print ++ post)) p.length ++
      e.token :: esiTokenizer post) ↔ e.Plain := by
  have hfirst : firstTag (p ++ (e.print ++ post)) = some (p.length, .include_) := by
    rw [IncludeElement.print, List.append_assoc]
    exact firstTag_append hp .include_ _
  have hdrop : (p ++ (e.print ++ post)).drop p.length = e.print ++ post := List.drop_left
  rw [harrives.esiTokenizer_eq, List.append_cancel_left_eq, ← e.tagEnd_print_iff he post]
  cases hend : tagEnd .include_ (e.print ++ post) with
  | none =>
    have hend' : tagEnd .include_ ((p ++ (e.print ++ post)).drop p.length) = none := by
      rw [hdrop, hend]
    rw [esiTokenizer_of_unclosed hfirst hend', List.append_cancel_left_eq]
    refine iff_of_false (fun heq ↦ ?_) (by simp)
    have htype := congrArg EsiToken.esiTagType (List.cons.inj heq).1
    simp [IncludeElement.token] at htype
  | some len =>
    have hle := tagEnd_include_le hend
    have hend' : tagEnd .include_ ((p ++ (e.print ++ post)).drop p.length) = some len := by
      rw [hdrop, hend]
    rw [esiTokenizer_of_element hfirst hend', List.append_cancel_left_eq, hdrop,
      ← List.drop_drop, hdrop, List.cons.injEq]
    constructor
    · rintro ⟨htoken, -⟩
      have hcontent : (e.print ++ post).take len = e.print := congrArg EsiToken.esiTagContent htoken
      have hlength := congrArg List.length hcontent
      rw [List.length_take, Nat.min_eq_left hle] at hlength
      rw [hlength]
    · intro hlen
      obtain rfl := Option.some.inj hlen
      rw [List.take_left, List.drop_left]
      exact ⟨rfl, rfl⟩

/-- An attribute `src`. -/
def srcAttribute (value : Bytes) : Attribute :=
  { space := lit " ", name := lit "src", eq := lit "=", quote := 0x22, value }

theorem ok_srcAttribute {value : Bytes} (h : 0x22 ∉ value ∧ 0x3c ∉ value) :
    (srcAttribute value).Ok where
  space := (by decide +kernel : lit " " ≠ [] ∧ ∀ b ∈ lit " ", isXmlSpace b)
  name := (by decide : 0x3c ∉ lit "src" ∧ 0x3e ∉ lit "src")
  eq := ⟨[], [], rfl, by simp⟩
  quote := .inl rfl
  value := h

/-- A self-closed element with a `src`. -/
def selfClosedInclude (value : Bytes) : IncludeElement :=
  { attrs := [srcAttribute value], space := [], body := none }

theorem ok_selfClosedInclude {value : Bytes} (h : 0x22 ∉ value ∧ 0x3c ∉ value) :
    (selfClosedInclude value).Ok where
  attrs x hx := by
    obtain rfl := List.mem_singleton.mp hx
    exact ok_srcAttribute h
  space := by simp [selfClosedInclude]

theorem esiTokenizer_include_iff_selfClosed :
    esiTokenizer (lit "a" ++ ((selfClosedInclude (lit "/b")).print ++ lit "c")) =
      [] ++ (textBefore (lit "a" ++ ((selfClosedInclude (lit "/b")).print ++ lit "c"))
        (lit "a").length ++ (selfClosedInclude (lit "/b")).token :: esiTokenizer (lit "c")) :=
  (esiTokenizer_include_iff (ok_selfClosedInclude (by decide)) (by decide) .start).mpr
    ⟨fun _ ↦ by decide, fun _ h ↦ nomatch h⟩

/-- With a `>` in the value there is no token for the element. -/
theorem not_esiTokenizer_include :
    ¬ ∀ (input : Bytes) (tokens : List EsiToken) (p post : Bytes) (e : IncludeElement),
      e.Ok → TagFree p → Arrives input tokens (p ++ (e.print ++ post)) →
        esiTokenizer input = tokens ++ (textBefore (p ++ (e.print ++ post)) p.length ++
          e.token :: esiTokenizer post) := fun h ↦ by
  have htokens := h _ [] [] [] (selfClosedInclude (lit "/?a>b")) (ok_selfClosedInclude (by decide))
    (by decide) .start
  have hnone : tagEnd .include_ (selfClosedInclude (lit "/?a>b")).print = none := by decide +kernel
  have hfirst : firstTag (selfClosedInclude (lit "/?a>b")).print = some (0, .include_) := by
    decide +kernel
  rw [List.append_nil, List.nil_append, esiTokenizer_of_unclosed hfirst hnone] at htokens
  have htype := congrArg (List.map EsiToken.esiTagType) htokens
  simp [textBefore, IncludeElement.token] at htype

end GoMesi
