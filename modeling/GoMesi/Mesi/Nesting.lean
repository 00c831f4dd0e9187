import GoMesi.Mesi.TagSearch

/-!
# Nested elements

The scans for close tags count the tags of one or two elements. A text in which these elements are
closed where they should be is passed over by such a scan: the depth at its end is the depth at its
beginning (`TagCounter.loop_nested`). So the end of a block and the end of a child are found if what
stands between is nested properly.
-/

namespace GoMesi

open Strings

/-! ## Elements -/

/-- The elements whose close tags the parser looks for. -/
inductive ElementName
  | try_ | attempt | except_ | choose | when_ | otherwise_
  deriving DecidableEq, Repr

namespace ElementName

/-- The opening tag of an element without its `>`. -/
def openTag : ElementName → Bytes
  | try_ => lit "<esi:try"
  | attempt => lit "<esi:attempt"
  | except_ => lit "<esi:except"
  | choose => lit "<esi:choose"
  | when_ => lit "<esi:when"
  | otherwise_ => lit "<esi:otherwise"

/-- The close tag of an element. -/
def closeTag : ElementName → Bytes
  | try_ => lit "</esi:try>"
  | attempt => lit "</esi:attempt>"
  | except_ => lit "</esi:except>"
  | choose => lit "</esi:choose>"
  | when_ => lit "</esi:when>"
  | otherwise_ => lit "</esi:otherwise>"

/-- One of the two. -/
def tag (k : ElementName) : Bool → Bytes
  | false => k.openTag
  | true => k.closeTag

theorem isTag_tag (k : ElementName) (b : Bool) : IsTag (k.tag b) := by
  cases k <;> cases b <;> decide

theorem tag_apart {k k' : ElementName} {b b' : Bool} (h : (k, b) ≠ (k', b')) :
    ¬ k.tag b <+: k'.tag b' := by
  revert h
  cases k <;> cases b <;> cases k' <;> cases b' <;> decide

theorem not_tag_isPrefix {k l : ElementName} {b d : Bool} (h : (k, b) ≠ (l, d)) (r : Bytes) :
    ¬ k.tag b <+: l.tag d ++ r := fun hpre ↦
  (List.prefix_or_prefix_of_prefix hpre (List.prefix_append _ _)).elim (tag_apart h)
    (tag_apart h.symm)

theorem bracket_notMem_openTag (k : ElementName) : 0x3e ∉ k.openTag := by
  cases k <;> decide

theorem closeTag_ne_nil (k : ElementName) : k.closeTag ≠ [] := by
  cases k <;> decide

/-- An element with its attributes and its body. -/
def element (k : ElementName) (attrs body : Bytes) : Bytes :=
  k.openTag ++ (attrs ++ lit ">" ++ (body ++ k.closeTag))

/-- Past the close tag of another element, or for an opening tag. -/
theorem index_closing {k k' : ElementName} {b : Bool} (h : (k, b) ≠ (k', true)) (r : Bytes) :
    index (k'.closeTag ++ r) (k.tag b) = (index r (k.tag b)).map (· + k'.closeTag.length) :=
  index_append_of_isTag (k.isTag_tag b) (k'.isTag_tag true) (not_tag_isPrefix h r)

/-- Past the opening tag of another element, or for a close tag. -/
theorem index_opening {k k' : ElementName} {b : Bool} (h : (k, b) ≠ (k', false)) {attrs : Bytes}
    (hattrs : ¬ k.tag b <:+: attrs ++ lit ">") (r : Bytes) :
    index (k'.openTag ++ (attrs ++ lit ">" ++ r)) (k.tag b) =
      (index r (k.tag b)).map (· + (k'.openTag ++ (attrs ++ lit ">")).length) :=
  index_append_of_opening (k.isTag_tag b) (k'.isTag_tag false) (not_tag_isPrefix h _) hattrs

end ElementName

/-- No tag of these elements occurs in the text. -/
def Free (names : List ElementName) (s : Bytes) : Prop := ∀ k ∈ names, ∀ b, ¬ k.tag b <:+: s

instance (names : List ElementName) (s : Bytes) : Decidable (Free names s) :=
  inferInstanceAs (Decidable (∀ k ∈ names, ∀ b, ¬ k.tag b <:+: s))

theorem Free.of_isInfix {names : List ElementName} {s t : Bytes} (h : Free names s) (hst : t <:+: s) :
    Free names t := fun k hk b hinf ↦ h k hk b (hinf.trans hst)

/-- The elements are closed where they should be. Between the name of an element and the end of its
opening tag there may be anything but tags. -/
inductive Nested (names : List ElementName) : Bytes → Prop
  | text {s : Bytes} (hs : Free names s) : Nested names s
  | element {s attrs body rest : Bytes} (k : ElementName) (hk : k ∈ names) (hs : Free names s)
      (hattrs : Free names (attrs ++ lit ">")) (hbody : Nested names body)
      (hrest : Nested names rest) : Nested names (s ++ (k.element attrs body ++ rest))

theorem TagNext.of_append {s t : Bytes} (h : TagNext (s ++ t)) : TagNext s := by
  cases s with
  | nil => simp [TagNext]
  | cons c s => exact h

theorem Free.append {names : List ElementName} {s t : Bytes} (hs : Free names s) (ht : Free names t)
    (htag : TagNext t) : Free names (s ++ t) := by
  intro k hk b
  rw [← index_eq_none_iff, index_append_of_absent (k.isTag_tag b).2.1 (hs k hk b) htag,
    index_eq_none_iff.mpr (ht k hk b), Option.map_none]

theorem Nested.append {names : List ElementName} {s t : Bytes} (hs : Nested names s)
    (ht : Nested names t) (htag : TagNext t) : Nested names (s ++ t) := by
  induction hs with
  | text hs =>
    cases ht with
    | text ht => exact .text (hs.append ht htag)
    | element k hk ht hattrs hbody hrest =>
      rw [← List.append_assoc]
      exact .element k hk (hs.append ht htag.of_append) hattrs hbody hrest
  | element k hk hs hattrs hbody _ _ ihrest =>
    rw [List.append_assoc, List.append_assoc]
    exact .element k hk hs hattrs hbody ihrest

theorem Nested.element_append {names : List ElementName} {k : ElementName} (hk : k ∈ names)
    {attrs body t : Bytes} (hattrs : Free names (attrs ++ lit ">")) (hbody : Nested names body)
    (ht : Nested names t) : Nested names (k.element attrs body ++ t) := by
  have hnil : Free names [] := fun k hk b h ↦
    List.ne_nil_of_length_pos (by cases k <;> cases b <;> decide) (List.infix_nil.mp h)
  exact .element k hk hnil hattrs hbody ht

/-! ## Counting tags -/

/-- A scan that counts the tags of some elements: a text without them is skipped, an opening tag
counts up, and a close tag counts down, if the depth is greater than `low`. -/
structure TagCounter where
  /-- The elements whose tags count. -/
  counted : List ElementName
  low : ℤ
  /-- The scan from a depth and a position on. -/
  loop : ℤ → ℕ → Bytes → Option ℕ
  skip : ∀ {p r : Bytes}, (∀ k ∈ counted, ∀ b,
    index (p ++ r) (k.tag b) = (index r (k.tag b)).map (· + p.length)) → ∀ depth pos,
      loop depth pos (p ++ r) = loop depth (pos + p.length) r
  opening : ∀ {k : ElementName} {attrs r : Bytes}, k ∈ counted → Free counted (attrs ++ lit ">") →
    0x3e ∉ attrs → k.closeTag <:+: r → ∀ depth pos,
      loop depth pos (k.openTag ++ (attrs ++ lit ">" ++ r)) =
        loop (depth + 1) (pos + (k.openTag ++ (attrs ++ lit ">")).length) r
  closing : ∀ {k : ElementName} {r : Bytes}, k ∈ counted → ∀ depth pos, low < depth →
    loop depth pos (k.closeTag ++ r) = loop (depth - 1) (pos + k.closeTag.length) r

namespace TagCounter

variable (T : TagCounter) {names : List ElementName}

/-- A text in which no tag begins. -/
theorem loop_free {s r : Bytes} (hs : Free T.counted s) (hr : TagNext r) (depth : ℤ) (pos : ℕ) :
    T.loop depth pos (s ++ r) = T.loop depth (pos + s.length) r :=
  T.skip (fun k hk b ↦ index_append_of_absent (k.isTag_tag b).2.1 (hs k hk b) hr) depth pos

/-- The opening tag of an element that counts. -/
theorem loop_opening {k : ElementName} {attrs r : Bytes} (hk : k ∈ T.counted)
    (hattrs : Free T.counted (attrs ++ lit ">")) (hr : k.closeTag <:+: r) (depth : ℤ) (pos : ℕ) :
    T.loop depth pos (k.openTag ++ (attrs ++ lit ">" ++ r)) =
      T.loop (depth + 1) (pos + (k.openTag ++ (attrs ++ lit ">")).length) r := by
  obtain ⟨a, rest, heq, ha, hrest⟩ := exists_first_bracket attrs
  rw [heq] at hattrs ⊢
  have hfirst := T.opening hk (hattrs.of_isInfix (List.prefix_append _ _).isInfix) ha
    (r := rest ++ r) (hr.trans (List.suffix_append _ _).isInfix) depth pos
  rw [List.append_assoc (a ++ lit ">"), hfirst]
  -- a `>` inside of the opening tag is taken for its end, and the rest is text
  rcases hrest with rfl | ⟨v, rfl⟩
  · simp
  · rw [T.skip fun k' hk' b ↦ index_append_of_bracket (k'.isTag_tag b)
      (hattrs.of_isInfix (List.suffix_append _ _).isInfix k' hk' b)]
    simp only [List.length_append, Nat.add_assoc]

/-- The opening tag of another element. -/
theorem loop_opening_other {k : ElementName} {attrs : Bytes} (hk : k ∉ T.counted)
    (hattrs : Free T.counted (attrs ++ lit ">")) (r : Bytes) (depth : ℤ) (pos : ℕ) :
    T.loop depth pos (k.openTag ++ (attrs ++ lit ">" ++ r)) =
      T.loop depth (pos + (k.openTag ++ (attrs ++ lit ">")).length) r := by
  rw [← List.append_assoc]
  refine T.skip (fun k' hk' b ↦ ?_) depth pos
  have hne : k' ≠ k := fun h ↦ hk (h ▸ hk')
  rw [List.append_assoc]
  exact ElementName.index_opening (fun h ↦ hne (Prod.mk.inj h).1) (hattrs k' hk' b) r

/-- The close tag of another element. -/
theorem loop_closing_other {k : ElementName} (hk : k ∉ T.counted) (r : Bytes) (depth : ℤ) (pos : ℕ) :
    T.loop depth pos (k.closeTag ++ r) = T.loop depth (pos + k.closeTag.length) r := by
  refine T.skip (fun k' hk' b ↦ ?_) depth pos
  have hne : k' ≠ k := fun h ↦ hk (h ▸ hk')
  exact ElementName.index_closing (fun h ↦ hne (Prod.mk.inj h).1) r

/-- An element whose body is passed over. What follows need not be a tag. -/
theorem loop_element_of {s : Bytes} {depth : ℤ} (hdepth : T.low ≤ depth)
    (hs : ∀ {r depth}, TagNext r → T.low ≤ depth → ∀ pos,
      T.loop depth pos (s ++ r) = T.loop depth (pos + s.length) r) {k : ElementName} {attrs : Bytes}
    (hattrs : Free T.counted (attrs ++ lit ">")) (r : Bytes) (pos : ℕ) :
    T.loop depth pos (k.element attrs s ++ r) =
      T.loop depth (pos + (k.element attrs s).length) r := by
  have hclosing : TagNext (k.closeTag ++ r) := (k.isTag_tag true).tagNext r
  have hassoc : k.element attrs s ++ r =
      k.openTag ++ (attrs ++ lit ">" ++ (s ++ (k.closeTag ++ r))) := by
    simp only [ElementName.element, List.append_assoc]
  have hlength : pos + (k.openTag ++ (attrs ++ lit ">")).length + s.length + k.closeTag.length =
      pos + (k.element attrs s).length := by
    simp only [ElementName.element, List.length_append]
    omega
  by_cases hcounted : k ∈ T.counted
  · rw [hassoc, T.loop_opening hcounted hattrs ⟨s, r, by simp⟩, hs hclosing (by omega),
      T.closing hcounted _ _ (by omega), add_sub_cancel_right, hlength]
  · rw [hassoc, T.loop_opening_other hcounted hattrs, hs hclosing hdepth,
      T.loop_closing_other hcounted, hlength]

/-- **A nested text is passed over.** -/
theorem loop_nested (hnames : T.counted ⊆ names) {s r : Bytes} (hs : Nested names s)
    (hr : TagNext r) (depth : ℤ) (hdepth : T.low ≤ depth) (pos : ℕ) :
    T.loop depth pos (s ++ r) = T.loop depth (pos + s.length) r := by
  have hfree {s : Bytes} (h : Free names s) : Free T.counted s := fun k hk ↦ h k (hnames hk)
  induction hs generalizing r depth pos with
  | text hs => exact T.loop_free (hfree hs) hr depth pos
  | @element s attrs body rest k hk hs hattrs _ _ ihbody ihrest =>
    have hopening : TagNext (k.element attrs body ++ (rest ++ r)) := by
      rw [ElementName.element, List.append_assoc]
      exact (k.isTag_tag false).tagNext _
    have hassoc : s ++ (k.element attrs body ++ rest) ++ r =
        s ++ (k.element attrs body ++ (rest ++ r)) := by simp only [List.append_assoc]
    rw [hassoc, T.loop_free (hfree hs) hopening, T.loop_element_of hdepth
      (fun hr hdepth ↦ ihbody hr _ hdepth) (hfree hattrs), ihrest hr depth hdepth]
    congr 1
    simp only [List.length_append, Nat.add_assoc]

end TagCounter

/-! ## The scan for the end of a block -/

namespace ElementName

theorem index_openTag (k : ElementName) (r : Bytes) : index (k.openTag ++ r) k.openTag = some 0 :=
  index_eq_zero_iff.mpr (List.prefix_append _ _)

theorem index_closeTag (k : ElementName) (r : Bytes) : index (k.closeTag ++ r) k.closeTag = some 0 :=
  index_eq_zero_iff.mpr (List.prefix_append _ _)

/-- The end of an opening tag. -/
theorem index_bracket (k : ElementName) {attrs : Bytes} (hattrs : 0x3e ∉ attrs) (r : Bytes) :
    index (k.openTag ++ (attrs ++ lit ">" ++ r)) (lit ">") = some (k.openTag ++ attrs).length := by
  have hmem : 0x3e ∉ k.openTag ++ attrs := by
    rw [List.mem_append, not_or]
    exact ⟨k.bracket_notMem_openTag, hattrs⟩
  have hassoc : k.openTag ++ (attrs ++ lit ">" ++ r) = k.openTag ++ attrs ++ (lit ">" ++ r) := by
    simp only [List.append_assoc]
  rw [hassoc, GoMesi.index_bracket hmem]

theorem length_opening (k : ElementName) (attrs : Bytes) :
    (k.openTag ++ attrs).length + 1 = (k.openTag ++ (attrs ++ lit ">")).length := by
  simp only [List.length_append, lit_bracket, List.length_singleton, Nat.add_assoc]

theorem drop_opening (k : ElementName) (attrs r : Bytes) :
    (k.openTag ++ (attrs ++ lit ">" ++ r)).drop (k.openTag ++ (attrs ++ lit ">")).length = r := by
  have hassoc : k.openTag ++ (attrs ++ lit ">" ++ r) = k.openTag ++ (attrs ++ lit ">") ++ r :=
    (List.append_assoc ..).symm
  rw [hassoc, List.drop_left]

theorem tagNext_closeTag (k : ElementName) (r : Bytes) : TagNext (k.closeTag ++ r) :=
  (k.isTag_tag true).tagNext r

theorem tagNext_openTag (k : ElementName) (r : Bytes) : TagNext (k.openTag ++ r) :=
  (k.isTag_tag false).tagNext r

/-- A close tag after an opening tag. -/
theorem index_opening_closeTag (k k' : ElementName) {attrs : Bytes}
    (hattrs : ¬ k.closeTag <:+: attrs ++ lit ">") (r : Bytes) :
    index (k'.openTag ++ (attrs ++ lit ">" ++ r)) k.closeTag =
      (index r k.closeTag).map (· + (k'.openTag ++ (attrs ++ lit ">")).length) :=
  index_opening (b := true) (by simp) hattrs r

end ElementName

/-- The scan for the end of a block counts the tags of the block. -/
def blockCounter (k : ElementName) : TagCounter where
  counted := [k]
  low := 1
  loop := findMatchingEndTag.loop k.openTag k.closeTag k.closeTag_ne_nil
  skip h := findMatchingEndTag_loop_skip (h k (by simp) true) (h k (by simp) false)
  opening := by
    intro k' attrs r hk hattrs hbracket hr depth pos
    obtain rfl := List.mem_singleton.mp hk
    obtain ⟨c, hc⟩ : ∃ c, index r k'.closeTag = some c :=
      Option.ne_none_iff_exists'.mp fun hnone ↦ index_eq_none_iff.mp hnone hr
    have hclose := k'.index_opening_closeTag k' (hattrs k' hk true) r
    rw [hc, Option.map_some] at hclose
    have hopen := k'.index_openTag (attrs ++ lit ">" ++ r)
    have hend := k'.index_bracket hbracket r
    have hlength := k'.length_opening attrs
    have hpos : 0 < c + (k'.openTag ++ (attrs ++ lit ">")).length :=
      Nat.add_pos_right c (hlength ▸ Nat.succ_pos _)
    rw [findMatchingEndTag_loop_open hclose (by rw [hopen]; exact filter_zero hpos) (o := 0) hend,
      Nat.zero_add, hlength, k'.drop_opening, Nat.add_assoc, hlength, Nat.add_zero]
  closing := by
    intro k' r hk depth pos hdepth
    obtain rfl := List.mem_singleton.mp hk
    rw [findMatchingEndTag_loop_close (k'.index_closeTag r) (filter_lt_zero _), if_neg (by omega),
      Nat.zero_add, Nat.add_zero, List.drop_left]

theorem findMatchingEndTag_eq (k : ElementName) (s : Bytes) :
    findMatchingEndTag s k.openTag k.closeTag k.closeTag_ne_nil = (blockCounter k).loop 0 0 s := rfl

/-- The end of the block that is open is found at depth one. -/
theorem blockCounter_closing (k : ElementName) (r : Bytes) (pos : ℕ) :
    (blockCounter k).loop 1 pos (k.closeTag ++ r) = some pos :=
  (findMatchingEndTag_loop_close (k.index_closeTag r) (filter_lt_zero _)).trans (if_pos rfl)

/-- **The end of a block.** -/
theorem findMatchingEndTag_element {k : ElementName} {names : List ElementName} (hk : k ∈ names)
    {attrs body : Bytes} (hattrs : Free names (attrs ++ lit ">")) (hbody : Nested names body)
    (r : Bytes) :
    findMatchingEndTag (k.element attrs body ++ r) k.openTag k.closeTag k.closeTag_ne_nil =
      some (k.openTag ++ (attrs ++ lit ">") ++ body).length := by
  have hassoc : k.element attrs body ++ r =
      k.openTag ++ (attrs ++ lit ">" ++ (body ++ (k.closeTag ++ r))) := by
    simp only [ElementName.element, List.append_assoc]
  have hcounted : k ∈ (blockCounter k).counted := List.mem_singleton_self k
  have hsub : (blockCounter k).counted ⊆ names := by
    intro k' hk'
    rwa [List.mem_singleton.mp hk']
  rw [findMatchingEndTag_eq, hassoc, (blockCounter k).loop_opening hcounted
    (fun k' hk' ↦ hattrs k' (hsub hk')) ⟨body, r, by simp⟩, zero_add,
    (blockCounter k).loop_nested hsub hbody (k.tagNext_closeTag r) 1 le_rfl,
    blockCounter_closing]
  congr 1
  simp only [List.length_append]
  omega

/-! ## The scan for the end of a child -/

/-- The tags of a child and of its block. -/
def childTags (child block : ElementName) : ChildTags :=
  ⟨child.closeTag, block.closeTag, child.openTag, block.openTag, child.closeTag_ne_nil,
    block.closeTag_ne_nil⟩

/-- The close tag of a child counts as its own at depth zero. -/
theorem findChildClose_loop_closing {child block k : ElementName} (hne : child ≠ block)
    (hk : k = child ∨ k = block) (r : Bytes) (depth : ℤ) (pos : ℕ) :
    findChildClose.loop (childTags child block) depth pos (k.closeTag ++ r) =
      if depth = 0 ∧ k = child then some pos
      else findChildClose.loop (childTags child block) (depth - 1) (pos + k.closeTag.length) r := by
  have hfirst : firstOf (k.closeTag ++ r) child.closeTag block.closeTag = some 0 := by
    rcases hk with rfl | rfl
    · exact firstOf_eq_zero (.inl (k.index_closeTag r))
    · exact firstOf_eq_zero (.inr (k.index_closeTag r))
  have hown : index (k.closeTag ++ r) child.closeTag = some 0 ↔ k = child := by
    refine ⟨fun hzero ↦ ?_, fun h ↦ h ▸ k.index_closeTag r⟩
    by_contra hkc
    exact ElementName.not_tag_isPrefix (k := child) (l := k) (b := true) (d := true)
      (fun h ↦ hkc (Prod.mk.inj h).1.symm) r (index_eq_zero_iff.mp hzero)
  have hskip : (childTags child block).skipLen (k.closeTag ++ r) 0 = k.closeTag.length := by
    refine (if_congr hown rfl rfl).trans ?_
    split_ifs with h
    · rw [h, childTags]
    · rw [hk.resolve_left h, childTags]
  have hfilter := filter_lt_zero
    (firstOf (k.closeTag ++ r) (childTags child block).open_ (childTags child block).openBlock)
  rw [findChildClose_loop_close hfirst hfilter, hskip, Nat.zero_add, List.drop_left, Nat.add_zero]
  exact if_congr (and_congr_right fun _ ↦ hown) rfl rfl

/-- The scan for the end of a child counts the tags of the child and of its block. -/
def childCounter (child block : ElementName) (hne : child ≠ block) : TagCounter where
  counted := [child, block]
  low := 0
  loop := findChildClose.loop (childTags child block)
  skip h := by
    have hchild := h child (by simp)
    have hblock := h block (by simp)
    refine findChildClose_loop_skip fun t ht ↦ ?_
    simp only [ChildTags.all, childTags, List.mem_cons, List.not_mem_nil, or_false] at ht
    rcases ht with rfl | rfl | rfl | rfl
    · exact hchild true
    · exact hblock true
    · exact hchild false
    · exact hblock false
  opening := by
    intro k attrs r hk hattrs hbracket hr depth pos
    have hchild := child.index_opening_closeTag k (hattrs child (by simp) true) r
    have hblock := block.index_opening_closeTag k (hattrs block (by simp) true) r
    have hk' : k = child ∨ k = block := by simpa using hk
    obtain ⟨c, hc⟩ : ∃ c, firstOf r child.closeTag block.closeTag = some c := by
      rcases hk' with rfl | rfl
      · exact exists_firstOf (.inl hr)
      · exact exists_firstOf (.inr hr)
    have hfirst : firstOf (k.openTag ++ (attrs ++ lit ">" ++ r)) child.closeTag block.closeTag =
        some (c + (k.openTag ++ (attrs ++ lit ">")).length) := by
      rw [← List.append_assoc] at hchild hblock ⊢
      rw [firstOf_append hchild hblock, hc, Option.map_some]
    have hopen : firstOf (k.openTag ++ (attrs ++ lit ">" ++ r)) child.openTag block.openTag = some 0 := by
      rcases hk' with rfl | rfl
      · exact firstOf_eq_zero (.inl (k.index_openTag _))
      · exact firstOf_eq_zero (.inr (k.index_openTag _))
    have hlength := k.length_opening attrs
    have hpos : 0 < c + (k.openTag ++ (attrs ++ lit ">")).length :=
      Nat.add_pos_right c (hlength ▸ Nat.succ_pos _)
    have hfilter : (firstOf (k.openTag ++ (attrs ++ lit ">" ++ r)) (childTags child block).open_
        (childTags child block).openBlock).filter
          (· < c + (k.openTag ++ (attrs ++ lit ">")).length) = some 0 := by
      rw [childTags, hopen]
      exact filter_zero hpos
    rw [findChildClose_loop_open hfirst hfilter (k.index_bracket hbracket r), Nat.zero_add, hlength,
      k.drop_opening, Nat.add_assoc, hlength, Nat.add_zero]
  closing := by
    intro k r hk depth pos hdepth
    rw [findChildClose_loop_closing hne (by simpa using hk), if_neg (by omega)]

/-- **The end of a child.** -/
theorem findChildClose_nested {child block : ElementName} (hne : child ≠ block)
    {names : List ElementName} (hnames : [child, block] ⊆ names) {body : Bytes}
    (hbody : Nested names body) (r : Bytes) :
    findChildClose (childTags child block) (body ++ (child.closeTag ++ r)) = some body.length := by
  have hpass := (childCounter child block hne).loop_nested hnames hbody
    (child.tagNext_closeTag r) 0 le_rfl 0
  rw [Nat.zero_add] at hpass
  exact hpass.trans ((findChildClose_loop_closing hne (.inl rfl) r 0 _).trans (if_pos ⟨rfl, rfl⟩))

/-! ## The scan for the end of a nested block -/

end GoMesi
