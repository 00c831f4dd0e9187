import GoMesi.Mesi.InlineBlock

/-!
# The tests of the when branches

`extractChooseBlocks` searches for the test of a branch from the when tag on, and the search does not
end where the tag ends. So the loop is compared with the same loop over the tags' own test attributes.
Both are a `WhenReader`: what it reads at a when tag, and where it goes on behind a tag at which it reads
nothing. A branch is kept with all of the text from the beginning of its body on, which tells two
branches of the block with equal texts apart.
-/

namespace GoMesi

open Strings

/-! ## The children of a choose block -/

/-- A child of a choose block, by the text from its opening tag on. -/
inductive ChooseChild
  | when_ (tag : Bytes)
  | otherwise (tag : Bytes)

def ChooseChild.tag : ChooseChild → Bytes
  | when_ tag => tag
  | otherwise tag => tag

/-- The child that the loop of `extractChooseBlocks` takes next. -/
def nextChild (rest : Bytes) : Option ChooseChild :=
  let nextClose := findChooseChildTag rest (lit "</esi:choose>")
  match findChooseChildTag rest (lit "<esi:when"),
    findChooseChildTag rest (lit "<esi:otherwise") with
  | none, none => none
  | nextWhen, nextOtherwise =>
    if before nextClose nextWhen && before nextClose nextOtherwise then none
    else if before nextWhen nextOtherwise then some (.when_ (rest.drop (nextWhen.getD 0)))
    else some (.otherwise (rest.drop (nextOtherwise.getD 0)))

/-- The block is closed before its next child. -/
def closesFirst (rest : Bytes) : Bool :=
  before (findChooseChildTag rest (lit "</esi:choose>")) (findChooseChildTag rest (lit "<esi:when")) &&
    before (findChooseChildTag rest (lit "</esi:choose>"))
      (findChooseChildTag rest (lit "<esi:otherwise"))

/-- The next child is a when branch. -/
def whenFirst (rest : Bytes) : Bool :=
  before (findChooseChildTag rest (lit "<esi:when")) (findChooseChildTag rest (lit "<esi:otherwise"))

theorem nextChild_of_close {rest : Bytes} (h : closesFirst rest = true) : nextChild rest = none := by
  rw [nextChild]
  split
  · rfl
  · exact if_pos h

theorem nextChild_of_when {rest : Bytes} (hclose : ¬ closesFirst rest = true)
    (h : whenFirst rest = true) : nextChild rest =
      some (.when_ (rest.drop ((findChooseChildTag rest (lit "<esi:when")).getD 0))) := by
  rw [nextChild]
  split
  next hwhen hotherwise =>
    rw [whenFirst, hwhen] at h
    exact absurd h Bool.false_ne_true
  · exact (if_neg hclose).trans (if_pos h)

theorem nextChild_of_otherwise {rest : Bytes}
    (hsome : findChooseChildTag rest (lit "<esi:when") = none →
      findChooseChildTag rest (lit "<esi:otherwise") = none → False)
    (hclose : ¬ closesFirst rest = true) (h : ¬ whenFirst rest = true) : nextChild rest =
      some (.otherwise (rest.drop ((findChooseChildTag rest (lit "<esi:otherwise")).getD 0))) := by
  rw [nextChild]
  split
  next hwhen hotherwise => exact absurd (hsome hwhen hotherwise) not_false
  · exact (if_neg hclose).trans (if_neg h)

theorem tag_suffix_of_nextChild {rest : Bytes} {child : ChooseChild}
    (h : nextChild rest = some child) : child.tag <:+ rest := by
  rw [nextChild] at h
  split at h
  · exact absurd h (Option.some_ne_none _).symm
  · split_ifs at h
    · rw [← Option.some.inj h]
      exact List.drop_suffix _ _
    · rw [← Option.some.inj h]
      exact List.drop_suffix _ _

/-- A text goes on with a proper part of itself. -/
def Rest (s t : Bytes) : Prop := s <:+ t ∧ s.length < t.length

theorem Rest.of_suffix {s t u : Bytes} (h : s <:+ t) (ht : Rest t u) : Rest s u :=
  ⟨h.trans ht.1, h.length_le.trans_lt ht.2⟩

theorem rest_of_index {s sub : Bytes} {n : ℕ} (h : index s sub = some n) (hsub : sub ≠ []) :
    Rest (s.drop (n + sub.length)) s :=
  ⟨List.drop_suffix _ _, index_drop_lt h hsub⟩

/-- A when branch: its test, and the text from the beginning of its body on. -/
structure WhenBranch where
  test : Bytes
  text : Bytes
  deriving DecidableEq

/-- The branch as `extractChooseBlocks` returns it. -/
def WhenBranch.block (b : WhenBranch) : EsiWhenBlock :=
  ⟨b.test, (findWhenClose b.text).elim b.text b.text.take⟩

/-- The text behind a when branch, if it is closed. -/
def WhenBranch.after (b : WhenBranch) : Option Bytes :=
  (findWhenClose b.text).map fun n ↦ b.text.drop (n + (lit "</esi:when>").length)

/-- The text behind an otherwise branch, if it is closed. -/
def afterOtherwise (tag : Bytes) : Option Bytes :=
  (index tag (lit ">")).bind fun tagEnd ↦
    (findOtherwiseClose (tag.drop (tagEnd + 1))).map fun n ↦
      (tag.drop (tagEnd + 1)).drop (n + (lit "</esi:otherwise>").length)

theorem rest_afterOtherwise {tag s : Bytes} (h : afterOtherwise tag = some s) : Rest s tag := by
  obtain ⟨tagEnd, hend, h⟩ := Option.bind_eq_some_iff.mp h
  obtain ⟨n, -, rfl⟩ := Option.map_eq_some_iff.mp h
  exact .of_suffix (List.drop_suffix _ _) (rest_of_index hend (by decide))

/-! ## Readers -/

/-- What is read at a when tag, and where the loop goes on behind a tag at which nothing is read. -/
structure WhenReader where
  read : Bytes → Option WhenBranch
  skip : Bytes → Option Bytes
  rest_read : ∀ {tag b}, read tag = some b → Rest b.text tag
  rest_skip : ∀ {tag s}, skip tag = some s → Rest s tag

namespace WhenReader

variable (R S : WhenReader) {rest tag s : Bytes} {b : WhenBranch}

/-- Where the loop goes on behind a when tag. -/
def next (tag : Bytes) : Option Bytes :=
  match R.read tag with
  | some b => b.after
  | none => R.skip tag

variable {R} in
theorem rest_next (h : R.next tag = some s) : Rest s tag := by
  rw [next] at h
  split at h
  next b hread =>
    obtain ⟨n, -, rfl⟩ := Option.map_eq_some_iff.mp h
    exact .of_suffix (List.drop_suffix _ _) (R.rest_read hread)
  · exact R.rest_skip h

/-- The when tags that the loop comes to. -/
def tags (rest : Bytes) : List Bytes :=
  match hchild : nextChild rest with
  | none => []
  | some (.when_ tag) =>
    tag ::
      match hnext : R.next tag with
      | none => []
      | some s =>
        have : s.length < rest.length :=
          (rest_next hnext).2.trans_le (tag_suffix_of_nextChild hchild).length_le
        tags s
  | some (.otherwise tag) =>
    match hnext : afterOtherwise tag with
    | none => []
    | some s =>
      have : s.length < rest.length :=
        (rest_afterOtherwise hnext).2.trans_le (tag_suffix_of_nextChild hchild).length_le
      tags s
termination_by rest.length
decreasing_by all_goals assumption

/-- A when tag and those that come after it. -/
def tagsFrom (tag : Bytes) : List Bytes := tag :: (R.next tag).elim [] R.tags

/-- The branches that are read. -/
def branches (rest : Bytes) : List WhenBranch := (R.tags rest).filterMap R.read

/-- The first branch that is read at a when tag or after it. -/
def first (tag : Bytes) : Option WhenBranch := (R.tagsFrom tag).findSome? R.read

variable {R}

theorem tags_of_none (h : nextChild rest = none) : R.tags rest = [] := by
  rw [tags]
  split
  · rfl
  · simp_all
  · simp_all

theorem tags_of_when (h : nextChild rest = some (.when_ tag)) : R.tags rest = R.tagsFrom tag := by
  rw [tags, tagsFrom]
  split
  · simp_all
  next tag' h' =>
    obtain rfl : tag = tag' := by simpa using h.symm.trans h'
    split
    next hnext => rw [hnext, Option.elim_none]
    next s hnext => simp [hnext]
  · simp_all

theorem tags_of_otherwise (h : nextChild rest = some (.otherwise tag)) :
    R.tags rest = (afterOtherwise tag).elim [] R.tags := by
  rw [tags]
  split
  · simp_all
  · simp_all
  next tag' h' =>
    obtain rfl : tag = tag' := by simpa using h.symm.trans h'
    split
    next hnext => rw [hnext, Option.elim_none]
    next s hnext => simp [hnext]

/-- Induction along the loop. -/
@[elab_as_elim]
theorem loop_induction (R : WhenReader) {motive : Bytes → Prop}
    (none : ∀ rest, nextChild rest = none → motive rest)
    (when_ : ∀ rest tag, nextChild rest = some (.when_ tag) →
      (∀ s, R.next tag = some s → motive s) → motive rest)
    (otherwise : ∀ rest tag, nextChild rest = some (.otherwise tag) →
      (∀ s, afterOtherwise tag = some s → motive s) → motive rest) (rest : Bytes) : motive rest := by
  fun_induction tags R rest with
  | case1 rest hchild => exact none rest hchild
  | case2 rest tag hchild ih => exact when_ rest tag hchild ih
  | case3 rest tag hchild hnext =>
    exact otherwise rest tag hchild fun s hs ↦ absurd (hnext.symm.trans hs) nofun
  | case4 rest tag hchild s hnext hlt ih =>
    refine otherwise rest tag hchild fun t ht ↦ ?_
    rw [← Option.some.inj (hnext.symm.trans ht)]
    exact ih

/-- Every tag is the beginning of a part of the text. -/
theorem suffix_of_mem_tags (h : tag ∈ R.tags rest) : tag <:+ rest := by
  induction rest using R.loop_induction with
  | none rest hchild =>
    rw [tags_of_none hchild] at h
    exact absurd h List.not_mem_nil
  | when_ rest tag' hchild ih =>
    rw [tags_of_when hchild, tagsFrom, List.mem_cons] at h
    have htag := tag_suffix_of_nextChild hchild
    rcases h with rfl | h
    · exact htag
    · cases hnext : R.next tag' with
      | none =>
        rw [hnext] at h
        exact absurd h List.not_mem_nil
      | some s =>
        rw [hnext] at h
        exact ((ih s hnext h).trans (rest_next hnext).1).trans htag
  | otherwise rest tag' hchild ih =>
    rw [tags_of_otherwise hchild] at h
    have htag := tag_suffix_of_nextChild hchild
    cases hnext : afterOtherwise tag' with
    | none =>
      rw [hnext] at h
      exact absurd h List.not_mem_nil
    | some s =>
      rw [hnext] at h
      exact ((ih s hnext h).trans (rest_afterOtherwise hnext).1).trans htag

theorem suffix_of_mem_tagsFrom {tag' : Bytes} (h : tag' ∈ R.tagsFrom tag) : tag' <:+ tag := by
  rcases List.mem_cons.mp h with rfl | h
  · exact List.suffix_rfl
  · cases hnext : R.next tag with
    | none =>
      rw [hnext] at h
      exact absurd h List.not_mem_nil
    | some s =>
      rw [hnext] at h
      exact (suffix_of_mem_tags h).trans (rest_next hnext).1

theorem next_of_read (h : R.read tag = some b) : R.next tag = b.after := by rw [next, h]

theorem branches_of_when (h : nextChild rest = some (.when_ tag)) :
    R.branches rest = (R.tagsFrom tag).filterMap R.read := by
  rw [branches, tags_of_when h]

theorem filterMap_tagsFrom_of_read (h : R.read tag = some b) :
    (R.tagsFrom tag).filterMap R.read = b :: b.after.elim [] R.branches := by
  rw [tagsFrom, List.filterMap_cons_some h, next_of_read h]
  cases b.after <;> rfl

theorem filterMap_tagsFrom_of_none (h : R.read tag = none) :
    (R.tagsFrom tag).filterMap R.read = (R.next tag).elim [] R.branches := by
  rw [tagsFrom, List.filterMap_cons_none h]
  cases R.next tag <;> rfl

theorem branches_of_read (hchild : nextChild rest = some (.when_ tag)) (hread : R.read tag = some b) :
    R.branches rest = b :: b.after.elim [] R.branches := by
  rw [branches_of_when hchild, filterMap_tagsFrom_of_read hread]

theorem branches_of_skip (hchild : nextChild rest = some (.when_ tag)) (hread : R.read tag = none) :
    R.branches rest = (R.skip tag).elim [] R.branches := by
  rw [branches_of_when hchild, filterMap_tagsFrom_of_none hread, next, hread]

theorem branches_of_otherwise (hchild : nextChild rest = some (.otherwise tag)) :
    R.branches rest = (afterOtherwise tag).elim [] R.branches := by
  rw [branches, tags_of_otherwise hchild]
  cases afterOtherwise tag <;> rfl

theorem branches_of_none (hchild : nextChild rest = none) : R.branches rest = [] := by
  rw [branches, tags_of_none hchild, List.filterMap_nil]

theorem first_eq_head? : R.first tag = ((R.tagsFrom tag).filterMap R.read).head? :=
  List.head?_filterMap.symm

/-- One step of `branches_eq_cons`. -/
theorem filterMap_tagsFrom_of_next
    (hnext : ∀ s, R.next tag = some s → (R.branches s).head? = some b →
      R.branches s = b :: b.after.elim [] R.branches)
    (h : ((R.tagsFrom tag).filterMap R.read).head? = some b) :
    (R.tagsFrom tag).filterMap R.read = b :: b.after.elim [] R.branches := by
  cases hread : R.read tag with
  | some b' =>
    rw [filterMap_tagsFrom_of_read hread] at h ⊢
    rw [Option.some.inj h]
  | none =>
    rw [filterMap_tagsFrom_of_none hread] at h ⊢
    cases hs : R.next tag with
    | none =>
      rw [hs] at h
      exact absurd h nofun
    | some s =>
      rw [hs] at h
      exact hnext s hs h

/-- Behind its first branch the loop goes on as behind any branch. -/
theorem branches_eq_cons (h : (R.branches rest).head? = some b) :
    R.branches rest = b :: b.after.elim [] R.branches := by
  induction rest using R.loop_induction with
  | none rest hchild =>
    rw [branches, tags_of_none hchild] at h
    exact absurd h nofun
  | when_ rest tag hchild ih =>
    rw [branches_of_when hchild] at h ⊢
    exact filterMap_tagsFrom_of_next ih h
  | otherwise rest tag hchild ih =>
    rw [branches, tags_of_otherwise hchild] at h ⊢
    cases hnext : afterOtherwise tag with
    | none =>
      rw [hnext] at h
      exact absurd h nofun
    | some s =>
      rw [hnext] at h
      exact ih s hnext h

/-! ### Two readers -/

variable {S : WhenReader}

/-- `R` reads something wherever `S` does, and in front of any text in which it reads something. -/
structure Reaches (R S : WhenReader) : Prop where
  of_read : ∀ {tag}, (S.read tag).isSome → (R.read tag).isSome
  of_suffix : ∀ {tag t}, tag <:+ t → (R.read tag).isSome → (R.read t).isSome

/-- Where `R` reads nothing, neither of them reads anything later on. -/
theorem Reaches.read_eq_none (h : Reaches R S) {t : Bytes} (htag : tag <:+ t) (ht : R.read t = none) :
    R.read tag = none ∧ S.read tag = none := by
  have hR : R.read tag = none := by
    rw [← Option.not_isSome_iff_eq_none]
    intro hsome
    have := h.of_suffix htag hsome
    simp [ht] at this
  refine ⟨hR, ?_⟩
  rw [← Option.not_isSome_iff_eq_none]
  intro hsome
  have := h.of_read hsome
  simp [hR] at this

/-- The two loops read the same branches if and only if at every tag that the first one comes to, it
reads what the second one reads first from there on. -/
theorem Reaches.branches_eq_iff (h : Reaches R S) :
    R.branches rest = S.branches rest ↔ ∀ tag ∈ R.tags rest, R.read tag = S.first tag := by
  induction rest using R.loop_induction with
  | none rest hchild => simp [branches, tags_of_none hchild]
  | when_ rest tag hchild ih =>
    rw [branches_of_when hchild, branches_of_when hchild, tags_of_when hchild]
    cases hread : R.read tag with
    | some b =>
      have hhead : (R.tagsFrom tag).filterMap R.read = (S.tagsFrom tag).filterMap S.read ↔
          some b = S.first tag ∧ b.after.elim [] R.branches = b.after.elim [] S.branches := by
        rw [filterMap_tagsFrom_of_read hread]
        constructor
        · intro heq
          have hfirst : S.first tag = some b := by rw [first_eq_head?, ← heq, List.head?_cons]
          rw [first_eq_head?] at hfirst
          rw [filterMap_tagsFrom_of_next (fun s _ ↦ branches_eq_cons) hfirst] at heq
          exact ⟨by rw [first_eq_head?, hfirst], (List.cons.inj heq).2⟩
        · rintro ⟨hfirst, heq⟩
          rw [first_eq_head?] at hfirst
          rw [filterMap_tagsFrom_of_next (fun s _ ↦ branches_eq_cons) hfirst.symm, heq]
      rw [hhead, tagsFrom, List.forall_mem_cons, hread, next_of_read hread]
      refine and_congr_right fun _ ↦ ?_
      cases hafter : b.after with
      | none => simp
      | some s => exact ih s (by rw [next_of_read hread, hafter])
    -- nothing is read from here on by either of them
    | none =>
      refine iff_of_true ?_ fun tag' htag' ↦ ?_
      · rw [List.filterMap_eq_nil_iff.mpr, List.filterMap_eq_nil_iff.mpr]
        · exact fun tag' htag' ↦ (h.read_eq_none (suffix_of_mem_tagsFrom htag') hread).2
        · exact fun tag' htag' ↦ (h.read_eq_none (suffix_of_mem_tagsFrom htag') hread).1
      · have htag := suffix_of_mem_tagsFrom htag'
        rw [(h.read_eq_none htag hread).1, first, eq_comm, List.findSome?_eq_none_iff]
        intro tag'' htag''
        exact (h.read_eq_none ((suffix_of_mem_tagsFrom htag'').trans htag) hread).2
  | otherwise rest tag hchild ih =>
    rw [branches, branches, tags_of_otherwise hchild, tags_of_otherwise hchild]
    cases hnext : afterOtherwise tag with
    | none => simp
    | some s => exact ih s hnext

end WhenReader

/-! ## The two readers -/

/-- The branch with the test value at the beginning of `value`. -/
def readValue (value : Bytes) : Option WhenBranch :=
  (index value (lit "\"")).bind fun testEnd ↦
    (index (value.drop testEnd) (lit ">")).map fun tagEnd ↦
      ⟨value.take testEnd, (value.drop testEnd).drop (tagEnd + 1)⟩

theorem rest_readValue {value : Bytes} {b : WhenBranch} (h : readValue value = some b) :
    Rest b.text value := by
  obtain ⟨testEnd, -, h⟩ := Option.bind_eq_some_iff.mp h
  obtain ⟨tagEnd, hend, rfl⟩ := Option.map_eq_some_iff.mp h
  have hrest := rest_of_index hend (by decide)
  exact ⟨hrest.1.trans (List.drop_suffix _ _), hrest.2.trans_le (List.drop_suffix _ _).length_le⟩

/-- What `extractChooseBlocks` reads: the first `test="` from the tag on. -/
def firstTests : WhenReader where
  read tag := (index tag (lit "test=\"")).bind fun testStart ↦
    readValue (tag.drop (testStart + (lit "test=\"").length))
  skip tag := if contains tag (lit "test=\"") then none
    else (index tag (lit ">")).map fun quoteEnd ↦ tag.drop (quoteEnd + 1)
  rest_read h := by
    obtain ⟨testStart, hstart, h⟩ := Option.bind_eq_some_iff.mp h
    exact .of_suffix (rest_readValue h).1 (rest_of_index hstart (by decide))
  rest_skip h := by
    split_ifs at h
    obtain ⟨quoteEnd, hend, rfl⟩ := Option.map_eq_some_iff.mp h
    exact rest_of_index hend (by decide)

/-- White space in an opening tag. -/
def isBlank (b : UInt8) : Bool := b = 0x20 || b = 0x09 || b = 0x0a || b = 0x0d

/-- The text from the value of the test attribute on, which stands inside of an opening tag: after
white space and outside of quotes, and before the `>` of the tag. The argument `quote` is the quote
that is open. -/
def ownValue (quote : Option UInt8) : Bytes → Option Bytes
  | [] => none
  | b :: s =>
    match quote with
    | some q => ownValue (if b = q then none else some q) s
    | none =>
      if b = 0x3e then none
      else if isBlank b && hasPrefix s (lit "test=\"") then some (s.drop (lit "test=\"").length)
      else if b = 0x22 ∨ b = 0x27 then ownValue (some b) s
      else ownValue none s

/-- What closes the open quote, if there is one, and then has its quotes closed and no `>` outside of
them. -/
def QuotedAfter : Option UInt8 → Bytes → Prop
  | none, a => Quoted a
  | some q, a => ∃ v a', q ∉ v ∧ Quoted a' ∧ a = v ++ q :: a'

theorem exists_of_ownValue {quote : Option UInt8} {s t : Bytes} (h : ownValue quote s = some t) :
    ∃ a b, QuotedAfter quote a ∧ isBlank b = true ∧ s = a ++ b :: (lit "test=\"" ++ t) := by
  induction s generalizing quote with
  | nil => exact absurd h nofun
  | cons b s ih =>
    cases quote with
    | some q =>
      rw [ownValue] at h
      obtain ⟨a, c, ha, hc, rfl⟩ := ih h
      refine ⟨b :: a, c, ?_, hc, rfl⟩
      by_cases hb : b = q
      · rw [if_pos hb] at ha
        exact ⟨[], a, List.not_mem_nil, ha, by rw [hb, List.nil_append]⟩
      · rw [if_neg hb] at ha
        obtain ⟨v, a', hv, ha', rfl⟩ := ha
        exact ⟨b :: v, a', by simp [Ne.symm hb, hv], ha', rfl⟩
    | none =>
      rw [ownValue] at h
      by_cases hbracket : b = 0x3e
      · rw [if_pos hbracket] at h
        exact absurd h nofun
      rw [if_neg hbracket] at h
      by_cases htest : (isBlank b && hasPrefix s (lit "test=\"")) = true
      · rw [if_pos htest, Option.some.injEq] at h
        obtain ⟨hb, hpre⟩ := Bool.and_eq_true_iff.mp htest
        obtain ⟨r, rfl⟩ := List.isPrefixOf_iff_prefix.mp hpre
        rw [List.drop_left] at h
        exact ⟨[], b, .nil, hb, by rw [h, List.nil_append]⟩
      rw [if_neg htest] at h
      by_cases hquote : b = 0x22 ∨ b = 0x27
      · rw [if_pos hquote] at h
        obtain ⟨a, c, ⟨v, a', hv, ha', rfl⟩, hc, rfl⟩ := ih h
        exact ⟨b :: (v ++ b :: a'), c, .value hquote hv ha', hc, rfl⟩
      · rw [if_neg hquote] at h
        obtain ⟨a, c, ha, hc, rfl⟩ := ih h
        exact ⟨b :: a, c, .plain (not_or.mp hquote) hbracket ha, hc, rfl⟩

theorem ownValue_quoted {q : UInt8} {v : Bytes} (hv : q ∉ v) (s : Bytes) :
    ownValue (some q) (v ++ q :: s) = ownValue none s := by
  induction v with
  | nil => rw [List.nil_append, ownValue, if_pos rfl]
  | cons b v ih =>
    obtain ⟨hb, hv⟩ : q ≠ b ∧ q ∉ v := by simpa using hv
    rw [List.cons_append, ownValue, if_neg (Ne.symm hb), ih hv]

/-- A test attribute is found if there is one. -/
theorem ownValue_isSome_iff {s : Bytes} : (ownValue none s).isSome ↔
    ∃ a b t, Quoted a ∧ isBlank b = true ∧ s = a ++ b :: (lit "test=\"" ++ t) := by
  constructor
  · intro h
    obtain ⟨t, ht⟩ := Option.isSome_iff_exists.mp h
    obtain ⟨a, b, ha, hb, hs⟩ := exists_of_ownValue ht
    exact ⟨a, b, t, ha, hb, hs⟩
  · rintro ⟨a, b, t, ha, hb, rfl⟩
    induction ha with
    | nil =>
      have hbracket : b ≠ 0x3e := by
        rintro rfl
        exact absurd hb (by decide)
      have hpre : hasPrefix (lit "test=\"" ++ t) (lit "test=\"") = true :=
        List.isPrefixOf_iff_prefix.mpr (List.prefix_append _ _)
      rw [List.nil_append, ownValue, if_neg hbracket, hb, hpre]
      rfl
    | @plain c a hquote hbracket _ ih =>
      rw [List.cons_append, ownValue, if_neg hbracket]
      split_ifs with htest hq
      · rfl
      · exact absurd hq (by tauto)
      · exact ih
    | @value q v a hq hv _ ih =>
      have hplain : isBlank q = false ∧ q ≠ 0x3e := by
        rcases hq with rfl | rfl <;> decide
      rw [List.cons_append, List.append_assoc, List.cons_append, ownValue, if_neg hplain.2, hplain.1,
        Bool.false_and, if_neg Bool.false_ne_true, if_pos hq, ownValue_quoted hv]
      exact ih

theorem ownValue_suffix {s t : Bytes} (h : ownValue none s = some t) : t <:+ s := by
  obtain ⟨a, b, -, -, rfl⟩ := exists_of_ownValue h
  exact ⟨a ++ b :: lit "test=\"", by simp⟩

theorem findUnquotedCloseBracket_lt {s : Bytes} {n : ℕ} (h : findUnquotedCloseBracket s = some n) :
    n < s.length := by
  suffices ∀ quote i, findUnquotedCloseBracket.loop quote i s = some n → n < i + s.length by
    simpa using this none 0 h
  clear h
  induction s with
  | nil => exact fun _ _ h ↦ absurd h nofun
  | cons b s ih =>
    intro quote i h
    rw [List.length_cons]
    have hnext : ∀ quote, findUnquotedCloseBracket.loop quote (i + 1) s = some n →
        n < i + (s.length + 1) := by
      intro quote h
      have := ih quote (i + 1) h
      omega
    cases quote with
    | some q => exact hnext _ h
    | none =>
      rw [findUnquotedCloseBracket.loop] at h
      split_ifs at h
      · exact hnext _ h
      · have := Option.some.inj h
        omega
      · exact hnext _ h

/-- What the when tags have themselves: the test attribute of each tag. -/
def ownTests : WhenReader where
  read tag := (ownValue none tag).bind readValue
  skip tag := (findUnquotedCloseBracket tag).map fun tagEnd ↦ tag.drop (tagEnd + 1)
  rest_read h := by
    obtain ⟨value, hvalue, h⟩ := Option.bind_eq_some_iff.mp h
    have hrest := rest_readValue h
    have hsuffix := ownValue_suffix hvalue
    exact ⟨hrest.1.trans hsuffix, hrest.2.trans_le hsuffix.length_le⟩
  rest_skip h := by
    obtain ⟨tagEnd, hend, rfl⟩ := Option.map_eq_some_iff.mp h
    have hlt := findUnquotedCloseBracket_lt hend
    refine ⟨List.drop_suffix _ _, ?_⟩
    rw [List.length_drop]
    omega

/-! ### What is found from the tag on -/

/-- An occurrence is found, or one before it. -/
theorem exists_index_of_append (sub a r : Bytes) :
    ∃ n, index (a ++ (sub ++ r)) sub = some n ∧ r <:+ (a ++ (sub ++ r)).drop (n + sub.length) := by
  obtain ⟨n, hn⟩ : ∃ n, index (a ++ (sub ++ r)) sub = some n := by
    refine Option.ne_none_iff_exists'.mp fun hnone ↦ index_eq_none_iff.mp hnone ?_
    exact ⟨a, r, by simp⟩
  have hle : n ≤ a.length := by
    by_contra hlt
    refine not_isPrefix_drop_of_index hn a.length (by omega) ?_
    rw [List.drop_left]
    exact List.prefix_append _ _
  refine ⟨n, hn, ?_⟩
  refine List.suffix_of_suffix_length_le ⟨a ++ sub, by simp⟩ (List.drop_suffix _ _) ?_
  simp only [List.length_drop, List.length_append]
  omega

/-- A value at the beginning of the text, with a `>` behind it. -/
def HasValue (s : Bytes) : Prop := ∃ v a r, s = v ++ (lit "\"" ++ (a ++ (lit ">" ++ r)))

theorem readValue_isSome_iff {s : Bytes} : (readValue s).isSome ↔ HasValue s := by
  constructor
  · intro h
    obtain ⟨b, hb⟩ := Option.isSome_iff_exists.mp h
    obtain ⟨testEnd, hend, h⟩ := Option.bind_eq_some_iff.mp hb
    obtain ⟨tagEnd, htag, -⟩ := Option.map_eq_some_iff.mp h
    obtain ⟨v, post, rfl, hv⟩ := index_spec hend
    rw [List.append_assoc, ← hv, List.drop_left] at htag
    obtain ⟨a, r, rfl, -⟩ := exists_of_index_byte (by decide) htag
    exact ⟨v, a, r, List.append_assoc _ _ _⟩
  · rintro ⟨v, a, r, rfl⟩
    obtain ⟨m, hm, hsuffix⟩ := exists_index_of_append (lit "\"") v (a ++ (lit ">" ++ r))
    obtain ⟨x, hx⟩ : lit ">" ++ r <:+ (v ++ (lit "\"" ++ (a ++ (lit ">" ++ r)))).drop m :=
      ((List.suffix_append a _).trans hsuffix).trans (List.drop_suffix_drop_left _ (by omega))
    obtain ⟨n, hn, -⟩ := exists_index_of_append (lit ">") x r
    rw [readValue, hm, Option.bind_some, ← hx, hn]
    rfl

/-- A test with a value somewhere in the text. -/
def HasTest (s : Bytes) : Prop := ∃ a t, s = a ++ (lit "test=\"" ++ t) ∧ HasValue t

theorem HasValue.of_suffix {s t : Bytes} (h : HasValue s) (hs : s <:+ t) : HasValue t := by
  obtain ⟨v, a, r, rfl⟩ := h
  obtain ⟨x, rfl⟩ := hs
  exact ⟨x ++ v, a, r, by simp⟩

theorem HasTest.of_suffix {s t : Bytes} (h : HasTest s) (hs : s <:+ t) : HasTest t := by
  obtain ⟨a, r, rfl, hr⟩ := h
  obtain ⟨x, rfl⟩ := hs
  exact ⟨x ++ a, r, by simp, hr⟩

theorem firstTests_isSome_iff {tag : Bytes} : (firstTests.read tag).isSome ↔ HasTest tag := by
  constructor
  · intro h
    obtain ⟨b, hb⟩ := Option.isSome_iff_exists.mp h
    obtain ⟨testStart, hstart, h⟩ := Option.bind_eq_some_iff.mp hb
    obtain ⟨a, t, rfl, ha⟩ := index_spec hstart
    rw [List.drop_left' (by rw [List.length_append, ha])] at h
    exact ⟨a, t, List.append_assoc _ _ _, readValue_isSome_iff.mp (h ▸ rfl)⟩
  · rintro ⟨a, t, rfl, ht⟩
    obtain ⟨n, hn, hsuffix⟩ := exists_index_of_append (lit "test=\"") a t
    have hread : firstTests.read (a ++ (lit "test=\"" ++ t)) =
        readValue ((a ++ (lit "test=\"" ++ t)).drop (n + (lit "test=\"").length)) := by
      simp only [firstTests, hn, Option.bind_some]
    rw [hread]
    exact readValue_isSome_iff.mpr (ht.of_suffix hsuffix)

theorem reaches_tests : firstTests.Reaches ownTests where
  of_read {tag} h := by
    obtain ⟨b, hb⟩ := Option.isSome_iff_exists.mp h
    obtain ⟨t, ht, hvalue⟩ := Option.bind_eq_some_iff.mp hb
    obtain ⟨a, c, -, -, rfl⟩ := exists_of_ownValue ht
    exact firstTests_isSome_iff.mpr ⟨a ++ [c], t, by simp, readValue_isSome_iff.mp (hvalue ▸ rfl)⟩
  of_suffix hsuffix h :=
    firstTests_isSome_iff.mpr ((firstTests_isSome_iff.mp h).of_suffix hsuffix)

/-! ## The loop of `extractChooseBlocks` -/

/-- The branches of the loop are those that `firstTests` reads. -/
theorem extractChooseBlocks_loop (rest : Bytes) (whens : List EsiWhenBlock) (otherwise : Bytes) :
    (extractChooseBlocks.loop rest whens otherwise).1 =
      whens ++ (firstTests.branches rest).map WhenBranch.block := by
  fun_induction extractChooseBlocks.loop rest whens otherwise with
  | case1 rest whens otherwise hotherwise hwhen =>
    have hchild : nextChild rest = none := by rw [nextChild, hwhen, hotherwise]
    rw [WhenReader.branches_of_none hchild]
    exact (List.append_nil _).symm
  | case2 rest whens otherwise nextClose hsome hclose =>
    rw [WhenReader.branches_of_none (nextChild_of_close hclose)]
    exact (List.append_nil _).symm
  | case3 rest whens otherwise nextClose tag htest hend hsome hclose hwhen =>
    have hread : firstTests.read tag = none := by simp only [firstTests, htest, Option.bind_none]
    have hskip : firstTests.skip tag = none := by simp [firstTests, hend]
    rw [WhenReader.branches_of_skip (nextChild_of_when hclose hwhen) hread, hskip]
    exact (List.append_nil _).symm
  | case4 rest whens otherwise nextClose quoteEnd tag htest hend hlt hsome hclose hwhen ih =>
    have hread : firstTests.read tag = none := by simp only [firstTests, htest, Option.bind_none]
    have hskip : firstTests.skip tag = some (tag.drop (quoteEnd + 1)) := by
      simp [firstTests, contains, htest, hend]
    rw [WhenReader.branches_of_skip (nextChild_of_when hclose hwhen) hread, hskip]
    exact ih
  | case5 rest whens otherwise nextClose testStart tag htest value hquote hsome hclose hwhen =>
    have hread : firstTests.read tag = none := by
      simp only [firstTests, htest, Option.bind_some, readValue]
      rw [hquote, Option.bind_none]
    have hskip : firstTests.skip tag = none := by simp [firstTests, contains, htest]
    rw [WhenReader.branches_of_skip (nextChild_of_when hclose hwhen) hread, hskip]
    exact (List.append_nil _).symm
  | case6 rest whens otherwise nextClose testStart testEnd tag htest value hquote hend hsome hclose
      hwhen =>
    have hread : firstTests.read tag = none := by
      simp only [firstTests, htest, Option.bind_some, readValue]
      rw [hquote, Option.bind_some, hend, Option.map_none]
    have hskip : firstTests.skip tag = none := by simp [firstTests, contains, htest]
    rw [WhenReader.branches_of_skip (nextChild_of_when hclose hwhen) hread, hskip]
    exact (List.append_nil _).symm
  | case7 rest whens otherwise nextClose testStart testEnd tagEnd tag htest value hquote testExpr hend
      body hbody hunclosed hsome hclose hwhen =>
    have hread : firstTests.read tag = some ⟨testExpr, body⟩ := by
      simp only [firstTests, htest, Option.bind_some, readValue]
      rw [hquote, Option.bind_some, hend, Option.map_some]
    rw [WhenReader.branches_of_read (nextChild_of_when hclose hwhen) hread]
    simp [WhenBranch.after, WhenBranch.block, hunclosed]
  | case8 rest whens otherwise nextClose testStart testEnd tagEnd whenBodyLen tag htest value hquote
      testExpr hend body hbody hclosed hlt hsome hclose hwhen ih =>
    have hread : firstTests.read tag = some ⟨testExpr, body⟩ := by
      simp only [firstTests, htest, Option.bind_some, readValue]
      rw [hquote, Option.bind_some, hend, Option.map_some]
    rw [WhenReader.branches_of_read (nextChild_of_when hclose hwhen) hread, ih]
    simp [WhenBranch.after, WhenBranch.block, hclosed]
  | case9 rest whens otherwise nextClose tag hend hsome hclose hother =>
    have hnext : afterOtherwise tag = none := by rw [afterOtherwise, hend, Option.bind_none]
    rw [WhenReader.branches_of_otherwise (nextChild_of_otherwise hsome hclose hother), hnext]
    exact (List.append_nil _).symm
  | case10 rest whens otherwise nextClose tagEnd tag hend body hbody hunclosed hsome hclose hother =>
    have hnext : afterOtherwise tag = none := by
      rw [afterOtherwise, hend, Option.bind_some, hunclosed, Option.map_none]
    rw [WhenReader.branches_of_otherwise (nextChild_of_otherwise hsome hclose hother), hnext]
    exact (List.append_nil _).symm
  | case11 rest whens otherwise nextClose tagEnd otherwiseLen tag hend body hbody hclosed hlt hsome
      hclose hother ih =>
    have hnext : afterOtherwise tag =
        some (body.drop (otherwiseLen + (lit "</esi:otherwise>").length)) := by
      rw [afterOtherwise, hend, Option.bind_some, hclosed, Option.map_some]
    rw [WhenReader.branches_of_otherwise (nextChild_of_otherwise hsome hclose hother), hnext]
    exact ih

/-- The text behind the opening tag of a choose block, which goes up to its first `>`. -/
def chooseContent (raw : Bytes) : Bytes :=
  (index raw (lit ">")).elim [] fun closeBracket ↦ raw.drop (closeBracket + 1)

theorem extractChooseBlocks_fst (raw : Bytes) : (extractChooseBlocks raw).1 =
    (firstTests.branches (chooseContent raw)).map WhenBranch.block := by
  rw [extractChooseBlocks, chooseContent]
  cases index raw (lit ">") with
  | none =>
    rw [Option.elim_none, WhenReader.branches_of_none (by decide +kernel)]
    rfl
  | some closeBracket => exact extractChooseBlocks_loop _ _ _

/-- The branches are those of the when tags with a test attribute, each with that test, and begin where
they should. -/
structure TestsInTags (raw : Bytes) : Prop where
  blocks : (extractChooseBlocks raw).1 =
    (ownTests.branches (chooseContent raw)).map WhenBranch.block
  places : firstTests.branches (chooseContent raw) = ownTests.branches (chooseContent raw)

/-- **Main result.** The tests stay inside of their tags if and only if the first `test="` from each when
tag on that the loop comes to gives the same as the test attribute of that tag or, if it has none, of
the next one that has. -/
theorem testsInTags_iff (raw : Bytes) :
    TestsInTags raw ↔ ∀ tag ∈ firstTests.tags (chooseContent raw),
      firstTests.read tag = ownTests.first tag := by
  rw [← reaches_tests.branches_eq_iff]
  constructor
  · exact TestsInTags.places
  · intro h
    exact ⟨h ▸ extractChooseBlocks_fst raw, h⟩

/-- An attribute of an element in the body is taken for the test. -/
theorem not_testsInTags : ¬ TestsInTags
    (lit "<esi:choose><esi:when><p data-test=\"1\">b</p></esi:when></esi:choose>") := by
  intro h
  have hblocks := h.blocks
  revert hblocks
  decide +kernel

end GoMesi
