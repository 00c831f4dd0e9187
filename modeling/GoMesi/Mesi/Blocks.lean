import GoMesi.Mesi.Tokenizer

/-!
# Splitting try and choose blocks

The first half of `parser.go`: `extractTryBlocks`, `extractChooseBlocks` and the scans for close
tags they are built from. Six of these scans come in two families whose members differ in the tags
only, so a family is one definition and a member is that definition at its own tags.

The bodies are proper parts of the block (`length_extractTryBlocks_lt`,
`length_extractChooseBlocks_lt`), which is why a render of a body is a render of a shorter text.
-/

namespace GoMesi

open Strings

/-- The first position exists and comes before the second one, if there is a second one. -/
def before : Option ℕ → Option ℕ → Bool
  | none, _ => false
  | some _, none => true
  | some x, some y => x < y

/-- The first position of `a` or `b` in `s`. -/
def firstOf (s a b : Bytes) : Option ℕ :=
  if before (index s a) (index s b) then index s a else index s b

theorem firstOf_spec {s a b : Bytes} {n : ℕ} (h : firstOf s a b = some n) :
    index s a = some n ∨ index s b = some n := by
  rw [firstOf] at h
  split_ifs at h
  · exact .inl h
  · exact .inr h

/-! ## The close tag of a child element -/

/-- The tags a scan for the close tag of a child element counts: those of the child and those of
the block around it. Open tags stand without their `>`. -/
structure ChildTags where
  /-- The close tag of the child. -/
  close : Bytes
  /-- The close tag of the block. -/
  closeBlock : Bytes
  /-- The open tag of the child. -/
  open_ : Bytes
  /-- The open tag of the block. -/
  openBlock : Bytes
  close_ne : close ≠ []
  closeBlock_ne : closeBlock ≠ []

/-- How far a scan goes on after the close tag at `n`. -/
def ChildTags.skipLen (tags : ChildTags) (s : Bytes) (n : ℕ) : ℕ :=
  if index s tags.close = some n then tags.close.length else tags.closeBlock.length

theorem ChildTags.skip_lt {tags : ChildTags} {s : Bytes} {n : ℕ}
    (h : firstOf s tags.close tags.closeBlock = some n) :
    (s.drop (n + tags.skipLen s n)).length < s.length := by
  rw [skipLen]
  split_ifs with hchild
  · exact index_drop_lt hchild tags.close_ne
  · exact index_drop_lt ((firstOf_spec h).resolve_left hchild) tags.closeBlock_ne

/-- The position in `s` of the close tag of the child whose opening tag ends where `s` starts. Open
tags of either kind count up, close tags of either kind count down, and the close tag of the child
counts as its own at depth zero only. -/
def findChildClose (tags : ChildTags) (s : Bytes) : Option ℕ := loop 0 0 s
where
  loop (depth : ℤ) (pos : ℕ) (rest : Bytes) : Option ℕ :=
    match hclose : firstOf rest tags.close tags.closeBlock with
    | none => none
    | some firstClose =>
      match (firstOf rest tags.open_ tags.openBlock).filter (· < firstClose) with
      | some firstOpen =>
        match hend : index (rest.drop firstOpen) (lit ">") with
        | none => none
        | some nextEnd =>
          have := index_drop_drop_lt hend (by decide : lit ">" ≠ [])
          loop (depth + 1) (pos + firstOpen + nextEnd + 1) (rest.drop (firstOpen + nextEnd + 1))
      | none =>
        have := tags.skip_lt hclose
        if depth = 0 ∧ index rest tags.close = some firstClose then some (pos + firstClose)
        else loop (depth - 1) (pos + firstClose + tags.skipLen rest firstClose)
          (rest.drop (firstClose + tags.skipLen rest firstClose))
  termination_by rest.length
  decreasing_by all_goals assumption

def findAttemptClose : Bytes → Option ℕ :=
  findChildClose ⟨lit "</esi:attempt>", lit "</esi:try>", lit "<esi:attempt", lit "<esi:try",
    by decide, by decide⟩

def findExceptClose : Bytes → Option ℕ :=
  findChildClose ⟨lit "</esi:except>", lit "</esi:try>", lit "<esi:except", lit "<esi:try",
    by decide, by decide⟩

def findWhenClose : Bytes → Option ℕ :=
  findChildClose ⟨lit "</esi:when>", lit "</esi:choose>", lit "<esi:when", lit "<esi:choose",
    by decide, by decide⟩

def findOtherwiseClose : Bytes → Option ℕ :=
  findChildClose ⟨lit "</esi:otherwise>", lit "</esi:choose>", lit "<esi:otherwise",
    lit "<esi:choose", by decide, by decide⟩

/-! ## The close tag of a nested block -/

/-- The position of the close tag found by counting the open and close tags of one block type. The
depth is tested before the close tag counts down. -/
def findBlockClose (openTag closeTag : Bytes) (hne : closeTag ≠ []) (s : Bytes) : Option ℕ :=
  loop 0 0 s
where
  loop (depth pos : ℕ) (rest : Bytes) : Option ℕ :=
    match hclose : index rest closeTag with
    | none => none
    | some nextClose =>
      match (index rest openTag).filter (· < nextClose) with
      | some nextOpen =>
        match hend : index (rest.drop nextOpen) (lit ">") with
        | none => none
        | some nextEnd =>
          have := index_drop_drop_lt hend (by decide : lit ">" ≠ [])
          loop (depth + 1) (pos + nextOpen + nextEnd + 1) (rest.drop (nextOpen + nextEnd + 1))
      | none =>
        have := index_drop_lt hclose hne
        match depth with
        | 0 => some (pos + nextClose)
        | depth + 1 => loop depth (pos + nextClose + closeTag.length)
            (rest.drop (nextClose + closeTag.length))
  termination_by rest.length
  decreasing_by all_goals assumption

/-- `findTryClose`: the position of a close tag. -/
def findTryClose : Bytes → Option ℕ :=
  findBlockClose (lit "<esi:try") (lit "</esi:try>") (by decide)

/-- `findChooseClose`: the position after a close tag. -/
def findChooseClose (s : Bytes) : Option ℕ :=
  (findBlockClose (lit "<esi:choose") (lit "</esi:choose>") (by decide) s).map
    (· + (lit "</esi:choose>").length)

/-- A close tag stands where the scan for it ends. -/
theorem findBlockClose_spec {openTag closeTag : Bytes} {hne : closeTag ≠ []} {s : Bytes} {n : ℕ}
    (h : findBlockClose openTag closeTag hne s = some n) : closeTag <+: s.drop n := by
  suffices ∀ depth pos rest, findBlockClose.loop openTag closeTag hne depth pos rest = some n →
      ∃ m, n = pos + m ∧ closeTag <+: rest.drop m by
    obtain ⟨m, rfl, hm⟩ := this 0 0 s h
    simpa using hm
  intro depth pos rest
  fun_induction findBlockClose.loop openTag closeTag hne depth pos rest with
  | case1 => simp
  | case2 => simp
  | case3 depth pos rest nextClose hclose nextOpen hopen tagEnd hend hlt ih =>
    intro h
    obtain ⟨m, rfl, hm⟩ := ih h
    refine ⟨nextOpen + tagEnd + 1 + m, by omega, ?_⟩
    rwa [List.drop_drop] at hm
  | case4 pos rest nextClose hclose hopen hlt =>
    intro h
    obtain ⟨pre, post, rfl, rfl⟩ := index_spec hclose
    exact ⟨pre.length, (Option.some.inj h).symm, ⟨post, by simp⟩⟩
  | case5 pos rest nextClose hclose hopen hlt depth ih =>
    intro h
    obtain ⟨m, rfl, hm⟩ := ih h
    refine ⟨nextClose + closeTag.length + m, by omega, ?_⟩
    rwa [List.drop_drop] at hm

/-- A try block is not closed where it starts. -/
theorem findTryClose_pos {s : Bytes} {n : ℕ} (hs : lit "<esi:try" <+: s)
    (h : findTryClose s = some n) : 0 < n := by
  rcases Nat.eq_zero_or_pos n with rfl | hn
  · obtain ⟨t, rfl⟩ := hs
    obtain ⟨u, hu⟩ := findBlockClose_spec h
    have hbyte : (some 0x2f : Option UInt8) = some 0x65 := congrArg (fun l ↦ l[1]?) hu
    exact absurd hbyte (by decide)
  · exact hn

theorem findChooseClose_pos {s : Bytes} {n : ℕ} (h : findChooseClose s = some n) : 0 < n := by
  obtain ⟨m, -, rfl⟩ := Option.map_eq_some_iff.mp h
  exact Nat.lt_of_lt_of_le (by decide) (Nat.le_add_left _ _)

private theorem prefix_of_index {s sub : Bytes} {n : ℕ} (h : index s sub = some n) :
    sub <+: s.drop n := by
  obtain ⟨pre, post, rfl, rfl⟩ := index_spec h
  exact ⟨post, by simp⟩

private theorem drop_lt {s : Bytes} {m n : ℕ} (hm : m < s.length) (hn : 0 < n) :
    (s.drop (m + n)).length < s.length := by
  rw [List.length_drop]
  omega

private theorem index_lt {s sub : Bytes} {n : ℕ} (h : index s sub = some n) (hsub : sub ≠ []) :
    n < s.length := by
  have := index_le h
  have := List.length_pos_of_ne_nil hsub
  omega

/-! ## Try blocks -/

/-- The position of the first `<esi:attempt` outside nested try blocks. -/
def findAttempt (s : Bytes) : Option ℕ := loop 0 s
where
  loop (pos : ℕ) (rest : Bytes) : Option ℕ :=
    match index rest (lit "<esi:attempt") with
    | none => none
    | some nextAttempt =>
      match htry : (index rest (lit "<esi:try")).filter (· < nextAttempt) with
      | some nextTry =>
        match hnested : findTryClose (rest.drop nextTry) with
        | none => none
        | some nestedEnd =>
          have hidx := (Option.filter_eq_some_iff.mp htry).1
          have := drop_lt (index_lt hidx (by decide)) (findTryClose_pos (prefix_of_index hidx) hnested)
          loop (pos + nextTry + nestedEnd) (rest.drop (nextTry + nestedEnd))
      | none => some (pos + nextAttempt)
  termination_by rest.length
  decreasing_by assumption

/-- `extractTryBlocks`: the bodies of the attempt and of the except, which is empty if absent. -/
def extractTryBlocks (raw : Bytes) : Bytes × Bytes :=
  match index raw (lit ">") with
  | none => ([], [])
  | some closeBracket =>
    let pos := closeBracket + 1
    match findAttempt (raw.drop pos) with
    | none => ([], [])
    | some attemptStart =>
      let pos := pos + attemptStart
      match index (raw.drop pos) (lit ">") with
      | none => ([], [])
      | some tagEnd =>
        let pos := pos + tagEnd + 1
        match findAttemptClose (raw.drop pos) with
        | none => (raw.drop pos, [])
        | some attemptLen =>
          let attemptBody := (raw.drop pos).take attemptLen
          let pos := pos + attemptLen + (lit "</esi:attempt>").length
          match index (raw.drop pos) (lit "<esi:except") with
          | none => (attemptBody, [])
          | some exceptStart =>
            let pos := pos + exceptStart
            match index (raw.drop pos) (lit ">") with
            | none => (attemptBody, [])
            | some tagEnd =>
              let pos := pos + tagEnd + 1
              match findExceptClose (raw.drop pos) with
              | none => (attemptBody, [])
              | some exceptLen => (attemptBody, (raw.drop pos).take exceptLen)

/-- The bodies are shorter than the block. -/
theorem length_extractTryBlocks_lt {raw : Bytes} (hraw : raw ≠ []) :
    (extractTryBlocks raw).1.length < raw.length ∧
      (extractTryBlocks raw).2.length < raw.length := by
  have hpos := List.length_pos_of_ne_nil hraw
  fun_cases extractTryBlocks raw
  all_goals simp +zetaDelta only [List.length_take, List.length_drop, List.length_nil]
  all_goals omega

/-! ## Choose blocks -/

/-- The position of the first `tag` outside nested choose blocks. -/
def findChooseChildTag (s tag : Bytes) : Option ℕ := loop 0 s
where
  loop (pos : ℕ) (rest : Bytes) : Option ℕ :=
    match index rest tag with
    | none => none
    | some nextTarget =>
      match hnested : (index rest (lit "<esi:choose")).filter (· < nextTarget) with
      | some nextNested =>
        match hclose : findChooseClose (rest.drop nextNested) with
        | none => none
        | some nestedClose =>
          have hidx := (Option.filter_eq_some_iff.mp hnested).1
          have := drop_lt (index_lt hidx (by decide)) (findChooseClose_pos hclose)
          loop (pos + nextNested + nestedClose) (rest.drop (nextNested + nestedClose))
      | none => some (pos + nextTarget)
  termination_by rest.length
  decreasing_by assumption

/-- `esiWhenBlock` -/
structure EsiWhenBlock where
  /-- The value of the test attribute. -/
  test : Bytes
  /-- The body of the branch. -/
  body : Bytes
  deriving DecidableEq, Repr

/-- `extractChooseBlocks`: the when branches in order, and the body of the otherwise branch, which
is empty if absent. -/
def extractChooseBlocks (raw : Bytes) : List EsiWhenBlock × Bytes :=
  match index raw (lit ">") with
  | none => ([], [])
  | some closeBracket => loop (raw.drop (closeBracket + 1)) [] []
where
  loop (rest : Bytes) (whens : List EsiWhenBlock) (otherwise : Bytes) :
      List EsiWhenBlock × Bytes :=
    let nextClose := findChooseChildTag rest (lit "</esi:choose>")
    match findChooseChildTag rest (lit "<esi:when"),
      findChooseChildTag rest (lit "<esi:otherwise") with
    | none, none => (whens, otherwise)
    | nextWhen, nextOtherwise =>
      if before nextClose nextWhen && before nextClose nextOtherwise then (whens, otherwise)
      else if before nextWhen nextOtherwise then
        let tag := rest.drop (nextWhen.getD 0)
        match index tag (lit "test=\"") with
        | none =>
          -- malformed, skip
          match hskip : index tag (lit ">") with
          | none => (whens, otherwise)
          | some quoteEnd =>
            have : (tag.drop (quoteEnd + 1)).length < rest.length :=
              Nat.lt_of_lt_of_le (index_drop_lt hskip (by decide)) (by simp [tag])
            loop (tag.drop (quoteEnd + 1)) whens otherwise
        | some testStart =>
          let value := tag.drop (testStart + (lit "test=\"").length)
          match index value (lit "\"") with
          | none => (whens, otherwise)
          | some testEnd =>
            let testExpr := value.take testEnd
            match hend : index (value.drop testEnd) (lit ">") with
            | none => (whens, otherwise)
            | some tagEnd =>
              let body := (value.drop testEnd).drop (tagEnd + 1)
              have hbody : body.length < rest.length :=
                Nat.lt_of_lt_of_le (index_drop_lt hend (by decide)) (by simp [tag, value])
              match findWhenClose body with
              | none => (whens ++ [⟨testExpr, body⟩], otherwise)
              | some whenBodyLen =>
                have : (body.drop (whenBodyLen + (lit "</esi:when>").length)).length < rest.length :=
                  Nat.lt_of_le_of_lt (by simp) hbody
                loop (body.drop (whenBodyLen + (lit "</esi:when>").length))
                  (whens ++ [⟨testExpr, body.take whenBodyLen⟩]) otherwise
      else
        let tag := rest.drop (nextOtherwise.getD 0)
        match hend : index tag (lit ">") with
        | none => (whens, otherwise)
        | some tagEnd =>
          let body := tag.drop (tagEnd + 1)
          have hbody : body.length < rest.length :=
            Nat.lt_of_lt_of_le (index_drop_lt hend (by decide)) (by simp [tag])
          match findOtherwiseClose body with
          | none => (whens, body)
          | some otherwiseLen =>
            have : (body.drop (otherwiseLen + (lit "</esi:otherwise>").length)).length
                < rest.length := Nat.lt_of_le_of_lt (by simp) hbody
            loop (body.drop (otherwiseLen + (lit "</esi:otherwise>").length)) whens
              (body.take otherwiseLen)
  termination_by rest.length
  decreasing_by all_goals assumption

/-- The bodies are shorter than the block. -/
theorem length_extractChooseBlocks_lt {raw : Bytes} (hraw : raw ≠ []) :
    (∀ w ∈ (extractChooseBlocks raw).1, w.body.length < raw.length) ∧
      (extractChooseBlocks raw).2.length < raw.length := by
  have hpos := List.length_pos_of_ne_nil hraw
  rw [extractChooseBlocks]
  split
  · simpa using hpos
  · suffices ∀ (rest : Bytes) (whens : List EsiWhenBlock) (otherwise : Bytes), rest.length ≤ raw.length →
        (∀ w ∈ whens, w.body.length < raw.length) →
        otherwise.length < raw.length →
        (∀ w ∈ (extractChooseBlocks.loop rest whens otherwise).1, w.body.length < raw.length) ∧
          (extractChooseBlocks.loop rest whens otherwise).2.length < raw.length from
      this _ _ _ (by simp) (by simp) (by simpa using hpos)
    intro rest whens otherwise
    fun_induction extractChooseBlocks.loop rest whens otherwise with
    | case4 rest whens otherwise _ _ _ _ _ hlt _ _ _ ih =>
      exact fun hr hw ho ↦ ih (hlt.le.trans hr) hw ho
    | case7 rest whens otherwise _ _ _ _ _ _ _ _ _ _ body hbody _ _ _ _ =>
      refine fun hr hw ho ↦ ⟨fun w hmem ↦ ?_, ho⟩
      rcases List.mem_append.mp hmem with hmem | hmem
      · exact hw w hmem
      · rw [List.mem_singleton.mp hmem]
        exact hbody.trans_le hr
    | case8 rest whens otherwise _ _ _ _ len _ _ _ _ _ _ body hbody _ hlt _ _ _ ih =>
      refine fun hr hw ho ↦ ih (hlt.le.trans hr) (fun w hmem ↦ ?_) ho
      rcases List.mem_append.mp hmem with hmem | hmem
      · exact hw w hmem
      · rw [List.mem_singleton.mp hmem]
        exact ((List.length_take_le' _ _).trans_lt hbody).trans_le hr
    | case10 rest whens otherwise _ _ _ _ body hbody _ _ _ _ =>
      exact fun hr hw ho ↦ ⟨hw, hbody.trans_le hr⟩
    | case11 rest whens otherwise _ _ _ _ _ body hbody _ hlt _ _ _ ih =>
      exact fun hr hw ho ↦
        ih (hlt.le.trans hr) hw (((List.length_take_le' _ _).trans_lt hbody).trans_le hr)
    | _ => exact fun _ hw ho ↦ ⟨hw, ho⟩

end GoMesi
