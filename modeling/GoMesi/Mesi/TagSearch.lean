import GoMesi.Mesi.Markup
import GoMesi.Mesi.TokenStream

/-!
# Searching for tags

What a search finds in a concatenation of texts, and what one round of each scan for a close tag does.
A tag is found in the second of two texts, if it does not occur in the first one, because it has a
single `<`, at its beginning, and a `>` at most at its end.
-/

namespace GoMesi

open Strings

/-! ## Searching in a concatenation -/

theorem index_eq_zero_iff {s sub : Bytes} : index s sub = some 0 ↔ sub <+: s := by
  cases s with
  | nil =>
    rw [index, hasPrefix, ← List.isPrefixOf_iff_prefix]
    split_ifs with h <;> simp [h]
  | cons c s =>
    rw [index, hasPrefix, ← List.isPrefixOf_iff_prefix]
    split_ifs with h <;> simp [h]

/-- What does not begin in the first part is found in the second one. -/
theorem index_append {p r sub : Bytes} (h : ∀ i < p.length, ¬ sub <+: (p ++ r).drop i) :
    index (p ++ r) sub = (index r sub).map (· + p.length) := by
  induction p with
  | nil => cases hr : index r sub <;> simp [hr]
  | cons c p ih =>
    have htail := ih fun i hi ↦ h (i + 1) (Nat.succ_lt_succ hi)
    have hhead : hasPrefix (c :: (p ++ r)) sub = false := by
      rw [hasPrefix, Bool.eq_false_iff, ne_eq, List.isPrefixOf_iff_prefix]
      exact h 0 (Nat.succ_pos _)
    rw [List.cons_append, index, hhead, htail]
    cases index r sub <;> simp [Nat.add_assoc]

theorem lit_bracket : lit ">" = [0x3e] := by decide

/-- A tag starts with `<`, has no other one, and has a `>` at its end if anywhere. -/
def IsTag (t : Bytes) : Prop := t.head? = some 0x3c ∧ 0x3c ∉ t.tail ∧ 0x3e ∉ t.dropLast

instance (t : Bytes) : Decidable (IsTag t) := inferInstanceAs (Decidable (_ ∧ _ ∧ _))

theorem IsTag.eq_cons {t : Bytes} (h : IsTag t) : t = 0x3c :: t.tail := by
  obtain ⟨hhead, -⟩ := h
  cases t with
  | nil => simp at hhead
  | cons c t => rw [Option.some.inj hhead, List.tail_cons]

/-- A tag comes next, or nothing. -/
def TagNext (r : Bytes) : Prop := ∀ c ∈ r.head?, c = 0x3c

instance (r : Bytes) : Decidable (TagNext r) := inferInstanceAs (Decidable (∀ c ∈ r.head?, c = 0x3c))

theorem IsTag.tagNext {t : Bytes} (h : IsTag t) (r : Bytes) : TagNext (t ++ r) := by
  intro c hc
  rw [h.eq_cons] at hc
  exact (Option.some.inj hc).symm

/-- A tag that does not occur in a text does not begin in it. -/
theorem index_append_of_absent {s r t : Bytes} (ht : 0x3c ∉ t.tail) (hs : ¬ t <:+: s) (hr : TagNext r) :
    index (s ++ r) t = (index r t).map (· + s.length) := by
  refine index_append fun i hi hpre ↦ ?_
  rw [List.drop_append_of_le_length hi.le] at hpre
  rcases List.prefix_or_prefix_of_prefix hpre (List.prefix_append _ _) with hle | ⟨v, hv⟩
  · exact hs (hle.isInfix.trans (List.drop_suffix i s).isInfix)
  -- the tag would go on into what follows, which starts with a second `<`
  · rw [← hv, List.prefix_append_right_inj] at hpre
    cases v with
    | nil =>
      rw [List.append_nil] at hv
      exact hs (hv ▸ (List.drop_suffix i s).isInfix)
    | cons c v =>
      have hc : c = 0x3c := by
        obtain ⟨w, rfl⟩ := hpre
        exact hr c rfl
      have hne : s.drop i ≠ [] := List.ne_nil_of_length_pos (by rw [List.length_drop]; omega)
      refine ht ?_
      rw [← hv, List.tail_append_of_ne_nil hne]
      exact List.mem_append_right _ (hc ▸ List.mem_cons_self)

/-- Past another tag. -/
theorem index_append_of_isTag {p r t : Bytes} (ht : IsTag t) (hp : IsTag p) (h : ¬ t <+: p ++ r) :
    index (p ++ r) t = (index r t).map (· + p.length) := by
  refine index_append fun i hi hpre ↦ ?_
  cases i with
  | zero => exact h hpre
  | succ i =>
    have hlt : i < p.tail.length := by
      rw [List.length_tail]
      omega
    rw [hp.eq_cons, List.cons_append, List.drop_succ_cons,
      List.drop_append_of_le_length hlt.le] at hpre
    have hne : p.tail.drop i ≠ [] := List.ne_nil_of_length_pos (by rw [List.length_drop]; omega)
    obtain ⟨c, v, hv⟩ := List.exists_cons_of_ne_nil hne
    rw [hv, ht.eq_cons, List.cons_append, List.cons_prefix_cons] at hpre
    refine hp.2.1 (List.mem_of_mem_drop (i := i) ?_)
    rw [hv, hpre.1]
    exact List.mem_cons_self

/-- A tag that does not occur in a text with a `>` at its end does not begin in it. -/
theorem index_append_of_bracket {s r t : Bytes} (ht : IsTag t) (hs : ¬ t <:+: s ++ lit ">") :
    index (s ++ lit ">" ++ r) t = (index r t).map (· + (s ++ lit ">").length) := by
  refine index_append fun i hi hpre ↦ ?_
  rw [List.drop_append_of_le_length hi.le] at hpre
  rcases List.prefix_or_prefix_of_prefix hpre (List.prefix_append _ _) with hle | ⟨v, hv⟩
  · exact hs (hle.isInfix.trans (List.drop_suffix i _).isInfix)
  -- the tag would go on after its `>`
  · have hi' : i ≤ s.length := by
      rw [List.length_append] at hi
      exact Nat.le_of_lt_succ hi
    cases v with
    | nil =>
      rw [List.append_nil] at hv
      exact hs (hv ▸ (List.drop_suffix i _).isInfix)
    | cons c v =>
      refine ht.2.2 ?_
      rw [← hv, List.drop_append_of_le_length hi', List.dropLast_append_of_ne_nil (by simp)]
      simp [lit_bracket]

/-- Past an opening tag: `o` without its `>`, and what follows up to a `>`. -/
theorem index_append_of_opening {o attrs r t : Bytes} (ht : IsTag t) (ho : IsTag o)
    (h : ¬ t <+: o ++ (attrs ++ lit ">" ++ r)) (hattrs : ¬ t <:+: attrs ++ lit ">") :
    index (o ++ (attrs ++ lit ">" ++ r)) t =
      (index r t).map (· + (o ++ (attrs ++ lit ">")).length) := by
  rw [index_append_of_isTag ht ho h, index_append_of_bracket ht hattrs, Option.map_map]
  congr 1
  funext n
  simp only [Function.comp_apply, List.length_append]
  omega

/-- What is found in the first part is found. -/
theorem index_append_left {p r sub : Bytes} {n : ℕ} (h : index p sub = some n) :
    index (p ++ r) sub = some n := by
  induction p generalizing n with
  | nil =>
    rw [index, hasPrefix] at h
    split_ifs at h with hnil
    rw [List.nil_append, ← h, index_eq_zero_iff,
      List.prefix_nil.mp (List.isPrefixOf_iff_prefix.mp hnil)]
    exact List.nil_prefix
  | cons c p ih =>
    rw [index] at h
    rw [List.cons_append, index]
    split_ifs at h with hpre
    · rw [if_pos]
      · exact h
      · rw [hasPrefix, List.isPrefixOf_iff_prefix] at hpre ⊢
        exact hpre.trans (List.prefix_append _ _)
    · obtain ⟨m, hm, rfl⟩ := Option.map_eq_some_iff.mp h
      rw [ih hm, if_neg]
      · rfl
      · intro hlong
        refine hpre ?_
        rw [hasPrefix, List.isPrefixOf_iff_prefix] at hlong ⊢
        have hle := index_le hm
        refine List.prefix_of_prefix_length_le hlong (List.prefix_append _ _) ?_
        rw [List.length_cons]
        omega

/-- The first occurrence of a byte. -/
theorem index_byte {p : Bytes} {c : UInt8} (hp : c ∉ p) (r : Bytes) :
    index (p ++ c :: r) [c] = some p.length := by
  have hself : index (c :: r) [c] = some 0 := index_eq_zero_iff.mpr ⟨r, rfl⟩
  rw [index_append, hself, Option.map_some, Nat.zero_add]
  intro i hi hpre
  rw [List.drop_append_of_le_length hi.le] at hpre
  obtain ⟨b, v, hv⟩ := List.exists_cons_of_ne_nil
    (List.ne_nil_of_length_pos (l := p.drop i) (by rw [List.length_drop]; omega))
  rw [hv] at hpre
  have hb : c = b := (List.cons_prefix_cons.mp hpre).1
  exact hp (List.mem_of_mem_drop (i := i) (hv ▸ hb ▸ List.mem_cons_self))

theorem index_bracket {p : Bytes} (hp : 0x3e ∉ p) (r : Bytes) :
    index (p ++ (lit ">" ++ r)) (lit ">") = some p.length := index_byte hp r

/-- A text with a `>` at its end is the text up to its first `>` and one that is empty or has a `>` at
its end as well. -/
theorem exists_first_bracket (attrs : Bytes) : ∃ a rest, attrs ++ lit ">" = a ++ lit ">" ++ rest ∧
    0x3e ∉ a ∧ (rest = [] ∨ ∃ v, rest = v ++ lit ">") := by
  induction attrs with
  | nil => exact ⟨[], [], rfl, by simp, .inl rfl⟩
  | cons c attrs ih =>
    by_cases hc : c = 0x3e
    · exact ⟨[], attrs ++ lit ">", by simp [hc, lit_bracket], by simp, .inr ⟨attrs, rfl⟩⟩
    · obtain ⟨a, rest, heq, ha, hrest⟩ := ih
      refine ⟨c :: a, rest, by rw [List.cons_append, heq]; rfl, ?_, hrest⟩
      rw [List.mem_cons, not_or]
      exact ⟨Ne.symm hc, ha⟩

theorem first_bracket_unique {p q x y : Bytes} (h : p ++ lit ">" ++ x = q ++ lit ">" ++ y)
    (hp : 0x3e ∉ p) (hq : 0x3e ∉ q) : p = q ∧ x = y := by
  rw [List.append_assoc, List.append_assoc] at h
  have hlength : p.length = q.length :=
    Option.some.inj ((index_bracket hp x).symm.trans (h ▸ index_bracket hq y))
  obtain ⟨rfl, h⟩ := List.append_inj h hlength
  exact ⟨rfl, List.append_cancel_left (List.append_cancel_left h)⟩

/-- What is found is the first. -/
theorem not_isPrefix_drop_of_index {s sub : Bytes} {n : ℕ} (h : index s sub = some n) :
    ∀ i < n, ¬ sub <+: s.drop i := by
  induction s generalizing n with
  | nil =>
    rw [index] at h
    split_ifs at h
    rw [← Option.some.inj h]
    exact fun i hi ↦ absurd hi (Nat.not_lt_zero i)
  | cons b s ih =>
    rw [index] at h
    split_ifs at h with hpre
    · rw [← Option.some.inj h]
      exact fun i hi ↦ absurd hi (Nat.not_lt_zero i)
    · obtain ⟨m, hm, rfl⟩ := Option.map_eq_some_iff.mp h
      intro i hi
      cases i with
      | zero =>
        rw [hasPrefix, List.isPrefixOf_iff_prefix] at hpre
        exact hpre
      | succ i => exact ih hm i (Nat.lt_of_succ_lt_succ hi)

/-- It does not occur in what is no longer than the text before it. -/
theorem not_isInfix_of_index {s sub pre post : Bytes} {n : ℕ} (h : index s sub = some n)
    (hsub : sub ≠ []) (hs : s = pre ++ post) (hpre : pre.length ≤ n) : ¬ sub <:+: pre := by
  rintro ⟨a, b, rfl⟩
  have hpos := List.length_pos_of_ne_nil hsub
  simp only [List.length_append] at hpre
  refine not_isPrefix_drop_of_index h a.length (by omega) ?_
  rw [hs, List.append_assoc, List.append_assoc, List.drop_left]
  exact List.prefix_append _ _

/-- The first occurrence of a byte after a text without it. -/
theorem exists_of_index_byte {p s : Bytes} {b : UInt8} {n : ℕ} (hp : b ∉ p)
    (h : index (p ++ s) [b] = some n) :
    ∃ before after, s = before ++ b :: after ∧ b ∉ before ∧ n = p.length + before.length := by
  obtain ⟨pre, post, hs, rfl⟩ := index_spec h
  have hpre : b ∉ pre := by
    rw [← List.singleton_infix_iff]
    exact not_isInfix_of_index h (List.cons_ne_nil _ _) (hs.trans (List.append_assoc _ _ _)) le_rfl
  rw [List.append_assoc, List.append_eq_append_iff] at hs
  rcases hs with ⟨before, rfl, hs⟩ | ⟨before, rfl, hs⟩
  · exact ⟨before, post, hs, fun hb ↦ hpre (List.mem_append_right _ hb), List.length_append⟩
  · cases before with
    | nil => exact ⟨[], post, by simpa using hs.symm, by simp, by simp⟩
    | cons b' before =>
      obtain ⟨rfl, -⟩ := List.cons.inj hs
      exact absurd (List.mem_append_right _ List.mem_cons_self) hp

/-! ## The first of two tags -/

theorem firstOf_append {p r a b : Bytes} (ha : index (p ++ r) a = (index r a).map (· + p.length))
    (hb : index (p ++ r) b = (index r b).map (· + p.length)) :
    firstOf (p ++ r) a b = (firstOf r a b).map (· + p.length) := by
  have hbefore : before (index (p ++ r) a) (index (p ++ r) b) = before (index r a) (index r b) := by
    rw [ha, hb]
    cases index r a <;> cases index r b <;> simp [before]
  rw [firstOf, firstOf, hbefore]
  split_ifs
  · exact ha
  · exact hb

theorem firstOf_eq_zero {s a b : Bytes} (h : index s a = some 0 ∨ index s b = some 0) :
    firstOf s a b = some 0 := by
  rw [firstOf]
  rcases h with h | h
  · rw [h]
    cases hb : index s b with
    | none => rfl
    | some n => cases n <;> simp [before]
  · rw [h]
    cases ha : index s a <;> simp [before]

theorem exists_firstOf {s a b : Bytes} (h : a <:+: s ∨ b <:+: s) : ∃ c, firstOf s a b = some c := by
  rw [← not_not (a := a <:+: s), ← not_not (a := b <:+: s), ← index_eq_none_iff,
    ← index_eq_none_iff] at h
  rw [firstOf]
  cases ha : index s a <;> cases hb : index s b <;> simp_all [before]
  split_ifs <;> simp

theorem filter_map_add (x : Option ℕ) (c n : ℕ) :
    (x.map (· + n)).filter (· < c + n) = (x.filter (· < c)).map (· + n) := by
  cases x with
  | none => rfl
  | some x => by_cases h : x < c <;> simp [Option.filter, h]

theorem filter_zero {c : ℕ} (h : 0 < c) : (some 0).filter (fun n : ℕ ↦ n < c) = some 0 :=
  if_pos (decide_eq_true h)

theorem filter_lt_zero (x : Option ℕ) : x.filter (fun n : ℕ ↦ n < 0) = none :=
  Option.filter_eq_none_iff.mpr fun _ _ ↦ by simp

/-! ## The close tag of a child -/

section

variable {tags : ChildTags} {depth : ℤ} {pos c o e : ℕ} {rest : Bytes}

theorem findChildClose_loop_none (hc : firstOf rest tags.close tags.closeBlock = none) :
    findChildClose.loop tags depth pos rest = none := by
  rw [findChildClose.loop]
  split
  · rfl
  · simp_all

theorem findChildClose_loop_unclosed (hc : firstOf rest tags.close tags.closeBlock = some c)
    (ho : (firstOf rest tags.open_ tags.openBlock).filter (· < c) = some o)
    (he : index (rest.drop o) (lit ">") = none) :
    findChildClose.loop tags depth pos rest = none := by
  rw [findChildClose.loop]
  split
  · rfl
  · rename_i c' hc'
    obtain rfl : c = c' := Option.some.inj (hc.symm.trans hc')
    simp only [ho]
    split
    · rfl
    · simp_all

theorem findChildClose_loop_open (hc : firstOf rest tags.close tags.closeBlock = some c)
    (ho : (firstOf rest tags.open_ tags.openBlock).filter (· < c) = some o)
    (he : index (rest.drop o) (lit ">") = some e) :
    findChildClose.loop tags depth pos rest =
      findChildClose.loop tags (depth + 1) (pos + o + e + 1) (rest.drop (o + e + 1)) := by
  rw [findChildClose.loop]
  split
  · simp_all
  · rename_i c' hc'
    obtain rfl : c = c' := Option.some.inj (hc.symm.trans hc')
    simp only [ho]
    split
    · simp_all
    · rename_i e' he'
      obtain rfl : e = e' := Option.some.inj (he.symm.trans he')
      rfl

theorem findChildClose_loop_close (hc : firstOf rest tags.close tags.closeBlock = some c)
    (ho : (firstOf rest tags.open_ tags.openBlock).filter (· < c) = none) :
    findChildClose.loop tags depth pos rest =
      if depth = 0 ∧ index rest tags.close = some c then some (pos + c)
      else findChildClose.loop tags (depth - 1) (pos + c + tags.skipLen rest c)
        (rest.drop (c + tags.skipLen rest c)) := by
  rw [findChildClose.loop]
  split
  · simp_all
  · rename_i c' hc'
    obtain rfl : c = c' := Option.some.inj (hc.symm.trans hc')
    simp only [ho]

end

/-- The tags a scan looks at. -/
def ChildTags.all (tags : ChildTags) : List Bytes :=
  [tags.close, tags.closeBlock, tags.open_, tags.openBlock]

theorem findChildClose_loop_skip {tags : ChildTags} {p r : Bytes}
    (h : ∀ t ∈ tags.all, index (p ++ r) t = (index r t).map (· + p.length)) (depth : ℤ) (pos : ℕ) :
    findChildClose.loop tags depth pos (p ++ r) =
      findChildClose.loop tags depth (pos + p.length) r := by
  have hclose : firstOf (p ++ r) tags.close tags.closeBlock = _ :=
    firstOf_append (h _ (by simp [ChildTags.all])) (h _ (by simp [ChildTags.all]))
  have hopen : firstOf (p ++ r) tags.open_ tags.openBlock = _ :=
    firstOf_append (h _ (by simp [ChildTags.all])) (h _ (by simp [ChildTags.all]))
  have hdrop (n : ℕ) : (p ++ r).drop (n + p.length) = r.drop n := by
    rw [Nat.add_comm, List.drop_length_add_append]
  cases hc : firstOf r tags.close tags.closeBlock with
  | none =>
    rw [findChildClose_loop_none (by rw [hclose, hc]; rfl), findChildClose_loop_none hc]
  | some c =>
    have hc' : firstOf (p ++ r) tags.close tags.closeBlock = some (c + p.length) := by
      rw [hclose, hc]
      rfl
    have hfilter := filter_map_add (firstOf r tags.open_ tags.openBlock) c p.length
    rw [← hopen] at hfilter
    cases ho : (firstOf r tags.open_ tags.openBlock).filter (· < c) with
    | some o =>
      rw [ho, Option.map_some] at hfilter
      cases he : index (r.drop o) (lit ">") with
      | none =>
        rw [findChildClose_loop_unclosed hc' hfilter (by rw [hdrop]; exact he),
          findChildClose_loop_unclosed hc ho he]
      | some e =>
        rw [findChildClose_loop_open hc' hfilter (by rw [hdrop]; exact he),
          findChildClose_loop_open hc ho he, Nat.add_right_comm o, Nat.add_right_comm (o + e), hdrop]
        congr 1
        omega
    | none =>
      rw [ho] at hfilter
      have hown : index (p ++ r) tags.close = some (c + p.length) ↔ index r tags.close = some c := by
        rw [h _ (by simp [ChildTags.all])]
        cases index r tags.close <;> simp
      have hskip : tags.skipLen (p ++ r) (c + p.length) = tags.skipLen r c := by
        rw [ChildTags.skipLen, ChildTags.skipLen]
        exact if_congr hown rfl rfl
      rw [findChildClose_loop_close hc' hfilter, findChildClose_loop_close hc ho, hskip,
        Nat.add_right_comm c, hdrop]
      refine if_congr (and_congr_right fun _ ↦ hown) (congrArg some (by omega)) ?_
      congr 1
      omega

/-! ## The end of a block -/

section

variable {openTag closeTag : Bytes} {hne : closeTag ≠ []} {depth : ℤ} {pos c o e : ℕ} {rest : Bytes}

theorem findMatchingEndTag_loop_none (hc : index rest closeTag = none) :
    findMatchingEndTag.loop openTag closeTag hne depth pos rest = none := by
  rw [findMatchingEndTag.loop]
  split
  · rfl
  · simp_all

theorem findMatchingEndTag_loop_unclosed (hc : index rest closeTag = some c)
    (ho : (index rest openTag).filter (· < c) = some o)
    (he : index (rest.drop o) (lit ">") = none) :
    findMatchingEndTag.loop openTag closeTag hne depth pos rest = none := by
  rw [findMatchingEndTag.loop]
  split
  · rfl
  · rename_i c' hc'
    obtain rfl : c = c' := Option.some.inj (hc.symm.trans hc')
    simp only [ho]
    split
    · rfl
    · simp_all

theorem findMatchingEndTag_loop_open (hc : index rest closeTag = some c)
    (ho : (index rest openTag).filter (· < c) = some o)
    (he : index (rest.drop o) (lit ">") = some e) :
    findMatchingEndTag.loop openTag closeTag hne depth pos rest =
      findMatchingEndTag.loop openTag closeTag hne (depth + 1) (pos + o + e + 1)
        (rest.drop (o + e + 1)) := by
  rw [findMatchingEndTag.loop]
  split
  · simp_all
  · rename_i c' hc'
    obtain rfl : c = c' := Option.some.inj (hc.symm.trans hc')
    simp only [ho]
    split
    · simp_all
    · rename_i e' he'
      obtain rfl : e = e' := Option.some.inj (he.symm.trans he')
      rfl

theorem findMatchingEndTag_loop_close (hc : index rest closeTag = some c)
    (ho : (index rest openTag).filter (· < c) = none) :
    findMatchingEndTag.loop openTag closeTag hne depth pos rest =
      if depth - 1 = 0 then some (pos + c)
      else findMatchingEndTag.loop openTag closeTag hne (depth - 1) (pos + c + closeTag.length)
        (rest.drop (c + closeTag.length)) := by
  rw [findMatchingEndTag.loop]
  split
  · simp_all
  · rename_i c' hc'
    obtain rfl : c = c' := Option.some.inj (hc.symm.trans hc')
    simp only [ho]

theorem findMatchingEndTag_loop_skip {p r : Bytes}
    (hclose : index (p ++ r) closeTag = (index r closeTag).map (· + p.length))
    (hopen : index (p ++ r) openTag = (index r openTag).map (· + p.length)) (depth : ℤ) (pos : ℕ) :
    findMatchingEndTag.loop openTag closeTag hne depth pos (p ++ r) =
      findMatchingEndTag.loop openTag closeTag hne depth (pos + p.length) r := by
  have hdrop (n : ℕ) : (p ++ r).drop (n + p.length) = r.drop n := by
    rw [Nat.add_comm, List.drop_length_add_append]
  cases hc : index r closeTag with
  | none =>
    rw [findMatchingEndTag_loop_none (by rw [hclose, hc]; rfl), findMatchingEndTag_loop_none hc]
  | some c =>
    rw [hc, Option.map_some] at hclose
    have hfilter := filter_map_add (index r openTag) c p.length
    rw [← hopen] at hfilter
    cases ho : (index r openTag).filter (· < c) with
    | some o =>
      rw [ho, Option.map_some] at hfilter
      cases he : index (r.drop o) (lit ">") with
      | none =>
        rw [findMatchingEndTag_loop_unclosed hclose hfilter (by rw [hdrop]; exact he),
          findMatchingEndTag_loop_unclosed hc ho he]
      | some e =>
        rw [findMatchingEndTag_loop_open hclose hfilter (by rw [hdrop]; exact he),
          findMatchingEndTag_loop_open hc ho he, Nat.add_right_comm o, Nat.add_right_comm (o + e),
          hdrop]
        congr 1
        omega
    | none =>
      rw [ho] at hfilter
      rw [findMatchingEndTag_loop_close hclose hfilter, findMatchingEndTag_loop_close hc ho,
        Nat.add_right_comm c, hdrop]
      refine if_congr Iff.rfl (congrArg some (by omega)) ?_
      congr 1
      omega

end

end GoMesi
