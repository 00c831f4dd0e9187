import GoMesi.Servers.ParseConfig

/-!
# Reading the request context

The context of a request is an object with the headers and with the cookies. nginx and Apache write
one value for each header, PHP also an array of them. All that is written is valid JSON whatever the
bytes are, and what is read of it are the same names and values, up to what is not valid UTF-8
(`reads_context`).
-/

namespace GoMesi

open Strings Strconv Json

/-! ## The text and the value of a context -/

/-- The value of a header: a string, or all its values, which only PHP writes. -/
inductive HeaderJson
  | one (v : Bytes)
  | many (vs : List Bytes)

/-- Texts in brackets. -/
def arrayText (texts : List Bytes) : Bytes := 0x5b :: (commas texts ++ [0x5d])

namespace HeaderJson

def text : HeaderJson → Bytes
  | one v => jsonText v
  | many vs => arrayText (vs.map jsonText)

def value : HeaderJson → Value
  | one v => .string (toValid v)
  | many vs => .array (vs.map fun v ↦ .string (toValid v))

end HeaderJson

/-- A name with its value. -/
abbrev NamedHeader := Bytes × HeaderJson

def headersText (headers : List NamedHeader) : Bytes :=
  0x7b :: (commas (headers.map fun h ↦ pairText (jsonText h.1) h.2.text) ++ [0x7d])

def headersValue (headers : List NamedHeader) : Value :=
  .object (headers.map fun h ↦ (toValid h.1, h.2.value))

def cookieValue (c : Bytes × Bytes) : Value :=
  .object [(lit "name", .string (toValid c.1)), (lit "value", .string (toValid c.2))]

/-- The members of a context, with their texts. -/
def contextMembers (headers : List NamedHeader) (cookies : List (Bytes × Bytes)) :
    List (Bytes × Bytes × Value) :=
  [(lit "headers", headersText headers, headersValue headers),
    (lit "cookies", arrayText (cookies.map cookieText), .array (cookies.map cookieValue))]

/-- What is read of a request context. -/
def contextValue (headers : List NamedHeader) (cookies : List (Bytes × Bytes)) : Value :=
  .object ((contextMembers headers cookies).map fun m ↦ (m.1, m.2.2))

/-- A header with one value. -/
def single (h : Bytes × Bytes) : NamedHeader := (h.1, .one h.2)

/-- nginx and Apache write the members of a context that has one value for each header. -/
theorem requestContext_eq (headers cookies : List (Bytes × Bytes)) :
    requestContext headers cookies = membersText (contextMembers (headers.map single) cookies) := by
  simp only [membersText, contextMembers, List.map_cons, List.map_nil, commas_cons_cons,
    commas_singleton, member, requestContext, headersText, arrayText, List.append_assoc,
    List.cons_append, List.map_map]
  rfl

/-! ### Reading it -/

theorem readsName_jsonText (s : Bytes) : ReadsName (jsonText s) (some (toValid s)) := by
  have h := readsName_quoted Php.escapes_escapeByte s
  rwa [if_pos (Php.legible_escapeByte s)] at h

theorem reads_jsonText (depth : ℕ) (s : Bytes) :
    ReadsAs depth (jsonText s) (some (.string (toValid s))) := by
  have h := reads_quoted Php.escapes_escapeByte depth s
  rwa [if_pos (Php.legible_escapeByte s)] at h

section

variable {ι : Type} {depth : ℕ} {text : ι → Bytes} {val : ι → Value}

theorem reads_arrayText (h : ∀ x, ReadsAs depth (text x) (some (val x))) (xs : List ι) :
    ReadsAs (depth + 1) (arrayText (xs.map text)) (some (.array (xs.map val))) := by
  cases xs with
  | nil => exact reads_array_nil depth
  | cons x xs =>
    have harray : ReadsAs (depth + 1) (arrayText ((x :: xs).map text)) _ := reads_array fun y _ ↦ h y
    have hvalues : ((x :: xs).mapM fun y ↦ some (val y)) = some ((x :: xs).map val) :=
      List.mapM_pure
    rwa [hvalues] at harray

theorem reads_pairs (name : ι → Bytes) (h : ∀ x, ReadsAs depth (text x) (some (val x))) (xs : List ι) :
    ReadsAs (depth + 1) (0x7b :: (commas (xs.map fun x ↦ pairText (jsonText (name x)) (text x)) ++
      [0x7d])) (some (.object (xs.map fun x ↦ (toValid (name x), val x)))) := by
  cases xs with
  | nil => exact reads_object_nil depth
  | cons x xs =>
    have hmembers : ∀ y ∈ x :: xs, ReadsName (jsonText (name y)) (some (toValid (name y))) ∧
        ReadsAs depth (text y) (some (val y)) := fun y _ ↦ ⟨readsName_jsonText (name y), h y⟩
    have hobject := reads_object hmembers
    have hpairs : ((x :: xs).mapM fun y ↦ pair? (some (toValid (name y))) (some (val y))) =
        some ((x :: xs).map fun y ↦ (toValid (name y), val y)) := List.mapM_pure
    rwa [hpairs] at hobject

end

theorem reads_headerJson (depth : ℕ) (h : HeaderJson) : ReadsAs (depth + 1) h.text (some h.value) := by
  cases h with
  | one v => exact reads_jsonText (depth + 1) v
  | many vs => exact reads_arrayText (reads_jsonText depth) vs

theorem reads_cookieText (depth : ℕ) (c : Bytes × Bytes) :
    ReadsAs (depth + 1) (cookieText c) (some (cookieValue c)) := by
  have h := reads_pairs Prod.fst (fun p : Bytes × Bytes ↦ reads_jsonText depth p.2)
    [(lit "name", c.1), (lit "value", c.2)]
  have htext : 0x7b :: (commas ([(lit "name", c.1), (lit "value", c.2)].map fun p ↦
      pairText (jsonText p.1) (jsonText p.2)) ++ [0x7d]) = cookieText c := by
    simp only [List.map_cons, List.map_nil, commas_cons_cons, commas_singleton, pairText,
      List.append_assoc, List.cons_append]
    rfl
  rwa [htext] at h

theorem isName_contextMembers : IsName (lit "headers") ∧ IsName (lit "cookies") := by
  unfold IsName
  decide +kernel

theorem readsName_of_isName {name : Bytes} (h : IsName name) :
    ReadsName (0x22 :: (name ++ [0x22])) (some name) where
  starts := ⟨_, rfl⟩
  run rest := by
    rw [List.cons_append, List.append_assoc]
    exact string_name h rest

theorem reads_membersText {depth : ℕ} {m : Bytes × Bytes × Value} {ms : List (Bytes × Bytes × Value)}
    (h : ∀ m' ∈ m :: ms, IsName m'.1 ∧ ReadsAs depth m'.2.1 (some m'.2.2)) :
    ReadsAs (depth + 1) (membersText (m :: ms))
      (some (.object ((m :: ms).map fun m ↦ (m.1, m.2.2)))) := by
  have hmembers : ∀ m' ∈ m :: ms, ReadsName (0x22 :: (m'.1 ++ [0x22])) (some m'.1) ∧
      ReadsAs depth m'.2.1 (some m'.2.2) := fun m' hm' ↦
    ⟨readsName_of_isName (h m' hm').1, (h m' hm').2⟩
  have hobject := reads_object hmembers
  have hpairs : ((m :: ms).mapM fun m' ↦ pair? (some m'.1) (some m'.2.2)) =
      some ((m :: ms).map fun m' ↦ (m'.1, m'.2.2)) := List.mapM_pure
  have htexts : ((m :: ms).map fun m' ↦ pairText (0x22 :: (m'.1 ++ [0x22])) m'.2.1) =
      (m :: ms).map fun m' ↦ member m'.1 m'.2.1 :=
    List.map_congr_left fun m' _ ↦ by
      simp only [pairText, member, List.cons_append, List.append_assoc, List.nil_append]
  rwa [hpairs, htexts] at hobject

theorem reads_contextMembers (depth : ℕ) (headers : List NamedHeader)
    (cookies : List (Bytes × Bytes)) : ∀ m ∈ contextMembers headers cookies,
      IsName m.1 ∧ ReadsAs (depth + 2) m.2.1 (some m.2.2) := by
  refine List.forall_mem_cons.mpr ⟨⟨isName_contextMembers.1, ?_⟩,
    List.forall_mem_singleton.mpr ⟨isName_contextMembers.2, ?_⟩⟩
  · exact reads_pairs Prod.fst (fun h : NamedHeader ↦ reads_headerJson depth h.2) headers
  · exact reads_arrayText (reads_cookieText depth) cookies

/-- **A request context** is read as its headers and its cookies. -/
theorem reads_context (depth : ℕ) (headers : List NamedHeader) (cookies : List (Bytes × Bytes)) :
    ReadsAs (depth + 3) (membersText (contextMembers headers cookies))
      (some (contextValue headers cookies)) :=
  reads_membersText (reads_contextMembers depth headers cookies)

theorem zero_not_mem_commas {texts : List Bytes} (h : ∀ t ∈ texts, 0 ∉ t) : 0 ∉ commas texts := by
  induction texts with
  | nil => exact List.not_mem_nil
  | cons s ss ih =>
    rw [List.forall_mem_cons] at h
    rw [commas_cons]
    refine List.not_mem_append h.1 fun hmem ↦ ?_
    obtain ⟨t, ht, hzero⟩ := List.mem_flatMap.mp hmem
    rcases List.mem_cons.mp hzero with hzero | hzero
    · exact absurd hzero (by decide)
    · exact h.2 t ht hzero

theorem zero_not_mem_arrayText {texts : List Bytes} (h : ∀ t ∈ texts, 0 ∉ t) :
    0 ∉ arrayText texts :=
  List.not_mem_append (s := [0x5b]) (by decide) <|
    List.not_mem_append (zero_not_mem_commas h) (by decide)

theorem zero_not_mem_headersText (headers : List NamedHeader) : 0 ∉ headersText headers := by
  have htext (h : HeaderJson) : 0 ∉ h.text := by
    cases h with
    | one v => exact zero_not_mem_jsonText v
    | many vs =>
      exact zero_not_mem_arrayText (List.forall_mem_map.mpr fun v _ ↦ zero_not_mem_jsonText v)
  refine List.not_mem_append (s := [0x7b]) (by decide) <|
    List.not_mem_append (zero_not_mem_commas (List.forall_mem_map.mpr fun h _ ↦ ?_)) (by decide)
  exact List.not_mem_append (zero_not_mem_jsonText h.1) <|
    List.not_mem_append (s := [0x3a]) (by decide) (htext h.2)

theorem zero_not_mem_context (headers : List NamedHeader) (cookies : List (Bytes × Bytes)) :
    0 ∉ membersText (contextMembers headers cookies) := by
  have hcookie (c : Bytes × Bytes) : 0 ∉ cookieText c := by
    rw [cookieText]
    exact List.not_mem_append (by decide) <| List.not_mem_append (zero_not_mem_jsonText c.1) <|
      List.not_mem_append (by decide) <| List.not_mem_append (zero_not_mem_jsonText c.2) (by decide)
  have hmember {name text : Bytes} (hname : 0 ∉ name) (htext : 0 ∉ text) : 0 ∉ member name text :=
    List.not_mem_append (s := [0x22]) (by decide) <| List.not_mem_append hname <|
      List.not_mem_append (s := [0x22, 0x3a]) (by decide) htext
  have hcookies : 0 ∉ arrayText (cookies.map cookieText) :=
    zero_not_mem_arrayText (List.forall_mem_map.mpr fun c _ ↦ hcookie c)
  have hheaders : 0 ∉ lit "headers" ∧ 0 ∉ lit "cookies" := by decide
  have hmembers : 0 ∉ commas ((contextMembers headers cookies).map fun m ↦ member m.1 m.2.1) :=
    zero_not_mem_commas <| List.forall_mem_cons.mpr
      ⟨hmember hheaders.1 (zero_not_mem_headersText headers),
        List.forall_mem_singleton.mpr (hmember hheaders.2 hcookies)⟩
  exact List.not_mem_append (s := [0x7b]) (by decide) (List.not_mem_append hmembers (by decide))

end GoMesi
