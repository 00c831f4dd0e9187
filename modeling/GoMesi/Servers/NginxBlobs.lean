import GoMesi.Servers.EdgeControl
import GoMesi.Servers.RequestContext

/-!
# Two passes

The nginx module builds two texts for libgomesi, the context of a request and the configuration of a
parse, and both in two passes: the first adds up the lengths, the second writes into a block of that
size. The passes over the headers are separate loops, and the second is even two loops, one for the
headers and one for the cookies. They come to the same length for all lists of headers and all
configurations (`twoPasses`), so that the second pass fills the block to its last byte.

Sizes do not wrap here.
-/

namespace GoMesi.Nginx

open Strings C
open C.Write (copy put terminate)

/-! ## Strings in JSON -/

/-- `mesi_json_escaped_len` -/
def jsonEscapedLen (s : Bytes) : ℕ :=
  s.foldl (fun n c ↦
    if c = 0x22 ∨ c = 0x5c then n + 2
    else if c < 0x20 then n + 6
    else n + 1) 0

/-- The body of the loop of `mesi_json_write_escaped`. -/
def writeEscapedByte (c : UInt8) : Write Unit := do
  if c = 0x22 ∨ c = 0x5c then
    put 0x5c
    put c
  else if c < 0x20 then
    put 0x5c
    put 0x75
    put 0x30
    put 0x30
    put (Php.hexDigit (c.toNat / 16))
    put (Php.hexDigit (c.toNat % 16))
  else put c

/-- `mesi_json_write_escaped` -/
def jsonWriteEscaped (s : Bytes) : Write Unit := s.forM writeEscapedByte

/-- `mesi_json_append_str` -/
def jsonAppendStr (s : Bytes) : Write Unit := do
  put 0x22
  jsonWriteEscaped s
  put 0x22

theorem emits_writeEscapedByte (c : UInt8) : Emits (writeEscapedByte c) (Php.escapeByte c) () := by
  rw [writeEscapedByte, Php.escapeByte]
  by_cases hquote : c = 0x22
  · rw [if_pos (.inl hquote), if_pos hquote, hquote]
    exact (emits_put 0x5c).bind (emits_put 0x22)
  by_cases hbackslash : c = 0x5c
  · rw [if_pos (.inr hbackslash), if_neg hquote, if_pos hbackslash, hbackslash]
    exact (emits_put 0x5c).bind (emits_put 0x5c)
  rw [if_neg (not_or.mpr ⟨hquote, hbackslash⟩), if_neg hquote, if_neg hbackslash]
  refine .ite (fun _ ↦ ?_) fun _ ↦ emits_put c
  exact (emits_put 0x5c).bind <| (emits_put 0x75).bind <| (emits_put 0x30).bind <|
    (emits_put 0x30).bind <| (emits_put _).bind <| emits_put _

theorem emits_jsonAppendStr (s : Bytes) : Emits (jsonAppendStr s) (jsonText s) () :=
  (emits_put 0x22).bind <| (Appends.forM emits_writeEscapedByte s).bind <| emits_put 0x22

theorem jsonEscapedLen_eq (s : Bytes) : jsonEscapedLen s = (s.flatMap Php.escapeByte).length := by
  have hunicode : (lit "\\u00").length = 4 := by decide
  have hstep (n : ℕ) (c : UInt8) :
      (if c = 0x22 ∨ c = 0x5c then n + 2 else if c < 0x20 then n + 6 else n + 1) =
        n + (Php.escapeByte c).length := by
    rw [Php.escapeByte]
    by_cases hquote : c = 0x22
    · rw [if_pos (.inl hquote), if_pos hquote]
      rfl
    by_cases hbackslash : c = 0x5c
    · rw [if_pos (.inr hbackslash), if_neg hquote, if_pos hbackslash]
      rfl
    rw [if_neg (not_or.mpr ⟨hquote, hbackslash⟩), if_neg hquote, if_neg hbackslash]
    by_cases hcontrol : c < 0x20
    · rw [if_pos hcontrol, if_pos hcontrol, List.length_append, hunicode]
      rfl
    · rw [if_neg hcontrol, if_neg hcontrol]
      rfl
  have hfold (n : ℕ) (s : Bytes) :
      s.foldl (fun n c ↦ if c = 0x22 ∨ c = 0x5c then n + 2 else if c < 0x20 then n + 6 else n + 1) n =
        n + (s.flatMap Php.escapeByte).length := by
    induction s generalizing n with
    | nil => rfl
    | cons c s ih =>
      rw [List.foldl_cons, ih, hstep, List.flatMap_cons, List.length_append, Nat.add_assoc]
  rw [jsonEscapedLen, hfold, Nat.zero_add]

theorem length_jsonText (s : Bytes) : (jsonText s).length = 2 + jsonEscapedLen s := by
  have hquote : (lit "\"").length = 1 := by decide
  rw [jsonText, List.length_append, List.length_append, hquote, jsonEscapedLen_eq]
  omega

/-! ## Headers -/

/-- `ngx_table_elt_t` -/
structure Header where
  /-- Zero for a header that is hidden. -/
  hash : ℕ
  key : Bytes
  value : Bytes

/-- A part of a list. What follows the first `nelts` elements in memory is arbitrary. -/
structure Part where
  elts : ℕ → Header
  nelts : ℕ

/-- `ngx_list_t`: its first part, and the parts after it. -/
structure HeaderList where
  part : Part
  next : List Part

section Loop

variable {σ : Type} {m : Type → Type} [Monad m]

/-- The loop over the elements of a list. The step from one part to the next does not look at the
number of elements of the new one. -/
def forHeaders (body : σ → Header → m σ) (s : σ) (part : Part) (next : List Part) (i : ℕ) : m σ :=
  if i < part.nelts then do forHeaders body (← body s (part.elts i)) part next (i + 1)
  else
    match next with
    | [] => pure s
    | part' :: next' => do forHeaders body (← body s (part'.elts 0)) part' next' 1
termination_by (next.length, part.nelts - i)

/-- The elements that the loop comes to. -/
def visited (part : Part) (next : List Part) (i : ℕ) : List Header :=
  if i < part.nelts then part.elts i :: visited part next (i + 1)
  else
    match next with
    | [] => []
    | part' :: next' => part'.elts 0 :: visited part' next' 1
termination_by (next.length, part.nelts - i)

/-- Every loop over a list is one over the same elements. -/
theorem forHeaders_eq (body : σ → Header → m σ) (s : σ) (part : Part) (next : List Part) (i : ℕ) :
    forHeaders body s part next i = (visited part next i).foldlM body s := by
  induction part, next, i using visited.induct generalizing s with
  | case1 part next i hi ih =>
    rw [forHeaders.eq_def, if_pos hi, visited.eq_def, if_pos hi, List.foldlM_cons]
    simp only [ih]
  | case2 part i hi =>
    rw [forHeaders.eq_def, if_neg hi, visited.eq_def, if_neg hi]
    rfl
  | case3 part i hi part' next' ih =>
    rw [forHeaders.eq_def, if_neg hi, visited.eq_def, if_neg hi, List.foldlM_cons]
    simp only [ih]

end Loop

/-- The elements of a list that the loops come to. -/
def HeaderList.elements (l : HeaderList) : List Header := visited l.part l.next 0

/-- A header with the name `cookie`, in any case. -/
def Header.isCookie (h : Header) : Bool :=
  decide (h.key.length = 6) && strncasecmpEq h.key (lit "cookie")

/-! ## The context of a request -/

/-- What the first pass keeps. -/
structure Measure where
  total : ℕ
  nHeaders : ℕ := 0
  nCookies : ℕ := 0

def measureCookie (m : Measure) (cookie : Bytes × Bytes) : Measure :=
  let nCookies := m.nCookies + 1
  let total := m.total + (22 + jsonEscapedLen cookie.1 + jsonEscapedLen cookie.2)
  { m with nCookies := nCookies, total := if nCookies > 1 then total + 1 else total }

/-- The body of the loop of the first pass. -/
def measureHeader (m : Measure) (h : Header) : Measure :=
  if h.hash = 0 then m
  else if h.isCookie then (cookies h.value).foldl measureCookie m
  else
    let nHeaders := m.nHeaders + 1
    let total := m.total + (5 + jsonEscapedLen h.key + jsonEscapedLen h.value)
    { m with nHeaders := nHeaders, total := if nHeaders > 1 then total + 1 else total }

/-- The first pass. -/
def measureContext (l : HeaderList) : ℕ :=
  let m : Id Measure :=
    forHeaders (fun m h ↦ pure (measureHeader m h)) { total := 12 + 13 + 2 + 1 } l.part l.next 0
  m.run.total

/-- A comma before each element but the first. -/
def comma (n : ℕ) : Write Unit := if n > 0 then put 0x2c else pure ()

/-- The body of the loop of the second pass over the headers. -/
def writeHeader (n : ℕ) (h : Header) : Write ℕ :=
  if h.hash = 0 then pure n
  else if h.isCookie then pure n
  else do
    comma n
    jsonAppendStr h.key
    put 0x3a
    jsonAppendStr h.value
    pure (n + 1)

def writeCookie (n : ℕ) (cookie : Bytes × Bytes) : Write ℕ := do
  comma n
  copy (lit "\x7b\"name\":")
  jsonAppendStr cookie.1
  copy (lit ",\"value\":")
  jsonAppendStr cookie.2
  put 0x7d
  pure (n + 1)

/-- The body of the loop of the second pass over the cookies. -/
def writeCookies (n : ℕ) (h : Header) : Write ℕ :=
  if h.hash = 0 then pure n
  else if h.isCookie then (cookies h.value).foldlM writeCookie n
  else pure n

/-- The second pass, before its NUL. -/
def writeContext (l : HeaderList) : Write Unit := do
  copy (lit "\x7b\"headers\":\x7b")
  let _ ← forHeaders writeHeader 0 l.part l.next 0
  copy (lit "\x7d,\"cookies\":[")
  let _ ← forHeaders writeCookies 0 l.part l.next 0
  put 0x5d
  put 0x7d

/-- What `build_request_ctx_json` gives: an empty string, `NULL`, or a block. -/
inductive Built
  | empty
  | null
  | block (b : Block)

/-- `build_request_ctx_json` -/
def buildRequestCtxJson (palloc : Bool) (l : HeaderList) (template : Option Bytes) :
    Except Stop Built :=
  match template with
  | none => .ok .empty
  | some template =>
    if template = [] then .ok .empty
    else if ¬ (contains template (lit "$\x7bheader:") || contains template (lit "$\x7bcookie:")) then
      .ok .empty
    else if ¬ palloc then .ok .null
    else
      ((do writeContext l; terminate : Write Unit) (Block.alloc (measureContext l))).map
        fun r ↦ .block r.2

/-! ## Both passes over the headers -/

namespace Header

variable (h : Header)

/-- A header that is passed on as one. -/
def isPlain : Bool := decide (h.hash ≠ 0) && !h.isCookie

/-- A header that is passed on as its cookies. -/
def hasCookies : Bool := decide (h.hash ≠ 0) && h.isCookie

def pair : Bytes × Bytes := (h.key, h.value)

end Header

/-- The headers of a list that are passed on. -/
def headers (xs : List Header) : List (Bytes × Bytes) := (xs.filter Header.isPlain).map Header.pair

/-- The cookies of a list. -/
def allCookies (xs : List Header) : List (Bytes × Bytes) :=
  (xs.filter Header.hasCookies).flatMap fun h ↦ cookies h.value

theorem emits_comma (n : ℕ) : Emits (comma n) (if decide (n > 0) then lit "," else []) () := by
  rw [comma]
  by_cases hn : n > 0
  · rw [if_pos hn, if_pos (decide_eq_true hn)]
    exact emits_put 0x2c
  · rw [if_neg hn, if_neg (by rwa [decide_eq_true_eq])]
    exact .pure ()

theorem emits_writeHeader (n : ℕ) (h : Header) :
    Emits (writeHeader n h)
      (if h.isPlain then (if decide (n > 0) then lit "," else []) ++ headerText h.pair else [])
      (if h.isPlain then n + 1 else n) := by
  rw [writeHeader, Header.isPlain]
  by_cases hhash : h.hash = 0
  · simp only [hhash, ne_eq, not_true_eq_false, decide_false, Bool.false_and]
    exact .pure n
  cases hcookie : h.isCookie with
  | true =>
    simp only [hhash, Bool.not_true, Bool.and_false]
    exact .pure n
  | false =>
    simp only [hhash, ne_eq, not_false_eq_true, decide_true, Bool.not_false, Bool.and_self]
    refine .of_eq ((emits_comma n).bind <| (emits_jsonAppendStr h.key).bind <|
      (emits_put 0x3a).bind <| (emits_jsonAppendStr h.value).bind <| .pure (n + 1)) ?_
    rw [List.append_nil]
    rfl

theorem emits_writeCookie (n : ℕ) (c : Bytes × Bytes) :
    Emits (writeCookie n c) ((if decide (n > 0) then lit "," else []) ++ cookieText c) (n + 1) := by
  refine .of_eq ((emits_comma n).bind <| (emits_copy (lit "\x7b\"name\":")).bind <|
    (emits_jsonAppendStr c.1).bind <| (emits_copy (lit ",\"value\":")).bind <|
    (emits_jsonAppendStr c.2).bind <| (emits_put 0x7d).bind <| .pure (n + 1)) ?_
  rw [List.append_nil]
  rfl

theorem emits_writeCookies (n : ℕ) (h : Header) :
    Emits (writeCookies n h)
      (if h.hasCookies then
        emitted (fun n c ↦ (if decide (n > 0) then lit "," else []) ++ cookieText c)
          (fun n _ ↦ n + 1) n (cookies h.value)
      else [])
      (if h.hasCookies then (cookies h.value).foldl (fun n _ ↦ n + 1) n else n) := by
  rw [writeCookies, Header.hasCookies]
  by_cases hhash : h.hash = 0
  · simp only [hhash, ne_eq, not_true_eq_false, decide_false, Bool.false_and]
    exact .pure n
  cases hcookie : h.isCookie with
  | true =>
    simp only [hhash, ne_eq, not_false_eq_true, decide_true, Bool.and_self]
    exact .foldlM emits_writeCookie n (cookies h.value)
  | false =>
    simp only [hhash, Bool.and_false]
    exact .pure n

/-- A loop that counts puts commas between its texts. -/
theorem emitted_commas {ι : Type} (text : ι → Bytes) (xs : List ι) :
    emitted (fun n x ↦ (if decide (n > 0) then lit "," else []) ++ text x) (fun n _ ↦ n + 1) 0 xs =
      (lit ",").intercalate (xs.map text) :=
  emitted_separated (fun (n : ℕ) _ ↦ decide_eq_true n.succ_pos) (decide_eq_false (lt_irrefl 0)) xs

theorem emits_headers (l : HeaderList) : ∃ n, Emits (forHeaders writeHeader 0 l.part l.next 0)
    ((lit ",").intercalate ((headers l.elements).map headerText)) n := by
  rw [forHeaders_eq, headers, List.map_map]
  refine ⟨_, (Appends.foldlM emits_writeHeader 0 l.elements).of_eq ?_⟩
  rw [emitted_filter, emitted_commas]
  rfl

theorem emits_cookies (l : HeaderList) : ∃ n, Emits (forHeaders writeCookies 0 l.part l.next 0)
    ((lit ",").intercalate ((allCookies l.elements).map cookieText)) n := by
  rw [forHeaders_eq, allCookies]
  refine ⟨_, (Appends.foldlM emits_writeCookies 0 l.elements).of_eq ?_⟩
  rw [emitted_filter, emitted_flatMap, emitted_commas]

/-- What the second pass writes is the context of the request. -/
theorem emits_writeContext (l : HeaderList) :
    Emits (writeContext l) (requestContext (headers l.elements) (allCookies l.elements)) () := by
  obtain ⟨n, hn⟩ := emits_headers l
  obtain ⟨k, hk⟩ := emits_cookies l
  exact (emits_copy _).bind <| hn.bind <| (emits_copy _).bind <| hk.bind <|
    (emits_put 0x5d).bind <| emits_put 0x7d

/-! ## The first pass -/

/-- The length of some texts with separators of one byte, where `n` texts are before them. -/
def separatedLen (n : ℕ) (texts : List Bytes) : ℕ :=
  (emitted (fun n text ↦ (if decide (n > 0) then lit "," else []) ++ text) (fun n _ ↦ n + 1) n
    texts).length

theorem separatedLen_cons (n : ℕ) (text : Bytes) (texts : List Bytes) :
    separatedLen n (text :: texts) =
      (if n > 0 then 1 else 0) + text.length + separatedLen (n + 1) texts := by
  have hcomma : (lit ",").length = 1 := by decide
  rw [separatedLen, emitted, List.length_append, List.length_append, separatedLen]
  by_cases hn : n > 0
  · rw [if_pos (decide_eq_true hn), if_pos hn, hcomma]
  · rw [if_neg (by rwa [decide_eq_true_eq]), if_neg hn, List.length_nil]

theorem separatedLen_append (n : ℕ) (texts more : List Bytes) :
    separatedLen n (texts ++ more) = separatedLen n texts + separatedLen (n + texts.length) more := by
  induction texts generalizing n with
  | nil => exact (Nat.zero_add _).symm
  | cons text texts ih =>
    rw [List.cons_append, separatedLen_cons, separatedLen_cons, ih, List.length_cons,
      Nat.add_right_comm n, Nat.add_assoc n]
    omega

theorem separatedLen_zero (texts : List Bytes) :
    separatedLen 0 texts = ((lit ",").intercalate texts).length := by
  rw [separatedLen, emitted_commas fun text ↦ text, List.map_id']

theorem length_headerText (h : Bytes × Bytes) :
    (headerText h).length = 5 + jsonEscapedLen h.1 + jsonEscapedLen h.2 := by
  have hcolon : (lit ":").length = 1 := by decide
  rw [headerText, List.length_append, List.length_append, length_jsonText, length_jsonText, hcolon]
  omega

theorem length_cookieText (c : Bytes × Bytes) :
    (cookieText c).length = 22 + jsonEscapedLen c.1 + jsonEscapedLen c.2 := by
  have hkeys : (lit "\x7b\"name\":").length = 8 ∧ (lit ",\"value\":").length = 9 ∧
      (lit "\x7d").length = 1 := by decide
  rw [cookieText]
  simp only [List.length_append, length_jsonText]
  omega

/-- What the first pass adds for the cookies of one header. -/
theorem foldl_measureCookie (m : Measure) (cs : List (Bytes × Bytes)) :
    cs.foldl measureCookie m =
      { m with
        total := m.total + separatedLen m.nCookies (cs.map cookieText)
        nCookies := m.nCookies + cs.length } := by
  induction cs generalizing m with
  | nil => rfl
  | cons c cs ih =>
    rw [List.foldl_cons, ih, List.map_cons, separatedLen_cons, length_cookieText, List.length_cons,
      measureCookie]
    simp only [Measure.mk.injEq, true_and]
    constructor
    · split_ifs <;> omega
    · omega

/-- What the first pass adds for some headers. -/
theorem foldl_measureHeader (m : Measure) (xs : List Header) :
    xs.foldl measureHeader m =
      { total := m.total + separatedLen m.nHeaders ((headers xs).map headerText) +
          separatedLen m.nCookies ((allCookies xs).map cookieText)
        nHeaders := m.nHeaders + (headers xs).length
        nCookies := m.nCookies + (allCookies xs).length } := by
  induction xs generalizing m with
  | nil => rfl
  | cons h xs ih =>
    rw [List.foldl_cons, ih, measureHeader]
    -- Both passes skip a header that has been removed.
    by_cases hhash : h.hash = 0
    · have hplain : h.isPlain = false := by simp [Header.isPlain, hhash]
      have hnone : h.hasCookies = false := by simp [Header.hasCookies, hhash]
      simp [hhash, headers, allCookies, hplain, hnone]
    cases hcookie : h.isCookie with
    | true =>
      -- Its cookies are counted instead of the header.
      have hplain : h.isPlain = false := by simp [Header.isPlain, hcookie]
      have hhas : h.hasCookies = true := by simp [Header.hasCookies, hhash, hcookie]
      have hheaders : headers (h :: xs) = headers xs := by simp [headers, hplain]
      have hcookies : allCookies (h :: xs) = cookies h.value ++ allCookies xs := by
        simp [allCookies, hhas]
      rw [if_neg hhash, if_pos rfl, foldl_measureCookie, hheaders, hcookies, List.map_append,
        separatedLen_append, List.length_map, List.length_append]
      simp only [Measure.mk.injEq, true_and]
      omega
    | false =>
      have hplain : h.isPlain = true := by simp [Header.isPlain, hhash, hcookie]
      have hnone : h.hasCookies = false := by simp [Header.hasCookies, hcookie]
      have hheaders : headers (h :: xs) = h.pair :: headers xs := by simp [headers, hplain]
      have hcookies : allCookies (h :: xs) = allCookies xs := by simp [allCookies, hnone]
      rw [if_neg hhash, if_neg Bool.false_ne_true, hheaders, hcookies, List.map_cons,
        separatedLen_cons, length_headerText, List.length_cons, Header.pair]
      simp only [Measure.mk.injEq, and_true]
      constructor
      · split_ifs <;> omega
      · omega

/-- The first pass measures the context of the request and its NUL. -/
theorem measureContext_eq (l : HeaderList) : measureContext l =
    (requestContext (headers l.elements) (allCookies l.elements)).length + 1 := by
  have hkeys : (lit "\x7b\"headers\":\x7b").length = 12 ∧
      (lit "\x7d,\"cookies\":[").length = 13 ∧ (lit "]").length = 1 ∧
      (lit "\x7d").length = 1 := by decide
  have hfold : measureContext l =
      (l.elements.foldl measureHeader { total := 12 + 13 + 2 + 1 }).total := by
    rw [measureContext, forHeaders_eq]
    exact congrArg Measure.total List.idRun_foldlM
  rw [hfold, foldl_measureHeader, separatedLen_zero, separatedLen_zero, requestContext]
  simp only [List.length_append]
  omega

/-! ## Numbers -/

/-- There is no digit before the last one of a number that is not positive. -/
theorem tdiv_ten_nonpos {v : ℤ} (h : ¬ 0 ≤ v) : ¬ v.tdiv 10 > 0 := by
  rw [← Int.neg_neg v, Int.neg_tdiv, Int.tdiv_eq_ediv_of_nonneg (by omega)]
  omega

/-- A number with more digits loses one. -/
theorem toNat_tdiv_ten_lt {v : ℤ} (h : v.tdiv 10 > 0) : (v.tdiv 10).toNat < v.toNat := by
  by_cases hv : 0 ≤ v
  · rw [Int.tdiv_eq_ediv_of_nonneg hv] at h ⊢
    omega
  · exact absurd h (tdiv_ten_nonpos hv)

theorem tdiv_ten_pos {v : ℤ} (h : v ≥ 10) : v.tdiv 10 > 0 := by
  rw [Int.tdiv_eq_ediv_of_nonneg (by omega)]
  omega

/-- `mesi_json_uint_len` and `mesi_json_off_len` -/
def jsonUintLen (v : ℤ) : ℕ :=
  if h : v ≥ 10 then
    have _ := toNat_tdiv_ten_lt (tdiv_ten_pos h)
    jsonUintLen (v.tdiv 10) + 1
  else 1
termination_by v.toNat

/-- The loop that takes the digits of a number, the last one first. -/
def uintDigits (v : ℤ) : Bytes :=
  UInt8.ofNat (0x30 + v.tmod 10).toNat ::
    if h : v.tdiv 10 > 0 then
      have _ := toNat_tdiv_ten_lt h
      uintDigits (v.tdiv 10)
    else []
termination_by v.toNat

/-- `mesi_json_write_uint` and `mesi_json_write_off`. The digits wait in an array of 20 bytes. -/
def jsonWriteUint (v : ℤ) : Write Unit := fun b ↦
  if (uintDigits v).length ≤ 20 then ((uintDigits v).reverse.forM put) b else .error .overrun

/-- As many digits are measured as are taken, also for numbers below zero. -/
theorem length_uintDigits (v : ℤ) : (uintDigits v).length = jsonUintLen v := by
  induction v using jsonUintLen.induct with
  | case1 v hv _ ih =>
    rw [uintDigits, dif_pos (tdiv_ten_pos hv), jsonUintLen, dif_pos hv, List.length_cons, ih]
  | case2 v hv =>
    have hzero : ¬ v.tdiv 10 > 0 := by
      by_cases h0 : 0 ≤ v
      · rw [Int.tdiv_eq_ediv_of_nonneg h0]
        omega
      · exact tdiv_ten_nonpos h0
    rw [uintDigits, dif_neg hzero, jsonUintLen, dif_neg hv]
    rfl

theorem jsonUintLen_le {v : ℤ} {k : ℕ} (hk : 0 < k) (h : v < 10 ^ k) : jsonUintLen v ≤ k := by
  induction v using jsonUintLen.induct generalizing k with
  | case1 v hv _ ih =>
    obtain ⟨k, rfl⟩ := Nat.exists_eq_succ_of_ne_zero hk.ne'
    have hk0 : 0 < k := by
      refine Nat.pos_of_ne_zero ?_
      rintro rfl
      omega
    -- The digit that goes takes one power of ten with it.
    have hdiv : v.tdiv 10 < 10 ^ k := by
      rw [Int.tdiv_eq_ediv_of_nonneg (by omega)]
      rw [Nat.succ_eq_add_one, pow_succ] at h
      omega
    rw [jsonUintLen, dif_pos hv]
    exact Nat.succ_le_succ (ih hk0 hdiv)
  | case2 v hv =>
    rw [jsonUintLen, dif_neg hv]
    exact hk

/-- The array is large enough for the numbers of the type. -/
theorem emits_jsonWriteUint (v : Int64) :
    ∃ digits, Emits (jsonWriteUint v.toInt) digits () ∧ digits.length = jsonUintLen v.toInt := by
  have hlt : v.toInt < 10 ^ 19 := v.toInt_lt.trans (by decide)
  have hle : (uintDigits v.toInt).length ≤ 20 := by
    rw [length_uintDigits]
    exact (jsonUintLen_le (by decide) hlt).trans (by decide)
  have hwrite : jsonWriteUint v.toInt = (uintDigits v.toInt).reverse.forM put :=
    funext fun b ↦ if_pos hle
  refine ⟨(uintDigits v.toInt).reverse.flatMap fun c ↦ [c], ?_, ?_⟩
  · rw [hwrite]
    exact .forM emits_put _
  · rw [List.flatMap_singleton', List.length_reverse, length_uintDigits]

/-! ## The configuration of a parse -/

/-- What `build_parse_json_config` reads. `-1` stands for a directive that is not set, and the
numbers have 64 bits at most. -/
structure ConfigArgs where
  depth : Int64
  baseUrl : Bytes
  allowedHosts : Bytes
  blockPrivateIps : Int64
  allowPrivateIpsForAllowed : Int64
  timeoutSeconds : Int64 := -1
  maxResponseSize : Int64 := -1
  maxConcurrentRequests : Int64 := -1
  maxWorkers : Int64 := -1
  debug : Int64 := -1
  parseOnHeader : Int64 := -1
  includeErrorMarker : Option Bytes := none
  cacheKeyTemplate : Bytes := []
  ctxJson : Option Bytes := none

variable (a : ConfigArgs)

/-- `has_tmpl` -/
def ConfigArgs.hasTmpl : Bool := decide (a.cacheKeyTemplate.length > 0)

/-- `has_ctx` -/
def ConfigArgs.hasCtx : Bool := a.hasTmpl && a.ctxJson.any fun ctx ↦ decide (Apache.cString ctx ≠ [])

/-- `true` or `false` -/
def flagText (flag : Int64) : Bytes := if flag ≠ 0 then lit "true" else lit "false"

/-- The length of `true` or `false` -/
def flagLen (flag : Int64) : ℕ := if flag ≠ 0 then 4 else 5

/-- The length of a number with its key, if the directive is set. -/
def numberLen (pfx : Bytes) (v : Int64) : ℕ :=
  if v ≠ -1 then pfx.length + jsonUintLen v.toInt else 0

/-- The length of a flag with its key, if the directive is set. -/
def optionalFlagLen (pfx : Bytes) (flag : Int64) : ℕ :=
  if flag ≠ -1 then pfx.length + flagLen flag else 0

/-- The first pass of `build_parse_json_config`. -/
def measureConfig : ℕ :=
  let total := (lit "\x7b\"maxDepth\":").length + jsonUintLen a.depth.toInt
  let total := total + ((lit ",\"defaultUrl\":").length + 2 +
    jsonEscapedLen (Apache.cString a.baseUrl))
  let total := total + ((lit ",\"allowedHosts\":").length + 2 +
    jsonEscapedLen (Apache.cString a.allowedHosts))
  let total := total + ((lit ",\"blockPrivateIPs\":").length + flagLen a.blockPrivateIps)
  let total := total + ((lit ",\"allowPrivateIPsForAllowedHosts\":").length +
    flagLen a.allowPrivateIpsForAllowed)
  let total := total + numberLen (lit ",\"timeoutSeconds\":") a.timeoutSeconds
  let total := total + numberLen (lit ",\"maxResponseSize\":") a.maxResponseSize
  let total := total + numberLen (lit ",\"maxConcurrentRequests\":") a.maxConcurrentRequests
  let total := total + numberLen (lit ",\"maxWorkers\":") a.maxWorkers
  let total := total + optionalFlagLen (lit ",\"debug\":") a.debug
  let total := total + optionalFlagLen (lit ",\"parseOnHeader\":") a.parseOnHeader
  let total := total + a.includeErrorMarker.elim 0 fun marker ↦
    (lit ",\"includeErrorMarker\":").length + 2 + jsonEscapedLen marker
  let total := total + if a.hasTmpl then
    (lit ",\"cacheKeyTemplate\":").length + 2 + jsonEscapedLen a.cacheKeyTemplate else 0
  let total := total + if a.hasCtx then
    (lit ",\"requestCtx\":").length + (Apache.cString (a.ctxJson.getD [])).length else 0
  let total := total + 1
  total + 1

/-- A number with its key, if the directive is set. -/
def writeNumber (pfx : Bytes) (v : Int64) : Write Unit :=
  if v ≠ -1 then do
    copy pfx
    jsonWriteUint v.toInt
  else pure ()

/-- A flag with its key, if the directive is set. -/
def writeOptionalFlag (pfx : Bytes) (flag : Int64) : Write Unit :=
  if flag ≠ -1 then do
    copy pfx
    copy (flagText flag)
  else pure ()

/-- The marker with its key, if the directive is set. -/
def writeMarker : Option Bytes → Write Unit
  | none => pure ()
  | some marker => do
    copy (lit ",\"includeErrorMarker\":")
    jsonAppendStr marker

/-- The template with its key, if there is one. -/
def writeTemplate : Write Unit :=
  if a.hasTmpl then do
    copy (lit ",\"cacheKeyTemplate\":")
    jsonAppendStr a.cacheKeyTemplate
  else pure ()

/-- The request context with its key, if there is one. -/
def writeRequestCtx : Write Unit :=
  if a.hasCtx then do
    copy (lit ",\"requestCtx\":")
    copy (Apache.cString (a.ctxJson.getD []))
  else pure ()

/-- The second pass of `build_parse_json_config`, before its NUL. -/
def writeConfig : Write Unit := do
  copy (lit "\x7b\"maxDepth\":")
  jsonWriteUint a.depth.toInt
  copy (lit ",\"defaultUrl\":")
  jsonAppendStr (Apache.cString a.baseUrl)
  copy (lit ",\"allowedHosts\":")
  jsonAppendStr (Apache.cString a.allowedHosts)
  copy (lit ",\"blockPrivateIPs\":")
  copy (flagText a.blockPrivateIps)
  copy (lit ",\"allowPrivateIPsForAllowedHosts\":")
  copy (flagText a.allowPrivateIpsForAllowed)
  writeNumber (lit ",\"timeoutSeconds\":") a.timeoutSeconds
  writeNumber (lit ",\"maxResponseSize\":") a.maxResponseSize
  writeNumber (lit ",\"maxConcurrentRequests\":") a.maxConcurrentRequests
  writeNumber (lit ",\"maxWorkers\":") a.maxWorkers
  writeOptionalFlag (lit ",\"debug\":") a.debug
  writeOptionalFlag (lit ",\"parseOnHeader\":") a.parseOnHeader
  writeMarker a.includeErrorMarker
  writeTemplate a
  writeRequestCtx a
  put 0x7d

/-- `build_parse_json_config`, with `none` for `NULL`. -/
def buildParseJsonConfig (palloc : Bool) : Except Stop (Option Block) :=
  if ¬ palloc then .ok none
  else ((do writeConfig a; terminate : Write Unit) (Block.alloc (measureConfig a))).map
    fun r ↦ some r.2

/-- A step of the second pass with the length that the first pass has added for it. -/
def Measured (p : Write Unit) (n : ℕ) : Prop := ∃ text, Emits p text () ∧ text.length = n

variable {p q : Write Unit} {n k : ℕ}

theorem Measured.bind (hp : Measured p n) (hq : Measured q k) : Measured (do p; q) (n + k) := by
  obtain ⟨s, hs, hn⟩ := hp
  obtain ⟨t, ht, hk⟩ := hq
  exact ⟨s ++ t, hs.bind ht, by rw [List.length_append, hn, hk]⟩

theorem Measured.ite {c : Prop} [Decidable c] (hp : Measured p n) :
    Measured (if c then p else pure ()) (if c then n else 0) := by
  by_cases hc : c
  · rw [if_pos hc, if_pos hc]
    exact hp
  · rw [if_neg hc, if_neg hc]
    exact ⟨[], .pure (), rfl⟩

theorem measured_copy (s : Bytes) : Measured (copy s) s.length := ⟨s, emits_copy s, rfl⟩

theorem measured_jsonAppendStr (s : Bytes) : Measured (jsonAppendStr s) (2 + jsonEscapedLen s) :=
  ⟨jsonText s, emits_jsonAppendStr s, length_jsonText s⟩

theorem measured_flagText (flag : Int64) : Measured (copy (flagText flag)) (flagLen flag) := by
  refine ⟨_, emits_copy _, ?_⟩
  rw [flagText, flagLen]
  split_ifs <;> rfl

theorem measured_writeNumber (pfx : Bytes) (v : Int64) :
    Measured (writeNumber pfx v) (numberLen pfx v) :=
  ((measured_copy pfx).bind (emits_jsonWriteUint v)).ite

theorem measured_writeOptionalFlag (pfx : Bytes) (flag : Int64) :
    Measured (writeOptionalFlag pfx flag) (optionalFlagLen pfx flag) :=
  ((measured_copy pfx).bind (measured_flagText flag)).ite

theorem measured_writeMarker (marker : Option Bytes) :
    Measured (writeMarker marker) (marker.elim 0 fun marker ↦
      (lit ",\"includeErrorMarker\":").length + 2 + jsonEscapedLen marker) := by
  cases marker with
  | none => exact ⟨[], .pure (), rfl⟩
  | some marker =>
    rw [Option.elim_some, Nat.add_assoc]
    exact (measured_copy _).bind (measured_jsonAppendStr marker)

theorem measured_writeTemplate : Measured (writeTemplate a)
    (if a.hasTmpl then
      (lit ",\"cacheKeyTemplate\":").length + 2 + jsonEscapedLen a.cacheKeyTemplate else 0) := by
  rw [Nat.add_assoc]
  exact ((measured_copy _).bind (measured_jsonAppendStr a.cacheKeyTemplate)).ite

theorem measured_writeRequestCtx : Measured (writeRequestCtx a)
    (if a.hasCtx then
      (lit ",\"requestCtx\":").length + (Apache.cString (a.ctxJson.getD [])).length else 0) :=
  ((measured_copy _).bind (measured_copy _)).ite

/-- The first pass measures what the second pass writes, and its NUL. -/
theorem exists_emits_writeConfig :
    ∃ text, Emits (writeConfig a) text () ∧ text.length + 1 = measureConfig a := by
  obtain ⟨text, htext, hlength⟩ := (measured_copy (lit "\x7b\"maxDepth\":")).bind <|
    Measured.bind (emits_jsonWriteUint a.depth) <|
    (measured_copy (lit ",\"defaultUrl\":")).bind <|
    (measured_jsonAppendStr (Apache.cString a.baseUrl)).bind <|
    (measured_copy (lit ",\"allowedHosts\":")).bind <|
    (measured_jsonAppendStr (Apache.cString a.allowedHosts)).bind <|
    (measured_copy (lit ",\"blockPrivateIPs\":")).bind <|
    (measured_flagText a.blockPrivateIps).bind <|
    (measured_copy (lit ",\"allowPrivateIPsForAllowedHosts\":")).bind <|
    (measured_flagText a.allowPrivateIpsForAllowed).bind <|
    (measured_writeNumber (lit ",\"timeoutSeconds\":") a.timeoutSeconds).bind <|
    (measured_writeNumber (lit ",\"maxResponseSize\":") a.maxResponseSize).bind <|
    (measured_writeNumber (lit ",\"maxConcurrentRequests\":") a.maxConcurrentRequests).bind <|
    (measured_writeNumber (lit ",\"maxWorkers\":") a.maxWorkers).bind <|
    (measured_writeOptionalFlag (lit ",\"debug\":") a.debug).bind <|
    (measured_writeOptionalFlag (lit ",\"parseOnHeader\":") a.parseOnHeader).bind <|
    (measured_writeMarker a.includeErrorMarker).bind <|
    (measured_writeTemplate a).bind <| (measured_writeRequestCtx a).bind <| measured_copy [0x7d]
  refine ⟨text, htext, ?_⟩
  rw [hlength, measureConfig]
  simp only [List.length_singleton, Nat.add_assoc]

/-! ## Two passes -/

/-- A text that has been measured with its NUL fills its block. -/
theorem exists_terminate_eq {p : Write Unit} {text : Bytes} {total : ℕ} (hp : Emits p text ())
    (htotal : text.length + 1 = total) :
    ∃ b, (do p; terminate : Write Unit) (Block.alloc total) = .ok ((), b) ∧ b.cap = total ∧
      b.IsString text := by
  obtain ⟨b, hb, hcap, hstring⟩ := hp.exists_terminate (Block.holds_alloc total)
    (by rw [List.length_nil, Block.alloc_cap]; omega)
    (by rw [List.length_nil, Block.alloc_cap]; omega)
  rw [List.nil_append] at hstring
  exact ⟨b, hb, hcap, hstring⟩

/-- Neither function writes outside of its block. -/
theorem exists_buildRequestCtxJson_eq (palloc : Bool) (l : HeaderList) (template : Option Bytes) :
    ∃ r, buildRequestCtxJson palloc l template = .ok r := by
  obtain ⟨b, hb, -⟩ := exists_terminate_eq (emits_writeContext l) (measureContext_eq l).symm
  cases template with
  | none => exact ⟨.empty, rfl⟩
  | some template =>
    rw [buildRequestCtxJson, hb]
    split_ifs <;> exact ⟨_, rfl⟩

theorem exists_buildParseJsonConfig_eq (palloc : Bool) (a : ConfigArgs) :
    ∃ r, buildParseJsonConfig a palloc = .ok r := by
  obtain ⟨text, htext, htotal⟩ := exists_emits_writeConfig a
  obtain ⟨b, hb, -⟩ := exists_terminate_eq htext htotal
  rw [buildParseJsonConfig, hb]
  cases palloc with
  | true => exact ⟨some b, rfl⟩
  | false => exact ⟨none, rfl⟩

/-- **Main result.** For all lists of headers and all configurations, the second pass writes as many
bytes with its NUL as the first has measured, and none outside of the block. -/
theorem twoPasses (l : HeaderList) (a : ConfigArgs) :
    (∃ b text, (do writeContext l; terminate : Write Unit) (Block.alloc (measureContext l)) =
      .ok ((), b) ∧ b.IsString text ∧ text.length + 1 = measureContext l) ∧
    ∃ b text, (do writeConfig a; terminate : Write Unit) (Block.alloc (measureConfig a)) =
      .ok ((), b) ∧ b.IsString text ∧ text.length + 1 = measureConfig a := by
  constructor
  · have htotal := (measureContext_eq l).symm
    obtain ⟨b, hb, -, hstring⟩ := exists_terminate_eq (emits_writeContext l) htotal
    exact ⟨b, _, hb, hstring, htotal⟩
  · obtain ⟨text, htext, htotal⟩ := exists_emits_writeConfig a
    obtain ⟨b, hb, -, hstring⟩ := exists_terminate_eq htext htotal
    exact ⟨b, text, hb, hstring, htotal⟩

end GoMesi.Nginx
