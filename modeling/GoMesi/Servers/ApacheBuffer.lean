import GoMesi.Servers.EdgeControl
import GoMesi.Servers.RequestContext

/-!
# The growing buffer of Apache

The Apache module writes the context of a request into a buffer that is replaced by one of twice the
size when it gets too small. Each place that writes says before how many bytes it needs, and not
always how many it writes: before the cookies it asks for 12 and writes 13. The test is strict, so
that one byte more than asked for always fits (`Grows.of_emits`), and this is the most that a place
writes. So no byte is written outside of the buffer there is, and none is lost (`growingBuffer`).

Sizes do not wrap here, and no allocation fails.
-/

namespace GoMesi.Apache

open Strings C
open C.Write (copy put)

/-! ## Growing -/

/-- The loop that doubles a capacity. It would not end for a capacity of zero. -/
def doubled (n ncap : ℕ) : ℕ :=
  if h : n ≥ ncap ∧ 0 < ncap then
    have _ : n + 1 - ncap * 2 < n + 1 - ncap := by omega
    doubled n (ncap * 2)
  else ncap
termination_by n + 1 - ncap

theorem lt_doubled {n ncap : ℕ} (h : 0 < ncap) : n < doubled n ncap ∧ ncap ≤ doubled n ncap := by
  induction ncap using doubled.induct n with
  | case1 ncap hlarge _ ih =>
    have hdouble := ih (by omega)
    rw [doubled, dif_pos hlarge]
    change n < doubled n (ncap * 2) ∧ ncap ≤ doubled n (ncap * 2)
    omega
  | case2 ncap hlarge =>
    rw [doubled, dif_neg hlarge]
    omega

/-- `json_grow` -/
def jsonGrow (need : ℕ) : Write Unit := fun b ↦
  if b.pos + need < b.cap then .ok ((), b)
  else
    let ncap := doubled (b.pos + need) (b.cap * 2)
    -- `memcpy` copies the cells before the cursor, and the new block has no others.
    if h : b.pos ≤ ncap then
      .ok ((), { cap := ncap
                 cells := fun i ↦ if i < b.pos then b.cells i else none
                 pos := b.pos
                 pos_le := h })
    else .error .overrun

/-- The body of the loop of `json_escape_append`. -/
def appendEscapedByte (q : UInt8) : Write Unit :=
  if q = 0x22 then do
    jsonGrow 2
    put 0x5c
    put 0x22
  else if q = 0x5c then do
    jsonGrow 2
    put 0x5c
    put 0x5c
  else if q < 0x20 then do
    jsonGrow 6
    put 0x5c
    put 0x75
    put 0x30
    put 0x30
    put (Php.hexDigit (q.toNat / 16))
    put (Php.hexDigit (q.toNat % 16))
  else do
    jsonGrow 1
    put q

/-- `json_escape_append` -/
def jsonEscapeAppend (src : Bytes) : Write Unit := (cString src).forM appendEscapedByte

/-! ## The context of a request -/

/-- `strcasecmp` finds no difference. -/
def strcasecmpEq (s w : Bytes) : Bool := (cString s).map asciiLower = w.map asciiLower

/-- An entry of a table. Either pointer may be null. -/
structure TableEntry where
  key : Option Bytes
  val : Option Bytes

/-- `apr_table_get`: the value of the first entry with the key. -/
def aprTableGet (table : List TableEntry) (key : Bytes) : Option Bytes :=
  (table.find? fun e ↦ e.key.any (strcasecmpEq · key)).bind TableEntry.val

/-- A comma before each element but the first. -/
def appendComma (first : Bool) : Write Unit :=
  if first then pure ()
  else do
    jsonGrow 1
    put 0x2c

/-- The body of the loop over the headers. -/
def appendHeader (first : Bool) (e : TableEntry) : Write Bool :=
  match e.key, e.val with
  | some k, some v =>
    if strcasecmpEq k (lit "Cookie") then pure first
    else do
      appendComma first
      jsonGrow 2
      put 0x22
      jsonEscapeAppend k
      jsonGrow 3
      put 0x22
      put 0x3a
      put 0x22
      jsonEscapeAppend v
      jsonGrow 1
      put 0x22
      pure false
  | _, _ => pure first

/-- The body of the loop over the cookies. -/
def appendCookie (first : Bool) (cookie : Bytes × Bytes) : Write Bool := do
  appendComma first
  jsonGrow 20
  put 0x7b
  put 0x22
  copy (lit "name")
  put 0x22
  put 0x3a
  put 0x22
  jsonEscapeAppend cookie.1
  jsonGrow 11
  put 0x22
  put 0x2c
  put 0x22
  copy (lit "value")
  put 0x22
  put 0x3a
  put 0x22
  jsonEscapeAppend cookie.2
  jsonGrow 3
  put 0x22
  put 0x7d
  pure false

/-- All that `build_request_ctx_json` writes. The table is absent if `headers_in` is null. -/
def appendContext (headersIn : Option (List TableEntry)) : Write Unit := do
  put 0x7b
  put 0x22
  copy (lit "headers")
  put 0x22
  put 0x3a
  put 0x7b
  let _ ← (headersIn.getD []).foldlM appendHeader true
  jsonGrow 12
  put 0x7d
  put 0x2c
  put 0x22
  copy (lit "cookies")
  put 0x22
  put 0x3a
  put 0x5b
  let _ ← (cookies (cString (((headersIn.bind (aprTableGet · (lit "Cookie")))).getD []))).foldlM
    appendCookie true
  jsonGrow 3
  put 0x5d
  put 0x7d
  put 0

/-- `build_request_ctx_json`: an empty string, with `none`, or the buffer. -/
def buildRequestCtxJson (cacheKeyTemplate : Option Bytes) (headersIn : Option (List TableEntry)) :
    Except Stop (Option Block) :=
  let template := cString (cacheKeyTemplate.getD [])
  if template = [] then .ok none
  else if ¬ contains template (lit "$\x7bheader:") ∧ ¬ contains template (lit "$\x7bcookie:") then
    .ok none
  else (appendContext headersIn (Block.alloc 512)).map fun r ↦ some r.2

/-! ## Programs that grow their buffer -/

/-- The buffer grows to a larger capacity, and it holds what it held. -/
theorem exists_jsonGrow {b : Block} {t : Bytes} (need : ℕ) (hb : b.Holds t) (h0 : 0 < b.cap) :
    ∃ b', jsonGrow need b = .ok ((), b') ∧ b.cap ≤ b'.cap ∧ t.length + need < b'.cap ∧
      b'.Holds t := by
  have hpos := hb.pos_eq
  by_cases hroom : b.pos + need < b.cap
  · exact ⟨b, if_pos hroom, le_rfl, hpos ▸ hroom, hb⟩
  · obtain ⟨hlt, hle⟩ := lt_doubled (n := b.pos + need) (Nat.mul_pos h0 two_pos)
    refine ⟨_, (if_neg hroom).trans (dif_pos (by omega)), ?_, ?_, hpos, fun i hi ↦ ?_⟩
    · dsimp only
      omega
    · dsimp only
      omega
    · dsimp only
      rw [if_pos (hpos ▸ hi), hb.cells_eq i hi]

/-- A program appends a text and gives `a`, in any buffer with a room of `room` bytes. -/
structure Grows {α : Type} (room : ℕ) (p : Write α) (s : Bytes) (a : α) : Prop where
  run : ∀ {b t}, b.Holds t → 0 < b.cap → t.length + room ≤ b.cap →
    ∃ b', p b = .ok (a, b') ∧ b.cap ≤ b'.cap ∧ b'.Holds (t ++ s)

namespace Grows

variable {α β ι σ : Type} {p : Write α} {s t : Bytes} {a : α} {d : β} {room : ℕ}

theorem of_emits (h : Emits p s a) : Grows s.length p s a where
  run {b t} hb _ hroom := by
    obtain ⟨b', hb', hcap, hholds⟩ := h.run hb hroom
    exact ⟨b', hb', hcap.ge, hholds⟩

theorem pure (a : α) : Grows 0 (Pure.pure a : Write α) [] a := of_emits (.pure a)

theorem of_eq (h : Grows room p s a) (hs : s = t) : Grows room p t a := hs ▸ h

/-- What comes after a program has to care for its own room. -/
theorem bind {q : α → Write β} (hp : Grows room p s a) (hq : Grows 0 (q a) t d) :
    Grows room (p >>= q) (s ++ t) d where
  run {b u} h h0 hroom := by
    obtain ⟨b₁, hb₁, hcap₁, hholds₁⟩ := hp.run h h0 hroom
    obtain ⟨b₂, hb₂, hcap₂, hholds₂⟩ := hq.run hholds₁ (h0.trans_le hcap₁) hholds₁.length_le
    exact ⟨b₂, (bind_of_ok hb₁).trans hb₂, hcap₁.trans hcap₂, by rwa [← List.append_assoc]⟩

/-- What writes without asking takes its room from what has been asked for. -/
theorem write {q : α → Write β} (hp : Emits p s a) (hq : Grows room (q a) t d) :
    Grows (room + s.length) (p >>= q) (s ++ t) d where
  run {b u} h h0 hroom := by
    obtain ⟨b₁, hb₁, hcap₁, hholds₁⟩ := hp.run h (by omega)
    obtain ⟨b₂, hb₂, hcap₂, hholds₂⟩ := hq.run hholds₁ (by omega)
      (by rw [List.length_append, hcap₁]; omega)
    exact ⟨b₂, (bind_of_ok hb₁).trans hb₂, hcap₁ ▸ hcap₂, by rwa [← List.append_assoc]⟩

/-- There is room for one byte more than has been asked for. -/
theorem grow {q : Unit → Write β} {need : ℕ} (hq : Grows room (q ()) t d) (h : room ≤ need + 1) :
    Grows 0 (jsonGrow need >>= q) t d where
  run {b u} hb h0 _ := by
    obtain ⟨b₁, hb₁, hcap₁, hroom, hholds₁⟩ := exists_jsonGrow need hb h0
    obtain ⟨b₂, hb₂, hcap₂, hholds₂⟩ := hq.run hholds₁ (h0.trans_le hcap₁) (by omega)
    exact ⟨b₂, (bind_of_ok hb₁).trans hb₂, hcap₁.trans hcap₂, hholds₂⟩

theorem forM {body : ι → Write PUnit} {text : ι → Bytes} (h : ∀ x, Grows 0 (body x) (text x) ())
    (xs : List ι) : Grows 0 (xs.forM body) (xs.flatMap text) () := by
  induction xs with
  | nil => exact pure ()
  | cons x xs ih => exact (h x).bind ih

theorem foldlM {body : σ → ι → Write σ} {text : σ → ι → Bytes} {next : σ → ι → σ}
    (h : ∀ n x, Grows 0 (body n x) (text n x) (next n x)) (n : σ) (xs : List ι) :
    Grows 0 (xs.foldlM body n) (emitted text next n xs) (xs.foldl next n) := by
  induction xs generalizing n with
  | nil => exact pure n
  | cons x xs ih =>
    rw [List.foldlM_cons]
    exact (h n x).bind (ih (next n x))

end Grows

theorem grows_appendEscapedByte (q : UInt8) :
    Grows 0 (appendEscapedByte q) (Php.escapeByte q) () := by
  rw [appendEscapedByte, Php.escapeByte]
  by_cases hquote : q = 0x22
  · rw [if_pos hquote, if_pos hquote]
    exact .grow (.of_emits ((emits_put 0x5c).bind (emits_put 0x22))) (by decide)
  by_cases hbackslash : q = 0x5c
  · rw [if_neg hquote, if_pos hbackslash, if_neg hquote, if_pos hbackslash]
    exact .grow (.of_emits ((emits_put 0x5c).bind (emits_put 0x5c))) (by decide)
  rw [if_neg hquote, if_neg hbackslash, if_neg hquote, if_neg hbackslash]
  by_cases hcontrol : q < 0x20
  · rw [if_pos hcontrol, if_pos hcontrol]
    refine .grow (.of_emits ((emits_put 0x5c).bind <| (emits_put 0x75).bind <|
      (emits_put 0x30).bind <| (emits_put 0x30).bind <| (emits_put _).bind <| emits_put _)) ?_
    exact Nat.le_succ 6
  · rw [if_neg hcontrol, if_neg hcontrol]
    exact .grow (.of_emits (emits_put q)) (Nat.le_succ 1)

theorem grows_jsonEscapeAppend (src : Bytes) :
    Grows 0 (jsonEscapeAppend src) ((cString src).flatMap Php.escapeByte) () :=
  .forM grows_appendEscapedByte (cString src)

theorem grows_appendComma (first : Bool) :
    Grows 0 (appendComma first) (if !first then lit "," else []) () := by
  cases first with
  | true => exact .pure ()
  | false => exact .grow (.of_emits (emits_put 0x2c)) (Nat.le_succ 1)

/-! ## The headers and the cookies of a table -/

/-- The header that an entry is passed on as. -/
def TableEntry.header? (e : TableEntry) : Option (Bytes × Bytes) :=
  match e.key, e.val with
  | some k, some v => if strcasecmpEq k (lit "Cookie") then none else some (cString k, cString v)
  | _, _ => none

/-- The cookies of a table are those of its first `Cookie` header. -/
def tableCookies (headersIn : Option (List TableEntry)) : List (Bytes × Bytes) :=
  cookies (cString ((headersIn.bind (aprTableGet · (lit "Cookie"))).getD []))

/-- The bytes of a pair of C strings. -/
def cPair (p : Bytes × Bytes) : Bytes × Bytes := (cString p.1, cString p.2)

theorem grows_appendHeader (first : Bool) (e : TableEntry) :
    Grows 0 (appendHeader first e)
      (if e.header?.isSome then
        (if !first then lit "," else []) ++ headerText (e.header?.getD ([], []))
      else [])
      (if e.header?.isSome then false else first) := by
  obtain ⟨key, val⟩ := e
  cases key with
  | none => exact .pure first
  | some k =>
    cases val with
    | none => exact .pure first
    | some v =>
      cases hcookie : strcasecmpEq k (lit "Cookie") with
      | true =>
        simp only [appendHeader, TableEntry.header?, hcookie]
        exact .pure first
      | false =>
        simp only [appendHeader, TableEntry.header?, hcookie]
        refine .of_eq ((grows_appendComma first).bind <|
          .grow (.write (emits_put 0x22) <| (grows_jsonEscapeAppend k).bind <|
          .grow (.write (emits_put 0x22) <| .write (emits_put 0x3a) <| .write (emits_put 0x22) <|
            (grows_jsonEscapeAppend v).bind <|
          .grow (.write (emits_put 0x22) <| .pure false)
            (by decide)) (by decide)) (by decide)) ?_
        simp only [headerText, jsonText, List.append_assoc]
        rfl

theorem grows_appendCookie (first : Bool) (c : Bytes × Bytes) :
    Grows 0 (appendCookie first c) ((if !first then lit "," else []) ++ cookieText (cPair c))
      false := by
  refine .of_eq ((grows_appendComma first).bind <|
    .grow (.write (emits_put 0x7b) <| .write (emits_put 0x22) <|
      .write (emits_copy (lit "name")) <| .write (emits_put 0x22) <| .write (emits_put 0x3a) <|
      .write (emits_put 0x22) <| (grows_jsonEscapeAppend c.1).bind <|
    .grow (.write (emits_put 0x22) <| .write (emits_put 0x2c) <| .write (emits_put 0x22) <|
      .write (emits_copy (lit "value")) <| .write (emits_put 0x22) <| .write (emits_put 0x3a) <|
      .write (emits_put 0x22) <| (grows_jsonEscapeAppend c.2).bind <|
    .grow (.write (emits_put 0x22) <| .write (emits_put 0x7d) <| .pure false)
      (by decide)) (by decide)) (by decide)) ?_
  simp only [cookieText, cPair, jsonText, List.append_assoc]
  rfl

/-- The headers of a table that are passed on. -/
def tableHeaders (headersIn : Option (List TableEntry)) : List (Bytes × Bytes) :=
  (headersIn.getD []).filterMap TableEntry.header?

theorem grows_headers (table : List TableEntry) :
    ∃ first, Grows 0 (table.foldlM appendHeader true)
      ((lit ",").intercalate ((table.filterMap TableEntry.header?).map headerText)) first := by
  have hmap (table : List TableEntry) : (table.filterMap TableEntry.header?).map headerText =
      (table.filter fun e ↦ e.header?.isSome).map fun e ↦ headerText (e.header?.getD ([], [])) := by
    induction table with
    | nil => rfl
    | cons e table ih =>
      cases he : e.header? with
      | none =>
        rw [List.filterMap_cons_none he, ih, List.filter_cons_of_neg (by simp [he])]
      | some p =>
        rw [List.filterMap_cons_some he, List.map_cons, ih, List.filter_cons_of_pos (by simp [he]),
          List.map_cons, he, Option.getD_some]
  refine ⟨_, (Grows.foldlM grows_appendHeader true table).of_eq ?_⟩
  rw [emitted_filter, emitted_separated (fun _ _ ↦ rfl) rfl, hmap]

theorem grows_cookies (cs : List (Bytes × Bytes)) :
    ∃ first, Grows 0 (cs.foldlM appendCookie true)
      ((lit ",").intercalate ((cs.map cPair).map cookieText)) first := by
  refine ⟨_, (Grows.foldlM grows_appendCookie true cs).of_eq ?_⟩
  rw [emitted_separated (fun _ _ ↦ rfl) rfl, List.map_map]
  rfl

theorem grows_appendContext (headersIn : Option (List TableEntry)) :
    Grows 12 (appendContext headersIn)
      (requestContext (tableHeaders headersIn) ((tableCookies headersIn).map cPair) ++ [0]) () := by
  obtain ⟨_, hheaders⟩ := grows_headers (headersIn.getD [])
  obtain ⟨_, hcookies⟩ := grows_cookies (tableCookies headersIn)
  refine .of_eq (.write (emits_put 0x7b) <| .write (emits_put 0x22) <|
    .write (emits_copy (lit "headers")) <| .write (emits_put 0x22) <| .write (emits_put 0x3a) <|
    .write (emits_put 0x7b) <| hheaders.bind <|
    .grow (.write (emits_put 0x7d) <| .write (emits_put 0x2c) <| .write (emits_put 0x22) <|
      .write (emits_copy (lit "cookies")) <| .write (emits_put 0x22) <| .write (emits_put 0x3a) <|
      .write (emits_put 0x5b) <| hcookies.bind <|
    .grow (.of_emits ((emits_put 0x5d).bind <| (emits_put 0x7d).bind <| emits_put 0)) (by decide))
      (by decide)) ?_
  simp only [requestContext, List.append_assoc]
  rfl

/-- **Main result.** No byte is written outside of the buffer there is, and none is lost when it
grows: `json_escape_append` leaves what is there and appends its text, from any buffer that is not
empty, and `build_request_ctx_json` ends with the whole context and its NUL. -/
theorem growingBuffer (headersIn : Option (List TableEntry)) :
    (∀ b t need, b.Holds t → 0 < b.cap →
      ∃ b', jsonGrow need b = .ok ((), b') ∧ t.length + need < b'.cap ∧ b'.Holds t) ∧
    (∀ b t src, b.Holds t → 0 < b.cap →
      ∃ b', jsonEscapeAppend src b = .ok ((), b') ∧
        b'.Holds (t ++ (cString src).flatMap Php.escapeByte)) ∧
    ∀ template, buildRequestCtxJson template headersIn = .ok none ∨
      ∃ b, buildRequestCtxJson template headersIn = .ok (some b) ∧
        b.Holds (requestContext (tableHeaders headersIn) ((tableCookies headersIn).map cPair) ++
          [0]) := by
  refine ⟨fun b t need hb h0 ↦ ?_, fun b t src hb h0 ↦ ?_, fun template ↦ ?_⟩
  · obtain ⟨b', hb', -, hroom, hholds⟩ := exists_jsonGrow need hb h0
    exact ⟨b', hb', hroom, hholds⟩
  · obtain ⟨b', hb', -, hholds⟩ := (grows_jsonEscapeAppend src).run hb h0 hb.length_le
    exact ⟨b', hb', hholds⟩
  · obtain ⟨b, hb, -, hholds⟩ := (grows_appendContext headersIn).run (Block.holds_alloc 512)
      (by decide) (by decide)
    rw [List.nil_append] at hholds
    rw [buildRequestCtxJson, hb]
    split_ifs
    · exact .inl rfl
    · exact .inl rfl
    · exact .inr ⟨b, rfl, hholds⟩

end GoMesi.Apache
