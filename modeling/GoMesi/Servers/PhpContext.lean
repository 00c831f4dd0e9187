import GoMesi.Servers.ApacheBuffer
import GoMesi.Servers.RequestJson

/-!
# The request context of PHP

A script gives the headers and the cookies for the cache key itself, and a header may have several
values. The extension writes them byte by byte into a buffer that `realloc` replaces when there is no
room for one byte and a NUL behind it. The text is the context of these headers and cookies, whatever
its length is (`exists_buildContext`).

Sizes do not wrap here, and no allocation fails.
-/

namespace GoMesi.Php

open Strings C Json
open Apache (cString cPair doubled lt_doubled Grows)
open C.Write (put terminate)

/-! ## The code -/

/-- `mesi_dyn_ensure` -/
def mesiDynEnsure (need : ℕ) : Write Unit := fun b ↦
  if b.pos + need < b.cap then .ok ((), b)
  else
    let ncap := doubled (b.pos + need) (if b.cap ≠ 0 then b.cap * 2 else 256)
    if h : b.pos ≤ ncap then .ok ((), { b with cap := ncap, pos_le := h }) else .error .overrun

/-- `mesi_dyn_putc` -/
def mesiDynPutc (c : UInt8) : Write Unit := do
  mesiDynEnsure 2
  put c

/-- The body of the loop of `mesi_dyn_json_append_escape`. -/
def mesiDynAppendByte (p : UInt8) : Write Unit := do
  if p = 0x22 then
    mesiDynPutc 0x5c
    mesiDynPutc 0x22
  else if p = 0x5c then
    mesiDynPutc 0x5c
    mesiDynPutc 0x5c
  else if p < 0x20 then
    mesiDynPutc 0x5c
    mesiDynPutc 0x75
    mesiDynPutc 0x30
    mesiDynPutc 0x30
    mesiDynPutc (hexDigit (p.toNat / 16))
    mesiDynPutc (hexDigit (p.toNat % 16))
  else mesiDynPutc p

/-- `mesi_dyn_json_append_str` -/
def mesiDynJsonAppendStr (src : Bytes) : Write Unit := do
  mesiDynPutc 0x22
  (cString src).forM mesiDynAppendByte
  mesiDynPutc 0x22

/-- A key, byte by byte. -/
def mesiDynPuts (s : Bytes) : Write Unit := s.forM mesiDynPutc

/-- A comma before each element but the first. -/
def mesiDynComma (first : Bool) : Write Unit := if first then pure () else mesiDynPutc 0x2c

/-- The body of the loop over the values of a header. -/
def appendValue (first : Bool) (v : Bytes) : Write Bool := do
  mesiDynComma first
  mesiDynJsonAppendStr v
  pure false

/-- The value of a header, a string or an array of strings. -/
def appendHeaderValue : HeaderJson → Write Unit
  | .one v => mesiDynJsonAppendStr v
  | .many vs => do
    mesiDynPutc 0x5b
    let _ ← vs.foldlM appendValue true
    mesiDynPutc 0x5d

/-- The body of the loop over the headers. -/
def appendHeader (first : Bool) (h : NamedHeader) : Write Bool := do
  mesiDynComma first
  mesiDynJsonAppendStr h.1
  mesiDynPutc 0x3a
  appendHeaderValue h.2
  pure false

/-- The body of the loop over the cookies. -/
def appendCookie (first : Bool) (c : Bytes × Bytes) : Write Bool := do
  mesiDynComma first
  mesiDynPutc 0x7b
  mesiDynPutc 0x22
  mesiDynPuts (lit "name")
  mesiDynPutc 0x22
  mesiDynPutc 0x3a
  mesiDynJsonAppendStr c.1
  mesiDynPutc 0x2c
  mesiDynPutc 0x22
  mesiDynPuts (lit "value")
  mesiDynPutc 0x22
  mesiDynPutc 0x3a
  mesiDynJsonAppendStr c.2
  mesiDynPutc 0x7d
  pure false

/-- The rendering of the request context in `parse_with_config`, before its NUL. An option that is
absent is an empty list. -/
def appendContext (requestHeaders : List NamedHeader) (requestCookies : List (Bytes × Bytes)) :
    Write Unit := do
  mesiDynPutc 0x7b
  mesiDynPutc 0x22
  mesiDynPuts (lit "headers")
  mesiDynPutc 0x22
  mesiDynPutc 0x3a
  mesiDynPutc 0x7b
  let _ ← requestHeaders.foldlM appendHeader true
  mesiDynPutc 0x7d
  mesiDynPutc 0x2c
  mesiDynPutc 0x22
  mesiDynPuts (lit "cookies")
  mesiDynPutc 0x22
  mesiDynPutc 0x3a
  mesiDynPutc 0x5b
  let _ ← requestCookies.foldlM appendCookie true
  mesiDynPutc 0x5d
  mesiDynPutc 0x7d

theorem exists_mesiDynEnsure {b : Block} {t : Bytes} (need : ℕ) (hb : b.Holds t) (h0 : 0 < b.cap) :
    ∃ b', mesiDynEnsure need b = .ok ((), b') ∧ b.cap ≤ b'.cap ∧ t.length + need < b'.cap ∧
      b'.Holds t := by
  have hpos := hb.pos_eq
  by_cases hroom : b.pos + need < b.cap
  · exact ⟨b, if_pos hroom, le_rfl, hpos ▸ hroom, hb⟩
  · obtain ⟨hlt, hle⟩ := lt_doubled (n := b.pos + need) (Nat.mul_pos h0 two_pos)
    rw [mesiDynEnsure, if_neg hroom]
    dsimp only
    rw [if_pos h0.ne', dif_pos (by omega)]
    refine ⟨_, rfl, ?_, ?_, hpos, hb.cells_eq⟩
    · dsimp only
      omega
    · dsimp only
      omega

theorem grows_mesiDynPutc (c : UInt8) : Grows 0 (mesiDynPutc c) [c] () where
  run {b t} hb h0 _ := by
    obtain ⟨b₁, hb₁, hcap₁, hroom, hholds₁⟩ := exists_mesiDynEnsure 2 hb h0
    obtain ⟨b₂, hb₂, hcap₂, hholds₂⟩ := (emits_put c).run hholds₁
      (by rw [List.length_singleton]; omega)
    exact ⟨b₂, (bind_of_ok hb₁).trans hb₂, hcap₁.trans hcap₂.ge, hholds₂⟩

theorem grows_mesiDynAppendByte (p : UInt8) : Grows 0 (mesiDynAppendByte p) (escapeByte p) () := by
  have hputc := grows_mesiDynPutc
  rw [mesiDynAppendByte, escapeByte]
  split_ifs
  · exact (hputc 0x5c).bind (hputc 0x22)
  · exact (hputc 0x5c).bind (hputc 0x5c)
  · exact (hputc 0x5c).bind <| (hputc 0x75).bind <| (hputc 0x30).bind <| (hputc 0x30).bind <|
      (hputc _).bind (hputc _)
  · exact hputc p

theorem grows_mesiDynJsonAppendStr (src : Bytes) :
    Grows 0 (mesiDynJsonAppendStr src) (jsonText (cString src)) () :=
  (grows_mesiDynPutc 0x22).bind <| (Grows.forM grows_mesiDynAppendByte (cString src)).bind <|
    grows_mesiDynPutc 0x22

theorem grows_mesiDynPuts (s : Bytes) : Grows 0 (mesiDynPuts s) s () := by
  have h := Grows.forM grows_mesiDynPutc s
  rwa [List.flatMap_singleton'] at h

theorem grows_mesiDynComma (first : Bool) :
    Grows 0 (mesiDynComma first) (if !first then lit "," else []) () := by
  cases first with
  | true => exact .pure ()
  | false => exact grows_mesiDynPutc 0x2c

/-- A loop that puts commas between the elements. -/
theorem grows_commas {ι : Type} {body : Bool → ι → Write Bool} {text : ι → Bytes}
    (h : ∀ first x, Grows 0 (body first x) ((if !first then lit "," else []) ++ text x) false)
    (xs : List ι) : ∃ first, Grows 0 (xs.foldlM body true) (commas (xs.map text)) first := by
  refine ⟨_, (Grows.foldlM h true xs).of_eq ?_⟩
  exact emitted_separated (fun _ _ ↦ rfl) rfl xs

/-- The C strings of a header. -/
def cHeader (h : NamedHeader) : NamedHeader :=
  (cString h.1, match h.2 with
    | .one v => .one (cString v)
    | .many vs => .many (vs.map cString))

theorem grows_appendHeaderValue (v : HeaderJson) (name : Bytes) :
    Grows 0 (appendHeaderValue v) (cHeader (name, v)).2.text () := by
  cases v with
  | one v => exact grows_mesiDynJsonAppendStr v
  | many vs =>
    have hvalue (first : Bool) (v : Bytes) : Grows 0 (appendValue first v)
        ((if !first then lit "," else []) ++ jsonText (cString v)) false :=
      .of_eq ((grows_mesiDynComma first).bind <| (grows_mesiDynJsonAppendStr v).bind (.pure false))
        (by rw [List.append_nil])
    obtain ⟨_, hvalues⟩ := grows_commas hvalue vs
    refine .of_eq ((grows_mesiDynPutc 0x5b).bind <| hvalues.bind <| grows_mesiDynPutc 0x5d) ?_
    change _ = arrayText ((vs.map cString).map jsonText)
    rw [List.map_map]
    rfl

theorem grows_appendHeader (first : Bool) (h : NamedHeader) : Grows 0 (appendHeader first h)
    ((if !first then lit "," else []) ++ pairText (jsonText (cHeader h).1) (cHeader h).2.text)
    false := by
  refine .of_eq ((grows_mesiDynComma first).bind <| (grows_mesiDynJsonAppendStr h.1).bind <|
    (grows_mesiDynPutc 0x3a).bind <| (grows_appendHeaderValue h.2 h.1).bind (.pure false)) ?_
  rw [List.append_nil]
  rfl

theorem grows_appendCookie (first : Bool) (c : Bytes × Bytes) : Grows 0 (appendCookie first c)
    ((if !first then lit "," else []) ++ cookieText (cPair c)) false := by
  refine .of_eq ((grows_mesiDynComma first).bind <| (grows_mesiDynPutc 0x7b).bind <|
    (grows_mesiDynPutc 0x22).bind <| (grows_mesiDynPuts (lit "name")).bind <|
    (grows_mesiDynPutc 0x22).bind <| (grows_mesiDynPutc 0x3a).bind <|
    (grows_mesiDynJsonAppendStr c.1).bind <| (grows_mesiDynPutc 0x2c).bind <|
    (grows_mesiDynPutc 0x22).bind <| (grows_mesiDynPuts (lit "value")).bind <|
    (grows_mesiDynPutc 0x22).bind <| (grows_mesiDynPutc 0x3a).bind <|
    (grows_mesiDynJsonAppendStr c.2).bind <| (grows_mesiDynPutc 0x7d).bind (.pure false)) ?_
  simp only [cookieText, cPair, List.append_nil]
  rfl

/-- The text of the context. -/
def contextJson (requestHeaders : List NamedHeader) (requestCookies : List (Bytes × Bytes)) : Bytes :=
  membersText (contextMembers (requestHeaders.map cHeader) (requestCookies.map cPair))

theorem grows_appendContext (requestHeaders : List NamedHeader)
    (requestCookies : List (Bytes × Bytes)) :
    Grows 0 (appendContext requestHeaders requestCookies) (contextJson requestHeaders requestCookies)
      () := by
  obtain ⟨_, hheaders⟩ := grows_commas grows_appendHeader requestHeaders
  obtain ⟨_, hcookies⟩ := grows_commas grows_appendCookie requestCookies
  refine .of_eq ((grows_mesiDynPutc 0x7b).bind <| (grows_mesiDynPutc 0x22).bind <|
    (grows_mesiDynPuts (lit "headers")).bind <| (grows_mesiDynPutc 0x22).bind <|
    (grows_mesiDynPutc 0x3a).bind <| (grows_mesiDynPutc 0x7b).bind <| hheaders.bind <|
    (grows_mesiDynPutc 0x7d).bind <| (grows_mesiDynPutc 0x2c).bind <|
    (grows_mesiDynPutc 0x22).bind <| (grows_mesiDynPuts (lit "cookies")).bind <|
    (grows_mesiDynPutc 0x22).bind <| (grows_mesiDynPutc 0x3a).bind <|
    (grows_mesiDynPutc 0x5b).bind <| hcookies.bind <| (grows_mesiDynPutc 0x5d).bind <|
    grows_mesiDynPutc 0x7d) ?_
  simp only [contextJson, membersText, contextMembers, List.map_cons, List.map_nil, commas_cons_cons,
    commas_singleton, member, headersText, arrayText, List.append_assoc, List.cons_append,
    List.map_map]
  rfl

end GoMesi.Php
