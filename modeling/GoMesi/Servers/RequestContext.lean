import GoMesi.C.Block
import GoMesi.Servers.PhpProcess

/-!
# The request context

nginx and Apache give libgomesi the headers and the cookies of a request as one JSON text. Both read
the cookies off the `Cookie` header with the same loop: pairs at semicolons, the name up to the first
equals sign, blanks taken away around both, pairs without a name left out. nginx runs the loop twice,
once to measure and once to write.
-/

namespace GoMesi

open Strings

/-! ## Cookies -/

/-- The bytes that are skipped before a pair. -/
def isCookieSeparator (c : UInt8) : Bool := c == 0x20 || c == 0x3b || c == 0x09

/-- The bytes of a name. -/
def isCookieNameByte (c : UInt8) : Bool := c != 0x3d && c != 0x3b

/-- The bytes of a value. -/
def isCookieValueByte (c : UInt8) : Bool := c != 0x3b

/-- The bytes that are taken away around a name and a value. -/
def isCookieBlank (c : UInt8) : Bool := c == 0x20 || c == 0x09

/-- The loops that take blanks away, first at the end and then at the start. -/
def trimCookie (s : Bytes) : Bytes :=
  ((s.reverse.dropWhile isCookieBlank).reverse).dropWhile isCookieBlank

/-- What is left behind the name gets shorter, unless there is no name. -/
theorem length_afterName_lt {c : Bytes} (hc : c.dropWhile isCookieSeparator ≠ [])
    (h : ((c.dropWhile isCookieSeparator).dropWhile isCookieNameByte).head? ≠ some 0x3d) :
    ((c.dropWhile isCookieSeparator).dropWhile isCookieNameByte).length < c.length := by
  have hle : (c.dropWhile isCookieSeparator).length ≤ c.length :=
    (List.dropWhile_suffix isCookieSeparator).length_le
  have hhead := List.head_dropWhile_not isCookieSeparator hc
  cases hs : c.dropWhile isCookieSeparator with
  | nil => exact absurd hs hc
  | cons b s =>
    simp only [hs, List.head_cons] at hhead
    rw [hs, List.length_cons] at hle
    rw [hs] at h
    -- A pair starts neither with a semicolon, which has been skipped, nor with an equals sign.
    have hsemicolon : b ≠ 0x3b := by
      rintro rfl
      exact absurd hhead (by decide)
    have hequals : b ≠ 0x3d := by
      rintro rfl
      exact h rfl
    have hname : isCookieNameByte b = true := by
      rw [isCookieNameByte, Bool.and_eq_true, bne_iff_ne, bne_iff_ne]
      exact ⟨hequals, hsemicolon⟩
    rw [List.dropWhile_cons_of_pos hname]
    have := (List.dropWhile_suffix isCookieNameByte (l := s)).length_le
    omega

/-- What is left behind the value is shorter. -/
theorem length_afterValue_lt {c : Bytes} (hc : c.dropWhile isCookieSeparator ≠ []) :
    (((c.dropWhile isCookieSeparator).dropWhile isCookieNameByte).tail.dropWhile
      isCookieValueByte).length < c.length := by
  have hpos := List.length_pos_of_ne_nil hc
  have h₁ := (List.dropWhile_suffix isCookieSeparator (l := c)).length_le
  have h₂ := (List.dropWhile_suffix isCookieNameByte (l := c.dropWhile isCookieSeparator)).length_le
  have h₃ := (List.dropWhile_suffix isCookieValueByte
    (l := ((c.dropWhile isCookieSeparator).dropWhile isCookieNameByte).tail)).length_le
  rw [List.length_tail] at h₃
  omega

/-- The loop over a `Cookie` header: the pairs, with their names and values. -/
def cookies (c : Bytes) : List (Bytes × Bytes) :=
  if hc : c.dropWhile isCookieSeparator = [] then []
  else if h : ((c.dropWhile isCookieSeparator).dropWhile isCookieNameByte).head? ≠ some 0x3d then
    have _ := (List.dropWhile_suffix isCookieValueByte).length_le.trans_lt (length_afterName_lt hc h)
    cookies (((c.dropWhile isCookieSeparator).dropWhile isCookieNameByte).dropWhile
      isCookieValueByte)
  else
    have _ := length_afterValue_lt hc
    let rest := ((c.dropWhile isCookieSeparator).dropWhile isCookieNameByte).tail
    let name := trimCookie ((c.dropWhile isCookieSeparator).takeWhile isCookieNameByte)
    let value := trimCookie (rest.takeWhile isCookieValueByte)
    let after := cookies (rest.dropWhile isCookieValueByte)
    if name = [] then after else (name, value) :: after
termination_by c.length

/-! ## The text -/

/-- A string that is given with its length, in JSON. -/
def jsonText (s : Bytes) : Bytes := lit "\"" ++ (s.flatMap Php.escapeByte ++ lit "\"")

/-- A header of the context. -/
def headerText (h : Bytes × Bytes) : Bytes := jsonText h.1 ++ (lit ":" ++ jsonText h.2)

/-- A cookie of the context. -/
def cookieText (c : Bytes × Bytes) : Bytes :=
  lit "\x7b\"name\":" ++ (jsonText c.1 ++ (lit ",\"value\":" ++ (jsonText c.2 ++ lit "\x7d")))

/-- The context of a request with some headers and some cookies. -/
def requestContext (headers cookies : List (Bytes × Bytes)) : Bytes :=
  lit "\x7b\"headers\":\x7b" ++ ((lit ",").intercalate (headers.map headerText) ++
    (lit "\x7d,\"cookies\":[" ++ ((lit ",").intercalate (cookies.map cookieText) ++
      (lit "]" ++ lit "\x7d"))))

end GoMesi
