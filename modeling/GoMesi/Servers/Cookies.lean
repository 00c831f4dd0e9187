import GoMesi.Go.Utf8Valid
import GoMesi.Mesi.Config

/-!
# Cookies of a request

`net/http`: `AddCookie` writes a cookie into the `Cookie` header of a request, and `Cookies` reads
them back. A byte that a value must not have is left out when it is written, and a cookie whose name
is not a token is left out when it is read. A request with more than 3000 cookies has none.
-/

namespace GoMesi

open Strings

namespace Cookie

/-! ## The code -/

/-- `validCookieValueByte` -/
def validCookieValueByte (b : UInt8) : Bool :=
  0x20 ≤ b && b < 0x7f && b != 0x22 && b != 0x3b && b != 0x5c

/-- `sanitizeCookieName` -/
def sanitizeCookieName (n : Bytes) : Bytes := n.map fun b ↦ if b = 0x0a ∨ b = 0x0d then 0x2d else b

/-- `sanitizeCookieValue` of a cookie that is not quoted. -/
def sanitizeCookieValue (v : Bytes) : Bytes :=
  let v := v.filter validCookieValueByte
  if v = [] then v
  else if v.any fun b ↦ b == 0x20 || b == 0x2c then 0x22 :: (v ++ [0x22])
  else v

/-- A cookie as `AddCookie` writes it. -/
def cookieString (c : Bytes × Bytes) : Bytes :=
  sanitizeCookieName c.1 ++ 0x3d :: sanitizeCookieValue c.2

/-- `Request.AddCookie`, on the value of the `Cookie` header, which is empty without one. -/
def addCookie (line : Bytes) (c : Bytes × Bytes) : Bytes :=
  if line ≠ [] then line ++ (lit "; " ++ cookieString c) else cookieString c

/-- `textproto.isASCIISpace` -/
def isASCIISpace (b : UInt8) : Bool := b == 0x20 || b == 0x09 || b == 0x0a || b == 0x0d

/-- `textproto.TrimString` -/
def trimString (s : Bytes) : Bytes :=
  ((s.dropWhile isASCIISpace).reverse.dropWhile isASCIISpace).reverse

/-- `isToken` -/
def isToken (s : Bytes) : Bool := decide (s ≠ []) && s.all isTokenByte

/-- `parseCookieValue`, which takes quotes away. -/
def parseCookieValue (raw : Bytes) : Option Bytes :=
  let raw :=
    if 1 < raw.length ∧ raw.head? = some 0x22 ∧ raw.getLast? = some 0x22 then raw.tail.dropLast
    else raw
  if raw.all validCookieValueByte then some raw else none

/-- The body of the loop of `readCookies`, on a part between semicolons. -/
def readCookie (part : Bytes) : Option (Bytes × Bytes) :=
  let part := trimString part
  if part = [] then none
  else
    let name := trimString (part.takeWhile (· != 0x3d))
    if ¬ isToken name then none
    else (parseCookieValue (part.dropWhile (· != 0x3d)).tail).map fun v ↦ (name, v)

/-- `readCookies`, on the values of the `Cookie` header. -/
def readCookies (lines : List Bytes) : List (Bytes × Bytes) :=
  if 3000 < (lines.map fun line ↦ line.count 0x3b + 1).sum then []
  else lines.flatMap fun line ↦ (split (trimString line) 0x3b).filterMap readCookie

/-! ## What is read of what has been written -/

/-- What comes back of a cookie. -/
def kept (c : Bytes × Bytes) : Option (Bytes × Bytes) :=
  if isToken (sanitizeCookieName c.1) then
    some (sanitizeCookieName c.1, c.2.filter validCookieValueByte)
  else none

section

variable {c : Bytes × Bytes}

end

/-! ### All of them -/

/-- The value of the `Cookie` header after some cookies have been added to a request without one. -/
def cookieLine (cs : List (Bytes × Bytes)) : Bytes := cs.foldl addCookie []

/-- A text that does not end with a blank. -/
def Tight (s : Bytes) : Prop := ∀ b ∈ s.getLast?, isASCIISpace b = false

theorem Tight.append {s t : Bytes} (hs : t = [] → Tight s) (ht : Tight t) : Tight (s ++ t) := by
  intro b hb
  rw [List.getLast?_append] at hb
  rcases Option.or_eq_some_iff.mp hb with hb | ⟨hnil, hb⟩
  · exact ht b hb
  · exact hs (List.getLast?_eq_none_iff.mp hnil) b hb

theorem Tight.flatMap {ι : Type} {text : ι → Bytes} (h : ∀ x, Tight (text x)) (xs : List ι) :
    Tight (xs.flatMap text) := by
  induction xs with
  | nil => exact nofun
  | cons x xs ih =>
    rw [List.flatMap_cons]
    exact .append (fun _ ↦ h x) ih

end Cookie

end GoMesi
