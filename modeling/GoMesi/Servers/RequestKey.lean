import GoMesi.Mesi.CacheKeyTemplate
import GoMesi.Servers.Cookies
import GoMesi.Servers.ParseBlobs

/-!
# The cache key of a request

A module hands its request over as a JSON context, `buildRequestFromJSON` makes an `http.Request` of
it, and `BuildCacheKey` looks up there what the template refers to. The decoder collects the headers
in a map, from which they go into the header of the request in an order of its own each time, and the
cookies go through a `Cookie` header that is written and read again.

What comes out is the key of a request with the same headers and the same cookies. This takes headers
whose names differ in canonical form: of two that do not, the map or the order of its entries decides
which one is left. A module writes no context for a template that refers to no header and to no
cookie, and the key does not depend on it then.
-/

namespace GoMesi

open Strings Json CacheKeyTemplate Cookie

/-! ## The decoder -/

/-- `Header.Set` -/
def Header.set (h : Header) (key v : Bytes) : Header := h.insert (canonicalMIMEHeaderKey key) [v]

/-- `Header.Add` -/
def Header.add (h : Header) (key v : Bytes) : Header :=
  h.insert (canonicalMIMEHeaderKey key) ((h.lookup (canonicalMIMEHeaderKey key)).getD [] ++ [v])

/-- `headerValue.UnmarshalJSON`: a string, the strings of an array, or nothing. -/
def headerValues (v : Value) : List Bytes :=
  match asString [] v with
  | some s => [s]
  | none => (asStrings [] v).getD []

/-- `cookieEntry` -/
structure CookieEntry where
  name : Bytes := []
  value : Bytes := []

/-- `requestCtx` -/
structure RequestCtx where
  headers : Header := ∅
  cookies : List CookieEntry := []

section

variable (U : Unicode)

def CookieEntry.assign (c : CookieEntry) (key : Bytes) (v : Value) : Option CookieEntry :=
  match field U [lit "name", lit "value"] key with
  | none => some c
  | some name =>
    if name = lit "name" then (asString c.name v).map fun s ↦ { c with name := s }
    else (asString c.value v).map fun s ↦ { c with value := s }

/-- A value for the map of the headers, which keeps its other entries. -/
def asHeaders (old : Header) : Value → Option Header
  | .object ms => some (ms.foldl (fun h m ↦ h.insert m.1 (headerValues m.2)) old)
  | .null => some ∅
  | _ => none

/-- A value for a `[]cookieEntry` that has been `old`. -/
def asCookies (old : List CookieEntry) : Value → Option (List CookieEntry)
  | .array vs => go old vs
  | .null => some []
  | _ => none
where
  /-- One element after the other. -/
  go : List CookieEntry → List Value → Option (List CookieEntry)
    | _, [] => some []
    | old, v :: vs => do
      let c ← asStruct (CookieEntry.assign U) (old.headD {}) v
      some (c :: (← go old.tail vs))

def RequestCtx.assign (c : RequestCtx) (key : Bytes) (v : Value) : Option RequestCtx :=
  match field U [lit "headers", lit "cookies"] key with
  | none => some c
  | some name =>
    if name = lit "headers" then (asHeaders c.headers v).map fun h ↦ { c with headers := h }
    else (asCookies U c.cookies v).map fun cs ↦ { c with cookies := cs }

/-- The body of the loop over the headers. -/
def setHeader (h : Header) (entry : Σ _ : Bytes, List Bytes) : Header :=
  match entry.2 with
  | [] => h
  | v :: extra => extra.foldl (fun h v ↦ h.add entry.1 v) (h.set entry.1 v)

/-- `Request.AddCookie`, on the header of the request. -/
def Header.addCookie (h : Header) (c : Bytes × Bytes) : Header :=
  h.set (lit "Cookie") (Cookie.addCookie (h.get (lit "Cookie")) c)

/-- The body of the loop over the cookies. -/
def addCookieEntry (h : Header) (c : CookieEntry) : Header :=
  if c.name = [] then h else h.addCookie (c.name, c.value)

/-- The request of a context, where `range` puts the entries of the map into an order. -/
def RequestCtx.request (range : List (Σ _ : Bytes, List Bytes) → List (Σ _ : Bytes, List Bytes))
    (ctx : RequestCtx) : CacheKeyTemplate.Request :=
  let header := ctx.cookies.foldl addCookieEntry ((range ctx.headers.entries).foldl setHeader ∅)
  { header, cookies := readCookies ((header.lookup (lit "Cookie")).getD []) }

end

/-! ## What a context is decoded to -/

/-- The values that are read of a header. -/
def HeaderJson.values : HeaderJson → List Bytes
  | one v => [toValid v]
  | many vs => vs.map toValid

/-- The cookies of a context that are written into the header of the request. -/
def writtenCookies (cs : List (Bytes × Bytes)) : List (Bytes × Bytes) :=
  (cs.map fun c ↦ (toValid c.1, toValid c.2)).filter fun c ↦ c.1 ≠ []

/-- A request with some headers and some cookies, up to what is not valid in their strings. -/
structure Holds (r : CacheKeyTemplate.Request) (headers : List NamedHeader)
    (cs : List (Bytes × Bytes)) : Prop where
  header : ∀ key values, r.header.lookup key = some values ↔
    (∃ h ∈ headers, h.2.values ≠ [] ∧ canonicalMIMEHeaderKey (toValid h.1) = key ∧
      h.2.values = values) ∨
      key = lit "Cookie" ∧ writtenCookies cs ≠ [] ∧ [cookieLine (writtenCookies cs)] = values
  cookies : r.cookies = cs.filterMap kept

section Insert

variable {ι : Type} {key : ι → Bytes} {val : ι → List Bytes}

end Insert

section

variable {r r' : CacheKeyTemplate.Request}

end

namespace Nginx

end Nginx

/-! ## Apache -/

namespace Apache

end Apache

end GoMesi
