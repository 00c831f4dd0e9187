import GoMesi.Go.Strconv

/-!
# The parser configuration

`config.go` and `max_depth.go`. A configuration is a value that every re-entry of the parser gets
a copy of. Three of its fields are references all the same, and the copies share what they refer
to: the `Variables` map, the request semaphore and the cache. A reference is a name here, and what
it refers to is part of the state of a run.

What the code takes from packages that are not modelled is a `Platform`.
-/

namespace GoMesi

open Strings

/-- The place of a render or of a token in the tree of renders: the token indices on the way from
the page. It serves as the identity of what is allocated there. -/
abbrev Path := List ℕ

/-- A `Variables` map: the one the caller passed, or the one the render at a path made. -/
inductive MapRef
  | caller
  | made (render : Path)
  deriving DecidableEq, Repr

/-- The request semaphore the render at `render` made, a channel with `cap` slots. -/
structure Semaphore where
  render : Path
  cap : ℕ
  deriving DecidableEq, Repr

/-- A client supplied by the caller. Of its transport it matters which addresses it connects to. -/
structure HttpClient where
  /-- The addresses the dialer of the transport does not refuse. -/
  permits : Bytes → Bool
  /-- The text of the error for an address that it refuses. -/
  refusal : Bytes → Bytes := fun _ ↦ lit "dial refused"
  timeout : Duration

/-- A `map[string]string`. -/
abbrev StringMap := AList fun _ : Bytes ↦ Bytes

/-- An `http.Header`. -/
abbrev Header := AList fun _ : Bytes ↦ List Bytes

/-- The fields of `EsiParserConfig` that a fetch reads, but for the context and the loggers. -/
structure FetchConfig where
  defaultUrl : Bytes := []
  timeout : Duration := 0
  allowedHosts : List Bytes := []
  blockPrivateIPs : Bool := false
  allowPrivateIPsForAllowedHosts : Bool := false
  maxResponseSize : ℤ := 0
  httpClient : Option HttpClient := none
  /-- Whether there is a cache. -/
  cache : Bool := false
  cacheTTL : Duration := 0
  cacheKeyFunc : Option (Bytes → Bytes) := none
  requestSemaphore : Option Semaphore := none

/-- `EsiParserConfig`, but for the context and the loggers. -/
structure EsiParserConfig extends FetchConfig where
  maxDepth : ℕ := 0
  parseOnHeader : Bool := false
  maxConcurrentRequests : ℤ := 0
  includeErrorMarker : Bytes := []
  maxWorkers : ℤ := 0
  vars : Option MapRef := none
  requestHeaders : Option Header := none
  requestCookies : Option StringMap := none
  requestQuery : Option StringMap := none

/-- `esiIncludeToken`: the attributes of an include element and its body. -/
structure EsiIncludeToken where
  src : Bytes := []
  alt : Bytes := []
  timeout : Bytes := []
  maxDepth : Bytes := []
  fetchMode : Bytes := []
  abRatio : Bytes := []
  onError : Bytes := []
  content : Bytes := []
  deriving DecidableEq, Repr

/-- What the code takes from packages that are not modelled. -/
structure Platform where
  /-- The tables of package `unicode`. -/
  unicode : Unicode
  /-- `runtime.NumCPU`, which is at least one. -/
  numCPU : ℕ
  numCPU_pos : 0 < numCPU
  /-- `strconv.ParseFloat` with 64 bits, `none` on an error. -/
  parseFloat : Bytes → Option Strconv.Float
  /-- `xml.Unmarshal` into an include token, `none` on an error. -/
  xmlUnmarshal : Bytes → Option EsiIncludeToken
  /-- `strconv.Quote`, the verb `%q`. -/
  quote : Bytes → Bytes

/-! ## Header fields -/

/-- The bytes of a header field name, `httpguts.IsTokenRune` on ASCII. -/
def isTokenByte (b : UInt8) : Bool :=
  (0x30 ≤ b && b ≤ 0x39) || (0x41 ≤ b && b ≤ 0x5a) || (0x61 ≤ b && b ≤ 0x7a) ||
    (lit "!#$%&'*+-.^_|~\x60").contains b

/-- `textproto.CanonicalMIMEHeaderKey`: upper case at the start and after a hyphen, lower case
elsewhere, and a name with other bytes as it is. -/
def canonicalMIMEHeaderKey (s : Bytes) : Bytes :=
  if s.all isTokenByte then loop true s else s
where
  loop (upper : Bool) : Bytes → Bytes
    | [] => []
    | b :: rest => (if upper then asciiUpper b else asciiLower b) :: loop (b == 0x2d) rest

/-- `Header.Get`: the first value of the field, or the empty string. -/
def Header.get (h : Header) (key : Bytes) : Bytes :=
  match h.lookup (canonicalMIMEHeaderKey key) with
  | some (v :: _) => v
  | _ => []

/-! ## The maximal depth of an include -/

/-- `MaxMaxDepth` -/
def maxMaxDepth : ℕ := 10000

/-- `ErrInvalidMaxDepth`: why a `max-depth` attribute is rejected. -/
inductive ErrInvalidMaxDepth
  | negative (trimmed : Bytes)
  | nonInteger (trimmed : Bytes)
  | overflow
  | notUnsigned (trimmed : Bytes)
  | exceedsMaximum (n : ℕ)
  deriving DecidableEq, Repr

/-- `parseMaxDepth` -/
def parseMaxDepth (raw : Bytes) : Except ErrInvalidMaxDepth ℕ :=
  if raw = [] then .ok 0
  else
    let trimmed := trimSpace raw
    if trimmed = [] then .ok 0
    else if hasPrefix trimmed (lit "-") then .error (.negative trimmed)
    else if contains trimmed (lit ".") then .error (.nonInteger trimmed)
    else
      match Strconv.parseUint trimmed with
      | .error .range => .error .overflow
      | .error .syntax_ => .error (.notUnsigned trimmed)
      | .ok n => if n > maxMaxDepth then .error (.exceedsMaximum n) else .ok n

/-! ## Operations on configurations -/

namespace EsiParserConfig

variable (c : EsiParserConfig)

/-- `CanGoDeeper` -/
def canGoDeeper (t : Duration) : Bool := decide (c.maxDepth ≥ 1 ∧ c.timeout > t)

/-- `ParseOnly` -/
def parseOnly : Bool := decide (c.maxDepth < 1)

theorem one_le_maxDepth (h : ¬ c.parseOnly) : 1 ≤ c.maxDepth :=
  not_lt.mp fun hlt ↦ h (decide_eq_true hlt)

/-- `DecreaseMaxDepth` -/
def decreaseMaxDepth : EsiParserConfig := { c with maxDepth := c.maxDepth - 1 }

/-- `WithElapsedTime` -/
def withElapsedTime (t : Duration) : EsiParserConfig :=
  { c with timeout := if wrap64 (c.timeout - t) > 0 then wrap64 (c.timeout - t) else 0 }

/-- The timeout attribute part of `OverrideConfig`. -/
def overrideTimeout (P : Platform) (token : EsiIncludeToken) : EsiParserConfig :=
  if token.timeout = [] then c
  else
    match P.parseFloat token.timeout with
    | some x =>
      if x.isPos ∧ c.timeout > secondsToDuration x then { c with timeout := secondsToDuration x }
      else c
    | none => c

/-- The max-depth attribute part of `OverrideConfig`. A rejected attribute changes nothing. -/
def overrideMaxDepth (token : EsiIncludeToken) : EsiParserConfig :=
  if token.maxDepth = [] ∨ trimSpace token.maxDepth = [] then c
  else
    match parseMaxDepth token.maxDepth with
    | .error _ => c
    | .ok depth => if c.maxDepth > depth + 1 then { c with maxDepth := depth + 1 } else c

/-- `OverrideConfig` -/
def overrideConfig (P : Platform) (token : EsiIncludeToken) : EsiParserConfig :=
  (c.overrideTimeout P token).overrideMaxDepth token

/-- `normalizeMaxWorkers` -/
def normalizeMaxWorkers (P : Platform) : EsiParserConfig :=
  if c.maxWorkers ≤ 0 then { c with maxWorkers := P.numCPU * 4 } else c

theorem normalizeMaxWorkers_pos (P : Platform) : 0 < (c.normalizeMaxWorkers P).maxWorkers := by
  have := P.numCPU_pos
  rw [normalizeMaxWorkers]
  split_ifs
  · show (0 : ℤ) < P.numCPU * 4
    omega
  · omega

end EsiParserConfig

end GoMesi
