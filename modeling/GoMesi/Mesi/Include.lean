import GoMesi.Mesi.Vars

/-!
# Include elements

`include.go`, `fetch_mode.go` and `ab_ratio.go`: how an include element chooses what to fetch, and
what it shows when that fails. A fetch itself is an operation here; `Mesi.Fetch` has its program.
-/

namespace GoMesi

open Strings

/-! ## A/B ratios -/

/-- `MaxABRatio` -/
def maxABRatio : ℕ := 1000000

/-- `abRatio` -/
structure ABRatio where
  a : ℕ
  b : ℕ
  deriving DecidableEq, Repr

/-- `ErrInvalidABRatio` with the reason `why`. -/
def errInvalidABRatio (P : Platform) (input why : Bytes) : GoError :=
  ⟨some .invalidABRatio, lit "invalid ab-ratio " ++ P.quote input ++ lit ": " ++ why⟩

/-- `parseABSide`, with the text of its error. -/
def parseABSide (P : Platform) (side : Bytes) : Except Bytes ℕ :=
  let side := trimSpace side
  if side = [] then .error (lit "empty value")
  else if hasPrefix side (lit "-") then .error (lit "negative value " ++ P.quote side)
  else if contains side (lit ".") then .error (lit "non-integer value " ++ P.quote side)
  else
    match Strconv.parseUint side with
    | .error _ => .error (lit "not an unsigned integer (got " ++ P.quote side ++ lit ")")
    | .ok n =>
      if n > maxABRatio then
        .error (lit "value " ++ Strconv.formatInt n ++ lit " exceeds maximum " ++
          Strconv.formatInt maxABRatio)
      else .ok n

/-- `parseAB` -/
def EsiIncludeToken.parseAB (P : Platform) (token : EsiIncludeToken) : Except GoError ABRatio :=
  if token.abRatio = [] then .ok ⟨50, 50⟩
  else
    let raw := trimSpace token.abRatio
    let invalid (why : Bytes) : Except GoError ABRatio :=
      .error (errInvalidABRatio P token.abRatio why)
    if raw = [] then .ok ⟨50, 50⟩
    else if ¬ contains raw (lit ":") then invalid (lit "missing ':' separator")
    else
      match split raw 0x3a with
      | [left, right] =>
        match parseABSide P left with
        | .error e => invalid (lit "A side: " ++ e)
        | .ok a =>
          match parseABSide P right with
          | .error e => invalid (lit "B side: " ++ e)
          | .ok b =>
            if a = 0 ∧ b = 0 then
              invalid (lit "both sides are zero (no traffic would ever reach B)")
            else .ok ⟨a, b⟩
      | parts => invalid (lit "expected exactly 2 parts, got " ++ Strconv.formatInt parts.length)

/-- `selectUrl` with the generator `rand.Intn`. The sum is at most `2 * MaxABRatio`, so that the
guard for sums beyond an `int` is not reached. -/
def ABRatio.selectUrl (ratio : ABRatio) (token : EsiIncludeToken) (element : Path) :
    Render Bytes :=
  if token.alt = [] then return token.src
  else if ratio.a + ratio.b = 0 then return token.src
  else if ratio.a + ratio.b > 2 ^ 63 - 1 then return token.alt
  else do
    let randomValue ← ask (.intn element (ratio.a + ratio.b))
    return if randomValue < ratio.a then token.src else token.alt

/-! ## Fetch modes -/

/-- Where an include element stands, as far as its fetches are concerned. -/
structure Element where
  path : Path
  /-- The chain of fetches that led to the text it stands in. -/
  chain : List ℕ
  deriving DecidableEq, Repr

/-- Start the fetch number `slot` of an element. -/
def spawnFetch (el : Element) (slot : ℕ) (url : Bytes) (config : EsiParserConfig) (readAt : Time) :
    Render Unit :=
  ask (.spawn ⟨el.path, slot⟩ ⟨url, config.toFetchConfig, config.maxDepth :: el.chain⟩ readAt)

/-- A call of `singleFetchUrlWithContext`. -/
def fetchUrl (el : Element) (slot : ℕ) (url : Bytes) (config : EsiParserConfig)
    (readAt : Time) : Render FetchResult := do
  spawnFetch el slot url config readAt
  ask (.wait ⟨el.path, slot⟩)

/-- `fetchAB` -/
def fetchAB (P : Platform) (el : Element) (token : EsiIncludeToken) (config : EsiParserConfig)
    (readAt : Time) : Render FetchResult :=
  match token.parseAB P with
  | .error err => return .error err
  | .ok ratio => do
    let selected ← ratio.selectUrl token el.path
    fetchUrl el 0 selected config readAt

/-- `fetchConcurrent`: the first success, or the last error. -/
def fetchConcurrent (el : Element) (token : EsiIncludeToken) (config : EsiParserConfig)
    (readAt : Time) : Render FetchResult :=
  if token.alt = [] then fetchUrl el 0 token.src config readAt
  else do
    spawnFetch el 0 token.src config readAt
    spawnFetch el 1 token.alt config readAt
    match ← ask (.select el.path [0, 1]) with
    | .error err => return .error err
    | .ok (_, .ok data) => return .ok data
    | .ok (slot, .error lastErr) =>
      match ← ask (.select el.path ([0, 1].erase slot)) with
      | .error _ => return .error lastErr
      | .ok (_, result) => return result

/-- `fetchFallback`: the second URL after the first one has failed, with what is left of the time
budget. -/
def fetchFallback (el : Element) (token : EsiIncludeToken) (config : EsiParserConfig)
    (readAt : Time) : Render FetchResult := do
  let start ← ask (.now readAt)
  match ← fetchUrl el 0 token.src config readAt with
  | .ok data => return .ok data
  | .error err =>
    if token.alt ≠ [] then
      let t ← ask (.since start config.timeout token.timeout)
      fetchUrl el 1 token.alt (config.withElapsedTime (elapsed start t)) t
    else return .error err

/-! ## What an include shows -/

/-- The results of `toString`: the data, whether it is an ESI response, and an error that neither
`onerror` nor a fallback body has handled. -/
structure Included where
  data : Bytes
  isEsiResponse : Bool
  err : Option GoError
  deriving DecidableEq, Repr

/-- The first half of `toString`: fetch as the mode says, unless the depth is used up. -/
def EsiIncludeToken.fetch (P : Platform) (el : Element) (token : EsiIncludeToken)
    (config : EsiParserConfig) (readAt : Time) : Render FetchResult :=
  if config.parseOnly then return .error ⟨none, lit "esi max depth"⟩
  else if token.fetchMode = lit "ab" then fetchAB P el token config readAt
  else if token.fetchMode = lit "concurrent" then fetchConcurrent el token config readAt
  else fetchFallback el token config readAt

/-- The second half of `toString`: what is shown for a fetch that failed. -/
def EsiIncludeToken.shown (token : EsiIncludeToken) (config : EsiParserConfig) :
    FetchResult → Included
  | .ok (data, isEsiResponse) => ⟨data, isEsiResponse, none⟩
  | .error err =>
    if token.onError = lit "continue" then ⟨[], false, none⟩
    else if token.content ≠ [] then ⟨token.content, false, none⟩
    else
      ⟨config.includeErrorMarker, false, some ⟨err.wraps, lit "include failed: " ++ err.text⟩⟩

/-- `toString` -/
def EsiIncludeToken.toString (P : Platform) (el : Element) (token : EsiIncludeToken)
    (config : EsiParserConfig) (readAt : Time) : Render Included := do
  let result ← token.fetch P el config readAt
  return token.shown config result

end GoMesi
