import GoMesi.Interleaving.Prog
import GoMesi.Mesi.Config

/-!
# What a render asks of the world

A render is a program in the sense of `Interleaving.Prog`. Its operations are the places where its
course depends on something other than its arguments, or where others see what it does: readings of
the clock, reads and writes of `Variables` maps, fetches, random numbers, and the orders that the
language leaves open.

Some operations carry data that the answer does not depend on. They say where in the tree of
renders the operation is made and with which values, so that a statement about runs can speak of
them.
-/

namespace GoMesi

/-! ## Errors -/

/-- The errors that `errors.Is` and `errors.As` tell apart. -/
inductive Sentinel
  | upstreamStatus | timeBudgetExceeded | invalidURL | ssrfBlocked
  | invalidMaxResponseSize | invalidABRatio
  deriving DecidableEq, Repr

/-- An error of package `mesi`. -/
structure GoError where
  /-- The error it wraps. -/
  wraps : Option Sentinel
  /-- What `Error` returns. -/
  text : Bytes
  deriving DecidableEq, Repr

/-! ## Fetches -/

/-- A call of `singleFetchUrlWithContext`. -/
structure FetchRequest where
  /-- The `requestedURL`. -/
  url : Bytes
  config : FetchConfig
  /-- The values of `MaxDepth` with which this fetch was made and the ones before it whose bodies
  led to it, the latest first. -/
  chain : List ℕ

/-- The body and whether it is an ESI response, or an error. -/
abbrev FetchResult := Except GoError (Bytes × Bool)

/-- The name of a fetch: the include element that makes it, and which of its fetches it is. -/
structure FetchId where
  element : Path
  slot : ℕ
  deriving DecidableEq, Repr

/-! ## Places -/

/-- A top-level token of a render. -/
structure Site where
  /-- The path of the render. -/
  render : Path
  /-- The index of the token. -/
  token : ℕ
  deriving DecidableEq, Repr

/-- A clock reading, in nanoseconds. -/
abbrev Time := ℤ

/-- An include whose body is rendered, as far as the timeout is concerned. -/
structure IncludeEntry where
  /-- The chain of fetches that led to the text it stands in. -/
  chain : List ℕ
  /-- When the render of that text started. -/
  start : Time
  /-- The reading that the timeout of its fetches takes into account. -/
  fetchedAt : Time
  /-- The reading that the timeout of the body takes into account as well. -/
  readAt : Time
  deriving DecidableEq, Repr

/-- How a render comes to be called. -/
inductive Entry
  /-- By the user of the package. -/
  | page
  /-- For the body of an include. -/
  | include_ (site : Site) (inc : IncludeEntry)
  /-- For the branch of a choose block. -/
  | choose (site : Site)
  /-- For the except body of a try block. -/
  | except_ (site : Site)
  deriving DecidableEq, Repr

/-! ## The operations -/

/-- The operations of a render. -/
inductive RenderOp
  /-- `start := time.Now()` at the top of `MESIParse`. -/
  | enter (entry : Entry) (timeout : Duration) (vars : Option MapRef)
  /-- `time.Now()`, made with a budget that takes the reading `readAt` into account. -/
  | now (readAt : Time)
  /-- The reading of `time.Since(start)`, made to see how much is left of `budget` for an include with
  the timeout attribute `attr`. -/
  | since (start : Time) (budget : Duration) (attr : Bytes)
  /-- Look `key` up in a `Variables` map. -/
  | lookup (site : Site) (vars : Option MapRef) (key : Bytes)
  /-- The order in which `range` goes over a map. -/
  | range (vars : StringMap)
  /-- Make the map a vars block defines the `Variables` of its render. -/
  | newMap (site : Site) (bindings : StringMap)
  /-- Set `key` in a `Variables` map, in the job of a worker. -/
  | assign (job : Path) (site : Site) (vars : MapRef) (key value : Bytes)
  /-- `rand.Intn(n)` for an include element. -/
  | intn (element : Path) (n : ℕ)
  /-- Start a fetch. -/
  | spawn (id : FetchId) (request : FetchRequest) (readAt : Time)
  /-- Wait for a fetch. -/
  | wait (id : FetchId)
  /-- Receive from the channel that some fetches of an include element send to, or from
  `ctx.Done()`. -/
  | select (element : Path) (slots : List ℕ)
  /-- The indices of the `n` responses of a worker pool in the order the collector receives them,
  up to the moment it sees the context cancelled. -/
  | collect (n : ℕ)

/-- The operations of a render with their answers. -/
@[reducible] def renderSignature : Interleaving.Signature where
  Op := RenderOp
  Res
    | .enter _ _ _ => Time
    | .now _ => Time
    | .since _ _ _ => Time
    | .lookup _ _ _ => Option Bytes
    | .range vars => {l : List (Sigma fun _ : Bytes ↦ Bytes) // l.Perm vars.entries}
    | .newMap _ _ => Unit
    | .assign _ _ _ _ _ => Unit
    | .intn _ _ => ℕ
    | .spawn _ _ _ => Unit
    | .wait _ => FetchResult
    | .select _ _ => Except GoError (ℕ × FetchResult)
    | .collect n => {l : List (Fin n) // l.Nodup}

/-- A program that renders, with strings as the results of its worker jobs. -/
abbrev Render := Interleaving.Prog renderSignature Bytes

/-- Do one operation. -/
@[reducible] def ask (o : RenderOp) : Render (renderSignature.Res o) :=
  Interleaving.Prog.call (S := renderSignature) o

/-- `t.Sub(start)`, which stays within 64 bits. -/
def elapsed (start t : Time) : Duration := max (-2 ^ 63) (min (t - start) (2 ^ 63 - 1))

theorem elapsed_eq {start t : ℤ} (hlo : start ≤ t) (hhi : t - start < 2 ^ 63) :
    elapsed start t = t - start := by
  change max (-2 ^ 63 : ℤ) (min (t - start) (2 ^ 63 - 1)) = t - start
  omega

end GoMesi
