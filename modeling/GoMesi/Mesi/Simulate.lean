import GoMesi.Mesi.Parser
import GoMesi.Mesi.World

/-!
# Simulated renders

To follow one run of a page step by step, the packages that are parameters elsewhere and the
upstream are given by tables here: the include elements by their texts, the responses by their URLs.
A schedule then determines the run.
-/

namespace GoMesi

open Strings Interleaving

/-! ## Packages -/

/-- The ASCII part of package `unicode`. -/
def Unicode.ascii : Unicode where
  toLower r := if r < 0x80 then (asciiLower (UInt8.ofNat r)).toNat else r
  fold r := if r < 0x80 then (asciiLower (UInt8.ofNat r)).toNat else r
  fold_ascii b hb := by
    have hlt : b.toNat < 0x80 := UInt8.lt_iff_toNat_lt.mp hb
    rw [if_pos hlt, UInt8.ofNat_toNat]

/-- A platform on which the include elements are those of a table. -/
def Platform.ofElements (elements : List (Bytes × EsiIncludeToken)) : Platform where
  unicode := .ascii
  numCPU := 1
  numCPU_pos := Nat.one_pos
  parseFloat _ := none
  xmlUnmarshal raw := elements.lookup raw
  quote s := lit "\"" ++ s ++ lit "\""

/-- A URL of the form `scheme://host/path`, or a path. -/
structure SimpleURL where
  scheme : Bytes
  host : Bytes
  path : Bytes
  deriving DecidableEq, Repr

namespace SimpleURL

def parse (s : Bytes) : SimpleURL :=
  match index s (lit "://") with
  | some n =>
    let rest := s.drop (n + 3)
    ⟨s.take n, rest.takeWhile (· ≠ 0x2f), rest.dropWhile (· ≠ 0x2f)⟩
  | none => ⟨[], [], s⟩

def string (u : SimpleURL) : Bytes :=
  if u.scheme = [] then u.path else u.scheme ++ lit "://" ++ u.host ++ u.path

end SimpleURL

/-- An IPv4 address in decimal. -/
def parseIPv4 (s : Bytes) : Option IP :=
  match (split s 0x2e).map Strconv.parseUint with
  | [.ok a, .ok b, .ok c, .ok d] =>
    if a < 256 ∧ b < 256 ∧ c < 256 ∧ d < 256 then
      some [UInt8.ofNat a, UInt8.ofNat b, UInt8.ofNat c, UInt8.ofNat d]
    else none
  | _ => none

/-- Packages `net` and `net/url` on simple URLs and IPv4 addresses. -/
def NetLib.simple : NetLib where
  URL := SimpleURL
  parse s := .ok (SimpleURL.parse s)
  scheme := SimpleURL.scheme
  hostname := SimpleURL.host
  string := SimpleURL.string
  resolveReference base ref := if ref.scheme = [] then { base with path := ref.path } else ref
  newRequest s := .ok (SimpleURL.parse s)
  splitHostPort address :=
    match lastIndex address (lit ":") with
    | some n => .ok (address.take n, address.drop (n + 1))
    | none => .error (lit "missing port in address")
  parseIP := parseIPv4

/-! ## Upstreams -/

/-- The answers to the operations of a fetch when the upstream is a table, no context ends, and
nothing is in the cache. -/
def upstreamAnswer (upstream : List (Bytes × HttpResponse)) :
    (o : FetchOp) → fetchSignature.Res o
  | .acquireSemaphore _ => none
  | .releaseSemaphore _ => ()
  | .cacheGet _ => ⟨[], false, false⟩
  | .cacheSet _ _ _ => ()
  | .acquireInflightLock _ => 0
  | .releaseInflightLock _ _ => ()
  | .sendSlot _ => none
  | .drainSlot _ => ()
  | .ctxErr => none
  | .resolve _ => [lit "192.0.2.1:80"]
  | .connect _ _ => true
  | .request url => .ok ((upstream.lookup url).getD ⟨404, ∅, [], none⟩)

/-- What the operations of a fetch are answered when the upstream is a table. -/
def answersOf (upstream : List (Bytes × HttpResponse)) (o : FetchOp) (r : fetchSignature.Res o) :
    Prop :=
  r = upstreamAnswer upstream o

theorem admitted_upstreamAnswer (upstream : List (Bytes × HttpResponse)) (o : FetchOp) :
    World.admitted (answersOf upstream) o (upstreamAnswer upstream o) := by
  cases o <;> rfl

/-- With a table for the upstream every single fetch can end. -/
theorem exists_ends_singleFetch (upstream : List (Bytes × HttpResponse)) (U : Unicode) (L : NetLib)
    (url : Bytes) (config : FetchConfig) :
    ∃ result, (singleFetchUrlWithContext U L url config).Ends
      (World.admitted (answersOf upstream)) result :=
  Prog.exists_ends (fun o ↦ ⟨_, admitted_upstreamAnswer upstream o⟩) _

/-- A page with a body and nothing else. -/
def HttpResponse.ofBody (body : Bytes) : HttpResponse where
  status := 200
  header := ∅
  body := body

/-! ## Pages -/

/-- A page that is rendered by the user of the package, with all it depends on. -/
structure Page where
  elements : List (Bytes × EsiIncludeToken)
  upstream : List (Bytes × HttpResponse)
  input : Bytes
  config : EsiParserConfig

namespace Page

/-- The program of a page. -/
def prog (p : Page) : Render Bytes :=
  mesiParse (.ofElements p.elements) .page .page p.input p.config

/-- Render a page by a schedule. -/
def run (p : Page) (sched : List (Move World.EnvMove)) (s : World) :
    Outcome renderSignature Bytes World Bytes :=
  p.prog.exec World.answer
    (World.move .ascii .simple (upstreamAnswer p.upstream)) sched s

/-- **Simulations are runs.** -/
theorem run_run (p : Page) (sched : List (Move World.EnvMove)) (s : World) :
    Run World.Sem (World.Env .ascii .simple (answersOf p.upstream)) p.prog s (p.run sched s).trace
      (p.run sched s).prog (p.run sched s).state :=
  Prog.exec_run World.answer_sound
    (World.move_sound (admitted_upstreamAnswer p.upstream)) sched p.prog s

/-- A simulation that has ended, as a run. -/
theorem run_of_value? (p : Page) {sched : List (Move World.EnvMove)} {s : World} {output : Bytes}
    (h : (p.run sched s).prog.value? = some output) :
    Run World.Sem (World.Env .ascii .simple (answersOf p.upstream)) p.prog s (p.run sched s).trace
      (.ret output) (p.run sched s).state :=
  Prog.value?_eq_some_iff.mp h ▸ p.run_run sched s

end Page

end GoMesi
