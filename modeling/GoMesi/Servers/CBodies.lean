import GoMesi.Mesi.Markup
import GoMesi.Servers.ApacheFilter
import GoMesi.Servers.NginxFilter

/-!
# Bodies as C strings

Libgomesi takes a page as a C string and returns one. The nginx module and the PHP extension have the
page as a pointer with a length, the Apache module as a brigade. On the way to libgomesi and on the
way back a page ends at its first NUL byte, whatever its length was. The Go middleware, and the paths
of the modules that do not parse a page, keep what comes after it.

Here no allocation fails.
-/

namespace GoMesi

open Strings Apache

theorem cString_isInfix (s : Bytes) : cString s <:+: s := (List.takeWhile_prefix _).isInfix

theorem cString_cString (s : Bytes) : cString (cString s) = cString s :=
  List.takeWhile_idem

/-! ## nginx -/

namespace Nginx

/-- A location whose responses the header filter lets be collected, and the libgomesi of the worker
process, which has `Parse`. The setters of the directives have checked the numbers, where `-1` stands
for unset. -/
structure Location where
  sym : Symbols
  maxDepth : ℤ := 5
  timeoutSeconds : ℤ := -1
  maxResponseSize : ℤ := -1
  maxConcurrentRequests : ℤ := -1
  maxWorkers : ℤ := -1
  debug : Option Bool := none
  parseOnHeader : Option Bool := none
  includeErrorMarker : Option Bytes := none
  allowedHosts : Bytes := []
  blockPrivateIPs : ℤ := 1
  allowPrivateIPsForAllowed : ℤ := 0
  cacheKeyTemplate : Bytes := []
  maxDepth_range : 0 ≤ maxDepth ∧ maxDepth ≤ 10000 := by decide
  timeoutSeconds_range : InRange 1 86400 timeoutSeconds := by exact inRange_timeoutSeconds
  maxResponseSize_range : InRange 0 (2 ^ 63 - 2) maxResponseSize := by exact inRange_maxResponseSize
  maxConcurrentRequests_range : InRange 0 999999999 maxConcurrentRequests := by exact inRange_count
  maxWorkers_range : InRange 0 999999999 maxWorkers := by exact inRange_count
  /-- The header filter answers with an error otherwise. -/
  enforceable : allowedHosts = [] ∨ sym.parseWithConfig = true

/-- One of the directives is set that only `ParseJson` takes. -/
def Location.configured (lcf : Location) : Bool :=
  lcf.timeoutSeconds ≠ -1 || lcf.maxResponseSize ≠ -1 || lcf.maxConcurrentRequests ≠ -1 ||
    lcf.maxWorkers ≠ -1 || lcf.debug.isSome || lcf.parseOnHeader.isSome ||
    lcf.includeErrorMarker.isSome

/-- The calls of libgomesi in `parse`: the configuration of `MESIParse`, if it is called. -/
def callParse (lcf : Location) (baseURL : Bytes) (cacheKeyFunc : Bytes → Bytes) :
    Option EsiParserConfig :=
  let params : ParseParams :=
    { maxDepth := lcf.maxDepth
      defaultUrl := cString baseURL
      allowedHosts := cString lcf.allowedHosts
      blockPrivateIPs := lcf.blockPrivateIPs }
  let allowPrivateIPsForAllowedHosts := lcf.allowPrivateIPsForAllowed
  if lcf.configured && lcf.sym.parseJson then
    parseJson none
      { params with
        allowPrivateIPsForAllowedHosts
        cacheKeyFunc := if lcf.cacheKeyTemplate ≠ [] then some cacheKeyFunc else none
        parseOnHeader := lcf.parseOnHeader.getD false
        includeErrorMarker := cString (lcf.includeErrorMarker.getD []) }
      lcf.timeoutSeconds lcf.maxResponseSize lcf.maxConcurrentRequests lcf.maxWorkers
  else
    let message :=
      if decide (lcf.cacheKeyTemplate ≠ []) && lcf.sym.parseWithConfigCtx then
        parseWithConfigInternal none
          { params with allowPrivateIPsForAllowedHosts, cacheKeyFunc := some cacheKeyFunc }
      else none
    message.or <|
      if lcf.sym.parseWithConfigEx then
        parseWithConfigInternal none { params with allowPrivateIPsForAllowedHosts }
      else if lcf.sym.parseWithConfig then parseWithConfigInternal none params
      else if lcf.allowedHosts ≠ [] then none
      else Parse none lcf.maxDepth (cString baseURL)

/-- `parse`, where `render` is what `MESIParse` makes of a page. -/
def parse (lcf : Location) (baseURL : Bytes) (cacheKeyFunc : Bytes → Bytes)
    (render : Bytes → EsiParserConfig → Bytes) (input : Bytes) : Bytes :=
  match callParse lcf baseURL cacheKeyFunc with
  | none => []
  | some cfg => cString (render (cString input) cfg)

end Nginx

/-! ## PHP -/

namespace Php

/-- What `mesi\parse_with_config` is called with, apart from the body: the other arguments, and the
options, which have passed their checks. `-1` and `none` stand for an option that is absent. -/
structure Options where
  maxDepth : ℤ
  defaultUrl : Bytes := []
  allowedHosts : Bytes := []
  blockPrivateIPs : Bool := true
  allowPrivateIPsForAllowedHosts : Bool := false
  cacheBackend : Bytes := []
  cacheKeyTemplate : Option Bytes := none
  timeout : ℤ := -1
  maxResponseSize : ℤ := -1
  maxConcurrentRequests : ℤ := -1
  maxWorkers : ℤ := -1
  debug : Option Bool := none
  includeErrorMarker : Option Bytes := none
  /-- `0` for no limit. -/
  maxBodySize : ℤ := 0
  onOversize : OnOversize := .pass
  timeout_range : InRange 1 86400 timeout := by exact inRange_timeoutSeconds
  maxResponseSize_range : InRange 0 (2 ^ 63 - 2) maxResponseSize := by exact inRange_maxResponseSize
  maxConcurrentRequests_range : InRange 0 999999999 maxConcurrentRequests := by exact inRange_count
  maxWorkers_range : InRange 0 999999999 maxWorkers := by exact inRange_count

/-- What a call finds in the process: whether `ParseJson` has been resolved, the shared client, the
answer of `InitCacheWithConfig`, and the key function for the request context of the call. -/
structure Process where
  parseJson : Bool := true
  sharedClient : Option HttpClient := none
  initCache : Bool := true
  cacheKeyFunc : Bytes → Bytes := id

namespace Options

variable (o : Options)

/-- One of the options is set that only `ParseJson` takes. -/
def configured : Bool :=
  o.timeout ≠ -1 || o.maxResponseSize ≠ -1 || o.maxConcurrentRequests ≠ -1 || o.maxWorkers ≠ -1 ||
    o.debug.isSome || o.includeErrorMarker.isSome

/-- The body is over the limit. The extension measures it as a C string. -/
def oversize (input : Bytes) : Bool :=
  decide (0 < o.maxBodySize ∧ o.maxBodySize < (cString input).length)

/-- The call of libgomesi: the configuration of `MESIParse`, if it is called. -/
def callParse (process : Process) : Option EsiParserConfig :=
  let params : ParseParams :=
    { maxDepth := o.maxDepth
      defaultUrl := cString o.defaultUrl
      allowedHosts := cString o.allowedHosts
      blockPrivateIPs := if o.blockPrivateIPs then 1 else 0
      allowPrivateIPsForAllowedHosts := if o.allowPrivateIPsForAllowedHosts then 1 else 0
      cacheKeyFunc :=
        if o.cacheKeyTemplate.any (cString · ≠ []) ∧ o.cacheBackend ≠ [] then
          some process.cacheKeyFunc
        else none }
  if o.configured && process.parseJson then
    parseJson process.sharedClient
      { params with includeErrorMarker := cString (o.includeErrorMarker.getD []) }
      o.timeout o.maxResponseSize o.maxConcurrentRequests o.maxWorkers
  else parseWithConfigInternal process.sharedClient params

end Options

/-- `parse_with_config`, with `none` for `false`. -/
def parseWithConfig (o : Options) (process : Process)
    (render : Bytes → EsiParserConfig → Bytes) (input : Bytes) : Option Bytes :=
  if ¬ validMaxDepth o.maxDepth then none
  else if o.oversize input then if o.onOversize = .error then none else some input
  else if ¬ process.initCache then none
  else (o.callParse process).map fun cfg ↦ cString (render (cString input) cfg)

end Php

/-! ## The calls -/

theorem Nginx.isSome_callParse (lcf : Nginx.Location) (baseURL : Bytes)
    (cacheKeyFunc : Bytes → Bytes) : (Nginx.callParse lcf baseURL cacheKeyFunc).isSome := by
  have hdepth : validMaxDepth lcf.maxDepth = true := decide_eq_true lcf.maxDepth_range
  rw [Nginx.callParse]
  dsimp only
  by_cases hjson : (lcf.configured && lcf.sym.parseJson) = true
  · rw [if_pos hjson]
    exact isSome_parseJson none hdepth lcf.timeoutSeconds_range lcf.maxResponseSize_range
      lcf.maxConcurrentRequests_range lcf.maxWorkers_range
  · rw [if_neg hjson, Option.isSome_or, Bool.or_eq_true]
    right
    split_ifs with hex hconfig hhosts
    · exact isSome_parseWithConfigInternal none hdepth
    · exact isSome_parseWithConfigInternal none hdepth
    · exact absurd (lcf.enforceable.resolve_left hhosts) hconfig
    · rw [Parse, if_neg (not_not.mpr hdepth)]
      rfl

theorem Php.Options.isSome_callParse (o : Php.Options) (process : Php.Process)
    (hdepth : validMaxDepth o.maxDepth = true) : (o.callParse process).isSome := by
  rw [Php.Options.callParse]
  dsimp only
  by_cases hjson : (o.configured && process.parseJson) = true
  · rw [if_pos hjson]
    exact isSome_parseJson process.sharedClient hdepth o.timeout_range o.maxResponseSize_range
      o.maxConcurrentRequests_range o.maxWorkers_range
  · rw [if_neg hjson]
    exact isSome_parseWithConfigInternal process.sharedClient hdepth

/-! ## Bodies without markup -/

variable {P : Platform} {render : Bytes → EsiParserConfig → Bytes} {body : Bytes}

/-- What `MESIParse` makes of a body without markup: the C string it has got. -/
theorem render_cString (h : MarkupFree body)
    (hrender : ∀ config, Returns P (cString body) config (render (cString body) config))
    (config : EsiParserConfig) : cString (render (cString body) config) = cString body := by
  rw [(returns_iff (h.of_isInfix (cString_isInfix body))).mp (hrender config), cString_cString]

theorem Nginx.parse_of_markupFree (h : MarkupFree body)
    (hrender : ∀ config, Returns P (cString body) config (render (cString body) config))
    (lcf : Nginx.Location) (baseURL : Bytes) (cacheKeyFunc : Bytes → Bytes) :
    Nginx.parse lcf baseURL cacheKeyFunc render body = cString body := by
  obtain ⟨config, hconfig⟩ :=
    Option.isSome_iff_exists.mp (Nginx.isSome_callParse lcf baseURL cacheKeyFunc)
  rw [Nginx.parse, hconfig]
  exact render_cString h hrender config

/-- The Apache filter passes the body on, or sends what libgomesi has made of it. -/
theorem Apache.brigadeData_finish (r : FilterRequest) {bb : List Bucket}
    (h : MarkupFree (brigadeData bb))
    (hrender : ∀ config,
      Returns P (cString (brigadeData bb)) config (render (cString (brigadeData bb)) config)) :
    brigadeData (finish r render bb) = brigadeData bb ∨
      brigadeData (finish r render bb) = cString (brigadeData bb) := by
  rw [finish, flattenBrigade]
  split_ifs with hforce hread hlength
  · exact .inl (by simp [brigadeData, Bucket.bytes])
  · exact .inl (by simp [brigadeData, Bucket.bytes])
  · refine .inr ?_
    dsimp only
    by_cases hparses : r.parses
    · obtain ⟨config, hconfig⟩ := handle_of_parses render hparses (brigadeData bb)
      rw [hconfig, render_cString h hrender]
      simp [brigadeData, Bucket.bytes]
    · rw [handle_of_not_parses hparses]
      simp [brigadeData, Bucket.bytes]
  · exact .inl (by simp [brigadeData, Bucket.bytes])

theorem Php.parseWithConfig_of_markupFree (h : MarkupFree body)
    (hrender : ∀ config, Returns P (cString body) config (render (cString body) config))
    (o : Php.Options) (process : Php.Process) :
    ∀ output ∈ Php.parseWithConfig o process render body, output = body ∨ output = cString body := by
  rw [Php.parseWithConfig]
  split_ifs with hdepth hover hmode hcache
  · exact nofun
  · rintro output ⟨⟩
    exact .inl rfl
  · intro output houtput
    obtain ⟨config, -, rfl⟩ := Option.map_eq_some_iff.mp houtput
    exact .inr (render_cString h hrender config)
  · exact nofun
  · exact nofun

/-- The three modules deliver a body as it is. -/
structure KeepsBody (lcf : Nginx.Location) (baseURL : Bytes) (cacheKeyFunc : Bytes → Bytes)
    (r : FilterRequest) (bb : List Bucket) (o : Php.Options) (process : Php.Process)
    (render : Bytes → EsiParserConfig → Bytes) (body : Bytes) : Prop where
  nginx : Nginx.parse lcf baseURL cacheKeyFunc render body = body
  apache : brigadeData (finish r render bb) = body
  php : ∀ output ∈ Php.parseWithConfig o process render body, output = body

/-- **Main result.** A body without markup is delivered as it is if and only if it has no NUL byte,
for all configurations of the modules and every result of `MESIParse`. -/
theorem keepsBody_iff (P : Platform) (lcf : Nginx.Location) (baseURL : Bytes)
    (cacheKeyFunc : Bytes → Bytes) (r : FilterRequest) (bb : List Bucket) (o : Php.Options)
    (process : Php.Process) (render : Bytes → EsiParserConfig → Bytes)
    (hfree : MarkupFree (brigadeData bb))
    (hrender : ∀ config,
      Returns P (cString (brigadeData bb)) config (render (cString (brigadeData bb)) config)) :
    KeepsBody lcf baseURL cacheKeyFunc r bb o process render (brigadeData bb) ↔
      0 ∉ brigadeData bb := by
  rw [← cString_eq_iff]
  constructor
  · intro h
    rw [← Nginx.parse_of_markupFree hfree hrender lcf baseURL cacheKeyFunc]
    exact h.nginx
  · intro h
    refine ⟨?_, ?_, fun output houtput ↦ ?_⟩
    · rw [Nginx.parse_of_markupFree hfree hrender, h]
    · exact (Apache.brigadeData_finish r hfree hrender).elim id fun heq ↦ heq.trans h
    · exact (Php.parseWithConfig_of_markupFree hfree hrender o process output houtput).elim id
        fun heq ↦ heq.trans h

/-- Locations, requests and options without any directives. -/
def plainLocation : Nginx.Location where
  sym := .exports
  enforceable := .inl rfl

def plainRequest : FilterRequest where
  conf := {}
  contentType := some (lit "text/html")

theorem markupFree_a : MarkupFree (lit "a") := ⟨by decide, by decide, by decide⟩

theorem keepsBody_iff_plain :
    KeepsBody plainLocation [] id plainRequest [.data (lit "a")] { maxDepth := 5 } {}
      (fun input _ ↦ input) (lit "a") :=
  (keepsBody_iff (.ofElements []) plainLocation [] id plainRequest [.data (lit "a")] { maxDepth := 5 }
    {} (fun input _ ↦ input) markupFree_a
    fun _ ↦ (returns_iff markupFree_a).mpr rfl).mpr (by decide)

/-- A NUL byte and what follows it is lost. -/
theorem not_keepsBody :
    ¬ ∀ (P : Platform) (lcf : Nginx.Location) (baseURL : Bytes) (cacheKeyFunc : Bytes → Bytes)
      (r : FilterRequest) (bb : List Bucket) (o : Php.Options) (process : Php.Process)
      (render : Bytes → EsiParserConfig → Bytes), MarkupFree (brigadeData bb) →
      (∀ config, Returns P (cString (brigadeData bb)) config
        (render (cString (brigadeData bb)) config)) →
      KeepsBody lcf baseURL cacheKeyFunc r bb o process render (brigadeData bb) := by
  intro h
  have hfree : MarkupFree [0x61, 0, 0x62] := ⟨by decide, by decide, by decide⟩
  have hkeeps := h (.ofElements []) plainLocation [] id plainRequest [.data [0x61, 0, 0x62]]
    { maxDepth := 5 } {} (fun input _ ↦ input) hfree
    fun _ ↦ (returns_iff markupFree_a).mpr rfl
  have hcut : Nginx.parse plainLocation [] id (fun input _ ↦ input) [0x61, 0, 0x62] = lit "a" := by
    decide +kernel
  exact absurd (hcut.symm.trans hkeeps.nginx) (by decide)

end GoMesi
