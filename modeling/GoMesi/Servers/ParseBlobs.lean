import GoMesi.Servers.NginxBlobs
import GoMesi.Servers.PhpContext

/-!
# The blobs of the modules

nginx, Apache and PHP hand over a parse as a blob when a directive or an option is set that only
`ParseJson` takes. Each has a writer of its own. All three write the same text, and libgomesi reads
the configuration from it that the positional call would have been made with.
-/

namespace GoMesi

open Strings Strconv Json

namespace Nginx

open C
open C.Write (copy put terminate)

/-- The blob of a location. -/
def Location.blob (lcf : Location) (baseURL ctxJson : Bytes) : ParseBlob where
  maxDepth := lcf.maxDepth
  defaultUrl := Apache.cString baseURL
  allowedHosts := Apache.cString lcf.allowedHosts
  blockPrivateIPs := decide (lcf.blockPrivateIPs ≠ 0)
  allowPrivateIPsForAllowedHosts := decide (lcf.allowPrivateIPsForAllowed ≠ 0)
  timeoutSeconds := Php.given lcf.timeoutSeconds
  maxResponseSize := Php.given lcf.maxResponseSize
  maxConcurrentRequests := Php.given lcf.maxConcurrentRequests
  maxWorkers := Php.given lcf.maxWorkers
  debug := lcf.debug
  parseOnHeader := lcf.parseOnHeader
  includeErrorMarker := lcf.includeErrorMarker
  cacheKeyTemplate := if lcf.cacheKeyTemplate ≠ [] then some lcf.cacheKeyTemplate else none
  requestCtx := if lcf.cacheKeyTemplate ≠ [] ∧ Apache.cString ctxJson ≠ [] then
    some (Apache.cString ctxJson) else none
  maxDepth_range := lcf.maxDepth_range
  timeoutSeconds_range _ := Php.of_mem_given lcf.timeoutSeconds_range
  maxResponseSize_range _ := Php.of_mem_given lcf.maxResponseSize_range
  maxConcurrentRequests_range _ := Php.of_mem_given lcf.maxConcurrentRequests_range
  maxWorkers_range _ := Php.of_mem_given lcf.maxWorkers_range

/-- The text of the request context, which is empty if the template refers to no header and to no
cookie. -/
def contextText (template : Bytes) (l : HeaderList) : Bytes :=
  if contains template (lit "$\x7bheader:") || contains template (lit "$\x7bcookie:") then
    requestContext (headers l.elements) (allCookies l.elements)
  else []

/-- The strings of a location and the base URL are valid, without a NUL. -/
structure Location.Clean (lcf : Location) (baseURL : Bytes) : Prop where
  baseURL : Transparent baseURL
  allowedHosts : Transparent lcf.allowedHosts
  includeErrorMarker : ∀ marker ∈ lcf.includeErrorMarker, Transparent marker
  cacheKeyTemplate : Transparent lcf.cacheKeyTemplate

theorem cString_contextText (template : Bytes) (l : HeaderList) :
    Apache.cString (contextText template l) = contextText template l := by
  rw [Apache.cString_eq_iff, contextText]
  split_ifs
  · rw [requestContext_eq]
    exact zero_not_mem_context _ _
  · exact List.not_mem_nil

theorem Location.Clean.blob {lcf : Location} {baseURL : Bytes} (h : lcf.Clean baseURL)
    (l : HeaderList) : (lcf.blob baseURL (contextText lcf.cacheKeyTemplate l)).Clean
      (contextValue ((headers l.elements).map single) (allCookies l.elements)) where
  defaultUrl := by
    change Transparent (Apache.cString baseURL)
    rw [h.baseURL.cString_eq]
    exact h.baseURL
  allowedHosts := by
    change Transparent (Apache.cString lcf.allowedHosts)
    rw [h.allowedHosts.cString_eq]
    exact h.allowedHosts
  includeErrorMarker := h.includeErrorMarker
  cacheKeyTemplate := by
    intro template htemplate
    obtain ⟨-, htemplate⟩ := Option.ite_none_right_eq_some.mp htemplate
    exact Option.some.inj htemplate ▸ h.cacheKeyTemplate
  requestCtx := by
    intro ctx hctx
    obtain ⟨⟨-, hne⟩, hctx⟩ := Option.ite_none_right_eq_some.mp hctx
    obtain rfl := Option.some.inj hctx
    rw [cString_contextText] at hne ⊢
    rw [contextText] at hne ⊢
    split_ifs at hne ⊢
    · rw [requestContext_eq]
      exact ⟨zero_not_mem_context _ _, reads_context 9996 _ _⟩
    · exact absurd rfl hne

end Nginx

/-! ## PHP -/

namespace Php

open Apache (cString)

/-- The blob of a call. -/
def BlobArgs.blob (a : BlobArgs) : ParseBlob where
  maxDepth := a.depth
  defaultUrl := cString a.defaultUrl
  allowedHosts := cString a.allowedHosts
  blockPrivateIPs := a.blockPrivate
  allowPrivateIPsForAllowedHosts := a.allowPrivateForAllowed
  timeoutSeconds := a.timeout
  maxResponseSize := a.maxResponseSize
  maxConcurrentRequests := a.maxConcurrentRequests
  maxWorkers := a.maxWorkers
  debug := a.debug
  parseOnHeader := none
  includeErrorMarker := a.includeErrorMarker.map cString
  cacheKeyTemplate := if a.hasTmpl then some (cString a.tmpl) else none
  requestCtx := if a.hasCtx then some (cString a.ctxJson) else none
  maxDepth_range := a.depth_range
  timeoutSeconds_range := a.timeout_range
  maxResponseSize_range := a.maxResponseSize_range
  maxConcurrentRequests_range := a.maxConcurrentRequests_range
  maxWorkers_range := a.maxWorkers_range

/-- The text of the request context in `parse_with_config`. It is rendered for a template only, and
only with a cache. -/
def Options.ctxJson (o : Options) (requestHeaders : List NamedHeader)
    (requestCookies : List (Bytes × Bytes)) : Bytes :=
  if o.cacheKeyTemplate.isSome ∧ o.cacheBackend ≠ [] then contextJson requestHeaders requestCookies
  else []

theorem cString_ctxJson (o : Options) (requestHeaders : List NamedHeader)
    (requestCookies : List (Bytes × Bytes)) :
    cString (o.ctxJson requestHeaders requestCookies) = o.ctxJson requestHeaders requestCookies := by
  rw [Apache.cString_eq_iff, Options.ctxJson]
  split_ifs
  · exact zero_not_mem_context _ _
  · exact List.not_mem_nil

/-- The strings of the options are valid. -/
structure Options.Clean (o : Options) : Prop where
  defaultUrl : validString (cString o.defaultUrl) = true
  allowedHosts : validString (cString o.allowedHosts) = true
  includeErrorMarker : ∀ marker ∈ o.includeErrorMarker, validString (cString marker) = true
  cacheKeyTemplate : ∀ template ∈ o.cacheKeyTemplate, validString (cString template) = true

theorem transparent_cString {s : Bytes} (h : validString (cString s) = true) :
    Transparent (cString s) := ⟨zero_not_mem_cString s, h⟩

theorem Options.Clean.blob {o : Options} (h : o.Clean) (hdepth : validMaxDepth o.maxDepth = true)
    (requestHeaders : List NamedHeader) (requestCookies : List (Bytes × Bytes)) :
    (o.blobArgs hdepth (o.ctxJson requestHeaders requestCookies)).blob.Clean
      (contextValue (requestHeaders.map cHeader) (requestCookies.map Apache.cPair)) where
  defaultUrl := transparent_cString h.defaultUrl
  allowedHosts := transparent_cString h.allowedHosts
  includeErrorMarker := by
    intro marker hmarker
    obtain ⟨s, hs, rfl⟩ := Option.map_eq_some_iff.mp hmarker
    exact transparent_cString (h.includeErrorMarker s hs)
  cacheKeyTemplate := by
    intro template htemplate
    obtain ⟨-, htemplate⟩ := Option.ite_none_right_eq_some.mp htemplate
    obtain rfl := Option.some.inj htemplate
    refine transparent_cString ?_
    change validString (cString (if o.cacheBackend ≠ [] then o.cacheKeyTemplate.getD [] else [])) = true
    split_ifs
    · cases ho : o.cacheKeyTemplate with
      | none => rfl
      | some template => exact h.cacheKeyTemplate template ho
    · rfl
  requestCtx := by
    intro ctx hctx
    obtain ⟨hhas, hctx⟩ := Option.ite_none_right_eq_some.mp hctx
    obtain rfl := Option.some.inj hctx
    have hne : cString (o.ctxJson requestHeaders requestCookies) ≠ [] :=
      of_decide_eq_true (Bool.and_eq_true_iff.mp hhas).2
    change 0 ∉ cString (o.ctxJson requestHeaders requestCookies) ∧
      ReadsAs 9999 (cString (o.ctxJson requestHeaders requestCookies)) _
    rw [cString_ctxJson] at hne ⊢
    rw [Options.ctxJson] at hne ⊢
    split_ifs at hne ⊢
    · exact ⟨zero_not_mem_context _ _, reads_context 9996 _ _⟩
    · exact absurd rfl hne

end Php

/-! ## Apache -/

namespace Apache

open C
open C.Write (put terminate)

/-- The body of the loop of `mesi_json_string`. -/
def jsonStringByte (p : UInt8) : Write Unit := do
  if p = 0x22 then
    put 0x5c
    put 0x22
  else if p = 0x5c then
    put 0x5c
    put 0x5c
  else if p < 0x20 then
    put 0x5c
    put 0x75
    put 0x30
    put 0x30
    put (Php.hexDigit (p.toNat / 16))
    put (Php.hexDigit (p.toNat % 16))
  else put p

/-- What `mesi_json_string` writes. -/
def writeJsonString (s : Bytes) : Write Unit := do
  put 0x22
  (cString s).forM jsonStringByte
  put 0x22

/-- `mesi_json_string`, in a block that is large enough for the worst case. -/
def mesiJsonString (s : Bytes) : Except Stop Block :=
  ((do writeJsonString s; terminate : Write Unit) (Block.alloc ((cString s).length * 6 + 3))).map
    Prod.snd

theorem emits_jsonStringByte (p : UInt8) : Emits (jsonStringByte p) (Php.escapeByte p) () := by
  rw [jsonStringByte, Php.escapeByte]
  split_ifs
  · exact (emits_put 0x5c).bind (emits_put 0x22)
  · exact (emits_put 0x5c).bind (emits_put 0x5c)
  · exact (emits_put 0x5c).bind <| (emits_put 0x75).bind <| (emits_put 0x30).bind <|
      (emits_put 0x30).bind <| (emits_put _).bind (emits_put _)
  · exact emits_put p

theorem emits_writeJsonString (s : Bytes) :
    Emits (writeJsonString s) (jsonText (cString s)) () :=
  (emits_put 0x22).bind <| (Appends.forM emits_jsonStringByte (cString s)).bind <| emits_put 0x22

/-- The worst case is not exceeded. -/
theorem exists_mesiJsonString (s : Bytes) :
    ∃ b, mesiJsonString s = .ok b ∧ b.IsString (jsonText (cString s)) := by
  have hle : (jsonText (cString s)).length ≤ 6 * (cString s).length + 2 := Php.length_jsonString_le s
  obtain ⟨b, hb, -, hstring⟩ := (emits_writeJsonString s).exists_terminate
    (Block.holds_alloc ((cString s).length * 6 + 3))
    (by rw [List.length_nil, Block.alloc_cap]; omega)
    (by rw [List.length_nil, Block.alloc_cap]; omega)
  refine ⟨b, ?_, by rwa [List.nil_append] at hstring⟩
  rw [mesiJsonString, hb]
  rfl

/-- `mesi_parse_json_config`. `-1`, `NULL` and an empty string stand for a directive that is unset. -/
structure ParseJsonConfig where
  depth : ℤ
  baseUrl : Bytes
  allowedHosts : Bytes
  blockPrivateIPs : ℤ
  allowPrivateForAllowed : ℤ
  requestCtxJson : Option Bytes
  timeoutSeconds : ℤ
  maxResponseSize : ℤ
  maxConcurrentRequests : ℤ
  maxWorkers : ℤ
  debug : ℤ
  parseOnHeader : ℤ
  includeErrorMarker : Option Bytes
  cacheKeyTemplate : Option Bytes

/-- `true` or `false` -/
def flagText (v : ℤ) : Bytes := if v ≠ 0 then lit "true" else lit "false"

/-- A part with a conversion, if the directive is set. -/
def numberPart (key : Bytes) (v : ℤ) : Bytes := if v ≠ -1 then key ++ formatInt v else []

def flagPart (key : Bytes) (v : ℤ) : Bytes := if v ≠ -1 then key ++ flagText v else []

/-- A C string, if it is there and not empty. -/
def nonempty (s : Option Bytes) : Option Bytes :=
  s.bind fun s ↦ if cString s ≠ [] then some (cString s) else none

/-- `mesi_build_parse_json_config`. The strings that APR concatenates have no bound. -/
def mesiBuildParseJsonConfig (cfg : ParseJsonConfig) : Bytes :=
  let timeoutPart := numberPart (lit ",\"timeoutSeconds\":") cfg.timeoutSeconds
  let mrsPart := numberPart (lit ",\"maxResponseSize\":") cfg.maxResponseSize
  let maxcrPart := numberPart (lit ",\"maxConcurrentRequests\":") cfg.maxConcurrentRequests
  let maxwPart := numberPart (lit ",\"maxWorkers\":") cfg.maxWorkers
  let debugPart := flagPart (lit ",\"debug\":") cfg.debug
  let pohPart := flagPart (lit ",\"parseOnHeader\":") cfg.parseOnHeader
  let markerPart := match nonempty cfg.includeErrorMarker with
    | some marker => lit ",\"includeErrorMarker\":" ++ jsonText marker
    | none => []
  let tmplPart := match nonempty cfg.cacheKeyTemplate with
    | some template => lit ",\"cacheKeyTemplate\":" ++ jsonText template
    | none => []
  let ctxPart := match nonempty cfg.cacheKeyTemplate, nonempty cfg.requestCtxJson with
    | some _, some ctx => lit ",\"requestCtx\":" ++ ctx
    | _, _ => []
  lit "\x7b\"maxDepth\":" ++ (formatInt cfg.depth ++
  (lit ",\"defaultUrl\":" ++ (jsonText (cString cfg.baseUrl) ++
  (lit ",\"allowedHosts\":" ++ (jsonText (cString cfg.allowedHosts) ++
  (lit ",\"blockPrivateIPs\":" ++ (flagText cfg.blockPrivateIPs ++
  (lit ",\"allowPrivateIPsForAllowedHosts\":" ++ (flagText cfg.allowPrivateForAllowed ++
  (timeoutPart ++ (mrsPart ++ (maxcrPart ++ (maxwPart ++ (debugPart ++ (pohPart ++
  (markerPart ++ (tmplPart ++ (ctxPart ++ lit "\x7d"))))))))))))))))))

/-- `build_parse_json_config`, with the values that the filter has resolved. -/
def buildParseJsonConfig (r : Request) (ctxJson : Bytes) : Bytes :=
  mesiBuildParseJsonConfig
    { depth := r.conf.depth
      baseUrl := r.baseURL
      allowedHosts := (lit " ").intercalate r.conf.allowedHosts
      blockPrivateIPs := r.conf.blockPrivate
      allowPrivateForAllowed := r.conf.allowPrivateForAllowed
      requestCtxJson := some ctxJson
      timeoutSeconds := r.conf.timeoutSeconds
      maxResponseSize := r.conf.maxResponseSize
      maxConcurrentRequests := r.conf.maxConcurrentRequests
      maxWorkers := r.conf.maxWorkers
      debug := r.conf.debug
      parseOnHeader := r.conf.parseOnHeader
      includeErrorMarker := some r.conf.includeErrorMarker
      cacheKeyTemplate := some r.conf.cacheKeyTemplate }

/-- A flag that is given. -/
def givenFlag (v : ℤ) : Option Bool := if v = -1 then none else some (decide (v ≠ 0))

/-- The blob of a request. -/
def blob (r : Request) (ctxJson : Bytes) : ParseBlob where
  maxDepth := r.conf.depth
  defaultUrl := cString r.baseURL
  allowedHosts := cString ((lit " ").intercalate r.conf.allowedHosts)
  blockPrivateIPs := decide (r.conf.blockPrivate ≠ 0)
  allowPrivateIPsForAllowedHosts := decide (r.conf.allowPrivateForAllowed ≠ 0)
  timeoutSeconds := Php.given r.conf.timeoutSeconds
  maxResponseSize := Php.given r.conf.maxResponseSize
  maxConcurrentRequests := Php.given r.conf.maxConcurrentRequests
  maxWorkers := Php.given r.conf.maxWorkers
  debug := givenFlag r.conf.debug
  parseOnHeader := givenFlag r.conf.parseOnHeader
  includeErrorMarker := nonempty (some r.conf.includeErrorMarker)
  cacheKeyTemplate := nonempty (some r.conf.cacheKeyTemplate)
  requestCtx := (nonempty (some r.conf.cacheKeyTemplate)).bind fun _ ↦ nonempty (some ctxJson)
  maxDepth_range := of_decide_eq_true r.conf.validMaxDepth_depth
  timeoutSeconds_range _ := Php.of_mem_given r.conf.timeoutSeconds_range
  maxResponseSize_range _ := Php.of_mem_given r.conf.maxResponseSize_range
  maxConcurrentRequests_range _ := Php.of_mem_given r.conf.maxConcurrentRequests_range
  maxWorkers_range _ := Php.of_mem_given r.conf.maxWorkers_range

/-- The text of the request context, which is empty if the template refers to no header and to no
cookie. -/
def contextText (template : Bytes) (headersIn : Option (List TableEntry)) : Bytes :=
  if template ≠ [] ∧
      (contains template (lit "$\x7bheader:") = true ∨ contains template (lit "$\x7bcookie:") = true) then
    requestContext (tableHeaders headersIn) ((tableCookies headersIn).map cPair)
  else []

theorem cString_contextText (template : Bytes) (headersIn : Option (List TableEntry)) :
    cString (contextText template headersIn) = contextText template headersIn := by
  rw [cString_eq_iff, contextText]
  split_ifs
  · rw [requestContext_eq]
    exact zero_not_mem_context _ _
  · exact List.not_mem_nil

/-- The strings of a request are valid, without a NUL, and its flags are `On` or `Off`. -/
structure Clean (r : Request) : Prop where
  baseURL : Transparent r.baseURL
  allowedHosts : Transparent ((lit " ").intercalate r.conf.allowedHosts)
  includeErrorMarker : Transparent r.conf.includeErrorMarker
  cacheKeyTemplate : Transparent r.conf.cacheKeyTemplate
  block : r.conf.blockPrivate = 0 ∨ r.conf.blockPrivate = 1
  allow : r.conf.allowPrivateForAllowed = 0 ∨ r.conf.allowPrivateForAllowed = 1

theorem mem_nonempty {s t : Bytes} (hs : Transparent s) (ht : t ∈ nonempty (some s)) : t = s := by
  obtain ⟨-, ht⟩ := Option.ite_none_right_eq_some.mp ht
  exact (Option.some.inj ht).symm.trans hs.cString_eq

theorem Clean.blob {r : Request} (h : Clean r) (headersIn : Option (List TableEntry)) :
    (blob r (contextText r.conf.cacheKeyTemplate headersIn)).Clean
      (contextValue ((tableHeaders headersIn).map single) ((tableCookies headersIn).map cPair)) where
  defaultUrl := by
    change Transparent (cString r.baseURL)
    exact h.baseURL.cString_eq.symm ▸ h.baseURL
  allowedHosts := by
    change Transparent (cString ((lit " ").intercalate r.conf.allowedHosts))
    exact h.allowedHosts.cString_eq.symm ▸ h.allowedHosts
  includeErrorMarker _ hs := mem_nonempty h.includeErrorMarker hs ▸ h.includeErrorMarker
  cacheKeyTemplate _ hs := mem_nonempty h.cacheKeyTemplate hs ▸ h.cacheKeyTemplate
  requestCtx := by
    intro ctx hctx
    obtain ⟨-, -, hctx⟩ := Option.bind_eq_some_iff.mp hctx
    obtain ⟨hne, hctx⟩ := Option.ite_none_right_eq_some.mp hctx
    obtain rfl := Option.some.inj hctx
    rw [cString_contextText] at hne ⊢
    rw [contextText] at hne ⊢
    split_ifs at hne ⊢
    · rw [requestContext_eq]
      exact ⟨zero_not_mem_context _ _, reads_context 9996 _ _⟩
    · exact absurd rfl hne

end Apache

end GoMesi
