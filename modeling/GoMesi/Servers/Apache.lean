import GoMesi.Servers.Libgomesi

/-!
# The Apache module

A worker process of Apache serves the requests of many virtual hosts, each with a configuration of
its own, and hands the pages to libgomesi. What it keeps between requests is the HTTP client that
`MesiSharedHTTPClient` asks for. The first virtual host that asks for it decides whether its dialer
refuses private addresses, and libgomesi attaches it to every later parse, whatever that virtual
host says about private addresses.

Left out are the shared cache and what happens to responses that do not reach the parser.
-/

namespace GoMesi

open Strings Interleaving

/-! ## Symbols -/

/-- The functions of libgomesi that `dlsym` finds. One of `Parse` and `ParseWithConfig` is required
to load it. -/
structure Symbols where
  parse : Bool
  parseWithConfig : Bool
  parseWithConfigEx : Bool
  parseWithConfigCtx : Bool
  parseJson : Bool
  initHTTPClient : Bool
  required : (parse || parseWithConfig) = true

/-- The exports of `libgomesi.go`. -/
def Symbols.exports : Symbols := ⟨true, true, true, true, true, true, rfl⟩

/-! ## Virtual hosts -/

/-- A directive is unset, or its value is in its range. -/
def InRange (lo hi v : ℤ) : Prop := v = -1 ∨ lo ≤ v ∧ v ≤ hi

theorem inRange_maxDepth : InRange 0 10000 (-1) := .inl rfl

theorem inRange_timeoutSeconds : InRange 1 86400 (-1) := .inl rfl

theorem inRange_maxResponseSize : InRange 0 (2 ^ 63 - 2) (-1) := .inl rfl

theorem inRange_count : InRange 0 999999999 (-1) := .inl rfl

/-- `mesi_config`: the directives of a virtual host, where `-1` stands for unset. The setters of the
directives reject values that are out of range. -/
structure MesiConfig where
  enableMesi : Bool := false
  allowedHosts : List Bytes := []
  blockPrivateIPs : ℤ := -1
  allowPrivateIPsForAllowed : ℤ := -1
  sharedHTTPClient : ℤ := -1
  cacheKeyTemplate : Bytes := []
  maxDepth : ℤ := -1
  timeoutSeconds : ℤ := -1
  maxResponseSize : ℤ := -1
  maxConcurrentRequests : ℤ := -1
  maxWorkers : ℤ := -1
  debug : ℤ := -1
  parseOnHeader : ℤ := -1
  includeErrorMarker : Bytes := []
  maxDepth_range : InRange 0 10000 maxDepth := by exact inRange_maxDepth
  timeoutSeconds_range : InRange 1 86400 timeoutSeconds := by exact inRange_timeoutSeconds
  maxResponseSize_range : InRange 0 (2 ^ 63 - 2) maxResponseSize := by exact inRange_maxResponseSize
  maxConcurrentRequests_range : InRange 0 999999999 maxConcurrentRequests := by exact inRange_count
  maxWorkers_range : InRange 0 999999999 maxWorkers := by exact inRange_count

namespace MesiConfig

variable (conf : MesiConfig)

/-- The effective value of `MesiBlockPrivateIPs`. -/
def blockPrivate : ℤ := if conf.blockPrivateIPs ≠ -1 then conf.blockPrivateIPs else 1

/-- The effective value of `MesiAllowPrivateIPsForAllowedHosts`. -/
def allowPrivateForAllowed : ℤ :=
  if conf.allowPrivateIPsForAllowed ≠ -1 then conf.allowPrivateIPsForAllowed else 0

/-- The effective value of `MesiMaxDepth`. -/
def depth : ℤ := if conf.maxDepth ≠ -1 then conf.maxDepth else 5

/-- One of the directives is set that only `ParseJson` takes. -/
def needsParseJson : Bool :=
  conf.timeoutSeconds ≠ -1 || conf.maxResponseSize ≠ -1 || conf.maxConcurrentRequests ≠ -1 ||
    conf.maxWorkers ≠ -1 || conf.debug ≠ -1 || conf.parseOnHeader ≠ -1 ||
    conf.includeErrorMarker ≠ []

end MesiConfig

/-! ## A worker process -/

/-- What a worker process keeps between requests. -/
structure Worker where
  /-- `http_client_initialized` -/
  httpClientInitialized : Bool := false
  /-- `sharedClient` of libgomesi. -/
  sharedClient : Option HttpClient := none

/-- A request: the virtual host, the body of the response if it comes to be parsed, and what its URL
and headers make of the base URL and of the cache key. A response is passed on unparsed if it is not
HTML, an error, not marked as ESI, too large or empty. -/
structure Request where
  conf : MesiConfig
  html : Option Bytes
  baseURL : Bytes := []
  cacheKeyFunc : Bytes → Bytes := id

/-- `mesi_init_http_client`. Without the symbol the next request tries again. -/
def mesiInitHTTPClient (L : NetLib) (sym : Symbols) (conf : MesiConfig) (w : Worker) : Worker :=
  if w.httpClientInitialized then w
  else if conf.sharedHTTPClient ≠ 1 then w
  else if ¬ sym.initHTTPClient then w
  else ⟨true, some (initHTTPClient L conf.blockPrivate)⟩

/-- The ways a page is handed to libgomesi. -/
inductive EntryPoint
  | parseJson | parseWithConfigCtx | parseWithConfigEx | parseWithConfig | parse
  deriving DecidableEq, Repr

/-- The choice between them. Without any that takes the security directives the page is not parsed
if one of these is set. -/
def entryPoint (sym : Symbols) (conf : MesiConfig) : Option EntryPoint :=
  if conf.needsParseJson && sym.parseJson then some .parseJson
  else if decide (conf.cacheKeyTemplate ≠ []) && sym.parseWithConfigCtx then
    some .parseWithConfigCtx
  else if sym.parseWithConfigEx then some .parseWithConfigEx
  else if sym.parseWithConfig then some .parseWithConfig
  else if conf.allowedHosts ≠ [] ∨ conf.blockPrivateIPs = 1 then none
  else some .parse

/-- The parameters that all entry points but `Parse` take. -/
def Request.params (r : Request) : ParseParams where
  maxDepth := r.conf.depth
  defaultUrl := r.baseURL
  allowedHosts := (lit " ").intercalate r.conf.allowedHosts
  blockPrivateIPs := r.conf.blockPrivate

/-- The configuration of `MESIParse` for a request, if it is called. -/
def callParse (sym : Symbols) (r : Request) (sharedClient : Option HttpClient) :
    Option EsiParserConfig :=
  let allowPrivateIPsForAllowedHosts := r.conf.allowPrivateForAllowed
  let cacheKeyFunc := if r.conf.cacheKeyTemplate ≠ [] then some r.cacheKeyFunc else none
  match entryPoint sym r.conf with
  | none => none
  | some .parseJson =>
    parseJson sharedClient
      { r.params with
        allowPrivateIPsForAllowedHosts, cacheKeyFunc
        parseOnHeader := decide (r.conf.parseOnHeader ≠ -1 ∧ r.conf.parseOnHeader ≠ 0)
        includeErrorMarker := r.conf.includeErrorMarker }
      r.conf.timeoutSeconds r.conf.maxResponseSize r.conf.maxConcurrentRequests r.conf.maxWorkers
  | some .parseWithConfigCtx =>
    parseWithConfigInternal sharedClient
      { r.params with allowPrivateIPsForAllowedHosts, cacheKeyFunc }
  | some .parseWithConfigEx =>
    parseWithConfigInternal sharedClient { r.params with allowPrivateIPsForAllowedHosts }
  | some .parseWithConfig => parseWithConfigInternal sharedClient r.params
  | some .parse => Parse sharedClient r.conf.depth r.baseURL

/-- `mesi_response_filter`: the state of the process after a request, and the call of `MESIParse`. -/
def mesiResponseFilter (L : NetLib) (sym : Symbols) (w : Worker) (r : Request) :
    Worker × Option (Bytes × EsiParserConfig) :=
  if ¬ r.conf.enableMesi then (w, none)
  else
    match r.html with
    | none => (w, none)
    | some html =>
      let w := if r.conf.sharedHTTPClient = 1 then mesiInitHTTPClient L sym r.conf w else w
      (w, (callParse sym r w.sharedClient).map (html, ·))

/-- The state of a worker process after some requests. -/
def served (L : NetLib) (sym : Symbols) (requests : List Request) : Worker :=
  requests.foldl (fun w r ↦ (mesiResponseFilter L sym w r).1) {}

/-! ## Who decides about the shared client -/

/-- A request that asks for the shared client. -/
def Request.asksShared (r : Request) : Bool :=
  r.conf.enableMesi && r.html.isSome && decide (r.conf.sharedHTTPClient = 1)

/-- What the first request that asks for the shared client says about private addresses. -/
def sharedBlockPrivate (sym : Symbols) (requests : List Request) : Option ℤ :=
  if sym.initHTTPClient then (requests.find? Request.asksShared).map (·.conf.blockPrivate) else none

variable {L : NetLib} {sym : Symbols}

/-- The state of the process after the requests. -/
structure Worker.After (L : NetLib) (sym : Symbols) (requests : List Request) (w : Worker) : Prop where
  client : w.sharedClient = (sharedBlockPrivate sym requests).map (initHTTPClient L)
  initialized : w.httpClientInitialized = (sharedBlockPrivate sym requests).isSome

theorem sharedBlockPrivate_concat (requests : List Request) (r : Request) :
    sharedBlockPrivate sym (requests ++ [r]) = (sharedBlockPrivate sym requests).or
      (if r.asksShared = true ∧ sym.initHTTPClient = true then some r.conf.blockPrivate else none) := by
  rw [sharedBlockPrivate, sharedBlockPrivate]
  by_cases hsym : sym.initHTTPClient = true
  · rw [if_pos hsym, if_pos hsym, List.find?_append, Option.map_or, List.find?_singleton]
    by_cases hasks : r.asksShared = true <;> simp [hasks, hsym]
  · simp [hsym]

theorem mesiInitHTTPClient_after {requests : List Request} {w : Worker}
    (h : w.After L sym requests) {r : Request} (hasks : r.asksShared = true) :
    (mesiInitHTTPClient L sym r.conf w).After L sym (requests ++ [r]) := by
  have hshared : r.conf.sharedHTTPClient = 1 := of_decide_eq_true (Bool.and_eq_true_iff.mp hasks).2
  have hor : sharedBlockPrivate sym (requests ++ [r]) = _ := sharedBlockPrivate_concat requests r
  rw [mesiInitHTTPClient, if_neg (not_not.mpr hshared)]
  split_ifs with hinit hsym
  · obtain ⟨bp, hbp⟩ := Option.isSome_iff_exists.mp (h.initialized ▸ hinit)
    rw [hbp, Option.some_or] at hor
    exact ⟨by rw [hor, h.client, hbp], by rw [hor, h.initialized, hbp]⟩
  · have hnone : sharedBlockPrivate sym requests = none := by
      rw [← Option.not_isSome_iff_eq_none, ← h.initialized]
      exact hinit
    rw [hnone, Option.none_or, if_pos ⟨hasks, hsym⟩] at hor
    exact ⟨by rw [hor]; rfl, by rw [hor]; rfl⟩
  · rw [if_neg fun hc ↦ hsym hc.2, Option.or_none] at hor
    exact ⟨hor ▸ h.client, hor ▸ h.initialized⟩

/-- One request: the step of the invariant. -/
theorem Worker.After.request {requests : List Request} {w : Worker} (h : w.After L sym requests)
    (r : Request) : (mesiResponseFilter L sym w r).1.After L sym (requests ++ [r]) := by
  have hkeep (hasks : ¬ r.asksShared = true) : w.After L sym (requests ++ [r]) := by
    have hor : sharedBlockPrivate sym (requests ++ [r]) = _ := sharedBlockPrivate_concat requests r
    rw [if_neg fun hc ↦ hasks hc.1, Option.or_none] at hor
    exact ⟨hor ▸ h.client, hor ▸ h.initialized⟩
  by_cases henable : r.conf.enableMesi = true
  · rw [mesiResponseFilter, if_neg (not_not.mpr henable)]
    cases hhtml : r.html with
    | none => exact hkeep fun hasks ↦ by simp [Request.asksShared, hhtml] at hasks
    | some html =>
      dsimp only
      split_ifs with hshared
      · exact mesiInitHTTPClient_after h (by simp [Request.asksShared, henable, hhtml, hshared])
      · exact hkeep fun hasks ↦ hshared (of_decide_eq_true (Bool.and_eq_true_iff.mp hasks).2)
  · rw [mesiResponseFilter, if_pos henable]
    exact hkeep fun hasks ↦ by simp [Request.asksShared, henable] at hasks

/-- Any number of requests: the shared client is that of the first request that asks for it. -/
theorem after_served (requests : List Request) : (served L sym requests).After L sym requests := by
  induction requests using List.reverseRecOn with
  | nil => exact ⟨by simp [served, sharedBlockPrivate], by simp [served, sharedBlockPrivate]⟩
  | append_singleton requests r ih =>
    rw [served, List.foldl_append]
    exact ih.request r

/-! ## The policy of a request -/

/-- The includes of a page are fetched with clients whose dialers refuse private addresses, in every
run of the render. -/
def IncludesGuarded (P : Platform) (L : NetLib) (input : Bytes) (config : EsiParserConfig) : Prop :=
  ∀ (σ : Type) (sem : (o : RenderOp) → σ → renderSignature.Res o → σ → Prop) (env : σ → σ → Prop)
    (s t : σ) (tr : List (Event renderSignature σ)) (q : Render Bytes),
    Run sem env (mesiParse P .page .page input config) s tr q t →
      ∀ ev ∈ tr, ∀ id request readAt, ev.op = .spawn id request readAt →
        ∀ url, RefusesPrivate L (fetchClientForURL P.unicode L url request.config)

/-- All pages are guarded if the policy refuses private addresses, or if there are no fetches. -/
theorem includesGuarded_iff_refuses {P : Platform} {config : EsiParserConfig}
    (hprivate : ∃ address, IsPrivateAddress L address)
    (hinclude : P.xmlUnmarshal plainInclude = some { src := lit "http://a/" })
    (hallow : config.allowPrivateIPsForAllowedHosts = false) :
    (∀ input, IncludesGuarded P L input config) ↔
      (1 ≤ config.maxDepth → config.dialPolicy.Refuses L) := by
  have hiff {request : FetchRequest} (h : request.config.dialPolicy = config.dialPolicy) (url : Bytes) :
      RefusesPrivate L (fetchClientForURL P.unicode L url request.config) ↔
        config.dialPolicy.Refuses L := by
    rw [← h]
    exact refuses_iff hprivate P.unicode
      ((congrArg DialPolicy.allowPrivateIPsForAllowedHosts h).trans hallow) url
  refine ⟨fun h hdepth ↦ ?_, fun h input σ sem env s t tr q hrun ev hev id request readAt hop url ↦ ?_⟩
  · obtain ⟨tr, q, hrun, ev, hev, id, request, readAt, hop⟩ :=
      (asks_mesiParse hinclude hdepth : Prog.Asks _ (mesiParse _ _ _ _ config)).exists_run
    have hunder := fetchesUnder_of_run hrun ev hev
    rw [hop] at hunder
    exact (hiff hunder.1 []).mp (h plainInclude _ _ _ _ _ _ _ hrun ev hev id request readAt hop [])
  · have hunder := fetchesUnder_of_run hrun ev hev
    rw [hop] at hunder
    exact (hiff hunder.1 url).mpr (h hunder.2)

/-! ## The configuration of a request -/

/-- What a configuration has to do with the client of the process and the directives of the virtual
host. -/
structure ParsedWith (sharedClient : Option HttpClient) (depth : ℤ) (block : Bool)
    (config : EsiParserConfig) : Prop where
  client : config.httpClient.map HttpClient.permits = sharedClient.map HttpClient.permits
  depth : config.maxDepth = depth.toNat
  block : config.blockPrivateIPs = block
  allow : config.allowPrivateIPsForAllowedHosts = false

theorem parsedWith_parseWithConfigInternal (sharedClient : Option HttpClient) {p : ParseParams}
    (hdepth : validMaxDepth p.maxDepth = true) (hallow : p.allowPrivateIPsForAllowedHosts = 0) :
    ∃ config, parseWithConfigInternal sharedClient p = some config ∧
      ParsedWith sharedClient p.maxDepth (decide (p.blockPrivateIPs ≠ 0)) config := by
  rw [parseWithConfigInternal, if_neg (not_not.mpr hdepth)]
  refine ⟨_, rfl, ?_⟩
  simp only [hallow, ne_eq, not_true_eq_false, if_false, decide_false]
  cases sharedClient <;> exact ⟨rfl, rfl, rfl, rfl⟩

theorem parsedWith_parse (sharedClient : Option HttpClient) {maxDepth : ℤ}
    (hdepth : validMaxDepth maxDepth = true) (defaultUrl : Bytes) :
    ∃ config, Parse sharedClient maxDepth defaultUrl = some config ∧
      ParsedWith sharedClient maxDepth false config := by
  rw [Parse, if_neg (not_not.mpr hdepth)]
  refine ⟨_, rfl, ?_⟩
  cases sharedClient <;> exact ⟨rfl, rfl, rfl, rfl⟩

theorem exists_resolved (default : ℤ) {lo hi v : ℤ} (h : InRange lo hi v) :
    ∃ v', resolved default lo hi v = some v' := by
  rw [resolved]
  rcases h with rfl | h
  · exact ⟨default, if_pos rfl⟩
  · rw [if_pos h]
    split_ifs
    · exact ⟨_, rfl⟩
    · exact ⟨_, rfl⟩

theorem MesiConfig.validMaxDepth_depth (conf : MesiConfig) : validMaxDepth conf.depth = true := by
  rw [depth]
  split_ifs with h
  · exact decide_eq_true (conf.maxDepth_range.resolve_left h)
  · decide

/-- `MESIParse` is called unless there is no entry point. All but `Parse` hand over the directives. -/
theorem parsedWith_callParse (sharedClient : Option HttpClient) {r : Request} {e : EntryPoint}
    (hentry : entryPoint sym r.conf = some e) (hallow : r.conf.allowPrivateForAllowed = 0) :
    ∃ config, callParse sym r sharedClient = some config ∧
      ParsedWith sharedClient r.conf.depth
        (if e = .parse then false else decide (r.conf.blockPrivate ≠ 0)) config := by
  have hdepth := r.conf.validMaxDepth_depth
  simp only [callParse, hentry]
  cases e with
  | parseJson =>
    obtain ⟨timeout, htimeout⟩ := exists_resolved 30 r.conf.timeoutSeconds_range
    obtain ⟨size, hsize⟩ := exists_resolved 0 r.conf.maxResponseSize_range
    obtain ⟨requests, hrequests⟩ := exists_resolved 0 r.conf.maxConcurrentRequests_range
    obtain ⟨workers, hworkers⟩ := exists_resolved 0 r.conf.maxWorkers_range
    simp only [parseJson, htimeout, hsize, hrequests, hworkers, Option.bind_eq_bind,
      Option.bind_some]
    exact parsedWith_parseWithConfigInternal sharedClient hdepth hallow
  | parseWithConfigCtx => exact parsedWith_parseWithConfigInternal sharedClient hdepth hallow
  | parseWithConfigEx => exact parsedWith_parseWithConfigInternal sharedClient hdepth hallow
  | parseWithConfig => exact parsedWith_parseWithConfigInternal sharedClient hdepth rfl
  | parse => exact parsedWith_parse sharedClient hdepth r.baseURL

/-! ## Private addresses across virtual hosts -/

/-- The virtual host parses pages, and fetches their includes. -/
def ParsesIncludes (sym : Symbols) (conf : MesiConfig) : Prop :=
  conf.enableMesi = true ∧ entryPoint sym conf ≠ none ∧ conf.depth ≠ 0

/-- The shared client, if some request before has asked for it, was made for a virtual host that
blocks private addresses. Without a shared client the directives have to reach libgomesi. -/
def BlockedByFirst (sym : Symbols) (before : List Request) (conf : MesiConfig) : Prop :=
  match sharedBlockPrivate sym before with
  | some bp => bp ≠ 0
  | none => entryPoint sym conf = some .parse → conf.sharedHTTPClient = 1 ∧ sym.initHTTPClient = true

/-- A client that was made with the setting `sharedBy`, or a dialer with the setting `block` without a
client, refuses private addresses. -/
def Blocks (sharedBy : Option ℤ) (block : Bool) : Prop :=
  match sharedBy with
  | some bp => bp ≠ 0
  | none => block = true

theorem ParsedWith.refuses_iff {sharedBy : Option ℤ} {depth : ℤ} {block : Bool}
    {config : EsiParserConfig} (hprivate : ∃ address, IsPrivateAddress L address)
    (h : ParsedWith (sharedBy.map (initHTTPClient L)) depth block config) :
    config.dialPolicy.Refuses L ↔ Blocks sharedBy block := by
  have hclient := h.client
  rw [DialPolicy.Refuses]
  cases sharedBy with
  | none =>
    have hnone : config.httpClient = none := by simpa using hclient
    simp only [FetchConfig.dialPolicy, hnone, h.block, Blocks]
  | some bp =>
    obtain ⟨client, hsome, hpermits⟩ := Option.map_eq_some_iff.mp hclient
    simp only [FetchConfig.dialPolicy, hsome]
    obtain ⟨address, haddress⟩ := hprivate
    exact ⟨fun hall ↦ (hpermits ▸ permits_initHTTPClient haddress bp).mp (hall address haddress),
      fun hbp address' h' ↦ (hpermits ▸ permits_initHTTPClient h' bp).mpr hbp⟩

/-- What the filter calls `MESIParse` with. -/
theorem mesiResponseFilter_snd {w : Worker} {r : Request} {html : Bytes}
    (henable : r.conf.enableMesi = true) (hhtml : r.html = some html) :
    (mesiResponseFilter L sym w r).2 =
      (callParse sym r (mesiResponseFilter L sym w r).1.sharedClient).map (html, ·) := by
  rw [mesiResponseFilter, if_neg (not_not.mpr henable), hhtml]

/-- The client a request of the virtual host is parsed with. -/
def sharedFor (sym : Symbols) (before : List Request) (conf : MesiConfig) : Option ℤ :=
  (sharedBlockPrivate sym before).or
    (if conf.sharedHTTPClient = 1 ∧ sym.initHTTPClient = true then some conf.blockPrivate else none)

theorem sharedClient_mesiResponseFilter (before : List Request) {r : Request} {html : Bytes}
    (henable : r.conf.enableMesi = true) (hhtml : r.html = some html) :
    (mesiResponseFilter L sym (served L sym before) r).1.sharedClient =
      (sharedFor sym before r.conf).map (initHTTPClient L) := by
  have hasks : r.asksShared = true ↔ r.conf.sharedHTTPClient = 1 := by
    simp [Request.asksShared, henable, hhtml]
  rw [((after_served before).request r).client, sharedBlockPrivate_concat, sharedFor]
  simp only [hasks]

theorem blockedByFirst_iff {before : List Request} {conf : MesiConfig} {e : EntryPoint}
    (hblock : conf.blockPrivate ≠ 0) (hentry : entryPoint sym conf = some e) :
    BlockedByFirst sym before conf ↔
      Blocks (sharedFor sym before conf)
        (if e = .parse then false else decide (conf.blockPrivate ≠ 0)) := by
  rw [BlockedByFirst, sharedFor]
  cases sharedBlockPrivate sym before with
  | some bp => rfl
  | none =>
    rw [Option.none_or, hentry]
    by_cases hshared : conf.sharedHTTPClient = 1 ∧ sym.initHTTPClient = true
    · simp [hshared, hblock, Blocks]
    · simp [hshared, hblock, Blocks]

/-- Every request of the virtual host, after the requests before, has its includes guarded. -/
def HostGuarded (P : Platform) (L : NetLib) (sym : Symbols) (before : List Request)
    (conf : MesiConfig) : Prop :=
  ∀ r : Request, r.conf = conf → ∀ html config,
    (mesiResponseFilter L sym (served L sym before) r).2 = some (html, config) →
      IncludesGuarded P L html config

section

variable {P : Platform} {before : List Request} {conf : MesiConfig}

theorem blockedByFirst_of_hostGuarded (hprivate : ∃ address, IsPrivateAddress L address)
    (hinclude : P.xmlUnmarshal plainInclude = some { src := lit "http://a/" })
    (hblock : conf.blockPrivate ≠ 0) (hallow : conf.allowPrivateForAllowed = 0)
    (h : HostGuarded P L sym before conf) (hparses : ParsesIncludes sym conf) :
    BlockedByFirst sym before conf := by
  obtain ⟨henable, hentry, hdepth⟩ := hparses
  obtain ⟨e, hentry⟩ := Option.ne_none_iff_exists'.mp hentry
  let r (html : Bytes) : Request := { conf, html := some html }
  obtain ⟨config, hcall, hparsed⟩ := parsedWith_callParse
    ((sharedFor sym before conf).map (initHTTPClient L)) (r := r []) hentry hallow
  have hguarded (html : Bytes) : IncludesGuarded P L html config := by
    refine h (r html) rfl html config ?_
    rw [mesiResponseFilter_snd henable rfl, sharedClient_mesiResponseFilter before henable rfl]
    exact congrArg (Option.map (html, ·)) hcall
  have hpos : 1 ≤ config.maxDepth := by
    have hvalid := of_decide_eq_true conf.validMaxDepth_depth
    have := hparsed.depth
    simp only [r] at this
    omega
  exact (blockedByFirst_iff hblock hentry).mpr ((hparsed.refuses_iff hprivate).mp
    ((includesGuarded_iff_refuses hprivate hinclude hparsed.allow).mp hguarded hpos))

theorem hostGuarded_of_blockedByFirst (hprivate : ∃ address, IsPrivateAddress L address)
    (hinclude : P.xmlUnmarshal plainInclude = some { src := lit "http://a/" })
    (hblock : conf.blockPrivate ≠ 0) (hallow : conf.allowPrivateForAllowed = 0)
    (h : ParsesIncludes sym conf → BlockedByFirst sym before conf) :
    HostGuarded P L sym before conf := by
  intro r hr html config hcall
  subst hr
  cases henable : r.conf.enableMesi with
  | false => simp [mesiResponseFilter, henable] at hcall
  | true =>
    cases hhtml : r.html with
    | none => simp [mesiResponseFilter, hhtml] at hcall
    | some html' =>
      rw [mesiResponseFilter_snd henable hhtml, sharedClient_mesiResponseFilter before henable hhtml]
        at hcall
      obtain ⟨config', hconfig', heq⟩ := Option.map_eq_some_iff.mp hcall
      cases heq
      cases hentry : entryPoint sym r.conf with
      | none => simp [callParse, hentry] at hconfig'
      | some e =>
        obtain ⟨config'', hcall, hparsed⟩ := parsedWith_callParse
          ((sharedFor sym before r.conf).map (initHTTPClient L)) hentry hallow
        obtain rfl : config'' = config := Option.some.inj (hcall.symm.trans hconfig')
        refine (includesGuarded_iff_refuses hprivate hinclude hparsed.allow).mpr (fun hpos ↦ ?_) html
        have hdepth : r.conf.depth ≠ 0 := fun h0 ↦ by
          have := hparsed.depth
          omega
        exact (hparsed.refuses_iff hprivate).mpr ((blockedByFirst_iff hblock hentry).mp
          (h ⟨henable, by simp [hentry], hdepth⟩))

/-- **Main result.** The includes of a virtual host that blocks private addresses and makes no
exceptions are fetched with clients that refuse them, after any requests before, if and only if the
first request that has asked for the shared client was one of a virtual host that blocks them. -/
theorem hostGuarded_iff (hprivate : ∃ address, IsPrivateAddress L address)
    (hinclude : P.xmlUnmarshal plainInclude = some { src := lit "http://a/" })
    (hblock : conf.blockPrivate ≠ 0) (hallow : conf.allowPrivateForAllowed = 0) :
    HostGuarded P L sym before conf ↔ (ParsesIncludes sym conf → BlockedByFirst sym before conf) :=
  ⟨blockedByFirst_of_hostGuarded hprivate hinclude hblock hallow,
    hostGuarded_of_blockedByFirst hprivate hinclude hblock hallow⟩

end

/-! ## Two virtual hosts -/

/-- A request of a virtual host that shares its client and says `block` about private addresses. -/
def sharingRequest (block : ℤ) : Request where
  conf := { enableMesi := true, sharedHTTPClient := 1, blockPrivateIPs := block }
  html := some (lit "text")

/-- A platform that reads the include element. -/
def includePlatform : Platform := .ofElements [(plainInclude, { src := lit "http://a/" })]

theorem isPrivateAddress_simple : ∃ address, IsPrivateAddress .simple address :=
  ⟨lit "10.0.0.1:80", lit "10.0.0.1", lit "80", [10, 0, 0, 1], by decide +kernel, by decide +kernel,
    by decide +kernel⟩

/-- The virtual host without directives is safe after one that blocks private addresses too. -/
theorem hostGuarded_iff_sharingRequest :
    BlockedByFirst .exports [sharingRequest 1] { enableMesi := true } ∧
      (HostGuarded includePlatform .simple .exports [sharingRequest 1] { enableMesi := true } ↔
        (ParsesIncludes .exports { enableMesi := true } →
          BlockedByFirst .exports [sharingRequest 1] { enableMesi := true })) :=
  ⟨(by decide : (1 : ℤ) ≠ 0),
    hostGuarded_iff isPrivateAddress_simple (by decide +kernel) (by decide) (by decide)⟩

/-- **The first virtual host decides.** After a request of a virtual host that does not block private
addresses, one that does has its includes fetched without a guard. -/
theorem not_hostGuarded :
    ¬ ∀ (before : List Request) (conf : MesiConfig), conf.blockPrivate ≠ 0 →
      conf.allowPrivateForAllowed = 0 → HostGuarded includePlatform .simple .exports before conf := by
  intro h
  have hguarded := h [sharingRequest 0] { enableMesi := true } (by decide) (by decide)
  have hfirst : (0 : ℤ) ≠ 0 := blockedByFirst_of_hostGuarded isPrivateAddress_simple
    (by decide +kernel) (by decide) (by decide) hguarded ⟨rfl, by decide, by decide⟩
  exact hfirst rfl

end GoMesi
