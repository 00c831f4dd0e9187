import GoMesi.Mesi.Relocation
import GoMesi.Servers.PhpCache

/-!
# The legacy entry point

`mesi\parse` takes no options, but libgomesi attaches to it what it has been told to share: the cache
of the last call of `parse_with_config` that wanted one, and the client of the last one that wanted
another. So it does what it does in a fresh process if and only if no cache is attached and no
client that blocks private addresses (`unaffected_iff`).

A client that has been detached makes no difference. The one that a fetch makes for itself then
permits the same addresses, and refuses the others with the same text.
-/

namespace GoMesi

open Strings Interleaving

/-! ## Clients that dial alike -/

variable {U : Unicode} {L : NetLib} {config : FetchConfig} {httpClient : Option HttpClient}

/-- The hops of a fetch do not depend on the client if the dialers are alike. -/
theorem fetchHops_congr (h : ∀ url, DialAlike L (fetchClientForURL U L url { config with httpClient })
      (fetchClientForURL U L url config)) (left : ℕ) (url : Bytes) :
    fetchHops U L { config with httpClient } left url = fetchHops U L config left url :=
  fetchHops_eq h (fun _ ↦ rfl) left url

/-- Nor does the fetch as a whole, if there is no cache. -/
theorem singleFetch_congr (h : ∀ url, DialAlike L (fetchClientForURL U L url { config with httpClient })
      (fetchClientForURL U L url config)) (hcache : config.cache = false) (url : Bytes) :
    singleFetchUrlWithContext U L url { config with httpClient } =
      singleFetchUrlWithContext U L url config := by
  have hkey (config : FetchConfig) (hcache : config.cache = false) (url : Bytes) :
      fullCacheKey config url = none := by
    rw [fullCacheKey, hcache]
    rfl
  have hadmitted : fetchAdmitted U L url { config with httpClient } = fetchAdmitted U L url config := by
    rw [fetchAdmitted, fetchAdmitted,
      show urlToFetch U L url { config with httpClient } = urlToFetch U L url config from rfl]
    cases urlToFetch U L url config with
    | error err => rfl
    | ok url =>
      dsimp only
      rw [hkey config hcache, hkey { config with httpClient } hcache]
      simp only [fetchUpstream, fetchHops_congr h]
      rfl
  rw [singleFetchUrlWithContext, singleFetchUrlWithContext, withSemaphore, withSemaphore, hadmitted]

/-- A client of libgomesi dials like the default one of a fetch that blocks the same. -/
theorem dialAlike_initHTTPClient (bp : ℤ) (timeout : Duration)
    (h : config.blockPrivateIPs = decide (bp ≠ 0)) :
    DialAlike L (.shared { initHTTPClient L bp with timeout }) (.ssrfSafe config) := fun address ↦ by
  have hsame : safeDialerControl L { blockPrivateIPs := decide (bp ≠ 0) } address =
      safeDialerControl L config address := by rw [safeDialerControl, safeDialerControl, h]
  rw [Client.control, Client.control]
  simp only [initHTTPClient, hsame]
  cases safeDialerControl L config address <;> rfl

/-- A fetch that goes through a client of libgomesi that blocks nothing, and knows of no cache. -/
structure Unblocked (L : NetLib) (config : FetchConfig) : Prop where
  client : ∃ timeout, config.httpClient = some { initHTTPClient L 0 with timeout }
  block : config.blockPrivateIPs = false
  allow : config.allowPrivateIPsForAllowedHosts = false
  cache : config.cache = false

theorem Unblocked.dialAlike (h : Unblocked L config) (url : Bytes) :
    DialAlike L (fetchClientForURL U L url { config with httpClient := none })
      (fetchClientForURL U L url config) := by
  obtain ⟨timeout, hclient⟩ := h.client
  have hdefault : fetchClientForURL U L url { config with httpClient := none } =
      .ssrfSafe { config with httpClient := none } := by
    rw [fetchClientForURL]
    cases L.parse url <;> simp [h.allow]
  have hshared : fetchClientForURL U L url config =
      .shared { initHTTPClient L 0 with timeout } := by rw [fetchClientForURL, hclient]
  rw [hdefault, hshared]
  exact fun address ↦ (dialAlike_initHTTPClient 0 timeout h.block address).symm

theorem Unblocked.singleFetch (h : Unblocked L config) (url : Bytes) :
    singleFetchUrlWithContext U L url { config with httpClient := none } =
      singleFetchUrlWithContext U L url config :=
  singleFetch_congr h.dialAlike h.cache url

/-- The fetches of a render without the shared client instead of with one that blocks nothing. -/
def detached (U : Unicode) (L : NetLib) (A : (o : FetchOp) → fetchSignature.Res o → Prop) :
    Relocation U L A where
  place := id
  config c := { c with httpClient := none }
  Kept := Unblocked L
  place_append _ _ := rfl
  place_injective := Function.injective_id
  timeout _ _ := rfl
  semaphore _ _ := rfl
  config_timeout _ := rfl
  config_maxResponseSize _ := rfl
  config_semaphore _ := Option.map_id'.symm
  kept_timeout _ h := ⟨h.client, h.block, h.allow, h.cache⟩
  kept_semaphore _ h := ⟨h.client, h.block, h.allow, h.cache⟩
  finish url _ h := by rw [h.singleFetch url]
  refuse url _ h := by rw [h.singleFetch url]

/-! ## Parses that cannot be told apart -/

/-- The renders with a configuration have the outputs they have with another one. -/
def SameOutputs (P : Platform) (L : NetLib) (config config' : EsiParserConfig) : Prop :=
  ∀ (A : (o : FetchOp) → fetchSignature.Res o → Prop) (input : Bytes) (vars : Bytes → Option Bytes)
    (output : Bytes),
    (∃ tr t, Run World.Sem (World.Env P.unicode L A) (mesiParse P .page .page input config)
      (.initial vars) tr (.ret output) t) ↔
    ∃ tr t, Run World.Sem (World.Env P.unicode L A) (mesiParse P .page .page input config')
      (.initial vars) tr (.ret output) t

/-- Something holds of all fetches of the renders with a configuration. -/
def EveryFetch (P : Platform) (config : EsiParserConfig) (p : FetchConfig → Prop) : Prop :=
  ∀ (input : Bytes) (σ : Type) (sem : (o : RenderOp) → σ → renderSignature.Res o → σ → Prop)
    (env : σ → σ → Prop) (s t : σ) (tr : List (Event renderSignature σ)) (q : Render Bytes),
    Run sem env (mesiParse P .page .page input config) s tr q t →
      ∀ ev ∈ tr, ∀ id request readAt, ev.op = .spawn id request readAt → p request.config

section

variable {β : Type} {view : FetchConfig → β} {P : Platform} {config : EsiParserConfig} {p : β → Prop}

/-- What holds of the view of a configuration holds of the fetches. -/
theorem everyFetch_of_view (hview : HandedDown view) (h : p (view config.toFetchConfig)) :
    EveryFetch P config fun c ↦ p (view c) := by
  intro input σ sem env s t tr q hrun ev hev id request readAt hop
  have hwith := fetchesWith_of_run hview hrun ev hev
  rw [hop] at hwith
  exact hwith.1.symm ▸ h

/-- And there are fetches if there is depth for them. -/
theorem view_of_everyFetch (hview : HandedDown view)
    (hinclude : P.xmlUnmarshal plainInclude = some { src := lit "http://a/" })
    (hdepth : 1 ≤ config.maxDepth) (h : EveryFetch P config fun c ↦ p (view c)) :
    p (view config.toFetchConfig) := by
  obtain ⟨tr, q, hrun, ev, hev, id, request, readAt, hop⟩ :=
    (asks_mesiParse hinclude hdepth : Prog.Asks _ (mesiParse _ _ _ _ config)).exists_run
  have hwith := fetchesWith_of_run hview hrun ev hev
  rw [hop] at hwith
  exact hwith.1 ▸ h plainInclude _ _ _ _ _ _ _ hrun ev hev id request readAt hop

end

/-- The addresses that the clients of a fetch connect to. -/
def Connects (U : Unicode) (L : NetLib) (config : FetchConfig) (url address : Bytes) : Bool :=
  ((fetchClientForURL U L url config).control L address).isOk

theorem connects_congr {c d : FetchConfig} (h : c.dialPolicy = d.dialPolicy) :
    Connects U L c = Connects U L d := by
  obtain ⟨hhosts, hblock, hallow, hclient⟩ := DialPolicy.mk.inj h
  have hhost (host : Bytes) : hostInAllowedHosts U host c = hostInAllowedHosts U host d := by
    rw [hostInAllowedHosts, hostInAllowedHosts, hhosts]
  have hsafe (address : Bytes) : safeDialerControl L c address = safeDialerControl L d address := by
    rw [safeDialerControl, safeDialerControl, hblock]
  funext url address
  rw [Connects, Connects, fetchClientForURL, fetchClientForURL, hallow, hclient]
  cases d.httpClient with
  | some client => rfl
  | none =>
    cases L.parse url with
    | error err => exact congrArg Except.isOk (hsafe address)
    | ok parsed =>
      simp only [hhost]
      split_ifs
      · rfl
      · exact congrArg Except.isOk (hsafe address)

theorem handedDown_connects : HandedDown (Connects U L) :=
  ⟨fun _ _ ↦ connects_congr rfl, fun _ _ ↦ connects_congr rfl⟩

theorem handedDown_cache : HandedDown FetchConfig.cache := ⟨fun _ _ ↦ rfl, fun _ _ ↦ rfl⟩

theorem connects_of_dialAlike {c d : FetchConfig}
    (h : ∀ url, DialAlike L (fetchClientForURL U L url c) (fetchClientForURL U L url d)) :
    Connects U L c = Connects U L d := by
  funext url address
  have haddress := h url address
  rw [Connects, Connects]
  cases hc : (fetchClientForURL U L url c).control L address <;>
    cases hd : (fetchClientForURL U L url d).control L address <;>
    simp_all [Except.mapError, Except.isOk, Except.toBool]

namespace Php

open Apache

/-- A parse does what another one does that knows of no cache. -/
structure ParsesAlike (P : Platform) (L : NetLib) (fresh config : EsiParserConfig) : Prop where
  outputs : SameOutputs P L config fresh
  noCache : EveryFetch P config fun c ↦ c.cache = false
  dials : EveryFetch P config fun c ↦
    Connects P.unicode L c = Connects P.unicode L fresh.toFetchConfig

/-- `mesi\parse` does what it does in a fresh process. -/
def Unaffected (P : Platform) (L : NetLib) (json : Bool) (g : Globals) : Prop :=
  ∀ (maxDepth : ℤ) (defaultUrl : Bytes), Option.Rel (ParsesAlike P L)
    ((minit L).call L json (.parse maxDepth defaultUrl)).2
    (g.call L json (.parse maxDepth defaultUrl)).2

/-! ## What is attached -/

variable {json : Bool} {g : Globals}

/-- The last call of `InitCacheWithConfig` has made a cache. -/
def CacheLeft (inits : List Init) : Prop :=
  ∃ i, inits.getLast? = some i ∧ i.succeeded = true ∧ i.config.backend ≠ []

/-- The options of the call, if it gets past the cache and comes to the client. -/
def Globals.comes? (g : Globals) : Call → Option CallOptions
  | .parseWithConfig input o accepts _ _ =>
    if ¬ validMaxDepth o.maxDepth ∨ o.oversize input then none
    else
      match buildCacheConfigJson o cfgMax with
      | none => none
      | some configJSON => if (g.initCache accepts (o.cacheConfig configJSON)).2 then some o else none
  | _ => none

/-- The options of the last call that has come to the client. -/
def lastComing (L : NetLib) (json : Bool) (calls : List Call) : Option CallOptions :=
  (calls.foldl (fun s c ↦ ((s.1.call L json c).1, (s.1.comes? c).or s.2)) (minit L, none)).2

/-- The last call that has come to the client shares one that blocks private addresses. -/
def BlockLeft (coming : Option CallOptions) : Prop :=
  ∃ o, coming = some o ∧ o.sharedHttpClient = true ∧ o.blockPrivateIPs = true

theorem CacheKnown.sharedCache_eq_none_iff {inits : List Init} (h : CacheKnown g inits) :
    g.lib.sharedCache = none ↔ ¬ CacheLeft inits := by
  rw [h.cache]
  cases hlast : inits.getLast? with
  | none => simp [CacheLeft, hlast]
  | some i =>
    have hmade := h.made i (List.mem_of_getLast? hlast)
    rw [Option.bind_some]
    constructor
    · rintro hnone ⟨_, hi, hsucceeded, hbackend⟩
      obtain rfl := Option.some.inj (hlast.symm.trans hi)
      have hsome := hmade.some hsucceeded hbackend
      rw [hnone] at hsome
      exact nomatch hsome
    · intro hleft
      cases hsucceeded : i.succeeded with
      | false => exact hmade.failed hsucceeded
      | true =>
        refine hmade.none ?_
        by_contra hbackend
        exact hleft ⟨i, hlast, hsucceeded, hbackend⟩

theorem lastComing_concat (calls : List Call) (c : Call) :
    lastComing L json (calls ++ [c]) =
      ((run L json calls).1.comes? c).or (lastComing L json calls) := by
  have hglobals : ∀ calls : List Call,
      (calls.foldl (fun s c ↦ ((s.1.call L json c).1, (s.1.comes? c).or s.2))
        ((minit L, none) : Globals × Option CallOptions)).1 = (run L json calls).1 := by
    intro calls
    induction calls using List.reverseRecOn with
    | nil => rfl
    | append_singleton calls c ih => rw [List.foldl_concat, run_concat, ih]
  rw [lastComing, List.foldl_concat, hglobals]
  rfl

/-- The client that a call asks for. Before any call there is one that blocks nothing. -/
def clientFor (L : NetLib) : Option CallOptions → Option HttpClient
  | none => some (initHTTPClient L 0)
  | some o => if o.sharedHttpClient then some (initHTTPClient L (flag o.blockPrivateIPs)) else none

/-- **One call.** -/
theorem ClientMirrored.sharedClient_call (h : ClientMirrored L g) {coming : Option CallOptions}
    (hclient : g.lib.sharedClient = clientFor L coming) (c : Call) :
    (g.call L json c).1.lib.sharedClient = clientFor L ((g.comes? c).or coming) := by
  cases c with
  | parse maxDepth defaultUrl => exact hclient
  | rejected => exact hclient
  | parseWithConfig input o accepts allocates cacheKeyFunc =>
    rw [Globals.call, Globals.comes?]
    by_cases hargs : ¬ validMaxDepth o.maxDepth ∨ o.oversize input
    · rw [if_pos hargs, if_pos hargs]
      exact hclient
    · rw [if_neg hargs, if_neg hargs]
      cases hjson : buildCacheConfigJson o cfgMax with
      | none => exact hclient
      | some configJSON =>
        have hsame := g.sameClient_initCache accepts (o.cacheConfig configJSON)
        dsimp only
        by_cases hok : (g.initCache accepts (o.cacheConfig configJSON)).2 = true
        · rw [if_neg (not_not.mpr hok), if_pos hok]
          have hinit := ((h.of_same hsame).initClient o).2
          split_ifs <;> exact hinit
        · rw [if_pos hok, if_neg hok]
          exact hsame.sharedClient.trans hclient

/-- **Any calls.** -/
theorem sharedClient_run (calls : List Call) :
    (run L json calls).1.lib.sharedClient = clientFor L (lastComing L json calls) := by
  induction calls using List.reverseRecOn with
  | nil => rfl
  | append_singleton calls c ih =>
    rw [run_concat, lastComing_concat]
    exact (clientMirrored_run calls).sharedClient_call ih c

/-! ## When nothing is left -/

/-- The configuration of `mesi\parse` before anything is attached. -/
def bare (maxDepth : ℤ) (defaultUrl : Bytes) : EsiParserConfig :=
  { defaultUrl := cString defaultUrl, maxDepth := maxDepth.toNat, timeout := 30 * second }

theorem call_parse (g : Globals) {maxDepth : ℤ} (hdepth : validMaxDepth maxDepth = true)
    (defaultUrl : Bytes) :
    (g.call L json (.parse maxDepth defaultUrl)).2 =
      some (g.lib.applySharedCache
        (applySharedConfig g.lib.sharedClient (bare maxDepth defaultUrl))) := by
  rw [Globals.call, Parse, if_neg (not_not.mpr hdepth)]
  rfl

theorem call_parse_of_invalid (g : Globals) {maxDepth : ℤ} (hdepth : ¬ validMaxDepth maxDepth = true)
    (defaultUrl : Bytes) : (g.call L json (.parse maxDepth defaultUrl)).2 = none := by
  rw [Globals.call, Parse, if_pos hdepth]
  rfl

theorem parsesAlike_self {P : Platform} {config : EsiParserConfig} (h : config.cache = false) :
    ParsesAlike P L config config where
  outputs _ _ _ _ := Iff.rfl
  noCache := everyFetch_of_view (p := fun cache ↦ cache = false) handedDown_cache h
  dials := everyFetch_of_view (p := fun v ↦ v = Connects P.unicode L config.toFetchConfig)
    handedDown_connects rfl

/-- The configuration of `mesi\parse` in a fresh process. -/
def fresh (L : NetLib) (maxDepth : ℤ) (defaultUrl : Bytes) : EsiParserConfig :=
  applySharedConfig (some (initHTTPClient L 0)) (bare maxDepth defaultUrl)

theorem unblocked_fresh (maxDepth : ℤ) (defaultUrl : Bytes) :
    Unblocked L (fresh L maxDepth defaultUrl).toFetchConfig :=
  ⟨⟨_, rfl⟩, rfl, rfl, rfl⟩

/-- Without the client the parse does the same. -/
theorem parsesAlike_bare (P : Platform) (maxDepth : ℤ) (defaultUrl : Bytes) :
    ParsesAlike P L (fresh L maxDepth defaultUrl) (bare maxDepth defaultUrl) where
  outputs A input vars output := by
    have hkept : (detached P.unicode L A).Kept (fresh L maxDepth defaultUrl).toFetchConfig :=
      unblocked_fresh maxDepth defaultUrl
    have hpage : Frame.page.Twin (detached P.unicode L A).place .page := ⟨rfl, rfl⟩
    exact (detached P.unicode L A).output_iff hpage hkept .page .page input vars output
  noCache := everyFetch_of_view (p := fun cache ↦ cache = false) handedDown_cache rfl
  dials := by
    refine everyFetch_of_view (p := fun v ↦ v = Connects P.unicode L _) handedDown_connects ?_
    exact connects_of_dialAlike (unblocked_fresh maxDepth defaultUrl).dialAlike

/-- A client that blocks private addresses does not connect to what one that blocks nothing does. -/
theorem connects_ne (hprivate : ∃ address, IsPrivateAddress L address) (U : Unicode)
    (maxDepth : ℤ) (defaultUrl : Bytes) (lib : Libgomesi) :
    Connects U L (lib.applySharedCache (applySharedConfig (some (initHTTPClient L (flag true)))
        (bare maxDepth defaultUrl))).toFetchConfig ≠
      Connects U L (fresh L maxDepth defaultUrl).toFetchConfig := by
  obtain ⟨address, haddress⟩ := hprivate
  intro heq
  have hpolicy := dialPolicy_applySharedCache lib
    (applySharedConfig (some (initHTTPClient L (flag true))) (bare maxDepth defaultUrl))
  rw [connects_congr hpolicy] at heq
  have hblocks : (initHTTPClient L (flag true)).permits address = false :=
    (permits_initHTTPClient haddress _).mpr (by decide)
  have hpermits : (initHTTPClient L 0).permits address ≠ false := fun h ↦
    (permits_initHTTPClient haddress 0).mp h rfl
  have haddress := congrFun (congrFun heq []) address
  simp [Connects, fetchClientForURL, fresh, applySharedConfig, Client.control, hblocks, hpermits,
    Except.isOk, Except.toBool] at haddress

/-- The parse is unaffected by what is attached exactly if that is no cache and no client that
blocks. -/
theorem unaffected_iff_attached {P : Platform} (hprivate : ∃ address, IsPrivateAddress L address)
    (hinclude : P.xmlUnmarshal plainInclude = some { src := lit "http://a/" }) {g : Globals}
    {coming : Option CallOptions} (hclient : g.lib.sharedClient = clientFor L coming) :
    Unaffected P L json g ↔ g.lib.sharedCache = none ∧ ¬ BlockLeft coming := by
  constructor
  · intro h
    have hparse := h 1 []
    rw [call_parse _ (by decide), call_parse _ (by decide)] at hparse
    obtain ⟨-, hcache, hdials⟩ := Option.rel_some_some.mp hparse
    have hdepth : 1 ≤ (g.lib.applySharedCache
        (applySharedConfig g.lib.sharedClient (bare 1 []))).maxDepth := by
      rw [Libgomesi.applySharedCache]
      cases g.lib.sharedCache <;> cases g.lib.sharedClient <;> exact le_rfl
    constructor
    · -- a cache that is attached is the one of the parse
      have hnone := view_of_everyFetch (p := fun cache ↦ cache = false) handedDown_cache hinclude
        hdepth hcache
      rw [Libgomesi.applySharedCache] at hnone
      cases hshared : g.lib.sharedCache with
      | none => rfl
      | some cache =>
        rw [hshared] at hnone
        exact absurd hnone.symm Bool.false_ne_true
    · rintro ⟨o, rfl, hshared, hblock⟩
      rw [hclient, clientFor, if_pos hshared, hblock] at hdials hdepth
      exact connects_ne hprivate P.unicode 1 [] g.lib
        (view_of_everyFetch (p := fun v ↦ v = Connects P.unicode L (fresh L 1 []).toFetchConfig)
          handedDown_connects hinclude hdepth hdials)
  · rintro ⟨hcache, hblock⟩ maxDepth defaultUrl
    by_cases hdepth : validMaxDepth maxDepth = true
    · rw [call_parse _ hdepth, call_parse _ hdepth]
      refine .some ?_
      have hnone (config : EsiParserConfig) : g.lib.applySharedCache config = config := by
        rw [Libgomesi.applySharedCache, hcache]
      rw [hclient, hnone]
      have hfresh : ParsesAlike P L (fresh L maxDepth defaultUrl) (fresh L maxDepth defaultUrl) :=
        parsesAlike_self rfl
      cases coming with
      | none => exact hfresh
      | some o =>
        by_cases hshared : o.sharedHttpClient = true
        · have hoff : o.blockPrivateIPs = false :=
            Bool.not_eq_true _ ▸ fun hon ↦ hblock ⟨o, rfl, hshared, hon⟩
          rw [clientFor, if_pos hshared, hoff]
          exact hfresh
        · rw [clientFor, if_neg hshared]
          exact parsesAlike_bare P maxDepth defaultUrl
    · rw [call_parse_of_invalid _ hdepth, call_parse_of_invalid _ hdepth]
      exact .none

/-- **Main result.** After any calls `mesi\parse` does what it does in a fresh process if and only if
the last `InitCacheWithConfig` has made no cache, and the last call that has come to the client does
not share one that blocks private addresses. -/
theorem unaffected_iff {P : Platform} (hprivate : ∃ address, IsPrivateAddress L address)
    (hinclude : P.xmlUnmarshal plainInclude = some { src := lit "http://a/" }) (calls : List Call) :
    Unaffected P L json (run L json calls).1 ↔
      ¬ CacheLeft (run L json calls).2 ∧ ¬ BlockLeft (lastComing L json calls) := by
  rw [unaffected_iff_attached hprivate hinclude (sharedClient_run calls),
    (cacheKnown_run L json calls).sharedCache_eq_none_iff]

/-- After a call that has asked for a cache the legacy entry point uses it. -/
theorem unaffected_iff_withMemory :
    (∃ address, IsPrivateAddress .simple address) ∧
      includePlatform.xmlUnmarshal plainInclude = some { src := lit "http://a/" } ∧
        (Unaffected includePlatform .simple true
            (run .simple true [.parseWithConfig [] withMemory true true id]).1 ↔
          ¬ CacheLeft (run .simple true [.parseWithConfig [] withMemory true true id]).2 ∧
            ¬ BlockLeft (lastComing .simple true [.parseWithConfig [] withMemory true true id])) :=
  ⟨isPrivateAddress_simple, by decide +kernel,
    unaffected_iff isPrivateAddress_simple (by decide +kernel) _⟩

theorem not_unaffected :
    ¬ ∀ (P : Platform) (L : NetLib) (json : Bool) (calls : List Call),
      (∃ address, IsPrivateAddress L address) →
        P.xmlUnmarshal plainInclude = some { src := lit "http://a/" } →
          Unaffected P L json (run L json calls).1 := fun h ↦ by
  have hparse := h includePlatform .simple true [.parseWithConfig [] withMemory true true id]
    isPrivateAddress_simple (by decide +kernel) 1 []
  rw [call_parse _ (by decide), call_parse _ (by decide)] at hparse
  obtain ⟨-, hcache, -⟩ := Option.rel_some_some.mp hparse
  have hoff := view_of_everyFetch (p := fun cache ↦ cache = false) handedDown_cache
    (by decide +kernel) (by decide +kernel) hcache
  exact absurd hoff (by decide +kernel)

end Php

end GoMesi
