import GoMesi.Mesi.Policy
import GoMesi.Mesi.Simulate

/-!
# libgomesi

`libgomesi.go` and `cache_config.go`: the functions that the C modules call. They share an HTTP
client and a cache, which are attached to every parse of the process.

What a cache is made of is a function of the arguments it is initialized with, so that it is
given by these, and by the number of caches made before it.
-/

namespace GoMesi

open Strings Interleaving

/-! ## The shared client -/

/-- `InitHTTPClient`: the client it creates. -/
def initHTTPClient (L : NetLib) (blockPrivateIPs : ℤ) : HttpClient where
  permits address :=
    (safeDialerControl L { blockPrivateIPs := decide (blockPrivateIPs ≠ 0) } address).isOk
  refusal address :=
    match safeDialerControl L { blockPrivateIPs := decide (blockPrivateIPs ≠ 0) } address with
    | .ok () => []
    | .error err => err.text
  timeout := 30 * second

/-! ## The shared cache -/

/-- The arguments of `InitCacheWithConfig`. Those of `InitCache` lack the last one. -/
structure CacheConfig where
  backend : Bytes
  size : ℤ
  ttlSeconds : ℤ
  configJSON : Bytes := []
  deriving DecidableEq, Repr

/-- A cache that libgomesi has made. -/
structure SharedCache where
  /-- What it was made from. -/
  config : CacheConfig
  /-- How many had been made before. -/
  number : ℕ
  deriving DecidableEq, Repr

/-- The package variables. The transport is that of the client. -/
structure Libgomesi where
  sharedClient : Option HttpClient := none
  sharedCache : Option SharedCache := none
  sharedCacheTTL : Duration := 0
  /-- How many caches have been made. -/
  made : ℕ := 0

/-- What there is to be said of a new cache: that of `memory` is always made, that of `redis` and
of `memcached` if the configuration is accepted, and for no backend there is none. -/
inductive NewCache
  | error
  | nil
  | cache
  deriving DecidableEq, Repr

/-- `initCacheFromConfig`. Whether `parseRedisConfig` or `parseMemcachedConfig` accepts the JSON text
is given. -/
def initCacheFromConfig (accepts : Bool) (backend : Bytes) : NewCache :=
  if backend = lit "memory" then .cache
  else if backend = lit "redis" ∨ backend = lit "memcached" then
    if accepts then .cache else .error
  else if backend = [] then .nil
  else .error

namespace Libgomesi

variable (lib : Libgomesi)

/-- `FreeHTTPClient` -/
def freeHTTPClient : Libgomesi := { lib with sharedClient := none }

/-- The cache for these arguments is made and attached. -/
def setCache (c : CacheConfig) : Libgomesi :=
  { lib with
    sharedCache := some ⟨c, lib.made⟩
    sharedCacheTTL := c.ttlSeconds * second
    made := lib.made + 1 }

/-- No cache is attached. -/
def dropCache : Libgomesi := { lib with sharedCache := none, sharedCacheTTL := 0 }

/-- `InitCache` -/
def initCache (backend : Bytes) (size ttlSeconds : ℤ) : Libgomesi × ℤ :=
  if backend = lit "memory" then (lib.setCache { backend, size, ttlSeconds }, 0)
  else if backend = [] then (lib.dropCache, 0)
  else (lib, -1)

/-- `InitCacheWithConfig`. The cache before is detached even if there is an error. -/
def initCacheWithConfig (accepts : Bool) (c : CacheConfig) : Libgomesi × ℤ :=
  match initCacheFromConfig accepts c.backend with
  | .error => (lib.dropCache, -1)
  | .nil => (lib.dropCache, 0)
  | .cache => (lib.setCache c, 0)

@[simp] theorem sharedClient_setCache (c : CacheConfig) :
    (lib.setCache c).sharedClient = lib.sharedClient := rfl

@[simp] theorem sharedClient_dropCache : lib.dropCache.sharedClient = lib.sharedClient := rfl

@[simp] theorem sharedClient_initCacheWithConfig (accepts : Bool) (c : CacheConfig) :
    (lib.initCacheWithConfig accepts c).1.sharedClient = lib.sharedClient := by
  rw [initCacheWithConfig]
  cases initCacheFromConfig accepts c.backend <;> rfl

end Libgomesi

/-! ## Parsing -/

/-- `applySharedConfig`, as far as the client is concerned. -/
def applySharedConfig (sharedClient : Option HttpClient) (config : EsiParserConfig) :
    EsiParserConfig :=
  match sharedClient with
  | some client => { config with httpClient := some { client with timeout := config.timeout } }
  | none => config

/-- `applySharedConfig`, as far as the cache is concerned. -/
def Libgomesi.applySharedCache (lib : Libgomesi) (config : EsiParserConfig) : EsiParserConfig :=
  match lib.sharedCache with
  | some _ => { config with cache := true, cacheTTL := lib.sharedCacheTTL }
  | none => config

/-- `ValidateMaxDepth` -/
def validMaxDepth (v : ℤ) : Bool := decide (0 ≤ v ∧ v ≤ maxMaxDepth)

/-- The parameters of `parseWithConfigInternal`. The template of the cache key and the context of
the request are there as the key function that is made of them. -/
structure ParseParams where
  maxDepth : ℤ
  defaultUrl : Bytes
  allowedHosts : Bytes
  blockPrivateIPs : ℤ
  allowPrivateIPsForAllowedHosts : ℤ := 0
  cacheKeyFunc : Option (Bytes → Bytes) := none
  timeout : Duration := 30 * second
  maxResponseSize : ℤ := 0
  maxConcurrentRequests : ℤ := 0
  maxWorkers : ℤ := 0
  parseOnHeader : Bool := false
  includeErrorMarker : Bytes := []

/-- `parseWithConfigInternal`: the configuration `MESIParse` is called with, if it is called. -/
def parseWithConfigInternal (sharedClient : Option HttpClient) (p : ParseParams) :
    Option EsiParserConfig :=
  if ¬ validMaxDepth p.maxDepth then none
  else
    let cfg := applySharedConfig sharedClient
      { defaultUrl := p.defaultUrl
        maxDepth := p.maxDepth.toNat
        timeout := p.timeout
        allowedHosts := fields p.allowedHosts
        blockPrivateIPs := decide (p.blockPrivateIPs ≠ 0)
        allowPrivateIPsForAllowedHosts := decide (p.allowPrivateIPsForAllowedHosts ≠ 0)
        maxResponseSize := p.maxResponseSize
        maxConcurrentRequests := p.maxConcurrentRequests
        maxWorkers := p.maxWorkers
        parseOnHeader := p.parseOnHeader
        includeErrorMarker := p.includeErrorMarker }
    let cfg := if p.allowPrivateIPsForAllowedHosts ≠ 0 then { cfg with httpClient := none } else cfg
    some { cfg with cacheKeyFunc := p.cacheKeyFunc }

/-- `Parse` -/
def Parse (sharedClient : Option HttpClient) (maxDepth : ℤ) (defaultUrl : Bytes) :
    Option EsiParserConfig :=
  if ¬ validMaxDepth maxDepth then none
  else
    some (applySharedConfig sharedClient
      { defaultUrl, maxDepth := maxDepth.toNat, timeout := 30 * second })

/-- A key of the JSON configuration: the default if it is absent, and nothing if it is rejected. -/
def resolved (default lo hi v : ℤ) : Option ℤ :=
  if v = -1 then some default else if lo ≤ v ∧ v ≤ hi then some v else none

/-- `ParseJson`. A key whose directive is unset is absent. -/
def parseJson (sharedClient : Option HttpClient) (p : ParseParams)
    (timeoutSeconds maxResponseSize maxConcurrentRequests maxWorkers : ℤ) :
    Option EsiParserConfig := do
  let timeoutSeconds ← resolved 30 1 86400 timeoutSeconds
  let maxResponseSize ← resolved 0 0 (2 ^ 63 - 2) maxResponseSize
  let maxConcurrentRequests ← resolved 0 0 999999999 maxConcurrentRequests
  let maxWorkers ← resolved 0 0 999999999 maxWorkers
  parseWithConfigInternal sharedClient
    { p with timeout := timeoutSeconds * second, maxResponseSize, maxConcurrentRequests, maxWorkers }

/-! ## Private addresses -/

variable {L : NetLib}

/-- An address of a private or reserved network. -/
def IsPrivateAddress (L : NetLib) (address : Bytes) : Prop :=
  ∃ host port ip, L.splitHostPort address = .ok (host, port) ∧ L.parseIP host = some ip ∧
    isPrivateOrReservedIP ip = true

/-- The dialer of the client refuses private and reserved addresses. -/
def RefusesPrivate (L : NetLib) (client : Client) : Prop :=
  ∀ address, IsPrivateAddress L address → client.control L address ≠ .ok ()

/-- A dialer refuses them exactly if it was told to, if there are any. -/
theorem isOk_safeDialerControl {address : Bytes} (h : IsPrivateAddress L address)
    (config : FetchConfig) :
    safeDialerControl L config address = .ok () ↔ config.blockPrivateIPs = false := by
  obtain ⟨host, port, ip, hsplit, hparse, hip⟩ := h
  simp [safeDialerControl, hsplit, hparse, hip]

/-- Whether the fetches under a policy that does not make exceptions refuse them. -/
def DialPolicy.Refuses (L : NetLib) (policy : DialPolicy) : Prop :=
  match policy.httpClient with
  | some client => ∀ address, IsPrivateAddress L address → client.permits address = false
  | none => policy.blockPrivateIPs = true

/-- The whitelist lifts the block for this URL. -/
def Bypasses (U : Unicode) (L : NetLib) (config : FetchConfig) (url : Bytes) : Prop :=
  config.allowPrivateIPsForAllowedHosts = true ∧
    ∃ parsed, L.parse url = .ok parsed ∧ hostInAllowedHosts U (L.hostname parsed) config = true

theorem bypasses_congr {U : Unicode} {c d : FetchConfig} {url : Bytes}
    (hallow : d.allowPrivateIPsForAllowedHosts = c.allowPrivateIPsForAllowedHosts)
    (hhosts : d.allowedHosts = c.allowedHosts) : Bypasses U L d url ↔ Bypasses U L c url := by
  simp only [Bypasses, hostInAllowedHosts, hallow, hhosts]

/-- The dialers of all clients but the default one do what the policy says. -/
theorem refuses_iff_of_not_bypasses (hprivate : ∃ address, IsPrivateAddress L address) {U : Unicode}
    {config : FetchConfig} {url : Bytes} (hbypass : ¬ Bypasses U L config url) :
    RefusesPrivate L (fetchClientForURL U L url config) ↔ config.dialPolicy.Refuses L := by
  rw [DialPolicy.Refuses, fetchClientForURL]
  cases hclient : config.httpClient with
  | some client =>
    simp only [FetchConfig.dialPolicy, hclient]
    refine forall₂_congr fun address _ ↦ ?_
    cases hpermits : client.permits address <;> simp [Client.control, hpermits]
  | none =>
    have hsafe : RefusesPrivate L (.ssrfSafe config) ↔ config.blockPrivateIPs = true := by
      obtain ⟨address, haddress⟩ := hprivate
      refine ⟨fun h ↦ ?_, fun h address' h' hok ↦ ?_⟩
      · by_contra hblock
        exact h address haddress
          ((isOk_safeDialerControl haddress config).mpr (Bool.not_eq_true _ ▸ hblock))
      · exact absurd h (by rw [(isOk_safeDialerControl h' config).mp hok]; decide)
    simp only [FetchConfig.dialPolicy, hclient]
    cases hparse : L.parse url with
    | error err => exact hsafe
    | ok parsed =>
      dsimp only
      rw [if_neg]
      · exact hsafe
      · rw [Bool.and_eq_true]
        exact fun h ↦ hbypass ⟨h.1, parsed, hparse, h.2⟩

theorem refuses_iff (hprivate : ∃ address, IsPrivateAddress L address) (U : Unicode)
    {config : FetchConfig} (hallow : config.allowPrivateIPsForAllowedHosts = false) (url : Bytes) :
    RefusesPrivate L (fetchClientForURL U L url config) ↔ config.dialPolicy.Refuses L :=
  refuses_iff_of_not_bypasses hprivate fun h ↦ Bool.false_ne_true (hallow.symm.trans h.1)

theorem permits_initHTTPClient {address : Bytes} (h : IsPrivateAddress L address) (bp : ℤ) :
    (initHTTPClient L bp).permits address = false ↔ bp ≠ 0 := by
  obtain ⟨host, port, ip, hsplit, hparse, hip⟩ := h
  by_cases hbp : bp = 0 <;>
    simp [initHTTPClient, safeDialerControl, hsplit, hparse, hip, hbp, Except.isOk, Except.toBool]

/-- The shared client refuses private addresses exactly if it was made to block them, and without one
the setting of the parse decides. -/
theorem DialPolicy.refuses_iff_of_client (hprivate : ∃ address, IsPrivateAddress L address)
    {policy : DialPolicy} {client : Option HttpClient} {bp : ℤ} {block : Bool}
    (hclient : policy.httpClient.map HttpClient.permits = client.map HttpClient.permits)
    (hshared : client = none ∨ client = some (initHTTPClient L bp))
    (hbp : client ≠ none → (bp ≠ 0 ↔ block = true)) (hblock : policy.blockPrivateIPs = block) :
    policy.Refuses L ↔ block = true := by
  rw [DialPolicy.Refuses]
  rcases hshared with rfl | rfl
  · have hnone : policy.httpClient = none := by simpa using hclient
    rw [hnone, ← hblock]
  · obtain ⟨c, hsome, hpermits⟩ := Option.map_eq_some_iff.mp hclient
    rw [hsome, ← hbp (Option.some_ne_none _)]
    obtain ⟨address, haddress⟩ := hprivate
    constructor
    · intro hall
      exact (hpermits ▸ permits_initHTTPClient haddress bp).mp (hall address haddress)
    · intro hne address' h'
      exact (hpermits ▸ permits_initHTTPClient h' bp).mpr hne

/-! ## The configuration of a parse -/

/-- What `parseWithConfigInternal` makes of its parameters and of the shared client. -/
structure ParsedFrom (sharedClient : Option HttpClient) (p : ParseParams) (config : EsiParserConfig) :
    Prop where
  allowedHosts : config.allowedHosts = fields p.allowedHosts
  block : config.blockPrivateIPs = decide (p.blockPrivateIPs ≠ 0)
  allow : config.allowPrivateIPsForAllowedHosts = decide (p.allowPrivateIPsForAllowedHosts ≠ 0)
  client : config.httpClient.map HttpClient.permits =
    (if p.allowPrivateIPsForAllowedHosts ≠ 0 then none else sharedClient).map HttpClient.permits

theorem parsedFrom_parseWithConfigInternal {sharedClient : Option HttpClient} {p : ParseParams}
    {config : EsiParserConfig} (h : parseWithConfigInternal sharedClient p = some config) :
    ParsedFrom sharedClient p config := by
  rw [parseWithConfigInternal] at h
  split_ifs at h with hdepth hallow
  all_goals
    obtain rfl := Option.some.inj h
    cases sharedClient <;> constructor <;> simp_all [applySharedConfig]

theorem parsedFrom_parseJson {sharedClient : Option HttpClient} {p : ParseParams}
    {config : EsiParserConfig} {timeout size requests workers : ℤ}
    (h : parseJson sharedClient p timeout size requests workers = some config) :
    ParsedFrom sharedClient p config := by
  simp only [parseJson, Option.bind_eq_bind, Option.bind_eq_some_iff] at h
  obtain ⟨_, _, _, _, _, _, _, _, h⟩ := h
  obtain ⟨hhosts, hblock, hallow, hclient⟩ := parsedFrom_parseWithConfigInternal h
  exact ⟨hhosts, hblock, hallow, hclient⟩

end GoMesi
