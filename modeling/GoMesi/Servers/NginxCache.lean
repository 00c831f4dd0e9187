import GoMesi.Servers.CBodies
import GoMesi.Servers.Libgomesi

/-!
# The cache of an nginx worker

The directives of the cache are given for a location, but a worker process has one cache. `parse`
makes it anew when a location names another backend than the one before, and looks at nothing but
the name. So the settings that count are those of the location that has opened the series of requests
with the same backend, and a location without a backend is served with the cache there is
(`usesOwnCache_iff`).

Here no allocation fails.
-/

namespace GoMesi.Nginx

open Strings Apache

/-! ## Locations -/

/-- A location with its directives about the cache. -/
structure CachingLocation extends Location where
  /-- Empty if it is off. -/
  cacheBackend : Bytes := []
  cacheSize : ℤ := 10000
  /-- In seconds. -/
  cacheTtl : ℤ := 30
  /-- Separated by spaces. -/
  cacheMemcachedServers : Bytes := []
  cacheRedisAddr : Bytes := []
  cacheRedisPassword : Bytes := []
  cacheRedisDb : ℤ := 0

/-- What becomes of an `ngx_int_t` in an `int`. -/
def cInt (n : ℤ) : ℤ := n.bmod (2 ^ 32)

/-- The bytes of a string in JSON, where nothing but quotes and backslashes is escaped. -/
def jsonEscaped (s : Bytes) : Bytes :=
  s.flatMap fun b ↦ if b = 0x22 ∨ b = 0x5c then [0x5c, b] else [b]

/-- `build_memcached_config_json` -/
def buildMemcachedConfigJson (lcf : CachingLocation) : Bytes :=
  if lcf.cacheMemcachedServers = [] then lit "\x7b\"servers\":[]\x7d"
  else
    let servers := (split (cString lcf.cacheMemcachedServers) 0x20).filter (· ≠ [])
    lit "\x7b\"servers\":[" ++
      (lit ",").intercalate (servers.map fun s ↦ lit "\"" ++ jsonEscaped s ++ lit "\"") ++ lit "]\x7d"

/-- `build_redis_config_json`: `snprintf` cuts what does not fit into the buffer. -/
def buildRedisConfigJson (lcf : CachingLocation) : Bytes :=
  let addr := if lcf.cacheRedisAddr ≠ [] then cString lcf.cacheRedisAddr else lit "localhost:6379"
  let password := if lcf.cacheRedisPassword ≠ [] then cString lcf.cacheRedisPassword else []
  let total := 49 + 2 * addr.length + 2 * password.length
  let head := lit "\x7b\"redisAddr\":\"" ++ jsonEscaped addr ++ lit "\",\"redisPassword\":\"" ++
    jsonEscaped password
  let db := if lcf.cacheRedisDb < 0 then 0 else lcf.cacheRedisDb
  head ++ (lit "\",\"redisDB\":" ++ Strconv.formatInt (cInt db) ++ lit "\x7d").take
    (total - head.length - 1)

/-- The backend as libgomesi gets it. -/
def CachingLocation.backend (lcf : CachingLocation) : Bytes := cString lcf.cacheBackend

/-- The settings of the servers, as libgomesi gets them. -/
def CachingLocation.serversJSON (lcf : CachingLocation) : Bytes :=
  if lcf.backend = lit "memcached" then buildMemcachedConfigJson lcf
  else if lcf.backend = lit "redis" then buildRedisConfigJson lcf
  else []

/-- The arguments a cache is initialized with for a location. -/
def CachingLocation.cacheConfig (lcf : CachingLocation) : CacheConfig where
  backend := lcf.backend
  size := cInt lcf.cacheSize
  ttlSeconds := cInt lcf.cacheTtl
  configJSON := lcf.serversJSON

/-- A location names another backend than the one before. -/
def backendChanged (last backend : Bytes) : Bool :=
  decide (last.length ≠ backend.length ∨ cString last ≠ cString backend)

/-! ## The worker -/

/-- The functions of libgomesi that make a cache, if `dlsym` finds them, and the configurations that
`InitCacheWithConfig` accepts. -/
structure CacheLib where
  initCache : Bool := true
  initCacheWithConfig : Bool := true
  accepts : CacheConfig → Bool

/-- The static variables of the module, and libgomesi. -/
structure Worker where
  /-- `cache_initialized` -/
  cacheInitialized : Bool := false
  /-- `cache_last_backend` -/
  cacheLastBackend : Bytes := []
  lib : Libgomesi := {}

/-- A request that is parsed. -/
structure Request where
  lcf : CachingLocation
  baseURL : Bytes := []
  cacheKeyFunc : Bytes → Bytes := id

/-- The call that initializes the cache for a location. -/
def CachingLocation.init (lcf : CachingLocation) (C : CacheLib) (lib : Libgomesi) : Libgomesi :=
  if lcf.backend = lit "memcached" then
    if ¬ C.initCacheWithConfig then lib
    else (lib.initCacheWithConfig (C.accepts lcf.cacheConfig) lcf.cacheConfig).1
  else if lcf.backend = lit "redis" then
    if ¬ C.initCacheWithConfig then lib
    else (lib.initCacheWithConfig (C.accepts lcf.cacheConfig) lcf.cacheConfig).1
  else if C.initCache then (lib.initCache lcf.backend (cInt lcf.cacheSize) (cInt lcf.cacheTtl)).1
  else lib

namespace Worker

variable (w : Worker)

/-- The part of `parse` that initializes the cache. -/
def initCache (C : CacheLib) (lcf : CachingLocation) : Worker :=
  if lcf.cacheBackend ≠ [] ∧
      (¬ w.cacheInitialized ∨ backendChanged w.cacheLastBackend lcf.cacheBackend) then
    { cacheInitialized := true
      cacheLastBackend := lcf.cacheBackend
      lib := lcf.init C w.lib }
  else w

/-- `parse`: the worker after it, and the configuration of `MESIParse`. -/
def parse (C : CacheLib) (r : Request) : Worker × Option EsiParserConfig :=
  let w := w.initCache C r.lcf
  (w, (callParse r.lcf.toLocation r.baseURL r.cacheKeyFunc).map w.lib.applySharedCache)

end Worker

/-- The worker after some requests. -/
def served (C : CacheLib) (requests : List Request) : Worker :=
  requests.foldl (fun w r ↦ (w.parse C r).1) {}

/-! ## Whose cache it is -/

/-- The cache is built from the settings of a location. The size is nothing to the servers. -/
structure BuiltFrom (lcf : CachingLocation) (c : CacheConfig) : Prop where
  backend : c.backend = lcf.backend
  size : lcf.backend = lit "memory" → c.size = lcf.cacheSize
  ttl : c.ttlSeconds = lcf.cacheTtl
  servers : c.configJSON = lcf.serversJSON

/-- A request is parsed with the cache of its location, and without one if the location has none. -/
structure UsesOwnCache (lib : Libgomesi) (lcf : CachingLocation) (config : EsiParserConfig) :
    Prop where
  own : lcf.cacheBackend ≠ [] → config.cache = true ∧ config.cacheTTL = lcf.cacheTtl * second ∧
    ∃ cache, lib.sharedCache = some cache ∧ BuiltFrom lcf cache.config
  without : lcf.cacheBackend = [] → config.cache = false

/-! ## Openers -/

/-- A location starts a series of requests with its backend. -/
def CachingLocation.opens (lcf : CachingLocation) (last : Option CachingLocation) : Bool :=
  decide (lcf.cacheBackend ≠ []) && last.all fun o ↦ backendChanged o.cacheBackend lcf.cacheBackend

/-- The locations that have started a series of requests with the same backend. Locations without
a backend do not count. -/
def openers (requests : List Request) : List CachingLocation :=
  requests.foldl (fun l r ↦ if r.lcf.opens l.getLast? then l ++ [r.lcf] else l) []

/-- To initialize the cache for the location does something. -/
def CachingLocation.resets (lcf : CachingLocation) (C : CacheLib) : Bool :=
  if lcf.backend = lit "memcached" ∨ lcf.backend = lit "redis" then C.initCacheWithConfig
  else decide (lcf.backend = lit "memory" ∨ lcf.backend = []) && C.initCache

/-- And it makes a cache. -/
def CachingLocation.makes (lcf : CachingLocation) (C : CacheLib) : Bool :=
  if lcf.backend = lit "memcached" ∨ lcf.backend = lit "redis" then C.accepts lcf.cacheConfig
  else decide (lcf.backend = lit "memory")

/-- A location has started the series of requests with the cache that another one asks for. -/
structure OpenedAs (C : CacheLib) (opener lcf : CachingLocation) : Prop where
  resets : opener.resets C = true
  makes : opener.makes C = true
  size : lcf.backend = lit "memory" → cInt opener.cacheSize = lcf.cacheSize
  ttl : cInt opener.cacheTtl = lcf.cacheTtl
  servers : opener.serversJSON = lcf.serversJSON

variable {C : CacheLib} {w : Worker} {lcf : CachingLocation} {os : List CachingLocation}

theorem openers_concat (requests : List Request) (r : Request) :
    openers (requests ++ [r]) =
      if r.lcf.opens (openers requests).getLast? then openers requests ++ [r.lcf]
      else openers requests := by
  rw [openers, List.foldl_concat]
  rfl

/-- The last opener has the backend of the last location that has one. -/
theorem exists_opener (requests : List Request) {r : Request} (h : r.lcf.cacheBackend ≠ []) :
    ∃ o, (openers (requests ++ [r])).getLast? = some o ∧ o.backend = r.lcf.backend := by
  rw [openers_concat]
  by_cases hopens : r.lcf.opens (openers requests).getLast? = true
  · rw [if_pos hopens, List.getLast?_concat]
    exact ⟨r.lcf, rfl, rfl⟩
  · rw [if_neg hopens]
    rw [CachingLocation.opens, decide_eq_true h, Bool.true_and] at hopens
    cases hlast : (openers requests).getLast? with
    | none => simp [hlast] at hopens
    | some o =>
      refine ⟨o, rfl, ?_⟩
      simp only [hlast, Option.all_some, backendChanged, decide_eq_true_eq, not_or, ne_eq,
        not_not] at hopens
      exact hopens.2

/-! ## One initialization -/

/-- What the cache is built from, if there is one. -/
def cached (lib : Libgomesi) : Option CacheConfig := lib.sharedCache.map SharedCache.config

/-- The lifetime that goes with the cache is its own. -/
def TTLKnown (lib : Libgomesi) : Prop :=
  ∀ c, cached lib = some c → lib.sharedCacheTTL = c.ttlSeconds * second

theorem init_of_not_resets (h : ¬ lcf.resets C = true) (lib : Libgomesi) : lcf.init C lib = lib := by
  rw [CachingLocation.resets] at h
  rw [CachingLocation.init]
  by_cases hmemcached : lcf.backend = lit "memcached"
  · rw [if_pos (.inl hmemcached)] at h
    rw [if_pos hmemcached, if_pos h]
  · by_cases hredis : lcf.backend = lit "redis"
    · rw [if_pos (.inr hredis)] at h
      rw [if_neg hmemcached, if_pos hredis, if_pos h]
    · rw [if_neg (not_or.mpr ⟨hmemcached, hredis⟩), Bool.and_eq_true, not_and,
        decide_eq_true_eq] at h
      rw [if_neg hmemcached, if_neg hredis]
      by_cases hsym : C.initCache = true
      · obtain ⟨hmemory, hnil⟩ := not_or.mp fun hb ↦ h hb hsym
        rw [if_pos hsym, Libgomesi.initCache, if_neg hmemory, if_neg hnil]
      · rw [if_neg hsym]

theorem cached_initCacheWithConfig (lib : Libgomesi) (accepts : Bool) {c : CacheConfig}
    (h : c.backend = lit "memcached" ∨ c.backend = lit "redis") :
    cached (lib.initCacheWithConfig accepts c).1 = (if accepts then some c else none) ∧
      TTLKnown (lib.initCacheWithConfig accepts c).1 := by
  have hmemory : c.backend ≠ lit "memory" := by rcases h with h | h <;> rw [h] <;> decide
  rw [Libgomesi.initCacheWithConfig, initCacheFromConfig, if_neg hmemory, if_pos h.symm]
  cases accepts with
  | true =>
    refine ⟨rfl, fun c' hc' ↦ ?_⟩
    obtain rfl : c = c' := Option.some.inj hc'
    rfl
  | false => exact ⟨rfl, fun c' hc' ↦ absurd hc' (Option.some_ne_none c').symm⟩

theorem cached_init (h : lcf.resets C = true) (lib : Libgomesi) :
    cached (lcf.init C lib) = (if lcf.makes C then some lcf.cacheConfig else none) ∧
      TTLKnown (lcf.init C lib) := by
  rw [CachingLocation.resets] at h
  rw [CachingLocation.init, CachingLocation.makes]
  by_cases hservers : lcf.backend = lit "memcached" ∨ lcf.backend = lit "redis"
  · rw [if_pos hservers] at h
    have hinit := cached_initCacheWithConfig lib (C.accepts lcf.cacheConfig) (c := lcf.cacheConfig)
      hservers
    rw [if_neg (not_not.mpr h), if_pos hservers]
    by_cases hmemcached : lcf.backend = lit "memcached"
    · rw [if_pos hmemcached]
      exact hinit
    · rw [if_neg hmemcached, if_pos (hservers.resolve_left hmemcached)]
      exact hinit
  · rw [if_neg hservers, Bool.and_eq_true, decide_eq_true_eq] at h
    obtain ⟨hmemcached, hredis⟩ := not_or.mp hservers
    rw [if_neg hmemcached, if_neg hredis, if_pos h.2, if_neg hservers, Libgomesi.initCache]
    rcases h.1 with hmemory | hnil
    · have hjson : lcf.serversJSON = [] := by
        rw [CachingLocation.serversJSON, if_neg hmemcached, if_neg hredis]
      rw [if_pos hmemory, decide_eq_true hmemory, if_pos rfl, CachingLocation.cacheConfig, hjson]
      refine ⟨rfl, fun c' hc' ↦ ?_⟩
      obtain rfl := Option.some.inj hc'
      rfl
    · have hmemory : lcf.backend ≠ lit "memory" := by rw [hnil]; decide
      rw [if_neg hmemory, if_pos hnil, decide_eq_false hmemory]
      exact ⟨rfl, nofun⟩

/-! ## Any requests -/

/-- What the worker knows after some openers. -/
structure Known (C : CacheLib) (w : Worker) (os : List CachingLocation) : Prop where
  initialized : w.cacheInitialized = true ↔ os ≠ []
  last : ∀ o, os.getLast? = some o → w.cacheLastBackend = o.cacheBackend
  cache : cached w.lib = (os.filter (·.resets C)).getLast?.bind fun o ↦
    if o.makes C then some o.cacheConfig else none
  ttl : TTLKnown w.lib

theorem Known.initCache (h : Known C w os) (lcf : CachingLocation) :
    Known C (w.initCache C lcf) (if lcf.opens os.getLast? then os ++ [lcf] else os) := by
  have hopens : lcf.opens os.getLast? = true ↔ lcf.cacheBackend ≠ [] ∧
      (¬ w.cacheInitialized ∨ backendChanged w.cacheLastBackend lcf.cacheBackend) := by
    rw [CachingLocation.opens, Bool.and_eq_true, decide_eq_true_eq]
    refine and_congr_right fun _ ↦ ?_
    cases hlast : os.getLast? with
    | none =>
      have hnil : os = [] := List.getLast?_eq_none_iff.mp hlast
      have hinit : ¬ w.cacheInitialized = true := fun hw ↦ h.initialized.mp hw hnil
      simp [hinit]
    | some o =>
      have hne : os ≠ [] := by
        rintro rfl
        exact nomatch hlast
      simp [h.initialized.mpr hne, h.last o hlast]
  rw [Worker.initCache]
  by_cases hinit : lcf.opens os.getLast? = true
  · rw [if_pos hinit, if_pos (hopens.mp hinit)]
    refine ⟨by simp, fun o ho ↦ ?_, ?_, ?_⟩
    · rw [List.getLast?_concat] at ho
      rw [Option.some.inj ho]
    · dsimp only
      rw [List.filter_append, List.filter_singleton]
      by_cases hresets : lcf.resets C = true
      · rw [hresets, cond_true, List.getLast?_concat]
        exact (cached_init hresets w.lib).1
      · rw [Bool.eq_false_iff.mpr hresets, cond_false, List.append_nil,
          init_of_not_resets hresets]
        exact h.cache
    · dsimp only
      by_cases hresets : lcf.resets C = true
      · exact (cached_init hresets w.lib).2
      · rw [init_of_not_resets hresets]
        exact h.ttl
  · rw [if_neg hinit, if_neg (hopens.not.mp hinit)]
    exact h

theorem known_start (C : CacheLib) : Known C {} [] where
  initialized := by simp
  last o ho := nomatch ho
  cache := rfl
  ttl c hc := nomatch hc

theorem known_served (C : CacheLib) (requests : List Request) :
    Known C (served C requests) (openers requests) := by
  induction requests using List.reverseRecOn with
  | nil => exact known_start C
  | append_singleton requests r ih =>
    rw [served, List.foldl_concat, openers_concat]
    exact ih.initCache r.lcf

/-! ## Whose cache is used -/

/-- A parse is with the cache that is attached. -/
theorem applySharedCache_cache (lib : Libgomesi) {config : EsiParserConfig}
    (h : config.cache = false) :
    (lib.applySharedCache config).cache = (cached lib).isSome ∧
      (∀ c, cached lib = some c → (lib.applySharedCache config).cacheTTL = lib.sharedCacheTTL) := by
  rw [Libgomesi.applySharedCache, cached]
  cases lib.sharedCache with
  | none => exact ⟨h, nofun⟩
  | some cache => exact ⟨rfl, fun _ _ ↦ rfl⟩

theorem cache_parseWithConfigInternal {p : ParseParams} {config : EsiParserConfig}
    (h : parseWithConfigInternal none p = some config) : config.cache = false := by
  rw [parseWithConfigInternal] at h
  split_ifs at h <;> exact (Option.some.inj h) ▸ rfl

/-- Nothing but libgomesi attaches a cache. -/
theorem cache_callParse {lcf : Location} {baseURL : Bytes} {cacheKeyFunc : Bytes → Bytes}
    {config : EsiParserConfig} (h : callParse lcf baseURL cacheKeyFunc = some config) :
    config.cache = false := by
  rw [callParse] at h
  dsimp only at h
  by_cases hjson : (lcf.configured && lcf.sym.parseJson) = true
  · rw [if_pos hjson] at h
    simp only [parseJson, Option.bind_eq_bind, Option.bind_eq_some_iff] at h
    obtain ⟨_, _, _, _, _, _, _, _, h⟩ := h
    exact cache_parseWithConfigInternal h
  · rw [if_neg hjson, Option.or_eq_some_iff] at h
    rcases h with h | ⟨-, h⟩
    · split_ifs at h
      exact cache_parseWithConfigInternal h
    · split_ifs at h
      · exact cache_parseWithConfigInternal h
      · exact cache_parseWithConfigInternal h
      · rw [Parse] at h
        split_ifs at h
        exact (Option.some.inj h) ▸ rfl

/-- The parse of a location is with its own cache exactly if there is one that is built from its
settings. -/
theorem usesOwnCache_iff_cached {lib : Libgomesi} (httl : TTLKnown lib) {config : EsiParserConfig}
    (hconfig : config.cache = false) :
    UsesOwnCache lib lcf (lib.applySharedCache config) ↔
      (lcf.cacheBackend ≠ [] → ∃ c, cached lib = some c ∧ BuiltFrom lcf c) ∧
        (lcf.cacheBackend = [] → cached lib = none) := by
  obtain ⟨hcache, hlifetime⟩ := applySharedCache_cache lib hconfig
  constructor
  · rintro ⟨hown, hwithout⟩
    refine ⟨fun hne ↦ ?_, fun hnil ↦ ?_⟩
    · obtain ⟨-, -, cache, hshared, hbuilt⟩ := hown hne
      exact ⟨cache.config, congrArg (Option.map _) hshared, hbuilt⟩
    · exact Option.not_isSome_iff_eq_none.mp
        (Bool.eq_false_iff.mp (hcache.symm.trans (hwithout hnil)))
  · rintro ⟨hown, hwithout⟩
    refine ⟨fun hne ↦ ?_, fun hnil ↦ ?_⟩
    · obtain ⟨c, hc, hbuilt⟩ := hown hne
      refine ⟨by rw [hcache, hc]; rfl, ?_, ?_⟩
      · rw [hlifetime c hc, httl c hc, hbuilt.ttl]
      · obtain ⟨cache, hshared, rfl⟩ := Option.map_eq_some_iff.mp hc
        exact ⟨cache, hshared, hbuilt⟩
    · rw [hcache, hwithout hnil]
      rfl

/-- What is cached is built from the settings of the last opener that has done something. -/
theorem Known.builtFrom_iff (h : Known C w os) {o : CachingLocation} (ho : os.getLast? = some o)
    (hbackend : o.backend = lcf.backend) :
    (∃ c, cached w.lib = some c ∧ BuiltFrom lcf c) ↔ OpenedAs C o lcf := by
  obtain ⟨init, rfl⟩ := List.getLast?_eq_some_iff.mp ho
  have hcache := h.cache
  rw [List.filter_append, List.filter_singleton] at hcache
  constructor
  · rintro ⟨c, hc, hbuilt⟩
    by_cases hresets : o.resets C = true
    · rw [hresets, cond_true, List.getLast?_concat, Option.bind_some, hc] at hcache
      by_cases hmakes : o.makes C = true
      · rw [if_pos hmakes] at hcache
        obtain rfl := Option.some.inj hcache
        exact ⟨hresets, hmakes, hbuilt.size, hbuilt.ttl, hbuilt.servers⟩
      · rw [if_neg hmakes] at hcache
        exact nomatch hcache
    · -- the cache is an older one, from a location with the same backend, which resets it or not
      rw [Bool.eq_false_iff.mpr hresets, cond_false, List.append_nil, hc] at hcache
      obtain ⟨o', ho', hmade⟩ := Option.bind_eq_some_iff.mp hcache.symm
      split_ifs at hmade
      obtain rfl := Option.some.inj hmade
      have hsame : o'.backend = o.backend := hbuilt.backend.trans hbackend.symm
      have hresets' : o'.resets C = true := (List.mem_filter.mp (List.mem_of_getLast? ho')).2
      rw [CachingLocation.resets, hsame] at hresets'
      exact absurd hresets' hresets
  · rintro ⟨hresets, hmakes, hsize, httl, hservers⟩
    rw [hresets, cond_true, List.getLast?_concat, Option.bind_some, if_pos hmakes] at hcache
    exact ⟨o.cacheConfig, hcache, hbackend, hsize, httl, hservers⟩

/-- The last opener that has done something has made no cache. -/
def NothingLeft (C : CacheLib) (os : List CachingLocation) : Prop :=
  ∀ o, (os.filter (·.resets C)).getLast? = some o → o.makes C = false

theorem Known.cached_eq_none_iff (h : Known C w os) : cached w.lib = none ↔ NothingLeft C os := by
  rw [h.cache, NothingLeft]
  cases (os.filter (·.resets C)).getLast? with
  | none => simp
  | some o => cases hmakes : o.makes C <;> simp [hmakes]

/-- **Main result.** After any requests, a request is parsed with a cache that is built from the
settings of its location if and only if the location that has opened the series of requests with its
backend asked for the same cache, and the cache was made. A location without a backend is served
without a cache if and only if none has been left by the others. -/
theorem usesOwnCache_iff (C : CacheLib) (before : List Request) (r : Request) :
    (∀ config, ((served C before).parse C r).2 = some config →
        UsesOwnCache ((served C before).parse C r).1.lib r.lcf config) ↔
      (r.lcf.cacheBackend ≠ [] →
        ∃ o, (openers (before ++ [r])).getLast? = some o ∧ OpenedAs C o r.lcf) ∧
        (r.lcf.cacheBackend = [] → NothingLeft C (openers before)) := by
  have hknown : Known C ((served C before).parse C r).1 (openers (before ++ [r])) := by
    have hserved : ((served C before).parse C r).1 = served C (before ++ [r]) := by
      rw [served, served, List.foldl_concat]
    exact hserved ▸ known_served C (before ++ [r])
  obtain ⟨parsed, hparsed⟩ := Option.isSome_iff_exists.mp
    (isSome_callParse r.lcf.toLocation r.baseURL r.cacheKeyFunc)
  have hconfig : ((served C before).parse C r).2 =
      some (((served C before).parse C r).1.lib.applySharedCache parsed) := by
    rw [Worker.parse, hparsed]
    rfl
  have hall : (∀ config, ((served C before).parse C r).2 = some config →
      UsesOwnCache ((served C before).parse C r).1.lib r.lcf config) ↔
      UsesOwnCache ((served C before).parse C r).1.lib r.lcf
        (((served C before).parse C r).1.lib.applySharedCache parsed) := by
    rw [hconfig]
    exact ⟨fun h ↦ h _ rfl, fun h config heq ↦ Option.some.inj heq ▸ h⟩
  rw [hall, usesOwnCache_iff_cached hknown.ttl (cache_callParse hparsed)]
  refine and_congr (forall_congr' fun hne ↦ ?_) (forall_congr' fun hnil ↦ ?_)
  · obtain ⟨o, ho, hbackend⟩ := exists_opener before hne
    rw [hknown.builtFrom_iff ho hbackend]
    refine ⟨fun h ↦ ⟨o, ho, h⟩, ?_⟩
    rintro ⟨o', ho', h⟩
    exact Option.some.inj (ho.symm.trans ho') ▸ h
  · have hopens : ¬ r.lcf.opens (openers before).getLast? = true := by
      simp [CachingLocation.opens, hnil]
    rw [hknown.cached_eq_none_iff, openers_concat, if_neg hopens]

/-! ## A cache of another location -/

/-- A location with a cache in memory. -/
def memoryLocation : CachingLocation where
  toLocation := plainLocation
  cacheBackend := lit "memory"

/-- The cache of one location serves another one that has none. -/
theorem not_usesOwnCache :
    ¬ ∀ (C : CacheLib) (before : List Request) (r : Request) (config : EsiParserConfig),
      ((served C before).parse C r).2 = some config →
        UsesOwnCache ((served C before).parse C r).1.lib r.lcf config := fun h ↦ by
  have hcached : (((served { accepts := fun _ ↦ true } [⟨memoryLocation, [], id⟩]).parse
      { accepts := fun _ ↦ true } ⟨{ toLocation := plainLocation }, [], id⟩).2.map
        (·.cache)) = some true := by decide +kernel
  obtain ⟨config, hconfig, hcache⟩ := Option.map_eq_some_iff.mp hcached
  have hoff := (h _ _ _ config hconfig).without rfl
  exact Bool.false_ne_true (hoff.symm.trans hcache)

end GoMesi.Nginx
