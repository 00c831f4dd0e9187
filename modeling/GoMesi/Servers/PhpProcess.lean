import GoMesi.Servers.CBodies

/-!
# The process of the PHP extension

`mesi.c`: what a process of PHP keeps between its calls. The cache and the shared client are
libgomesi's, and the extension keeps a record of both, so as to make them again only when a call
asks for something else: `g_cache_state` has the arguments of the last cache that was made,
`g_http_block_private_ips` and `g_http_shared_client` tell what the shared client does and
whether there is one.

The record of the client is right after every call. The record of the cache is wrong once
`InitCacheWithConfig` has failed, which detaches the cache before.
-/

namespace GoMesi.Php

open Strings Interleaving Apache

/-! ## Options -/

/-- The values of `cache_backend`. -/
def backends : List Bytes := [[], lit "memory", lit "redis", lit "memcached"]

theorem inRange_cacheSize : (0 : ℤ) = 0 ∨ 1 ≤ (0 : ℤ) ∧ (0 : ℤ) ≤ 1000000 := .inl rfl

theorem inRange_cacheTtl : 0 ≤ (0 : ℤ) ∧ (0 : ℤ) ≤ 86400 := by decide

/-- The options of a call as far as they concern the process, after their checks. `0` stands for a
size that is absent. -/
structure CallOptions extends Options where
  cacheSize : ℤ := 0
  cacheTtl : ℤ := 0
  cacheRedisAddr : Bytes := []
  cacheRedisPassword : Bytes := []
  cacheRedisDb : Option ℤ := none
  cacheMemcachedServers : List Bytes := []
  sharedHttpClient : Bool := true
  cacheBackend_mem : cacheBackend ∈ backends := by decide
  cacheSize_range : cacheSize = 0 ∨ 1 ≤ cacheSize ∧ cacheSize ≤ 1000000 := by
    exact inRange_cacheSize
  cacheTtl_range : 0 ≤ cacheTtl ∧ cacheTtl ≤ 86400 := by exact inRange_cacheTtl

/-! ## The configuration of the cache -/

/-- `mesi_putc` -/
def putc (cap : ℕ) (out : Bytes) (c : UInt8) : Option Bytes :=
  if out.length + 1 ≥ cap then none else some (out ++ [c])

/-- Some `mesi_putc` one after the other. -/
def puts (cap : ℕ) (out s : Bytes) : Option Bytes := s.foldlM (putc cap) out

/-- A digit of `hex`. -/
def hexDigit (n : ℕ) : UInt8 := ((lit "0123456789abcdef")[n]?).getD 0

/-- How a byte is written in a JSON string. -/
def escapeByte (b : UInt8) : Bytes :=
  if b = 0x22 then lit "\\\""
  else if b = 0x5c then lit "\\\\"
  else if b < 0x20 then lit "\\u00" ++ [hexDigit (b.toNat / 16), hexDigit (b.toNat % 16)]
  else [b]

/-- `mesi_json_append_escape` -/
def jsonAppendEscape (cap : ℕ) (out src : Bytes) : Option Bytes :=
  puts cap out ((cString src).flatMap escapeByte)

/-- `mesi_json_append_str` -/
def jsonAppendStr (cap : ℕ) (out src : Bytes) : Option Bytes := do
  let out ← putc cap out 0x22
  let out ← jsonAppendEscape cap out src
  putc cap out 0x22

/-- The entries of a server list. -/
def appendServers (cap : ℕ) : (first : Bool) → (out : Bytes) → List Bytes → Option Bytes
  | _, out, [] => some out
  | first, out, server :: servers => do
    let out ← if first then some out else putc cap out 0x2c
    appendServers cap false (← jsonAppendStr cap out server) servers

/-- The number of the database, unless it is absent. -/
def appendRedisDb (cap : ℕ) (out : Bytes) : Option ℤ → Option Bytes
  | none => some out
  | some db =>
    let text := lit ",\"redisDB\":" ++ Strconv.formatInt db
    if out.length + text.length ≥ cap then none else some (out ++ text)

/-- `build_cache_config_json`, `none` if the text does not fit into the buffer. -/
def buildCacheConfigJson (o : CallOptions) (cap : ℕ) : Option Bytes :=
  if o.cacheBackend = [] ∨ o.cacheBackend = lit "memory" then
    if cap < 3 then none else some (lit "\x7b\x7d")
  else if o.cacheBackend = lit "redis" then
    if cap < 32 then none
    else do
      let out ← jsonAppendStr cap (lit "\x7b\"redisAddr\":") o.cacheRedisAddr
      let out ← jsonAppendStr cap (out ++ lit ",\"redisPassword\":") o.cacheRedisPassword
      let out ← appendRedisDb cap out o.cacheRedisDb
      if out.length + 2 ≥ cap then none else some (out ++ lit "\x7d")
  else if o.cacheBackend = lit "memcached" then
    if cap < 16 then none
    else do
      let out ← appendServers cap true (lit "\x7b\"servers\":[") o.cacheMemcachedServers
      if out.length + 2 ≥ cap then none else some (out ++ lit "]\x7d")
  else none

/-- `MESI_CFG_MAX` -/
def cfgMax : ℕ := 4096

/-- `MESI_BACKEND_MAX` -/
def backendMax : ℕ := 16

/-- The arguments of `InitCacheWithConfig` for a call. -/
def CallOptions.cacheConfig (o : CallOptions) (configJSON : Bytes) : CacheConfig where
  backend := o.cacheBackend
  size := if o.cacheSize = 0 then 10000 else o.cacheSize
  ttlSeconds := o.cacheTtl
  configJSON := configJSON

/-- `mesi_cache_state_matches` -/
def cacheStateMatches (state c : CacheConfig) : Bool :=
  if c.backend = [] ∧ state.backend = [] then
    decide (state.size = c.size ∧ state.ttlSeconds = c.ttlSeconds ∧ state.configJSON = c.configJSON)
  else
    decide (state.backend = c.backend ∧ state.size = c.size ∧ state.ttlSeconds = c.ttlSeconds ∧
      state.configJSON = c.configJSON)

/-- `mesi_cache_state_record`: `strncpy` cuts what is too long. -/
def cacheStateRecord (c : CacheConfig) : CacheConfig :=
  { c with backend := c.backend.take (backendMax - 1), configJSON := c.configJSON.take (cfgMax - 1) }

/-! ## The process -/

/-- The globals of the extension, and libgomesi. -/
structure Globals where
  /-- `g_cache_state` -/
  cacheState : CacheConfig
  /-- `g_http_block_private_ips` -/
  httpBlockPrivateIps : Bool
  /-- `g_http_shared_client` -/
  httpSharedClient : Bool
  lib : Libgomesi

/-- `PHP_MINIT_FUNCTION(mesi)` -/
def minit (L : NetLib) : Globals where
  cacheState := ⟨[], -1, -1, []⟩
  httpBlockPrivateIps := false
  httpSharedClient := true
  lib := { sharedClient := some (initHTTPClient L 0) }

/-- The C value of a flag. -/
def flag (b : Bool) : ℤ := if b then 1 else 0

/-- A call of the extension. -/
inductive Call
  /-- `mesi\parse` -/
  | parse (maxDepth : ℤ) (defaultUrl : Bytes)
  /-- `mesi\parse_with_config` with an argument or an option that does not pass its checks. -/
  | rejected
  /-- `mesi\parse_with_config`. Whether `InitCacheWithConfig` accepts the configuration of the cache
  and whether memory is allocated is not up to the extension. -/
  | parseWithConfig (input : Bytes) (o : CallOptions) (accepts allocates : Bool)
      (cacheKeyFunc : Bytes → Bytes)

namespace Globals

variable (g : Globals)

/-- The cache is made, unless it has been made before, and the answer tells whether the call goes
on. -/
def initCache (accepts : Bool) (c : CacheConfig) : Globals × Bool :=
  if cacheStateMatches g.cacheState c then (g, true)
  else
    match g.lib.initCacheWithConfig accepts c with
    | (lib, rc) =>
      if rc ≠ 0 then ({ g with lib }, false)
      else ({ g with lib, cacheState := cacheStateRecord c }, true)

/-- The shared client is made or detached, unless it is as the call wants it. -/
def initClient (L : NetLib) (o : CallOptions) : Globals :=
  if o.sharedHttpClient then
    if ¬ g.httpSharedClient ∨ o.blockPrivateIPs ≠ g.httpBlockPrivateIps then
      { g with
        lib := { g.lib with sharedClient := some (initHTTPClient L (flag o.blockPrivateIPs)) }
        httpBlockPrivateIps := o.blockPrivateIPs
        httpSharedClient := true }
    else g
  else if g.httpSharedClient then { g with lib := g.lib.freeHTTPClient, httpSharedClient := false }
  else g

/-- Some memory is needed: for the context of the request, or for the text that `ParseJson` takes. -/
def needsMemory (json : Bool) (o : CallOptions) : Bool :=
  (o.cacheKeyTemplate.any (· ≠ []) && decide (o.cacheBackend ≠ [])) || (o.configured && json)

/-- What the call of libgomesi finds. -/
def process (json : Bool) (cacheKeyFunc : Bytes → Bytes) : Process where
  parseJson := json
  sharedClient := g.lib.sharedClient
  cacheKeyFunc := cacheKeyFunc

/-- A call: the globals after it, and the configuration of `MESIParse` if it is called. Whether
libgomesi has `ParseJson` has been found out by `PHP_MINIT_FUNCTION`. -/
def call (L : NetLib) (json : Bool) : Call → Globals × Option EsiParserConfig
  | .parse maxDepth defaultUrl =>
    (g, (Parse g.lib.sharedClient maxDepth (cString defaultUrl)).map g.lib.applySharedCache)
  | .rejected => (g, none)
  | .parseWithConfig input o accepts allocates cacheKeyFunc =>
    if ¬ validMaxDepth o.maxDepth ∨ o.oversize input then (g, none)
    else
      match buildCacheConfigJson o cfgMax with
      | none => (g, none)
      | some configJSON =>
        let (g, ok) := g.initCache accepts (o.cacheConfig configJSON)
        if ¬ ok then (g, none)
        else
          let g := g.initClient L o
          if needsMemory json o ∧ ¬ allocates then (g, none)
          else
            (g, (o.callParse (g.process json cacheKeyFunc)).map g.lib.applySharedCache)

end Globals

/-- A call of `InitCacheWithConfig`. -/
structure Init where
  config : CacheConfig
  succeeded : Bool
  /-- The cache that is attached after it. -/
  attached : Option SharedCache

/-- The call of `InitCacheWithConfig` that a call makes, if it makes one. -/
def Globals.init? (g : Globals) : Call → Option Init
  | .parseWithConfig input o accepts _ _ =>
    if ¬ validMaxDepth o.maxDepth ∨ o.oversize input then none
    else
      match buildCacheConfigJson o cfgMax with
      | none => none
      | some configJSON =>
        let c := o.cacheConfig configJSON
        if cacheStateMatches g.cacheState c then none
        else
          let (lib, rc) := g.lib.initCacheWithConfig accepts c
          some ⟨c, decide (rc = 0), lib.sharedCache⟩
  | _ => none

/-- The globals after some calls, and the calls of `InitCacheWithConfig` on the way. -/
def run (L : NetLib) (json : Bool) (calls : List Call) : Globals × List Init :=
  calls.foldl (fun s c ↦ ((s.1.call L json c).1, s.2 ++ (s.1.init? c).toList)) (minit L, [])

variable {L : NetLib} {json : Bool}

theorem run_concat (calls : List Call) (c : Call) :
    run L json (calls ++ [c]) = (((run L json calls).1.call L json c).1,
      (run L json calls).2 ++ ((run L json calls).1.init? c).toList) := by
  rw [run, List.foldl_concat]
  rfl

/-! ## The record of the client -/

/-- The flags tell which client is shared. -/
def ClientMirrored (L : NetLib) (g : Globals) : Prop :=
  g.lib.sharedClient =
    if g.httpSharedClient then some (initHTTPClient L (flag g.httpBlockPrivateIps)) else none

/-- What a call leaves alone that does not come to the client. -/
structure SameClient (g g' : Globals) : Prop where
  sharedClient : g'.lib.sharedClient = g.lib.sharedClient
  httpBlockPrivateIps : g'.httpBlockPrivateIps = g.httpBlockPrivateIps
  httpSharedClient : g'.httpSharedClient = g.httpSharedClient

variable {g g' : Globals}

theorem SameClient.rfl : SameClient g g := ⟨Eq.refl _, Eq.refl _, Eq.refl _⟩

theorem ClientMirrored.of_same (h : ClientMirrored L g) (hsame : SameClient g g') :
    ClientMirrored L g' := by
  rw [ClientMirrored, hsame.sharedClient, hsame.httpSharedClient, hsame.httpBlockPrivateIps]
  exact h

theorem Globals.sameClient_initCache (g : Globals) (accepts : Bool) (c : CacheConfig) :
    SameClient g (g.initCache accepts c).1 := by
  have hlib := g.lib.sharedClient_initCacheWithConfig accepts c
  rw [initCache]
  split_ifs
  · exact .rfl
  · dsimp only
    split_ifs <;> exact ⟨hlib, Eq.refl _, Eq.refl _⟩

/-- After a call that comes to the client, the client is the one the call wants. -/
theorem ClientMirrored.initClient (h : ClientMirrored L g) (o : CallOptions) :
    ClientMirrored L (g.initClient L o) ∧ (g.initClient L o).lib.sharedClient =
      if o.sharedHttpClient then some (initHTTPClient L (flag o.blockPrivateIPs)) else none := by
  by_cases hshared : o.sharedHttpClient = true
  · by_cases hnew : ¬ g.httpSharedClient ∨ o.blockPrivateIPs ≠ g.httpBlockPrivateIps
    · rw [Globals.initClient, if_pos hshared, if_pos hnew, if_pos hshared]
      exact ⟨rfl, rfl⟩
    · -- the record says that the client is there, and what it does
      rw [Globals.initClient, if_pos hshared, if_neg hnew, if_pos hshared]
      push Not at hnew
      refine ⟨h, ?_⟩
      rw [ClientMirrored, if_pos hnew.1] at h
      rw [h, hnew.2]
  · by_cases hattached : g.httpSharedClient = true
    · rw [Globals.initClient, if_neg hshared, if_pos hattached, if_neg hshared]
      exact ⟨rfl, rfl⟩
    · rw [Globals.initClient, if_neg hshared, if_neg hattached, if_neg hshared]
      refine ⟨h, ?_⟩
      rw [ClientMirrored, if_neg hattached] at h
      exact h

/-- A call of `parse_with_config` comes to the client, after the cache has been seen to, or it leaves
the client alone and returns before the parse. -/
theorem Globals.call_parseWithConfig (L : NetLib) (json : Bool) (g : Globals) (input : Bytes)
    (o : CallOptions) (accepts allocates : Bool) (cacheKeyFunc : Bytes → Bytes) :
    (SameClient g (g.call L json (.parseWithConfig input o accepts allocates cacheKeyFunc)).1 ∧
      (g.call L json (.parseWithConfig input o accepts allocates cacheKeyFunc)).2 = none) ∨
    ∃ g₁ : Globals, SameClient g g₁ ∧
      (g.call L json (.parseWithConfig input o accepts allocates cacheKeyFunc)).1 =
        g₁.initClient L o ∧
      ∀ config, (g.call L json (.parseWithConfig input o accepts allocates cacheKeyFunc)).2 =
        some config → (o.callParse ((g₁.initClient L o).process json cacheKeyFunc)).map
          (g₁.initClient L o).lib.applySharedCache = some config := by
  rw [call]
  by_cases hargs : ¬ validMaxDepth o.maxDepth ∨ o.oversize input
  · rw [if_pos hargs]
    exact .inl ⟨.rfl, rfl⟩
  · rw [if_neg hargs]
    cases buildCacheConfigJson o cfgMax with
    | none => exact .inl ⟨.rfl, rfl⟩
    | some configJSON =>
      have hsame := g.sameClient_initCache accepts (o.cacheConfig configJSON)
      dsimp only
      by_cases hok : (g.initCache accepts (o.cacheConfig configJSON)).2 = true
      · rw [if_neg (not_not.mpr hok)]
        refine .inr ⟨_, hsame, ?_, fun config h ↦ ?_⟩
        · split_ifs <;> rfl
        · split_ifs at h
          exact h
      · rw [if_pos hok]
        exact .inl ⟨hsame, rfl⟩

/-- **One call.** -/
theorem ClientMirrored.call (h : ClientMirrored L g) (c : Call) :
    ClientMirrored L (g.call L json c).1 := by
  cases c with
  | parse maxDepth defaultUrl => exact h
  | rejected => exact h
  | parseWithConfig input o accepts allocates cacheKeyFunc =>
    rcases g.call_parseWithConfig L json input o accepts allocates cacheKeyFunc with
      ⟨hsame, -⟩ | ⟨g₁, hsame, hcall, -⟩
    · exact h.of_same hsame
    · rw [hcall]
      exact ((h.of_same hsame).initClient o).1

/-- **Any calls.** -/
theorem clientMirrored_run (calls : List Call) : ClientMirrored L (run L json calls).1 := by
  induction calls using List.reverseRecOn with
  | nil => rfl
  | append_singleton calls c ih =>
    rw [run_concat]
    exact ih.call c

/-! ## The policy of a call -/

theorem dialPolicy_applySharedCache (lib : Libgomesi) (config : EsiParserConfig) :
    (lib.applySharedCache config).dialPolicy = config.dialPolicy := by
  rw [Libgomesi.applySharedCache]
  split <;> rfl

/-- The parameters that libgomesi is called with, as far as the policy is concerned. -/
theorem Options.parsedFrom_callParse {o : Options} {process : Process} {config : EsiParserConfig}
    (h : o.callParse process = some config) :
    ∃ p : ParseParams, ParsedFrom process.sharedClient p config ∧
      p.allowedHosts = cString o.allowedHosts ∧ p.blockPrivateIPs = flag o.blockPrivateIPs ∧
        p.allowPrivateIPsForAllowedHosts = flag o.allowPrivateIPsForAllowedHosts := by
  rw [callParse] at h
  dsimp only at h
  by_cases hjson : (o.configured && process.parseJson) = true
  · rw [if_pos hjson] at h
    exact ⟨_, parsedFrom_parseJson h, rfl, rfl, rfl⟩
  · rw [if_neg hjson] at h
    exact ⟨_, parsedFrom_parseWithConfigInternal h, rfl, rfl, rfl⟩

theorem flag_ne_zero_iff {b : Bool} : flag b ≠ 0 ↔ b = true := by cases b <;> decide

theorem decide_flag_ne_zero (b : Bool) : decide (flag b ≠ 0) = b := by cases b <;> decide

/-- The URLs that the options exempt from the block. -/
def Options.Bypasses (P : Platform) (L : NetLib) (o : Options) (url : Bytes) : Prop :=
  GoMesi.Bypasses P.unicode L
    { allowedHosts := fields (cString o.allowedHosts)
      allowPrivateIPsForAllowedHosts := o.allowPrivateIPsForAllowedHosts } url

/-- All fetches of the renders with a configuration go through clients whose dialers refuse private
addresses if and only if `block` says so, but for the URLs that are exempt. -/
def FetchesBlock (P : Platform) (L : NetLib) (config : EsiParserConfig) (block : Bool)
    (exempt : Bytes → Prop) : Prop :=
  ∀ (input : Bytes) (σ : Type) (sem : (o : RenderOp) → σ → renderSignature.Res o → σ → Prop)
    (env : σ → σ → Prop) (s t : σ) (tr : List (Event renderSignature σ)) (q : Render Bytes),
    Run sem env (mesiParse P .page .page input config) s tr q t →
      ∀ ev ∈ tr, ∀ id request readAt, ev.op = .spawn id request readAt → ∀ url, ¬ exempt url →
        (RefusesPrivate L (fetchClientForURL P.unicode L url request.config) ↔ block = true)

/-- The policy of a configuration is that of every fetch. -/
theorem fetchesBlock_of_policy {P : Platform} {config : EsiParserConfig} {block : Bool}
    (hprivate : ∃ address, IsPrivateAddress L address)
    (h : config.dialPolicy.Refuses L ↔ block = true) :
    FetchesBlock P L config block (GoMesi.Bypasses P.unicode L config.toFetchConfig) := by
  intro input σ sem env s t tr q hrun ev hev id request readAt hop url hexempt
  have hunder := fetchesUnder_of_run hrun ev hev
  rw [hop] at hunder
  have hpolicy : request.config.dialPolicy = config.dialPolicy := hunder.1
  rw [← h, ← hpolicy]
  refine refuses_iff_of_not_bypasses hprivate fun hbypass ↦ hexempt ?_
  exact (bypasses_congr (congrArg DialPolicy.allowPrivateIPsForAllowedHosts hpolicy)
    (congrArg DialPolicy.allowedHosts hpolicy)).mp hbypass

/-- **Main result.** After any calls, a call of `parse_with_config` that gets to the parse fetches
with clients that block private addresses if and only if it asks for that, but for the hosts it
exempts itself. -/
theorem fetchesBlock_parseWithConfig (P : Platform) (hprivate : ∃ address, IsPrivateAddress L address)
    (calls : List Call) {input : Bytes} {o : CallOptions} {accepts allocates : Bool}
    {cacheKeyFunc : Bytes → Bytes} {config : EsiParserConfig}
    (hcall : ((run L json calls).1.call L json
      (.parseWithConfig input o accepts allocates cacheKeyFunc)).2 = some config) :
    FetchesBlock P L config o.blockPrivateIPs (o.Bypasses P L) := by
  rcases (run L json calls).1.call_parseWithConfig L json input o accepts allocates
    cacheKeyFunc with ⟨-, hnone⟩ | ⟨g₁, hsame, -, hconfig⟩
  · rw [hnone] at hcall
    exact nomatch hcall
  · obtain ⟨parsed, hparsed, rfl⟩ := Option.map_eq_some_iff.mp (hconfig config hcall)
    obtain ⟨p, hp, hhosts, hblock, hallow⟩ := Options.parsedFrom_callParse hparsed
    have hclient := (((clientMirrored_run calls).of_same hsame).initClient o).2
    have hpolicy := dialPolicy_applySharedCache (g₁.initClient L o).lib parsed
    have hallow' : parsed.dialPolicy.allowPrivateIPsForAllowedHosts =
        o.allowPrivateIPsForAllowedHosts := hp.allow.trans (by rw [hallow, decide_flag_ne_zero])
    have hhosts' : parsed.dialPolicy.allowedHosts = fields (cString o.allowedHosts) :=
      hp.allowedHosts.trans (by rw [hhosts])
    rw [← hpolicy] at hallow' hhosts'
    have hexempt (url : Bytes) : GoMesi.Bypasses P.unicode L
        ((g₁.initClient L o).lib.applySharedCache parsed).toFetchConfig url → o.Bypasses P L url :=
      (bypasses_congr hallow' hhosts').mp
    -- either way it is the client this call has asked for, or there is none
    have hshared : (if p.allowPrivateIPsForAllowedHosts ≠ 0 then none
          else ((g₁.initClient L o).process json cacheKeyFunc).sharedClient) = none ∨
        (if p.allowPrivateIPsForAllowedHosts ≠ 0 then none
          else ((g₁.initClient L o).process json cacheKeyFunc).sharedClient) =
          some (initHTTPClient L (flag o.blockPrivateIPs)) := by
      rw [Globals.process, hclient]
      split_ifs
      · exact .inl rfl
      · exact .inr rfl
      · exact .inl rfl
    have hrefuses : parsed.dialPolicy.Refuses L ↔ o.blockPrivateIPs = true :=
      DialPolicy.refuses_iff_of_client hprivate hp.client hshared (fun _ ↦ flag_ne_zero_iff)
        (hp.block.trans (by rw [hblock, decide_flag_ne_zero]))
    rw [← hpolicy] at hrefuses
    intro input' σ sem env s t tr q hrun ev hev id request readAt hop url hbypass
    exact fetchesBlock_of_policy hprivate hrefuses input' σ sem env s t tr q hrun ev hev id request
      readAt hop url fun h ↦ hbypass (hexempt url h)

/-- A call that detaches the client. -/
def detaching : CallOptions where
  maxDepth := 5
  sharedHttpClient := false

/-- A call with the default options. -/
def plainCall : CallOptions where
  maxDepth := 5

/-- A call with the default options blocks private addresses after one that has detached the client. -/
theorem fetchesBlock_parseWithConfig_detached :
    ∃ config, ((run .simple true [.parseWithConfig [] detaching true true id]).1.call .simple true
        (.parseWithConfig [] plainCall true true id)).2 = some config ∧
      FetchesBlock includePlatform .simple config true (plainCall.Bypasses includePlatform .simple) := by
  have hparses : ((run .simple true [.parseWithConfig [] detaching true true id]).1.call .simple true
      (.parseWithConfig [] plainCall true true id)).2.isSome = true := by decide +kernel
  obtain ⟨config, hcall⟩ := Option.isSome_iff_exists.mp hparses
  exact ⟨config, hcall, fetchesBlock_parseWithConfig includePlatform isPrivateAddress_simple _ hcall⟩

end GoMesi.Php
