import GoMesi.Servers.PhpProcess

/-!
# What the PHP extension knows about its cache

`g_cache_state` has the arguments of the last call of `InitCacheWithConfig` that has succeeded. The
cache is that of the last call, if it has succeeded. So the record is right as long as no call has
failed after the one it is about.
-/

namespace GoMesi.Php

open Strings Interleaving

variable {L : NetLib} {json : Bool} {g : Globals} {o : CallOptions} {inits : List Init}

/-! ## The record of the cache -/

/-- The last call of `InitCacheWithConfig` that has succeeded. -/
def lastSuccess (inits : List Init) : Option Init := (inits.filter Init.succeeded).getLast?

/-- Whenever the record matches a configuration, the cache is the one that the last successful
`InitCacheWithConfig` has made, which was called for this configuration. -/
def CacheMirrored (g : Globals) (inits : List Init) : Prop :=
  ∀ c, cacheStateMatches g.cacheState c = true →
    (c.backend = [] → g.lib.sharedCache = none) ∧
      (c.backend ≠ [] → ∃ i cache, lastSuccess inits = some i ∧ i.config = c ∧
        i.attached = some cache ∧ g.lib.sharedCache = some cache)

/-- The last call of `InitCacheWithConfig` has failed, and the last one before that has succeeded has
made a cache. -/
def FailedAfterCache (inits : List Init) : Prop :=
  (∃ i, inits.getLast? = some i ∧ i.succeeded = false) ∧
    ∃ i, lastSuccess inits = some i ∧ i.config.backend ≠ []

theorem cacheStateMatches_iff {state c : CacheConfig} : cacheStateMatches state c = true ↔ state = c := by
  obtain ⟨backend, size, ttl, configJSON⟩ := c
  obtain ⟨backend', size', ttl', configJSON'⟩ := state
  rw [cacheStateMatches]
  split_ifs with h
  · obtain ⟨rfl, rfl⟩ := h
    simp
  · simp

/-! ## Nothing is cut off -/

/-- The end of the text is written only if it fits. -/
theorem length_of_closing {cap : ℕ} {out closing text : Bytes} (hclosing : closing.length ≤ 2)
    (h : (if out.length + 2 ≥ cap then none else some (out ++ closing)) = some text) :
    text.length < cap := by
  split_ifs at h with hcap
  obtain rfl := Option.some.inj h
  rw [List.length_append]
  omega

/-- The text fits into the buffer with its NUL byte. -/
theorem length_of_buildCacheConfigJson {cap : ℕ} {text : Bytes}
    (h : buildCacheConfigJson o cap = some text) : text.length < cap := by
  rw [buildCacheConfigJson] at h
  split_ifs at h with hmemory hcap hredis hcap hmemcached hcap
  · obtain rfl := Option.some.inj h
    have hlength : (lit "\x7b\x7d").length = 2 := by decide
    omega
  · simp only [Option.bind_eq_bind, Option.bind_eq_some_iff] at h
    obtain ⟨_, -, _, -, _, -, h⟩ := h
    exact length_of_closing (by decide) h
  · simp only [Option.bind_eq_bind, Option.bind_eq_some_iff] at h
    obtain ⟨_, -, h⟩ := h
    exact length_of_closing (by decide) h

theorem length_of_mem_backends {backend : Bytes} (h : backend ∈ backends) :
    backend.length ≤ backendMax - 1 := by
  revert backend
  decide +kernel

/-- The arguments are recorded as they are. -/
theorem cacheStateRecord_cacheConfig {configJSON : Bytes}
    (h : buildCacheConfigJson o cfgMax = some configJSON) :
    cacheStateRecord (o.cacheConfig configJSON) = o.cacheConfig configJSON := by
  have hbackend : (o.cacheConfig configJSON).backend.length ≤ backendMax - 1 :=
    length_of_mem_backends o.cacheBackend_mem
  have hconfig : (o.cacheConfig configJSON).configJSON.length ≤ cfgMax - 1 :=
    Nat.le_sub_one_of_lt (length_of_buildCacheConfigJson h)
  rw [cacheStateRecord, List.take_of_length_le hbackend, List.take_of_length_le hconfig]

/-! ## Calls of InitCacheWithConfig -/

/-- What a call of `InitCacheWithConfig` attaches. -/
structure Init.Made (i : Init) : Prop where
  failed : i.succeeded = false → i.attached = none
  none : i.config.backend = [] → i.attached = none
  some : i.succeeded = true → i.config.backend ≠ [] → i.attached.isSome = true

/-- The record and the cache after some calls of `InitCacheWithConfig`. -/
structure CacheKnown (g : Globals) (inits : List Init) : Prop where
  state : g.cacheState = ((lastSuccess inits).map Init.config).getD ⟨[], -1, -1, []⟩
  cache : g.lib.sharedCache = inits.getLast?.bind Init.attached
  made : ∀ i ∈ inits, i.Made

theorem cacheKnown_minit (L : NetLib) : CacheKnown (minit L) [] :=
  ⟨rfl, rfl, by simp⟩

/-- What `InitCacheWithConfig` has done. -/
theorem made_initCacheWithConfig (lib : Libgomesi) (accepts : Bool) (c : CacheConfig) :
    (⟨c, decide ((lib.initCacheWithConfig accepts c).2 = 0),
      (lib.initCacheWithConfig accepts c).1.sharedCache⟩ : Init).Made := by
  rw [Libgomesi.initCacheWithConfig]
  cases hnew : initCacheFromConfig accepts c.backend with
  | error => exact ⟨fun _ ↦ rfl, fun _ ↦ rfl, by simp⟩
  | nil =>
    refine ⟨fun _ ↦ rfl, fun _ ↦ rfl, fun _ hne ↦ ?_⟩
    rw [initCacheFromConfig] at hnew
    split_ifs at hnew
  | cache =>
    refine ⟨by simp, fun hnil ↦ ?_, fun _ _ ↦ rfl⟩
    have hnil : c.backend = [] := hnil
    rw [hnil] at hnew
    exact absurd hnew (by cases accepts <;> decide)

variable {i : Init}

theorem lastSuccess_concat_of_succeeded (h : i.succeeded = true) :
    lastSuccess (inits ++ [i]) = some i := by
  rw [lastSuccess, List.filter_append, List.filter_singleton, h, cond_true, List.getLast?_concat]

theorem lastSuccess_concat_of_failed (h : i.succeeded = false) :
    lastSuccess (inits ++ [i]) = lastSuccess inits := by
  rw [lastSuccess, lastSuccess, List.filter_append, List.filter_singleton, h, cond_false,
    List.append_nil]

theorem getLast?_filter_of_getLast? {p : Init → Bool} (h : inits.getLast? = some i) (hp : p i = true) :
    (inits.filter p).getLast? = some i := by
  obtain ⟨l, rfl⟩ := List.getLast?_eq_some_iff.mp h
  rw [List.filter_append, List.filter_singleton, hp, cond_true, List.getLast?_concat]

/-- The client makes no difference to the cache. -/
theorem CacheKnown.initClient (h : CacheKnown g inits) (o : CallOptions) :
    CacheKnown (g.initClient L o) inits := by
  have hstate : (g.initClient L o).cacheState = g.cacheState := by
    rw [Globals.initClient]
    split_ifs <;> rfl
  have hcache : (g.initClient L o).lib.sharedCache = g.lib.sharedCache := by
    rw [Globals.initClient]
    split_ifs <;> rfl
  exact ⟨hstate.trans h.state, hcache.trans h.cache, h.made⟩

/-- A new call of `InitCacheWithConfig`, which is recorded if it succeeds. -/
theorem CacheKnown.snoc (h : CacheKnown g inits) (hi : i.Made) {g' : Globals}
    (hcache : g'.lib.sharedCache = i.attached)
    (hstate : g'.cacheState = if i.succeeded then i.config else g.cacheState) :
    CacheKnown g' (inits ++ [i]) := by
  refine ⟨?_, ?_, fun j hj ↦ ?_⟩
  · rw [hstate]
    cases hsucceeded : i.succeeded with
    | true => rw [lastSuccess_concat_of_succeeded hsucceeded]; rfl
    | false => rw [lastSuccess_concat_of_failed hsucceeded, ← h.state]; rfl
  · rw [hcache, List.getLast?_concat]
    rfl
  · rcases List.mem_append.mp hj with hj | hj
    · exact h.made j hj
    · rw [List.mem_singleton.mp hj]
      exact hi

/-- Making the cache, or leaving it as it is. -/
theorem CacheKnown.initCache (h : CacheKnown g inits) (accepts : Bool) {c : CacheConfig}
    (hrecord : cacheStateRecord c = c) :
    CacheKnown (g.initCache accepts c).1 (inits ++ (if cacheStateMatches g.cacheState c then none
      else some ⟨c, decide ((g.lib.initCacheWithConfig accepts c).2 = 0),
        (g.lib.initCacheWithConfig accepts c).1.sharedCache⟩ : Option Init).toList) := by
  rw [Globals.initCache]
  by_cases hmatches : cacheStateMatches g.cacheState c = true
  · rw [if_pos hmatches, if_pos hmatches]
    simpa using h
  · rw [if_neg hmatches, if_neg hmatches]
    have hmade := made_initCacheWithConfig g.lib accepts c
    dsimp only
    by_cases hrc : (g.lib.initCacheWithConfig accepts c).2 = 0
    · rw [if_neg (not_not.mpr hrc)]
      exact h.snoc hmade rfl (by simp [hrc, hrecord])
    · rw [if_pos hrc]
      exact h.snoc hmade rfl (by simp [hrc])

/-- **One call.** -/
theorem CacheKnown.call (h : CacheKnown g inits) (c : Call) :
    CacheKnown (g.call L json c).1 (inits ++ (g.init? c).toList) := by
  cases c with
  | parse maxDepth defaultUrl => simpa [Globals.call, Globals.init?] using h
  | rejected => simpa [Globals.call, Globals.init?] using h
  | parseWithConfig input o accepts allocates cacheKeyFunc =>
    rw [Globals.call, Globals.init?]
    by_cases hargs : ¬ validMaxDepth o.maxDepth ∨ o.oversize input
    · rw [if_pos hargs, if_pos hargs]
      simpa using h
    · rw [if_neg hargs, if_neg hargs]
      cases hjson : buildCacheConfigJson o cfgMax with
      | none => simpa using h
      | some configJSON =>
        have hinit := h.initCache accepts (cacheStateRecord_cacheConfig hjson)
        dsimp only
        by_cases hok : (g.initCache accepts (o.cacheConfig configJSON)).2 = true
        · rw [if_neg (not_not.mpr hok)]
          by_cases hmemory : Globals.needsMemory json o ∧ ¬ allocates
          · rw [if_pos hmemory]
            exact hinit.initClient o
          · rw [if_neg hmemory]
            exact hinit.initClient o
        · rw [if_pos hok]
          exact hinit

/-- **Any calls.** -/
theorem cacheKnown_run (L : NetLib) (json : Bool) (calls : List Call) :
    CacheKnown (run L json calls).1 (run L json calls).2 := by
  induction calls using List.reverseRecOn with
  | nil => exact cacheKnown_minit L
  | append_singleton calls c ih =>
    rw [run_concat]
    exact ih.call c

/-! ## When the record is right -/

/-- **Main result.** After any calls the record of the cache is right if and only if it is not the case
that the last `InitCacheWithConfig` has failed and the last successful one has made a cache. -/
theorem cacheMirrored_iff (L : NetLib) (json : Bool) (calls : List Call) :
    CacheMirrored (run L json calls).1 (run L json calls).2 ↔
      ¬ FailedAfterCache (run L json calls).2 := by
  obtain ⟨hstate, hcache, hmade⟩ := cacheKnown_run L json calls
  generalize (run L json calls).1 = g at *
  generalize (run L json calls).2 = inits at *
  constructor
  · rintro h ⟨⟨last, hlast, hfailed⟩, i, hi, hbackend⟩
    have hmatches : cacheStateMatches g.cacheState i.config = true := by
      rw [cacheStateMatches_iff, hstate, hi]
      rfl
    obtain ⟨_, cache, -, -, -, hattached⟩ := (h i.config hmatches).2 hbackend
    have hnone := (hmade last (List.mem_of_getLast? hlast)).failed hfailed
    rw [hcache, hlast, Option.bind_some, hnone] at hattached
    exact nomatch hattached
  · intro h c hmatches
    obtain rfl := cacheStateMatches_iff.mp hmatches
    rw [hstate]
    cases hlast : inits.getLast? with
    | none =>
      have hnil : inits = [] := List.getLast?_eq_none_iff.mp hlast
      rw [hlast] at hcache
      exact ⟨fun _ ↦ hcache, fun hne ↦ absurd rfl (hnil ▸ hne)⟩
    | some last =>
      rw [hlast, Option.bind_some] at hcache
      rw [hcache]
      have hlastMade := hmade last (List.mem_of_getLast? hlast)
      cases hsucceeded : last.succeeded with
      | true =>
        have hsuccess : lastSuccess inits = some last :=
          getLast?_filter_of_getLast? hlast hsucceeded
        rw [hsuccess]
        refine ⟨hlastMade.none, fun hne ↦ ?_⟩
        obtain ⟨cache, hattached⟩ := Option.isSome_iff_exists.mp (hlastMade.some hsucceeded hne)
        exact ⟨last, cache, rfl, rfl, hattached, hattached⟩
      | false =>
        refine ⟨fun _ ↦ hlastMade.failed hsucceeded, fun hne ↦ ?_⟩
        cases hsuccess : lastSuccess inits with
        | none =>
          rw [hsuccess] at hne
          exact absurd rfl hne
        | some i =>
          rw [hsuccess] at hne
          exact absurd ⟨⟨last, hlast, hsucceeded⟩, i, hsuccess, hne⟩ h

/-! ## A cache that is gone -/

/-- A call with a cache in memory. -/
def withMemory : CallOptions where
  maxDepth := 5
  cacheBackend := lit "memory"

/-- A call with a cache in Redis. -/
def withRedis : CallOptions where
  maxDepth := 5
  cacheBackend := lit "redis"
  cacheRedisAddr := lit "a:1"

/-- After a call whose `InitCacheWithConfig` fails, a call with the options of the one before is parsed
without its cache. -/
theorem not_cacheMirrored :
    ¬ ∀ (L : NetLib) (json : Bool) (calls : List Call),
      CacheMirrored (run L json calls).1 (run L json calls).2 := fun h ↦ by
  have hmirrored := h .simple true
    [.parseWithConfig [] withMemory true true id, .parseWithConfig [] withRedis false true id]
  obtain ⟨_, cache, -, -, -, hattached⟩ :=
    (hmirrored ⟨lit "memory", 10000, 0, lit "\x7b\x7d"⟩ (by decide +kernel)).2 (by decide)
  have hnone : (run .simple true [.parseWithConfig [] withMemory true true id,
      .parseWithConfig [] withRedis false true id]).1.lib.sharedCache = none := by decide +kernel
  rw [hnone] at hattached
  exact nomatch hattached

end GoMesi.Php
