import GoMesi.Mesi.CacheExpiry
import GoMesi.Mesi.CacheKeyTemplate
import GoMesi.Mesi.Fetch

/-!
# Cache keys in memcached

A key of memcached has 250 bytes at most, and neither white space nor control characters. The key of
a fetch is what the key function makes of the URL and the fingerprint of the policy. There is nothing
in the fingerprint that is not allowed, but it gets longer with every host of the policy, and what
comes before it may be anything that is in a URL, a header or a cookie.
-/

namespace GoMesi

open Strings CacheKeyTemplate

/-! ## What is claimed of a key -/

/-- A byte that may be part of a key. -/
def KeyByte (b : UInt8) : Prop := 0x20 < b ∧ b ≠ 0x7f

instance (b : UInt8) : Decidable (KeyByte b) := inferInstanceAs (Decidable (_ ∧ _))

/-- The fetch of a URL has a key that the client accepts, and finds under it what has been stored for
as long as that is valid. -/
def Cacheable (config : FetchConfig) (url : Bytes) : Prop :=
  ∃ key, fullCacheKey config url = some key ∧ MemcachedCache.legalKey key = true ∧
    ∀ (c : MemcachedCache) (server : Server) (body : Bytes) (ttl : Duration) (now : Time),
      ∃ server', c.set server key body ttl now = some server' ∧
        ∀ now', (∀ t ∈ MemcachedCache.deadline (c.expiration ttl) now, now' ≤ t) →
          MemcachedCache.get server' key now' = some (some body)

/-- The key function of a configuration: the default, or that of a template and a request. Each
call ranges over the map of the header in orders of its own. -/
inductive KeyFunc (U : Unicode) (config : FetchConfig)
  | default (h : config.cacheKeyFunc = none)
  | template (text : Bytes) (r : Option Request) (order : Bytes → ℕ → List Bytes)
    (horder : ∀ url, ∀ r' ∈ r, ∀ i, (order url i).Perm r'.header.keys)
    (h : config.cacheKeyFunc = some fun url ↦ buildCacheKey U (order url) url text r)

/-- What a key begins with. -/
def KeyFunc.Begins {U : Unicode} {config : FetchConfig} : KeyFunc U config → Bytes → Bytes → Prop
  | .default _, url, part => part = lit "mesi:" ++ url
  | .template text r _ _ _, url, part => Evaluates (Resolves U url r) text part

/-- The length of a fingerprint, in terms of the hosts and the flags of the policy. -/
def fingerprintLength (config : FetchConfig) : ℕ :=
  let hosts := (config.allowedHosts.map normalizeHost).dedup
  let flag (b : Bool) : ℕ := if b then 4 else 5
  28 + (hosts.map fun h ↦ 2 + 4 * ((h.length + 2) / 3)).sum + (hosts.length - 1) +
    flag config.blockPrivateIPs + flag config.allowPrivateIPsForAllowedHosts +
      flag config.httpClient.isSome

/-! ## The fingerprint -/

theorem length_base64 (s : Bytes) : (base64 s).length = 4 * ((s.length + 2) / 3) := by
  induction s using base64.induct with
  | case1 a b c rest ih =>
    simp only [base64, List.length_append, List.length_cons, List.length_nil, ih]
    omega
  | case2 a b => simp [base64, show (lit "=").length = 1 from by decide]
  | case3 a => simp [base64, show (lit "==").length = 2 from by decide]
  | case4 => rfl

theorem length_intercalate (sep : UInt8) (ls : List Bytes) :
    ([sep].intercalate ls).length = (ls.map List.length).sum + (ls.length - 1) := by
  induction ls with
  | nil => rfl
  | cons l ls ih =>
    cases ls with
    | nil => simp
    | cons l' ls =>
      rw [List.intercalate_cons_cons, List.length_append, List.length_append, ih]
      simp only [List.map_cons, List.sum_cons, List.length_cons, List.length_nil]
      omega

theorem length_hostItems (hosts : List Bytes) : (hostItems hosts).length =
    (hosts.map fun h ↦ 2 + 4 * ((h.length + 2) / 3)).sum + (hosts.length - 1) := by
  rw [hostItems, length_intercalate, List.length_map, List.map_map]
  congr 2
  refine List.map_congr_left fun h _ ↦ ?_
  simp only [Function.comp_apply, List.length_append, List.length_singleton, length_base64]
  omega

theorem length_fingerprintFlags (b₁ b₂ b₃ : Bool) : (fingerprintFlags b₁ b₂ b₃).length =
    17 + (if b₁ then 4 else 5) + (if b₂ then 4 else 5) + (if b₃ then 4 else 5) := by
  cases b₁ <;> cases b₂ <;> cases b₃ <;> decide

theorem length_securityPolicyFingerprint (config : FetchConfig) :
    (securityPolicyFingerprint config).length = fingerprintLength config := by
  have hperm := (config.allowedHosts.map normalizeHost).dedup.perm_insertionSort fun x y ↦ x ≤ y
  have hhosts : (hostItems (fingerprintHosts config)).length =
      (hostItems (config.allowedHosts.map normalizeHost).dedup).length := by
    rw [length_hostItems, length_hostItems, fingerprintHosts, hperm.length_eq,
      (hperm.map _).sum_eq]
  rw [securityPolicyFingerprint_eq, fingerprintTail, List.length_cons, List.length_append,
    List.length_append, List.length_cons, hhosts, length_hostItems, length_fingerprintFlags,
    show (lit "ssrf=ah:[").length = 9 from by decide, fingerprintLength]
  dsimp only
  omega

theorem keyByte_base64Digit : ∀ n < 64, KeyByte (base64Digit n) := by
  decide +kernel

theorem keyByte_of_mem_digits {n : ℕ} (hn : n < 16777216) {b : UInt8} (hb : b ∈ digits n) :
    KeyByte b := by
  simp only [digits, List.mem_cons, List.not_mem_nil, or_false] at hb
  rcases hb with rfl | rfl | rfl | rfl <;> exact keyByte_base64Digit _ (by omega)

theorem keyByte_fingerprintStart : ∀ b ∈ lit "ssrf=ah:[", KeyByte b := by
  decide +kernel

theorem keyByte_fingerprintFlags :
    ∀ b₁ b₂ b₃ : Bool, ∀ b ∈ fingerprintFlags b₁ b₂ b₃, KeyByte b := by
  decide +kernel

theorem keyByte_of_mem_base64 {s : Bytes} {b : UInt8} (hb : b ∈ base64 s) : KeyByte b := by
  induction s using base64.induct with
  | case1 a b c rest ih =>
    rw [base64_cons₃, List.mem_append] at hb
    rcases hb with hb | hb
    · exact keyByte_of_mem_digits (group_lt a b c) hb
    · exact ih hb
  | case2 a b =>
    rw [base64_pair, List.mem_append] at hb
    rcases hb with hb | hb
    · exact keyByte_of_mem_digits (group_lt a b 0) (List.mem_of_mem_take hb)
    · rw [List.mem_singleton.mp hb]
      decide
  | case3 a =>
    rw [base64_singleton, List.mem_append] at hb
    rcases hb with hb | hb
    · exact keyByte_of_mem_digits (group_lt a 0 0) (List.mem_of_mem_take hb)
    · rw [show b = 0x3d by simpa using hb]
      decide
  | case4 => exact absurd hb (by simp [base64])

/-- There is nothing in a fingerprint that is not allowed in a key. -/
theorem keyByte_of_mem_fingerprint {config : FetchConfig} {b : UInt8}
    (hb : b ∈ securityPolicyFingerprint config) : KeyByte b := by
  simp only [securityPolicyFingerprint_eq, fingerprintTail, List.mem_cons, List.mem_append] at hb
  rcases hb with rfl | (hb | hb) | rfl | hb
  · decide
  · exact keyByte_fingerprintStart b hb
  · rcases mem_intercalate hb with rfl | ⟨item, hitem, hb⟩
    · decide
    · obtain ⟨host, -, rfl⟩ := List.mem_map.mp hitem
      simp only [List.mem_append, List.mem_singleton] at hb
      rcases hb with (rfl | hb) | rfl
      · decide
      · exact keyByte_of_mem_base64 hb
      · decide
  · decide
  · exact keyByte_fingerprintFlags _ _ _ b hb

/-! ## The key -/

theorem legalKey_iff {key : Bytes} : MemcachedCache.legalKey key = true ↔
    key ≠ [] ∧ key.length ≤ 250 ∧ ∀ b ∈ key, KeyByte b := by
  simp [MemcachedCache.legalKey, KeyByte, and_assoc]

/-- The key of a fetch is legal if what it begins with is, and leaves room for the fingerprint. -/
theorem legalKey_append_fingerprint {part : Bytes} (config : FetchConfig) :
    MemcachedCache.legalKey (part ++ securityPolicyFingerprint config) = true ↔
      (∀ b ∈ part, KeyByte b) ∧ part.length + fingerprintLength config ≤ 250 := by
  rw [legalKey_iff, List.length_append, length_securityPolicyFingerprint]
  constructor
  · rintro ⟨-, hlength, hbytes⟩
    exact ⟨fun b hb ↦ hbytes b (List.mem_append_left _ hb), hlength⟩
  · rintro ⟨hbytes, hlength⟩
    refine ⟨?_, hlength, fun b hb ↦ ?_⟩
    · rw [securityPolicyFingerprint_eq]
      simp
    · rcases List.mem_append.mp hb with hb | hb
      · exact hbytes b hb
      · exact keyByte_of_mem_fingerprint hb

/-- What has been stored under a legal key is found. -/
theorem get_set_of_legalKey {key : Bytes} (hkey : MemcachedCache.legalKey key = true)
    (c : MemcachedCache) (server : Server) (body : Bytes) (ttl : Duration) (now : Time) :
    ∃ server', c.set server key body ttl now = some server' ∧
      ∀ now', (∀ t ∈ MemcachedCache.deadline (c.expiration ttl) now, now' ≤ t) →
        MemcachedCache.get server' key now' = some (some body) := by
  refine ⟨_, by rw [MemcachedCache.set, if_pos hkey], fun now' hvalid ↦ ?_⟩
  rw [MemcachedCache.get, if_pos hkey, Lru.get_step_set, Lru.Entry.expired]
  dsimp only
  cases hdeadline : MemcachedCache.deadline (c.expiration ttl) now with
  | none => rfl
  | some t =>
    have hle : now' ≤ t := hvalid t hdeadline
    simp [hle.not_gt]

/-- The key begins with what the key function returns. -/
theorem KeyFunc.begins_iff {U : Unicode} {config : FetchConfig} (k : KeyFunc U config)
    (url part : Bytes) : k.Begins url part ↔ keyOf config url = part := by
  cases k with
  | default h =>
    rw [Begins, keyOf, h, Option.getD_none]
    exact eq_comm
  | template text r order horder h =>
    rw [Begins, keyOf, h, Option.getD_some]
    exact (buildCacheKey_iff U (order url) url text r (horder url) part).symm

/-- **Main result.** Which fetches can be cached in memcached. -/
theorem cacheable_iff (U : Unicode) (config : FetchConfig) (hcache : config.cache = true)
    (k : KeyFunc U config) (url : Bytes) : Cacheable config url ↔
      ∃ part, k.Begins url part ∧ (∀ b ∈ part, KeyByte b) ∧
        part.length + fingerprintLength config ≤ 250 := by
  have hfull : fullCacheKey config url =
      some (keyOf config url ++ securityPolicyFingerprint config) := by
    rw [fullCacheKey, if_pos hcache, keyOf]
  constructor
  · rintro ⟨key, hkey, hlegal, -⟩
    rw [hfull] at hkey
    rw [← Option.some.inj hkey] at hlegal
    exact ⟨keyOf config url, (k.begins_iff url _).mpr rfl,
      (legalKey_append_fingerprint config).mp hlegal⟩
  · rintro ⟨part, hbegins, hlegal⟩
    rw [← (k.begins_iff url part).mp hbegins] at hlegal
    have hkey := (legalKey_append_fingerprint config).mpr hlegal
    exact ⟨_, hfull, hkey, get_set_of_legalKey hkey⟩

theorem cacheable_iff_short :
    Cacheable { cache := true, allowedHosts := [lit "a"] } (lit "http://a/b") :=
  (cacheable_iff .ascii { cache := true, allowedHosts := [lit "a"] } rfl (.default rfl) _).mpr
    ⟨lit "mesi:http://a/b", rfl, by decide +kernel, by decide +kernel⟩

/-- The least fingerprint leaves room for 202 bytes. -/
theorem length_le_of_cacheable {url : Bytes} (h : Cacheable { cache := true } url) :
    url.length ≤ 202 := by
  obtain ⟨key, hkey, hlegal, -⟩ := h
  have hfull : fullCacheKey { cache := true } url =
      some (lit "mesi:" ++ url ++ securityPolicyFingerprint { cache := true }) := rfl
  rw [hfull] at hkey
  have hlength := (legalKey_iff.mp hlegal).2.1
  rw [← Option.some.inj hkey, List.length_append, List.length_append,
    length_securityPolicyFingerprint, show (lit "mesi:").length = 5 from by decide,
    show fingerprintLength { cache := true } = 43 from by decide +kernel] at hlength
  omega

/-- A URL of 203 bytes. -/
def longURL : Bytes := lit "http://a/" ++ List.replicate 194 0x78

theorem length_longURL : longURL.length = 203 := by
  rw [longURL, List.length_append, List.length_replicate]
  decide

/-- It is valid, and one byte too long. -/
theorem not_cacheable : ¬ ∀ (U : Unicode) (L : NetLib) (config : FetchConfig) (url : Bytes)
    (parsed : L.URL), config.cache = true → KeyFunc U config →
      validateFetchURL U L url config = .ok parsed → Cacheable config url := by
  intro h
  have hvalid : (validateFetchURL .ascii .simple longURL { cache := true }).toBool = true := by
    decide +kernel
  cases hparsed : validateFetchURL .ascii .simple longURL { cache := true } with
  | error err =>
    rw [hparsed] at hvalid
    exact absurd hvalid Bool.false_ne_true
  | ok parsed =>
    have hlength := length_le_of_cacheable
      (h .ascii .simple { cache := true } longURL parsed rfl (.default rfl) hparsed)
    rw [length_longURL] at hlength
    exact absurd hlength (by decide)

end GoMesi
