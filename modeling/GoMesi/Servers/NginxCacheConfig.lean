import GoMesi.C.Block
import GoMesi.Servers.CacheConfig
import GoMesi.Servers.NginxCache

/-!
# The configuration of the cache in nginx

`build_redis_config_json` and `build_memcached_config_json` count the bytes they need by hand, twice
the length of each string and what is around it, and write without a look at the room. For memcached
the sum is right. For redis it counts two digits for the number of the database, because there are 16
of them by default, but the directive takes any number. The text is in bounds if the number has at
most as many digits more as there are bytes that need no backslash (`redisExact_iff`).

Nothing but quotes and backslashes is escaped, so that a control character makes a text that is no
JSON.
-/

namespace GoMesi.Nginx

open Strings Strconv Json Apache C
open C.Write (copy put terminate snprintf left advance refuse intMax)

/-- A location with a database that `ngx_conf_set_num_slot` accepts. -/
structure ServersLocation extends CachingLocation where
  cacheRedisDb_range : 0 ≤ cacheRedisDb ∧ cacheRedisDb ≤ 2 ^ 63 - 1

/-- What `ngx_palloc` has memory for. -/
structure Pool where
  addr : Bool := true
  password : Bool := true
  servers : Bool := true
  buf : Bool := true
  deriving DecidableEq

/-! ## Rendering -/

/-- A backslash, if the byte needs one. -/
def putBackslash (c : UInt8) : Write Unit := if c = 0x22 ∨ c = 0x5c then put 0x5c else pure ()

/-- The body of the loops that escape a string. -/
def putEscaped (c : UInt8) : Write Unit := do
  putBackslash c
  put c

/-- The address as a C string. -/
def CachingLocation.addr (lcf : CachingLocation) : Bytes :=
  if lcf.cacheRedisAddr ≠ [] then cString lcf.cacheRedisAddr else lit "localhost:6379"

/-- The password as a C string. -/
def CachingLocation.password (lcf : CachingLocation) : Bytes :=
  if lcf.cacheRedisPassword ≠ [] then cString lcf.cacheRedisPassword else []

/-- The number of the database as an `int`. -/
def CachingLocation.db (lcf : CachingLocation) : ℤ :=
  cInt (if lcf.cacheRedisDb < 0 then 0 else lcf.cacheRedisDb)

/-- What is written for the database. -/
def dbEnd (db : ℤ) : Bytes := lit "\",\"redisDB\":" ++ formatInt db ++ lit "\x7d"

/-- The call of `snprintf` for the database. The cursor moves by the length of the whole text. -/
def appendDb (db : ℤ) : Write Unit := do
  match ← snprintf (← left) (dbEnd db) with
  | none => refuse
  | some len => advance len

/-- The part of `build_redis_config_json` that writes. -/
def writeRedis (lcf : CachingLocation) : Write Unit := do
  copy (lit "\x7b\"redisAddr\":\"")
  lcf.addr.forM putEscaped
  copy (lit "\",\"redisPassword\":\"")
  lcf.password.forM putEscaped
  appendDb lcf.db
  terminate

/-- `total` -/
def redisTotal (lcf : CachingLocation) : ℕ := 49 + lcf.addr.length * 2 + lcf.password.length * 2

/-- The outcome of a function that returns `NULL` when it gives up. -/
def returned : Except Stop (Unit × Block) → Except Stop (Option Block)
  | .ok (_, out) => .ok (some out)
  | .error .refused => .ok none
  | .error .overrun => .error .overrun

/-- `build_redis_config_json`, with `none` for `NULL`. -/
def buildRedisConfig (pool : Pool) (lcf : CachingLocation) : Except Stop (Option Block) :=
  if (lcf.cacheRedisAddr ≠ [] ∧ ¬ pool.addr) ∨ (lcf.cacheRedisPassword ≠ [] ∧ ¬ pool.password) then
    .ok none
  else if ¬ pool.buf then .ok none
  else returned (writeRedis lcf (Block.alloc (redisTotal lcf)))

/-- The body of the loop of the first pass over the servers: `ntok` and `in_token`. -/
def countStep (s : ℕ × Bool) (p : UInt8) : ℕ × Bool :=
  if p = 0x20 then (s.1, false) else if ¬ s.2 then (s.1 + 1, true) else s

/-- The first pass counts the tokens. -/
def countTokens (servers : Bytes) : ℕ := (servers.foldl countStep (0, false)).1

/-- The token after some spaces. -/
def token (q : Bytes) : Bytes := (q.dropWhile (· = 0x20)).takeWhile (· ≠ 0x20)

/-- What comes after it. -/
def afterToken (q : Bytes) : Bytes := (q.dropWhile (· = 0x20)).dropWhile (· ≠ 0x20)

/-- The second pass adds up what the tokens need. -/
def measureTokens : (ntok : ℕ) → (q : Bytes) → ℕ
  | 0, _ => 0
  | ntok + 1, q => (token q).length * 2 + 2 + measureTokens ntok (afterToken q)

/-- A comma before each token but the first. -/
def putComma (ti : ℕ) : Write Unit := if ti > 0 then put 0x2c else pure ()

def writeToken (ti : ℕ) (token : Bytes) : Write Unit := do
  putComma ti
  put 0x22
  token.forM putEscaped
  put 0x22

/-- The third pass writes them. -/
def writeTokens : (ntok ti : ℕ) → (q : Bytes) → Write Unit
  | 0, _, _ => pure ()
  | ntok + 1, ti, q => do
    writeToken ti (token q)
    writeTokens ntok (ti + 1) (afterToken q)

/-- The part of `build_memcached_config_json` that writes. -/
def writeMemcached (servers : Bytes) : Write Unit := do
  copy (lit "\x7b\"servers\":[")
  writeTokens (countTokens servers) 0 servers
  put 0x5d
  put 0x7d
  terminate

/-- `total` -/
def memcachedTotal (servers : Bytes) : ℕ :=
  12 + 2 + 1 + (if countTokens servers > 1 then countTokens servers - 1 else 0) +
    measureTokens (countTokens servers) servers

/-- What is copied without a server, with its NUL. -/
def writeNoServers : Write Unit := do
  copy (lit "\x7b\"servers\":[]\x7d")
  terminate

/-- `build_memcached_config_json`, with `none` for `NULL`. -/
def buildMemcachedConfig (pool : Pool) (lcf : CachingLocation) : Except Stop (Option Block) :=
  if lcf.cacheMemcachedServers = [] then
    if ¬ pool.buf then .ok none else returned (writeNoServers (Block.alloc 15))
  else if ¬ pool.servers then .ok none
  else if ¬ pool.buf then .ok none
  else
    returned (writeMemcached (cString lcf.cacheMemcachedServers)
      (Block.alloc (memcachedTotal (cString lcf.cacheMemcachedServers))))

/-! ## What is claimed of it -/

/-- A function writes into the block it has allocated, and what it returns is read as it should be.
It returns nothing only if there is no memory. -/
def BuildsExactly (reads : Bytes → Prop) (build : Pool → Except Stop (Option Block)) : Prop :=
  ∀ pool, match build pool with
    | .ok (some out) => ∃ text, out.IsString text ∧ reads (cString text)
    | .ok none => pool ≠ {}
    | .error _ => False

/-- The address of a location. No address is that of libgomesi. -/
def CachingLocation.redisAddress (lcf : CachingLocation) : Bytes :=
  if lcf.cacheRedisAddr ≠ [] then lcf.cacheRedisAddr else lit "localhost:6379"

/-- `build_redis_config_json` is in bounds, and libgomesi gets the settings of the location. -/
def RedisExact (U : Unicode) (lcf : CachingLocation) : Prop :=
  BuildsExactly (fun text ↦ parseRedisConfig U text =
    .ok ⟨lcf.redisAddress, lcf.cacheRedisPassword, lcf.cacheRedisDb⟩) (buildRedisConfig · lcf)

/-- The servers of a location. -/
def CachingLocation.servers (lcf : CachingLocation) : List Bytes :=
  (split lcf.cacheMemcachedServers 0x20).filter (· ≠ [])

/-- `build_memcached_config_json` is in bounds, and libgomesi gets the servers of the location. It
refuses a location without servers for that. -/
def MemcachedExact (U : Unicode) (lcf : CachingLocation) : Prop :=
  BuildsExactly (fun text ↦ parseMemcachedConfig U text =
    if lcf.servers = [] then .error (.text (lit "mesi: parseMemcachedConfig: servers required"))
    else .ok lcf.servers) (buildMemcachedConfig · lcf)

/-- A string of JSON that needs no escapes but backslashes. -/
def Printable (s : Bytes) : Prop := (∀ b ∈ s, ¬ b < 0x20) ∧ validString s = true

/-- The bytes that need no backslash. -/
def plainBytes (s : Bytes) : ℕ := s.countP fun b ↦ decide (¬ (b = 0x22 ∨ b = 0x5c))

/-- When the configuration of redis is in bounds and exact. -/
structure RedisWhen (lcf : CachingLocation) : Prop where
  addr : Printable lcf.redisAddress
  password : Printable lcf.cacheRedisPassword
  db_int : lcf.cacheRedisDb < 2 ^ 31
  db_room : lcf.cacheRedisDb <
    10 ^ (2 + plainBytes lcf.redisAddress + plainBytes lcf.cacheRedisPassword)

/-- When the configuration of memcached is exact. -/
def MemcachedWhen (lcf : CachingLocation) : Prop := ∀ s ∈ lcf.servers, Printable s

/-! ## The escapes -/

/-- How a byte is written. -/
def escaped (b : UInt8) : Bytes := if b = 0x22 ∨ b = 0x5c then [0x5c, b] else [b]

theorem escapes_escaped : Escapes escaped := by
  intro b
  rw [escaped]
  by_cases hmeta : b = 0x22 ∨ b = 0x5c
  · rw [if_pos hmeta]
    rcases hmeta with rfl | rfl
    · exact .inr ⟨by decide, [0x22], rfl, fun _ ↦ rfl⟩
    · exact .inr ⟨by decide, [0x5c], rfl, fun _ ↦ rfl⟩
  · rw [if_neg hmeta]
    rw [not_or] at hmeta
    exact .inl ⟨rfl, hmeta⟩

theorem keepsNul_escaped : KeepsNul escaped := by
  intro b hb h
  rw [escaped] at h
  split_ifs at h
  · rcases List.mem_cons.mp h with h | h
    · exact absurd h (by decide)
    · exact hb (List.mem_singleton.mp h).symm
  · exact hb (List.mem_singleton.mp h).symm

theorem legible_escaped_iff {s : Bytes} : legible escaped s = true ↔ ∀ b ∈ s, ¬ b < 0x20 := by
  rw [legible, List.all_eq_true]
  refine forall₂_congr fun b _ ↦ ?_
  rw [decide_eq_true_eq]
  constructor
  · intro h hcontrol
    refine h hcontrol (if_neg ?_)
    rintro (rfl | rfl) <;> exact absurd hcontrol (by decide)
  · exact fun h hcontrol ↦ absurd hcontrol h

theorem emits_putEscaped (c : UInt8) : Emits (putEscaped c) (escaped c) () := by
  rw [putEscaped, putBackslash, escaped]
  by_cases hmeta : c = 0x22 ∨ c = 0x5c
  · rw [if_pos hmeta, if_pos hmeta]
    exact (emits_put 0x5c).bind (emits_put c)
  · rw [if_neg hmeta, if_neg hmeta]
    exact (Appends.pure ()).bind (emits_put c)

/-- A backslash for each byte that is not plain. -/
theorem length_escaped (s : Bytes) : (s.flatMap escaped).length + plainBytes s = 2 * s.length := by
  induction s with
  | nil => rfl
  | cons b s ih =>
    rw [List.flatMap_cons, List.length_append, plainBytes, List.countP_cons, List.length_cons, escaped]
    rw [plainBytes] at ih
    by_cases hmeta : b = 0x22 ∨ b = 0x5c
    · have hplain : ¬ decide (¬ (b = 0x22 ∨ b = 0x5c)) = true := by
        rw [decide_eq_true_eq, not_not]
        exact hmeta
      rw [if_pos hmeta, if_neg hplain, List.length_cons, List.length_singleton]
      omega
    · rw [if_neg hmeta, if_pos (decide_eq_true hmeta), List.length_singleton]
      omega

/-- A string is printable if it is read as it is, and no control character is written. -/
theorem printable_iff {s : Bytes} :
    Printable s ↔ toValid (cString s) = s ∧ legible escaped (cString s) = true := by
  rw [← transparent_iff, Printable, Transparent, legible_escaped_iff]
  constructor
  · rintro ⟨hcontrol, hvalid⟩
    have hzero : 0 ∉ s := fun h ↦ hcontrol 0 h (by decide)
    rw [(cString_eq_iff s).mpr hzero]
    exact ⟨⟨hzero, hvalid⟩, hcontrol⟩
  · rintro ⟨⟨hzero, hvalid⟩, hcontrol⟩
    rw [(cString_eq_iff s).mpr hzero] at hcontrol
    exact ⟨hcontrol, hvalid⟩

/-! ## Redis -/

variable {lcf : CachingLocation}

/-- The text before the number of the database. -/
def redisHead (lcf : CachingLocation) : Bytes :=
  lit "\x7b\"redisAddr\":\"" ++ (lcf.addr.flatMap escaped ++
    (lit "\",\"redisPassword\":\"" ++ lcf.password.flatMap escaped))

theorem redisHead_append_dbEnd (lcf : CachingLocation) :
    redisHead lcf ++ dbEnd lcf.db = redisText escaped lcf.addr lcf.password (some lcf.db) := by
  have haddr : lit "\x7b\"redisAddr\":\"" = lit "\x7b\"redisAddr\":" ++ [0x22] := rfl
  have hpassword : lit "\",\"redisPassword\":\"" = 0x22 :: (lit ",\"redisPassword\":" ++ [0x22]) := rfl
  have hdb : lit "\",\"redisDB\":" = 0x22 :: lit ",\"redisDB\":" := rfl
  rw [redisText_eq, redisHead, dbEnd, dbText, Option.elim_some, haddr, hpassword, hdb, quoted, quoted]
  simp only [List.append_assoc, List.cons_append, List.nil_append]

theorem length_redisHead (lcf : CachingLocation) :
    (redisHead lcf).length + plainBytes lcf.addr + plainBytes lcf.password + 16 = redisTotal lcf := by
  have haddr : (lit "\x7b\"redisAddr\":\"").length = 14 := by decide
  have hpassword : (lit "\",\"redisPassword\":\"").length = 19 := by decide
  have h₁ := length_escaped lcf.addr
  have h₂ := length_escaped lcf.password
  simp only [redisHead, redisTotal, List.length_append]
  omega

theorem length_dbEnd (db : ℤ) : (dbEnd db).length = 13 + (formatInt db).length := by
  have hkey : (lit "\",\"redisDB\":").length = 12 := by decide
  have hclose : (lit "\x7d").length = 1 := by decide
  rw [dbEnd, List.length_append, List.length_append]
  omega

theorem cInt_range (n : ℤ) : -2 ^ 31 ≤ cInt n ∧ cInt n < 2 ^ 31 := by
  have hlo := Int.le_bmod (x := n) (m := 2 ^ 32) (by decide)
  have hhi := Int.bmod_lt (x := n) (m := 2 ^ 32) (by decide)
  rw [cInt]
  omega

theorem length_formatInt_cInt (n : ℤ) : (formatInt (cInt n)).length ≤ 11 := by
  have hnat (m : ℕ) (hm : m < 10 ^ 10) : (formatInt m).length ≤ 10 :=
    (length_formatInt_le_iff (by decide)).mpr hm
  obtain ⟨hlo, hhi⟩ := cInt_range n
  cases hc : cInt n with
  | ofNat m =>
    have := hnat m (by rw [hc] at hhi; have : ((m : ℕ) : ℤ) < 2 ^ 31 := hhi; omega)
    exact this.trans (by decide)
  | negSucc m =>
    have := hnat (m + 1) (by rw [hc] at hlo; omega)
    rw [formatInt_negSucc, List.length_cons]
    omega

/-- What is written for the database ends where `w` ends up, if there is room for its NUL, and `w`
ends up outside of the block if there is none. -/
theorem appendDb_terminate {b : Block} {t : Bytes} (hb : b.Holds t) (hroom : t.length < b.cap)
    (n : ℤ) :
    if t.length + (dbEnd (cInt n)).length < b.cap
    then ∃ out, (do appendDb (cInt n); terminate : Write Unit) b = .ok ((), out) ∧
      out.IsString (t ++ dbEnd (cInt n))
    else (do appendDb (cInt n); terminate : Write Unit) b = .error .overrun := by
  have hpos := hb.pos_eq
  have hint : (dbEnd (cInt n)).length ≤ intMax := by
    have := length_formatInt_cInt n
    rw [length_dbEnd]
    exact le_trans (Nat.add_le_add_left this 13) (by decide)
  obtain ⟨b₁, hb₁, hcap₁, hholds₁, hcells₁⟩ :=
    hb.exists_snprintf (b.cap - b.pos) (by omega) (by omega) (dbEnd (cInt n))
  have hpos₁ := hholds₁.pos_eq
  have hadvance : appendDb (cInt n) b = advance (dbEnd (cInt n)).length b₁ := by
    have hleft : left b = .ok (b.cap - b.pos, b) := rfl
    rw [appendDb, bind_of_ok hleft, bind_of_ok hb₁, if_pos hint]
  by_cases hfits : t.length + (dbEnd (cInt n)).length < b.cap
  · rw [if_pos hfits]
    have hstored := hcells₁ (by omega)
    rw [List.length_append, List.length_singleton] at hstored
    obtain ⟨b₂, hb₂, hcap₂, -, hholds₂⟩ := hholds₁.exists_advance (s := dbEnd (cInt n)) (by omega)
      fun i hi ↦ by rw [hstored i (by omega), List.getElem?_append_left hi]
    obtain ⟨out, hout, -, hstring⟩ := hholds₂.exists_terminate (by rw [List.length_append]; omega)
    exact ⟨out, (bind_of_ok (hadvance.trans hb₂)).trans hout, hstring⟩
  · rw [if_neg hfits]
    by_cases hend : b₁.pos + (dbEnd (cInt n)).length ≤ b₁.cap
    · -- The cursor is just behind the block, and so is the NUL.
      have hmove : advance (dbEnd (cInt n)).length b₁ = .ok ((), _) := dif_pos hend
      rw [bind_of_ok (hadvance.trans hmove)]
      refine store_eq_overrun ?_
      change b₁.cap < b₁.pos + (dbEnd (cInt n)).length + 1
      omega
    · exact bind_of_error (hadvance.trans (dif_neg hend))

theorem writeRedis_spec (lcf : CachingLocation) :
    if (formatInt lcf.db).length ≤ 2 + plainBytes lcf.addr + plainBytes lcf.password
    then ∃ out, writeRedis lcf (Block.alloc (redisTotal lcf)) = .ok ((), out) ∧
      out.IsString (redisText escaped lcf.addr lcf.password (some lcf.db))
    else writeRedis lcf (Block.alloc (redisTotal lcf)) = .error .overrun := by
  have hlength := length_redisHead lcf
  have hhead : Emits (do
      copy (lit "\x7b\"redisAddr\":\"")
      lcf.addr.forM putEscaped
      copy (lit "\",\"redisPassword\":\"")
      lcf.password.forM putEscaped : Write Unit) (redisHead lcf) () :=
    (emits_copy _).bind <| (Appends.forM emits_putEscaped lcf.addr).bind <|
      (emits_copy _).bind <| Appends.forM emits_putEscaped lcf.password
  have hassoc : writeRedis lcf = (do
      (do
        copy (lit "\x7b\"redisAddr\":\"")
        lcf.addr.forM putEscaped
        copy (lit "\",\"redisPassword\":\"")
        lcf.password.forM putEscaped)
      (do appendDb lcf.db; terminate)) := by
    simp only [writeRedis, bind_assoc]
  obtain ⟨b, hb, hcap, hholds⟩ := hhead.run (Block.holds_alloc (redisTotal lcf))
    (by rw [List.length_nil, Block.alloc_cap]; omega)
  rw [List.nil_append] at hholds
  rw [Block.alloc_cap] at hcap
  have hend := appendDb_terminate hholds (by omega)
    (if lcf.cacheRedisDb < 0 then 0 else lcf.cacheRedisDb)
  change if (redisHead lcf).length + (dbEnd lcf.db).length < b.cap
    then ∃ out, (do appendDb lcf.db; terminate : Write Unit) b = .ok ((), out) ∧
      out.IsString (redisHead lcf ++ dbEnd lcf.db)
    else (do appendDb lcf.db; terminate : Write Unit) b = .error .overrun at hend
  rw [length_dbEnd, redisHead_append_dbEnd] at hend
  rw [hassoc, bind_of_ok hb]
  by_cases hfits : (formatInt lcf.db).length ≤ 2 + plainBytes lcf.addr + plainBytes lcf.password
  · rw [if_pos (by omega)] at hend
    rwa [if_pos hfits]
  · rw [if_neg (by omega)] at hend
    rwa [if_neg hfits]

/-! ## When redis is right -/

theorem db_eq_iff {n : ℤ} (h : 0 ≤ n) :
    (if cInt n ≥ 0 then cInt n else 0) = n ↔ n < 2 ^ 31 := by
  obtain ⟨hlo, hhi⟩ := cInt_range n
  constructor
  · intro heq
    split_ifs at heq
    · omega
    · omega
  · intro hlt
    have hn : cInt n = n := by rw [cInt, Int.bmod_eq_of_le (by omega) (by omega)]
    rw [hn, if_pos h]

theorem addr_eq (lcf : CachingLocation) : lcf.addr = cString lcf.redisAddress := by
  rw [CachingLocation.addr, CachingLocation.redisAddress]
  by_cases h : lcf.cacheRedisAddr ≠ []
  · rw [if_pos h, if_pos h]
  · rw [if_neg h, if_neg h]
    decide

theorem password_eq (lcf : CachingLocation) : lcf.password = cString lcf.cacheRedisPassword := by
  rw [CachingLocation.password]
  by_cases h : lcf.cacheRedisPassword ≠ []
  · rw [if_pos h]
  · rw [if_neg h, not_not.mp h]
    rfl

theorem redisAddress_ne_nil (lcf : CachingLocation) : lcf.redisAddress ≠ [] := by
  rw [CachingLocation.redisAddress]
  by_cases h : lcf.cacheRedisAddr ≠ []
  · rwa [if_pos h]
  · rw [if_neg h]
    decide

theorem db_eq (lcf : ServersLocation) : lcf.db = cInt lcf.cacheRedisDb := by
  rw [CachingLocation.db, if_neg (not_lt.mpr lcf.cacheRedisDb_range.1)]

/-- The address that is read is that of the location, unless it has been changed on the way. -/
theorem readAddr_iff (lcf : CachingLocation) :
    (if toValid (cString lcf.redisAddress) ≠ [] then toValid (cString lcf.redisAddress)
      else lit "localhost:6379") = lcf.redisAddress ↔
    toValid (cString lcf.redisAddress) = lcf.redisAddress := by
  by_cases hnil : toValid (cString lcf.redisAddress) = []
  · -- Nothing is left of an address only if it starts with a NUL.
    have hle := length_le_toValid (cString lcf.redisAddress)
    rw [hnil, List.length_nil] at hle
    have hc : cString lcf.redisAddress = [] := List.length_eq_zero_iff.mp (Nat.le_zero.mp hle)
    rw [if_neg (not_not.mpr hnil), hnil]
    refine iff_of_false (fun h ↦ ?_) fun h ↦ redisAddress_ne_nil lcf h.symm
    rw [← h] at hc
    exact absurd hc (by decide)
  · rw [if_pos hnil]

/-- libgomesi gets the settings of the location out of the text. -/
theorem parseRedisConfig_iff {U : Unicode} (lcf : ServersLocation) :
    parseRedisConfig U
        (cString (redisText escaped lcf.addr lcf.password (some lcf.db))) =
      .ok ⟨lcf.redisAddress, lcf.cacheRedisPassword, lcf.cacheRedisDb⟩ ↔
    Printable lcf.redisAddress ∧ Printable lcf.cacheRedisPassword ∧ lcf.cacheRedisDb < 2 ^ 31 := by
  have hrange : ∀ n ∈ some lcf.db, -2 ^ 63 ≤ n ∧ n < 2 ^ 63 := by
    rintro n ⟨⟩
    obtain ⟨hlo, hhi⟩ := cInt_range lcf.cacheRedisDb
    rw [db_eq]
    omega
  rw [addr_eq, password_eq, cString_redisText keepsNul_escaped (zero_not_mem_cString _)
    (zero_not_mem_cString _), parseRedisConfig_text escapes_escaped _ _ hrange, printable_iff,
    printable_iff]
  by_cases hlegible : legible escaped (cString lcf.redisAddress) = true ∧
      legible escaped (cString lcf.cacheRedisPassword) = true
  swap
  · rw [if_neg hlegible]
    refine iff_of_false (by rintro ⟨⟩) ?_
    rintro ⟨⟨-, haddr⟩, ⟨-, hpassword⟩, -⟩
    exact hlegible ⟨haddr, hpassword⟩
  have hpassword (p : Bytes) : (if p ≠ [] then p else []) = p := by
    by_cases hp : p = []
    · rw [hp]
      rfl
    · exact if_pos hp
  rw [if_pos hlegible, Except.ok.injEq, RedisConfig.server, RedisServer.mk.injEq]
  dsimp only
  rw [readAddr_iff, hpassword, db_eq, db_eq_iff lcf.cacheRedisDb_range.1, and_iff_left hlegible.1,
    and_iff_left hlegible.2]

theorem plainBytes_addr_of_printable (h : Printable lcf.redisAddress) :
    plainBytes lcf.addr = plainBytes lcf.redisAddress := by
  have hzero : 0 ∉ lcf.redisAddress := fun hmem ↦ h.1 0 hmem (by decide)
  rw [addr_eq, (cString_eq_iff _).mpr hzero]

theorem plainBytes_password_of_printable (h : Printable lcf.cacheRedisPassword) :
    plainBytes lcf.password = plainBytes lcf.cacheRedisPassword := by
  have hzero : 0 ∉ lcf.cacheRedisPassword := fun hmem ↦ h.1 0 hmem (by decide)
  rw [password_eq, (cString_eq_iff _).mpr hzero]

/-- Without memory there is no text, and with it the function is what it writes. -/
theorem buildsExactly_iff {reads : Bytes → Prop} {build : Pool → Except Stop (Option Block)}
    {r : Except Stop (Unit × Block)} {p : Prop}
    (hbuild : ∀ pool, build pool = .ok none ∧ pool ≠ {} ∨ build pool = returned r)
    (hmemory : build {} = returned r)
    (h : (∃ out text, r = .ok ((), out) ∧ out.IsString text ∧ (reads (cString text) ↔ p)) ∨
      r = .error .overrun ∧ ¬ p) : BuildsExactly reads build ↔ p := by
  rcases h with ⟨out, text, rfl, hstring, hreads⟩ | ⟨rfl, hp⟩
  · constructor
    · intro hexact
      have hmem := hexact {}
      rw [hmemory] at hmem
      obtain ⟨text', hstring', hreads'⟩ := hmem
      rw [← hstring.toHolds.unique hstring'.toHolds] at hreads'
      exact hreads.mp hreads'
    · intro hp pool
      rcases hbuild pool with ⟨hnone, hpool⟩ | heq
      · rw [hnone]
        exact hpool
      · rw [heq]
        exact ⟨text, hstring, hreads.mpr hp⟩
  · refine iff_of_false (fun hexact ↦ ?_) hp
    have hmem := hexact {}
    rw [hmemory] at hmem
    exact hmem

/-- The room for the digits, where the strings and the number are what they should be. -/
theorem room_iff {lcf : ServersLocation} (haddr : Printable lcf.redisAddress)
    (hpassword : Printable lcf.cacheRedisPassword) (hint : lcf.cacheRedisDb < 2 ^ 31) :
    (formatInt lcf.db).length ≤ 2 + plainBytes lcf.addr + plainBytes lcf.password ↔
      lcf.cacheRedisDb < 10 ^ (2 + plainBytes lcf.redisAddress + plainBytes lcf.cacheRedisPassword) := by
  obtain ⟨n, hn⟩ := Int.eq_ofNat_of_zero_le lcf.cacheRedisDb_range.1
  have hdb : lcf.db = (n : ℤ) := by
    rw [db_eq, cInt, Int.bmod_eq_of_le (by omega) (by omega), hn]
  rw [hdb, plainBytes_addr_of_printable haddr, plainBytes_password_of_printable hpassword, hn,
    length_formatInt_le_iff (by omega)]
  exact_mod_cast Iff.rfl

/-- **Redis.** The text is in bounds and right if and only if the number of the database is an `int`
with room for its digits, and the strings are printable. -/
theorem redisExact_iff (U : Unicode) (lcf : ServersLocation) :
    RedisExact U lcf.toCachingLocation ↔ RedisWhen lcf.toCachingLocation := by
  have hspec := writeRedis_spec lcf.toCachingLocation
  refine buildsExactly_iff (r := writeRedis lcf.toCachingLocation
    (Block.alloc (redisTotal lcf.toCachingLocation))) (fun pool ↦ ?_) ?_ ?_
  · dsimp only [buildRedisConfig]
    by_cases hcopies : (lcf.cacheRedisAddr ≠ [] ∧ ¬ pool.addr) ∨
        (lcf.cacheRedisPassword ≠ [] ∧ ¬ pool.password)
    · rw [if_pos hcopies]
      refine .inl ⟨rfl, ?_⟩
      rintro rfl
      simp at hcopies
    by_cases hbuf : pool.buf = true
    · rw [if_neg hcopies, if_neg (not_not.mpr hbuf)]
      exact .inr rfl
    · rw [if_neg hcopies, if_pos hbuf]
      refine .inl ⟨rfl, ?_⟩
      rintro rfl
      exact hbuf rfl
  · have hcopies : ¬ ((lcf.cacheRedisAddr ≠ [] ∧ ¬ ({} : Pool).addr) ∨
        (lcf.cacheRedisPassword ≠ [] ∧ ¬ ({} : Pool).password)) := by simp
    exact (if_neg hcopies).trans (if_neg (by simp))
  · by_cases hroom : (formatInt lcf.db).length ≤ 2 + plainBytes lcf.addr + plainBytes lcf.password
    · rw [if_pos hroom] at hspec
      obtain ⟨out, hout, hstring⟩ := hspec
      refine .inl ⟨out, _, hout, hstring, (parseRedisConfig_iff lcf).trans ⟨?_, ?_⟩⟩
      · rintro ⟨haddr, hpassword, hint⟩
        exact ⟨haddr, hpassword, hint, (room_iff haddr hpassword hint).mp hroom⟩
      · exact fun h ↦ ⟨h.addr, h.password, h.db_int⟩
    · rw [if_neg hroom] at hspec
      exact .inr ⟨hspec, fun h ↦ hroom ((room_iff h.addr h.password h.db_int).mpr h.db_room)⟩

/-! ## Tokens -/

/-- The tokens that the passes come to. -/
def tokens : (ntok : ℕ) → (q : Bytes) → List Bytes
  | 0, _ => []
  | ntok + 1, q => token q :: tokens ntok (afterToken q)

/-- The tokens of a string. -/
def splitTokens (q : Bytes) : List Bytes := (split q 0x20).filter (· ≠ [])

/-- A string is empty, starts with a space, or is a token and a string that does. -/
theorem token_cases (q : Bytes) : q = [] ∨ (∃ r, q = 0x20 :: r) ∨
    ∃ w r, q = w ++ r ∧ w ≠ [] ∧ (0x20 : UInt8) ∉ w ∧ (r = [] ∨ ∃ r', r = 0x20 :: r') := by
  cases q with
  | nil => exact .inl rfl
  | cons c q =>
    by_cases hc : c = 0x20
    · exact .inr (.inl ⟨q, congrArg (· :: q) hc⟩)
    refine .inr (.inr ⟨(c :: q).takeWhile (· ≠ 0x20), (c :: q).dropWhile (· ≠ 0x20),
      List.takeWhile_append_dropWhile.symm, ?_, ?_, ?_⟩)
    · rw [List.takeWhile_cons_of_pos (p := fun d ↦ decide (d ≠ 0x20)) (decide_eq_true hc)]
      exact List.cons_ne_nil _ _
    · intro hmem
      have hne := List.mem_takeWhile_imp (p := fun d : UInt8 ↦ decide (d ≠ 0x20)) hmem
      exact absurd hne (by decide)
    · cases hdrop : (c :: q).dropWhile (· ≠ 0x20) with
      | nil => exact .inl rfl
      | cons d r =>
        have hhead := List.head?_dropWhile_not (· ≠ (0x20 : UInt8)) (c :: q)
        rw [hdrop] at hhead
        have hd : d = 0x20 := by simpa using hhead
        exact .inr ⟨r, congrArg (· :: r) hd⟩

/-- The count goes on from where it is. -/
theorem foldl_countStep (n : ℕ) (b : Bool) (q : Bytes) :
    (q.foldl countStep (n, b)).1 = n + (q.foldl countStep (0, b)).1 := by
  induction q generalizing n b with
  | nil => rfl
  | cons p q ih =>
    rw [List.foldl_cons, List.foldl_cons, countStep, countStep]
    by_cases hspace : p = 0x20
    · rw [if_pos hspace, if_pos hspace, ih]
    · rw [if_neg hspace, if_neg hspace]
      cases b with
      | true => exact ih n true
      | false =>
        change (q.foldl countStep (n + 1, true)).1 = n + (q.foldl countStep (0 + 1, true)).1
        rw [ih, ih (0 + 1)]
        omega

theorem countTokens_token {w r : Bytes} (hne : w ≠ []) (hw : (0x20 : UInt8) ∉ w)
    (hr : r = [] ∨ ∃ r', r = 0x20 :: r') : countTokens (w ++ r) = countTokens r + 1 := by
  obtain ⟨c, w, rfl⟩ := List.exists_cons_of_ne_nil hne
  rw [List.mem_cons, not_or] at hw
  have hfirst : countStep (0, false) c = (1, true) := if_neg (Ne.symm hw.1)
  have hinside : w.foldl countStep (1, true) = (1, true) := by
    have hall := hw.2
    clear hw hne
    induction w with
    | nil => rfl
    | cons d w ih =>
      rw [List.mem_cons, not_or] at hall
      have hstep : countStep (1, true) d = (1, true) := if_neg (Ne.symm hall.1)
      rw [List.foldl_cons, hstep, ih hall.2]
  rw [countTokens, List.cons_append, List.foldl_cons, hfirst, List.foldl_append, hinside]
  rcases hr with rfl | ⟨r, rfl⟩
  · rfl
  · change (r.foldl countStep (1, false)).1 = (r.foldl countStep (0, false)).1 + 1
    rw [foldl_countStep, Nat.add_comm]

theorem token_append {w r : Bytes} (hne : w ≠ []) (hw : (0x20 : UInt8) ∉ w)
    (hr : r = [] ∨ ∃ r', r = 0x20 :: r') : token (w ++ r) = w ∧ afterToken (w ++ r) = r := by
  have hdrop : (w ++ r).dropWhile (· = 0x20) = w ++ r := by
    obtain ⟨c, w, rfl⟩ := List.exists_cons_of_ne_nil hne
    rw [List.mem_cons, not_or] at hw
    exact List.dropWhile_cons_of_neg (by simpa using Ne.symm hw.1)
  have hall : ∀ c ∈ w, decide (c ≠ 0x20) = true := fun c hc ↦
    decide_eq_true (by rintro rfl; exact hw hc)
  rw [token, afterToken, hdrop, List.takeWhile_append_of_pos hall, List.dropWhile_append_of_pos hall]
  rcases hr with rfl | ⟨r, rfl⟩
  · rw [List.takeWhile_nil, List.append_nil]
    exact ⟨rfl, rfl⟩
  · rw [List.takeWhile_cons_of_neg (by simp), List.append_nil]
    exact ⟨rfl, List.dropWhile_cons_of_neg (by simp)⟩

theorem splitTokens_space (q : Bytes) : splitTokens (0x20 :: q) = splitTokens q := by
  have hsplit : split (0x20 :: q) 0x20 = [] :: split q 0x20 :=
    List.splitOn_append_cons_self_of_not_mem List.not_mem_nil q
  rw [splitTokens, hsplit]
  exact List.filter_cons_of_neg (by simp)

theorem splitTokens_token {w r : Bytes} (hne : w ≠ []) (hw : (0x20 : UInt8) ∉ w)
    (hr : r = [] ∨ ∃ r', r = 0x20 :: r') : splitTokens (w ++ r) = w :: splitTokens r := by
  rcases hr with rfl | ⟨r, rfl⟩
  · rw [List.append_nil, splitTokens, split, List.splitOn_eq_singleton hw,
      List.filter_cons_of_pos (p := fun w ↦ decide (w ≠ [])) (decide_eq_true hne)]
    rfl
  · rw [splitTokens, split, List.splitOn_append_cons_self_of_not_mem hw,
      List.filter_cons_of_pos (p := fun w ↦ decide (w ≠ [])) (decide_eq_true hne),
      splitTokens_space]
    rfl

/-- The passes come to the tokens, and there are as many as have been counted. -/
theorem tokens_eq (q : Bytes) : tokens (countTokens q) q = splitTokens q := by
  induction hn : q.length using Nat.strong_induction_on generalizing q with
  | h n ih =>
    subst hn
    rcases token_cases q with rfl | ⟨r, rfl⟩ | ⟨w, r, rfl, hne, hw, hr⟩
    · rfl
    · have hskip (n : ℕ) : tokens n (0x20 :: r) = tokens n r := by
        cases n <;> rfl
      rw [splitTokens_space, ← ih r.length (Nat.lt_succ_self _) r rfl, ← hskip]
      rfl
    · obtain ⟨htoken, hafter⟩ := token_append hne hw hr
      have hlt : r.length < (w ++ r).length := by
        have := List.length_pos_of_ne_nil hne
        rw [List.length_append]
        omega
      rw [countTokens_token hne hw hr, tokens, htoken, hafter, splitTokens_token hne hw hr,
        ih _ hlt r rfl]

/-- Every byte but a space is in a token. -/
theorem mem_splitTokens_iff {q : Bytes} {b : UInt8} (hb : b ≠ 0x20) :
    (∃ w ∈ splitTokens q, b ∈ w) ↔ b ∈ q := by
  induction hn : q.length using Nat.strong_induction_on generalizing q with
  | h n ih =>
    subst hn
    rcases token_cases q with rfl | ⟨r, rfl⟩ | ⟨w, r, rfl, hne, hw, hr⟩
    · refine iff_of_false ?_ List.not_mem_nil
      rintro ⟨w, hw, -⟩
      exact absurd hw List.not_mem_nil
    · rw [splitTokens_space, ih r.length (Nat.lt_succ_self _) rfl, List.mem_cons]
      exact (or_iff_right hb).symm
    · have hlt : r.length < (w ++ r).length := by
        have := List.length_pos_of_ne_nil hne
        rw [List.length_append]
        omega
      rw [splitTokens_token hne hw hr, List.exists_mem_cons_iff, ih _ hlt rfl, List.mem_append]

/-! ## Memcached -/

theorem emits_writeToken (ti : ℕ) (w : Bytes) :
    Emits (writeToken ti w) ((if decide (ti > 0) then lit "," else []) ++ quoted escaped w) () := by
  have hcomma : Emits (putComma ti) (if decide (ti > 0) then lit "," else []) () := by
    rw [putComma]
    by_cases hti : ti > 0
    · rw [if_pos hti, if_pos (decide_eq_true hti)]
      exact emits_put 0x2c
    · rw [if_neg hti, if_neg (by rwa [decide_eq_true_eq])]
      exact .pure ()
  exact hcomma.bind <| (emits_put 0x22).bind <| (Appends.forM emits_putEscaped w).bind <|
    emits_put 0x22

/-- The third pass is a loop over the tokens. -/
theorem emits_writeTokens (n ti : ℕ) (q : Bytes) :
    Emits (writeTokens n ti q)
      (emitted (fun ti w ↦ (if decide (ti > 0) then lit "," else []) ++ quoted escaped w)
        (fun ti _ ↦ ti + 1) ti (tokens n q)) () := by
  induction n generalizing ti q with
  | zero => exact .pure ()
  | succ n ih => exact (emits_writeToken ti (token q)).bind (ih (ti + 1) (afterToken q))

theorem emits_servers (servers : Bytes) : Emits (writeTokens (countTokens servers) 0 servers)
    (commas ((splitTokens servers).map (quoted escaped))) () := by
  refine (emits_writeTokens _ 0 servers).of_eq ?_
  rw [tokens_eq]
  exact emitted_separated (fun (n : ℕ) _ ↦ decide_eq_true n.succ_pos) (decide_eq_false (lt_irrefl 0)) _

theorem length_tokens (n : ℕ) (q : Bytes) : (tokens n q).length = n := by
  induction n generalizing q with
  | zero => rfl
  | succ n ih => rw [tokens, List.length_cons, ih]

/-- The first passes have counted enough for the third. -/
theorem length_commas_le (servers : Bytes) :
    (commas ((splitTokens servers).map (quoted escaped))).length + 15 ≤ memcachedTotal servers := by
  have hcommas (texts : List Bytes) :
      (commas texts).length = (texts.map List.length).sum + (texts.length - 1) := by
    induction texts with
    | nil => rfl
    | cons s texts ih =>
      cases texts with
      | nil => simp [commas_singleton]
      | cons t texts =>
        rw [commas_cons_cons, List.length_append, List.length_cons, ih]
        simp only [List.map_cons, List.sum_cons, List.length_cons]
        omega
  have hmeasure (n : ℕ) (q : Bytes) :
      (((tokens n q).map (quoted escaped)).map List.length).sum ≤ measureTokens n q := by
    induction n generalizing q with
    | zero => exact le_rfl
    | succ n ih =>
      have hlength := length_escaped (token q)
      have hquoted : (quoted escaped (token q)).length = ((token q).flatMap escaped).length + 2 := by
        rw [quoted, List.length_cons, List.length_append, List.length_singleton]
      have hrest := ih (afterToken q)
      rw [tokens, List.map_cons, List.map_cons, List.sum_cons, measureTokens]
      omega
  have hsum := hmeasure (countTokens servers) servers
  have hn := length_tokens (countTokens servers) servers
  rw [tokens_eq] at hsum hn
  rw [hcommas, List.length_map, hn, memcachedTotal]
  split_ifs <;> omega

/-- **Memcached** is in bounds for any servers. -/
theorem writeMemcached_spec (servers : Bytes) :
    ∃ out, writeMemcached servers (Block.alloc (memcachedTotal servers)) = .ok ((), out) ∧
      out.IsString (memcachedText escaped (splitTokens servers)) := by
  have hle := length_commas_le servers
  have hkey : (lit "\x7b\"servers\":[").length = 12 := by decide
  have htext : Emits (do
      copy (lit "\x7b\"servers\":[")
      writeTokens (countTokens servers) 0 servers
      put 0x5d
      put 0x7d : Write Unit) (memcachedText escaped (splitTokens servers)) () := by
    refine ((emits_copy _).bind <| (emits_servers servers).bind <| (emits_put 0x5d).bind <|
      emits_put 0x7d).of_eq ?_
    rw [memcachedText_eq]
    rfl
  have hassoc : writeMemcached servers = (do
      (do
        copy (lit "\x7b\"servers\":[")
        writeTokens (countTokens servers) 0 servers
        put 0x5d
        put 0x7d)
      terminate) := by
    simp only [writeMemcached, bind_assoc]
  have hlength : (memcachedText escaped (splitTokens servers)).length =
      (commas ((splitTokens servers).map (quoted escaped))).length + 14 := by
    have hclose : (lit "]\x7d").length = 2 := by decide
    rw [memcachedText_eq, List.length_append, List.length_append]
    omega
  obtain ⟨out, hout, -, hstring⟩ := htext.exists_terminate (Block.holds_alloc (memcachedTotal servers))
    (by rw [List.length_nil, Block.alloc_cap]; omega) (by rw [List.length_nil, Block.alloc_cap]; omega)
  exact ⟨out, (congrFun hassoc _).trans hout, hstring⟩

/-- libgomesi gets the servers of the location out of the text. -/
theorem parseMemcachedConfig_iff {U : Unicode} (servers : Bytes) :
    (parseMemcachedConfig U (cString (memcachedText escaped (splitTokens (cString servers)))) =
      if splitTokens servers = [] then
        .error (.text (lit "mesi: parseMemcachedConfig: servers required"))
      else .ok (splitTokens servers)) ↔ ∀ w ∈ splitTokens servers, Printable w := by
  have hnul : ∀ w ∈ splitTokens (cString servers), 0 ∉ w := fun w hw hmem ↦
    zero_not_mem_cString servers ((mem_splitTokens_iff (by decide)).mp ⟨w, hw, hmem⟩)
  rw [cString_memcachedText keepsNul_escaped hnul, parseMemcachedConfig_text escapes_escaped]
  constructor
  · intro h
    by_cases hlegible : (splitTokens (cString servers)).all (legible escaped) = true
    swap
    · rw [if_pos hlegible] at h
      by_cases hnone : splitTokens servers = []
      · rw [if_pos hnone] at h
        cases h
      · rw [if_neg hnone] at h
        cases h
    rw [if_neg (not_not.mpr hlegible)] at h
    by_cases hnone : splitTokens servers = []
    · rw [hnone]
      exact List.forall_mem_nil _
    rw [if_neg hnone] at h
    have hread : (splitTokens (cString servers)).map toValid = splitTokens servers := by
      split_ifs at h
      exact Except.ok.inj h
    -- A NUL in the servers would be in a token that is read.
    have hzero : 0 ∉ servers := by
      intro hmem
      obtain ⟨w, hw, hmem⟩ := (mem_splitTokens_iff (by decide)).mpr hmem
      rw [← hread] at hw
      obtain ⟨w', hw', rfl⟩ := List.mem_map.mp hw
      exact zero_not_mem_toValid (hnul w' hw') hmem
    rw [(cString_eq_iff servers).mpr hzero] at hread hlegible hnul
    intro w hw
    rw [printable_iff, (cString_eq_iff w).mpr (hnul w hw)]
    refine ⟨?_, List.all_eq_true.mp hlegible w hw⟩
    have hid : (splitTokens servers).map toValid = (splitTokens servers).map id := by
      rw [hread, List.map_id]
    exact List.map_inj_left.mp hid w hw
  · intro h
    have hzero : 0 ∉ servers := by
      intro hmem
      obtain ⟨w, hw, hmem⟩ := (mem_splitTokens_iff (by decide)).mpr hmem
      exact (h w hw).1 0 hmem (by decide)
    rw [(cString_eq_iff servers).mpr hzero]
    have hlegible : (splitTokens servers).all (legible escaped) = true :=
      List.all_eq_true.mpr fun w hw ↦ legible_escaped_iff.mpr (h w hw).1
    have hid : (splitTokens servers).map toValid = splitTokens servers := by
      rw [List.map_inj_left.mpr fun w hw ↦ toValid_eq_self_iff.mpr (h w hw).2, List.map_id']
    rw [if_neg (not_not.mpr hlegible), hid]

/-- **Memcached.** The text is in bounds, and it is right if and only if the servers are printable. -/
theorem memcachedExact_iff (U : Unicode) (lcf : CachingLocation) :
    MemcachedExact U lcf ↔ MemcachedWhen lcf := by
  have hread := parseMemcachedConfig_iff (U := U) lcf.cacheMemcachedServers
  by_cases hnone : lcf.cacheMemcachedServers = []
  · have htext : memcachedText escaped (splitTokens (cString lcf.cacheMemcachedServers)) =
        lit "\x7b\"servers\":[]\x7d" := by
      rw [hnone]
      rfl
    rw [htext] at hread
    obtain ⟨out, hout, -, hstring⟩ := (emits_copy (lit "\x7b\"servers\":[]\x7d")).exists_terminate
      (Block.holds_alloc 15) (by decide) (by decide)
    refine buildsExactly_iff (r := writeNoServers (Block.alloc 15)) (fun pool ↦ ?_) ?_
      (.inl ⟨out, _, hout, hstring, hread⟩)
    · rw [buildMemcachedConfig, if_pos hnone]
      by_cases hbuf : pool.buf = true
      · exact .inr (if_neg (not_not.mpr hbuf))
      · refine .inl ⟨if_pos hbuf, ?_⟩
        rintro rfl
        exact hbuf rfl
    · exact (if_pos hnone).trans (if_neg (by simp))
  · obtain ⟨out, hout, hstring⟩ := writeMemcached_spec (cString lcf.cacheMemcachedServers)
    refine buildsExactly_iff (r := writeMemcached (cString lcf.cacheMemcachedServers)
      (Block.alloc (memcachedTotal (cString lcf.cacheMemcachedServers)))) (fun pool ↦ ?_) ?_
      (.inl ⟨out, _, hout, hstring, hread⟩)
    · rw [buildMemcachedConfig, if_neg hnone]
      by_cases hservers : pool.servers = true
      swap
      · refine .inl ⟨if_pos hservers, ?_⟩
        rintro rfl
        exact hservers rfl
      rw [if_neg (not_not.mpr hservers)]
      by_cases hbuf : pool.buf = true
      · exact .inr (if_neg (not_not.mpr hbuf))
      · refine .inl ⟨if_pos hbuf, ?_⟩
        rintro rfl
        exact hbuf rfl
    · exact ((if_neg hnone).trans (if_neg (by simp))).trans (if_neg (by simp))

/-- **Main result.** For each of the two texts: it is in bounds and read as it is meant if and only if
the settings are printable and the number of the database has its room. -/
theorem cacheConfigs_iff (U : Unicode) (lcf : ServersLocation) :
    (RedisExact U lcf.toCachingLocation ↔ RedisWhen lcf.toCachingLocation) ∧
      (MemcachedExact U lcf.toCachingLocation ↔ MemcachedWhen lcf.toCachingLocation) :=
  ⟨redisExact_iff U lcf, memcachedExact_iff U lcf.toCachingLocation⟩

/-- A host with a name of one byte, and a database beyond the first thousand. -/
def farDatabase : CachingLocation where
  toLocation := plainLocation
  cacheRedisAddr := lit "r"
  cacheRedisDb := 1000

/-- Four digits do not fit next to one byte. -/
theorem not_redisExact_farDatabase : ¬ RedisExact Unicode.ascii farDatabase := by
  have hoverrun : buildRedisConfig {} farDatabase = .error .overrun := by
    have hspec := writeRedis_spec farDatabase
    rw [if_neg (by decide)] at hspec
    change returned (writeRedis farDatabase (Block.alloc (redisTotal farDatabase))) = _
    rw [hspec]
    rfl
  intro h
  have hpool := h {}
  dsimp only at hpool
  rw [hoverrun] at hpool
  exact hpool

/-! ## The text alone -/

/-- `buildMemcachedConfigJson` is the text that is written. -/
theorem buildMemcachedConfigJson_eq (lcf : CachingLocation) :
    buildMemcachedConfigJson lcf =
      memcachedText escaped (splitTokens (cString lcf.cacheMemcachedServers)) := by
  rw [buildMemcachedConfigJson]
  by_cases hnone : lcf.cacheMemcachedServers = []
  · rw [if_pos hnone, hnone]
    rfl
  · rw [if_neg hnone, memcachedText_eq]
    dsimp only
    rw [List.append_assoc]
    rfl

/-- And so is `buildRedisConfigJson`, where the text is in bounds. -/
theorem buildRedisConfigJson_eq (lcf : CachingLocation)
    (h : (formatInt lcf.db).length ≤ 2 + plainBytes lcf.addr + plainBytes lcf.password) :
    buildRedisConfigJson lcf = redisText escaped lcf.addr lcf.password (some lcf.db) := by
  have hlength := length_redisHead lcf
  have hhead : lit "\x7b\"redisAddr\":\"" ++ jsonEscaped lcf.addr ++
      lit "\",\"redisPassword\":\"" ++ jsonEscaped lcf.password = redisHead lcf := by
    simp only [redisHead, List.append_assoc]
    rfl
  have htotal : 49 + 2 * lcf.addr.length + 2 * lcf.password.length = redisTotal lcf := by
    rw [redisTotal]
    omega
  have hdb := length_dbEnd lcf.db
  rw [← redisHead_append_dbEnd]
  change (lit "\x7b\"redisAddr\":\"" ++ jsonEscaped lcf.addr ++
      lit "\",\"redisPassword\":\"" ++ jsonEscaped lcf.password) ++
    (dbEnd lcf.db).take (49 + 2 * lcf.addr.length + 2 * lcf.password.length -
      (lit "\x7b\"redisAddr\":\"" ++ jsonEscaped lcf.addr ++
        lit "\",\"redisPassword\":\"" ++ jsonEscaped lcf.password).length - 1) = _
  rw [hhead, htotal, List.take_of_length_le (by omega)]

end GoMesi.Nginx
