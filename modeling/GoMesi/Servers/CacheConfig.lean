import GoMesi.Go.Json
import GoMesi.Servers.CBodies

/-!
# The configuration of a cache in JSON

`cache_config.go`: what libgomesi reads of the text that a server gives it along with the backend. A
member that is absent, empty or negative leaves the default of redis alone; memcached has no default
for its servers.

A server that writes such a text with the values it has gets the same values back if they are valid
UTF-8 and the text is JSON (`parseRedisConfig_text`, `parseMemcachedConfig_text`).
-/

namespace GoMesi

open Strings Strconv Json Apache

/-! ## The parsers -/

/-- Why a configuration is refused: by `json.Unmarshal`, whose message follows, or by the parser. -/
inductive ConfigError
  | json (message : Bytes)
  | text (message : Bytes)

/-- `redisConfig` -/
structure RedisConfig where
  redisAddr : Bytes := []
  redisPassword : Bytes := []
  redisDB : Option ℤ := none

/-- `memcachedConfig` -/
structure MemcachedConfig where
  servers : List Bytes := []

variable (U : Unicode)

def RedisConfig.assign (c : RedisConfig) (key : Bytes) (v : Value) : Option RedisConfig :=
  match field U [lit "redisAddr", lit "redisPassword", lit "redisDB"] key with
  | none => some c
  | some name =>
    if name = lit "redisAddr" then
      (asString c.redisAddr v).map fun s ↦ { c with redisAddr := s }
    else if name = lit "redisPassword" then
      (asString c.redisPassword v).map fun s ↦ { c with redisPassword := s }
    else (asIntPtr v).map fun n ↦ { c with redisDB := n }

def MemcachedConfig.assign (c : MemcachedConfig) (key : Bytes) (v : Value) : Option MemcachedConfig :=
  match field U [lit "servers"] key with
  | none => some c
  | some _ => (asStrings c.servers v).map fun ss ↦ { c with servers := ss }

/-- Where redis is, and what it asks for. -/
structure RedisServer where
  addr : Bytes := lit "localhost:6379"
  password : Bytes := []
  db : ℤ := 0
  deriving DecidableEq

/-- What a configuration says about redis. -/
def RedisConfig.server (c : RedisConfig) : RedisServer where
  addr := if c.redisAddr ≠ [] then c.redisAddr else lit "localhost:6379"
  password := if c.redisPassword ≠ [] then c.redisPassword else []
  db := match c.redisDB with
    | some db => if db ≥ 0 then db else 0
    | none => 0

/-- `parseRedisConfig` -/
def parseRedisConfig (cfgJSON : Bytes) : Except ConfigError RedisServer :=
  if cfgJSON = [] then .ok {}
  else
    match (parse cfgJSON).bind (asStruct (RedisConfig.assign U) {}) with
    | none => .error (.json (lit "mesi: parseRedisConfig: "))
    | some cfg => .ok cfg.server

/-- `parseMemcachedConfig` -/
def parseMemcachedConfig (cfgJSON : Bytes) : Except ConfigError (List Bytes) :=
  if cfgJSON = [] then
    .error (.text (lit "mesi: parseMemcachedConfig: empty config (servers required)"))
  else
    match (parse cfgJSON).bind (asStruct (MemcachedConfig.assign U) {}) with
    | none => .error (.json (lit "mesi: parseMemcachedConfig: "))
    | some cfg =>
      if cfg.servers.length = 0 then
        .error (.text (lit "mesi: parseMemcachedConfig: servers required"))
      else .ok cfg.servers

/-! ## What a server writes -/

/-- A member with the text of its value, and the value that is read. -/
structure Member where
  name : Bytes
  text : Bytes
  value : Option Value

/-- The member, if it is read. -/
def Member.pair? (m : Member) : Option (Bytes × Value) := m.value.map fun v ↦ (m.name, v)

/-- The address of redis, with a way to write a byte. -/
def addrMember (esc : UInt8 → Bytes) (addr : Bytes) : Member where
  name := lit "redisAddr"
  text := quoted esc addr
  value := if legible esc addr then some (.string (toValid addr)) else none

def passwordMember (esc : UInt8 → Bytes) (password : Bytes) : Member where
  name := lit "redisPassword"
  text := quoted esc password
  value := if legible esc password then some (.string (toValid password)) else none

def dbMember (db : ℤ) : Member where
  name := lit "redisDB"
  text := formatInt db
  value := some (.number (formatInt db))

def serversMember (esc : UInt8 → Bytes) (servers : List Bytes) : Member where
  name := lit "servers"
  text := 0x5b :: (commas (servers.map (quoted esc)) ++ [0x5d])
  value := if servers.all (legible esc) then
      some (.array ((servers.map toValid).map .string)) else none

/-- Members in braces. -/
def objectText (ms : List Member) : Bytes :=
  0x7b :: (commas (ms.map fun m ↦ member m.name m.text) ++ [0x7d])

/-- The configuration of redis. The database may be left out. -/
def redisText (esc : UInt8 → Bytes) (addr password : Bytes) (db : Option ℤ) : Bytes :=
  objectText (addrMember esc addr :: passwordMember esc password :: db.toList.map dbMember)

/-- The configuration of memcached. -/
def memcachedText (esc : UInt8 → Bytes) (servers : List Bytes) : Bytes :=
  objectText [serversMember esc servers]

/-- A member for the database, with its comma. -/
def dbText (db : Option ℤ) : Bytes := db.elim [] fun n ↦ lit ",\"redisDB\":" ++ formatInt n

theorem redisText_eq (esc : UInt8 → Bytes) (addr password : Bytes) (db : Option ℤ) :
    redisText esc addr password db =
      lit "\x7b\"redisAddr\":" ++ (quoted esc addr ++ (lit ",\"redisPassword\":" ++
        (quoted esc password ++ (dbText db ++ lit "\x7d")))) := by
  have haddr : lit "\x7b\"redisAddr\":" = 0x7b :: 0x22 :: (lit "redisAddr" ++ [0x22, 0x3a]) := rfl
  have hpassword : lit ",\"redisPassword\":" =
      0x2c :: 0x22 :: (lit "redisPassword" ++ [0x22, 0x3a]) := rfl
  have hdb : lit ",\"redisDB\":" = 0x2c :: 0x22 :: (lit "redisDB" ++ [0x22, 0x3a]) := rfl
  have hclose : lit "\x7d" = [0x7d] := rfl
  rw [haddr, hpassword, hclose, redisText, objectText, dbText]
  cases db with
  | none => simp [commas_cons_cons, commas_singleton, addrMember, passwordMember, member]
  | some n =>
    rw [Option.elim_some, hdb]
    simp [commas_cons_cons, commas_singleton, addrMember, passwordMember, dbMember, member]

theorem memcachedText_eq (esc : UInt8 → Bytes) (servers : List Bytes) :
    memcachedText esc servers =
      lit "\x7b\"servers\":[" ++ (commas (servers.map (quoted esc)) ++ lit "]\x7d") := by
  have hservers : lit "\x7b\"servers\":[" =
      0x7b :: 0x22 :: (lit "servers" ++ [0x22, 0x3a, 0x5b]) := rfl
  have hclose : lit "]\x7d" = [0x5d, 0x7d] := rfl
  rw [hservers, hclose, memcachedText, objectText]
  simp [commas_singleton, serversMember, member]

/-! ### As C strings -/

/-- No byte but NUL is written with a NUL. -/
def KeepsNul (esc : UInt8 → Bytes) : Prop := ∀ b, b ≠ 0 → 0 ∉ esc b

theorem zero_not_mem_cString (s : Bytes) : 0 ∉ cString s :=
  (cString_eq_iff (cString s)).mp (cString_cString s)

theorem zero_not_mem_quoted {esc : UInt8 → Bytes} (hesc : KeepsNul esc) {s : Bytes} (hs : 0 ∉ s) :
    0 ∉ quoted esc s := by
  intro h
  rcases List.mem_cons.mp h with h | h
  · exact absurd h (by decide)
  rcases List.mem_append.mp h with h | h
  · obtain ⟨b, hb, hmem⟩ := List.mem_flatMap.mp h
    exact hesc b (by rintro rfl; exact hs hb) hmem
  · exact absurd (List.mem_singleton.mp h) (by decide)

theorem zero_not_mem_formatInt (n : ℤ) : 0 ∉ formatInt n := by
  have hnat (m : ℕ) : 0 ∉ formatInt m := (decimal_formatInt m).not_mem (by rw [IsDigit]; decide)
  cases n with
  | ofNat m => exact hnat m
  | negSucc m =>
    rw [formatInt_negSucc, List.mem_cons, not_or]
    exact ⟨by decide, hnat (m + 1)⟩

theorem cString_redisText {esc : UInt8 → Bytes} (hesc : KeepsNul esc) {addr password : Bytes}
    (haddr : 0 ∉ addr) (hpassword : 0 ∉ password) (db : Option ℤ) :
    cString (redisText esc addr password db) = redisText esc addr password db := by
  have hdb : 0 ∉ dbText db := by
    cases db with
    | none => exact List.not_mem_nil
    | some n =>
      change 0 ∉ lit ",\"redisDB\":" ++ formatInt n
      rw [List.mem_append, not_or]
      exact ⟨by decide, zero_not_mem_formatInt n⟩
  rw [cString_eq_iff, redisText_eq]
  simp only [List.mem_append, not_or]
  exact ⟨by decide, zero_not_mem_quoted hesc haddr, by decide, zero_not_mem_quoted hesc hpassword,
    hdb, by decide⟩

theorem cString_memcachedText {esc : UInt8 → Bytes} (hesc : KeepsNul esc) {servers : List Bytes}
    (hservers : ∀ s ∈ servers, 0 ∉ s) :
    cString (memcachedText esc servers) = memcachedText esc servers := by
  have hcommas (texts : List Bytes) (h : ∀ t ∈ texts, 0 ∉ t) : 0 ∉ commas texts := by
    induction texts with
    | nil => exact List.not_mem_nil
    | cons s texts ih =>
      rw [List.forall_mem_cons] at h
      cases texts with
      | nil =>
        rw [commas_singleton]
        exact h.1
      | cons t texts =>
        rw [commas_cons_cons, List.mem_append, List.mem_cons, not_or, not_or]
        exact ⟨h.1, by decide, ih h.2⟩
  rw [cString_eq_iff, memcachedText_eq]
  simp only [List.mem_append, not_or]
  refine ⟨by decide, hcommas _ fun t ht ↦ ?_, by decide⟩
  obtain ⟨s, hs, rfl⟩ := List.mem_map.mp ht
  exact zero_not_mem_quoted hesc (hservers s hs)

/-- A string that is not changed on its way through C and JSON. -/
def Transparent (s : Bytes) : Prop := 0 ∉ s ∧ validString s = true

theorem transparent_iff {s : Bytes} : Transparent s ↔ toValid (cString s) = s := by
  constructor
  · rintro ⟨hzero, hvalid⟩
    rw [(cString_eq_iff s).mpr hzero]
    exact toValid_eq_self_iff.mpr hvalid
  · intro h
    have hzero : 0 ∉ s := h ▸ zero_not_mem_toValid (zero_not_mem_cString s)
    rw [(cString_eq_iff s).mpr hzero] at h
    exact ⟨hzero, toValid_eq_self_iff.mp h⟩

/-! ## What is read of it -/

variable {U} {esc : UInt8 → Bytes}

theorem field_of_mem {names : List Bytes} {name : Bytes} (h : name ∈ names) :
    field U names name = some name := if_pos h

theorem RedisConfig.assign_addr (c : RedisConfig) (s : Bytes) :
    c.assign U (lit "redisAddr") (.string s) = some { c with redisAddr := s } := by
  rw [assign, field_of_mem (by decide)]
  exact if_pos rfl

theorem RedisConfig.assign_password (c : RedisConfig) (s : Bytes) :
    c.assign U (lit "redisPassword") (.string s) = some { c with redisPassword := s } := by
  rw [assign, field_of_mem (by decide)]
  exact (if_neg (by decide)).trans (if_pos rfl)

theorem RedisConfig.assign_db (c : RedisConfig) {n : ℤ} (hlo : -2 ^ 63 ≤ n) (hhi : n < 2 ^ 63) :
    c.assign U (lit "redisDB") (.number (formatInt n)) = some { c with redisDB := some n } := by
  rw [assign, field_of_mem (by decide), asIntPtr_formatInt hlo hhi]
  exact (if_neg (by decide)).trans (if_neg (by decide))

theorem MemcachedConfig.assign_servers (ss : List Bytes) :
    MemcachedConfig.assign U {} (lit "servers") (.array (ss.map .string)) = some ⟨ss⟩ := by
  rw [assign, field_of_mem (by decide)]
  change (asStrings [] _).map _ = _
  rw [asStrings_map]
  rfl

/-- A member that `json.Unmarshal` finds its way around. -/
structure Member.Readable (m : Member) : Prop where
  isName : IsName m.name
  reads : ReadsAs 9999 m.text m.value

theorem isName_names : IsName (lit "redisAddr") ∧ IsName (lit "redisPassword") ∧
    IsName (lit "redisDB") ∧ IsName (lit "servers") := by
  unfold IsName
  decide +kernel

theorem readable_addrMember (hesc : Escapes esc) (addr : Bytes) : (addrMember esc addr).Readable where
  isName := isName_names.1
  reads := reads_quoted hesc 9999 addr

theorem readable_passwordMember (hesc : Escapes esc) (password : Bytes) :
    (passwordMember esc password).Readable where
  isName := isName_names.2.1
  reads := reads_quoted hesc 9999 password

theorem readable_dbMember (db : ℤ) : (dbMember db).Readable where
  isName := isName_names.2.2.1
  reads := reads_formatInt 9999 db

theorem readable_serversMember (hesc : Escapes esc) (servers : List Bytes) :
    (serversMember esc servers).Readable where
  isName := isName_names.2.2.2
  reads := by
    cases servers with
    | nil => exact reads_array_nil 9998
    | cons s ss =>
      have h : ReadsAs 9999 (0x5b :: (commas ((s :: ss).map (quoted esc)) ++ [0x5d])) _ :=
        reads_array fun t _ ↦ reads_quoted hesc 9998 t
      rw [mapM_quoted, apply_ite (Option.map Value.array)] at h
      exact h

theorem parse_objectText {m : Member} {ms : List Member} (h : ∀ m' ∈ m :: ms, m'.Readable) :
    parse (objectText (m :: ms)) =
      ((m :: ms).mapM Member.pair?).map .object :=
  parse_object fun m' hm' ↦ ⟨(h m' hm').isName, (h m' hm').reads⟩

theorem pair?_addrMember (addr : Bytes) : (addrMember esc addr).pair? =
    if legible esc addr then some (lit "redisAddr", .string (toValid addr)) else none :=
  apply_ite (Option.map fun v ↦ (lit "redisAddr", v)) _ _ _

theorem pair?_passwordMember (password : Bytes) : (passwordMember esc password).pair? =
    if legible esc password then some (lit "redisPassword", .string (toValid password)) else none :=
  apply_ite (Option.map fun v ↦ (lit "redisPassword", v)) _ _ _

theorem pair?_serversMember (servers : List Bytes) : (serversMember esc servers).pair? =
    if servers.all (legible esc) then
      some (lit "servers", .array ((servers.map toValid).map .string))
    else none :=
  apply_ite (Option.map fun v ↦ (lit "servers", v)) _ _ _

/-- **A configuration of redis** is read as it has been written, up to what is not valid UTF-8, unless
a control character in it has been written as it is. -/
theorem parseRedisConfig_text (hesc : Escapes esc) (addr password : Bytes) {db : Option ℤ}
    (hdb : ∀ n ∈ db, -2 ^ 63 ≤ n ∧ n < 2 ^ 63) :
    parseRedisConfig U (redisText esc addr password db) =
      if legible esc addr ∧ legible esc password then
        .ok (RedisConfig.mk (toValid addr) (toValid password) db).server
      else .error (.json (lit "mesi: parseRedisConfig: ")) := by
  have hparse : parse (redisText esc addr password db) =
      ((addrMember esc addr :: passwordMember esc password :: db.toList.map dbMember).mapM
        Member.pair?).map .object := by
    refine parse_objectText fun m hm ↦ ?_
    rcases List.mem_cons.mp hm with rfl | hm
    · exact readable_addrMember hesc addr
    rcases List.mem_cons.mp hm with rfl | hm
    · exact readable_passwordMember hesc password
    · obtain ⟨n, -, rfl⟩ := List.mem_map.mp hm
      exact readable_dbMember n
  have hmembers : (addrMember esc addr :: passwordMember esc password ::
      db.toList.map dbMember).mapM Member.pair? =
      if legible esc addr ∧ legible esc password then
        some ((lit "redisAddr", .string (toValid addr)) ::
          (lit "redisPassword", .string (toValid password)) ::
            db.toList.map fun n ↦ (lit "redisDB", .number (formatInt n)))
      else none := by
    rw [List.mapM_cons, List.mapM_cons, pair?_addrMember, pair?_passwordMember]
    cases legible esc addr with
    | false => rfl
    | true =>
      cases legible esc password with
      | false => rfl
      | true => cases db <;> rfl
  have hne : redisText esc addr password db ≠ [] := List.cons_ne_nil _ _
  rw [parseRedisConfig, if_neg hne, hparse, hmembers]
  by_cases hlegible : legible esc addr = true ∧ legible esc password = true
  · rw [if_pos hlegible, if_pos hlegible, Option.map_some, Option.bind_some, asStruct,
      List.foldlM_cons, RedisConfig.assign_addr, Option.bind_eq_bind, Option.bind_some,
      List.foldlM_cons, RedisConfig.assign_password]
    cases db with
    | none => rfl
    | some n =>
      rw [Option.toList_some, List.map_singleton, Option.bind_eq_bind, Option.bind_some,
        List.foldlM_cons, RedisConfig.assign_db _ (hdb n rfl).1 (hdb n rfl).2]
      rfl
  · rw [if_neg hlegible, if_neg hlegible]
    rfl

theorem parseMemcachedConfig_text (hesc : Escapes esc) (servers : List Bytes) :
    parseMemcachedConfig U (memcachedText esc servers) =
      if ¬ servers.all (legible esc) then .error (.json (lit "mesi: parseMemcachedConfig: "))
      else if servers = [] then .error (.text (lit "mesi: parseMemcachedConfig: servers required"))
      else .ok (servers.map toValid) := by
  have hparse : parse (memcachedText esc servers) =
      ([serversMember esc servers].mapM Member.pair?).map .object := by
    refine parse_objectText fun m hm ↦ ?_
    rw [List.mem_singleton.mp hm]
    exact readable_serversMember hesc servers
  have hmembers : [serversMember esc servers].mapM Member.pair? =
      if servers.all (legible esc) then
        some [(lit "servers", .array ((servers.map toValid).map .string))]
      else none := by
    rw [List.mapM_cons, List.mapM_nil, pair?_serversMember]
    cases servers.all (legible esc) <;> rfl
  have hne : memcachedText esc servers ≠ [] := List.cons_ne_nil _ _
  rw [parseMemcachedConfig, if_neg hne, hparse, hmembers]
  by_cases hlegible : servers.all (legible esc) = true
  · rw [if_pos hlegible, if_neg (not_not.mpr hlegible), Option.map_some, Option.bind_some, asStruct,
      List.foldlM_cons, MemcachedConfig.assign_servers]
    change (if (servers.map toValid).length = 0 then _ else Except.ok (servers.map toValid)) = _
    rw [List.length_map]
    by_cases hnil : servers = []
    · rw [if_pos hnil, if_pos (List.length_eq_zero_iff.mpr hnil)]
    · rw [if_neg hnil, if_neg (List.length_eq_zero_iff.not.mpr hnil)]
  · rw [if_neg hlegible, if_pos hlegible]
    rfl

end GoMesi
