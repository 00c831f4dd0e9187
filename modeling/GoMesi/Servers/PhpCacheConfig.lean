import GoMesi.Servers.CacheConfig
import GoMesi.Servers.PhpBuffers

/-!
# The configuration of the cache in PHP

`build_cache_config_json` renders the options of the cache into a buffer of its caller. It appends
strings with functions that look for the room first, but it copies the names of the members without a
look. The buffer has room for the first name, which is why a capacity below 32 is refused. The name
after the address stands wherever the address has ended: with the 16 lengths of the address that end
just before the end of the buffer it overruns the buffer (`rendersExactly_iff`).

What passes the checks of `parse_with_config` needs no escapes. But a string of PHP may have a NUL in
it, behind which nothing is checked or rendered, and it need not be UTF-8.
-/

namespace GoMesi.Php

open Strings Strconv Json Apache C
open C.Write (copy put terminate snprintf left advance refuse refuseIf intMax)

/-! ## The checks -/

/-- `mesi_is_safe_string` -/
def isSafeString (s : Bytes) : Bool :=
  (cString s).all fun p ↦
    if p < 0x20 then false
    else if p = 0x7f then false
    else if p = 0x20 ∨ p = 0x09 then false
    else if p = 0x22 ∨ p = 0x5c then false
    else true

/-- `LONG_MAX`, where a `long` has 64 bits. -/
def longMax : ℤ := 2 ^ 63 - 1

/-- The loop of `mesi_parse_uint_bounded`. -/
def parseUintLoop (min max : ℤ) : ℤ → Bytes → Option ℤ
  | v, [] => if v < min then none else some v
  | v, c :: p =>
    if c < 0x30 ∨ c > 0x39 then none
    else if v > longMax / 10 - 10 then none
    else
      let v := v * 10 + (c.toNat - 0x30)
      if v > max then none else parseUintLoop min max v p

/-- `mesi_parse_uint_bounded` -/
def parseUintBounded (arg : Bytes) (min max : ℤ) : Option ℤ :=
  match cString arg with
  | [] => none
  | c :: p => if c < 0x30 ∨ c > 0x39 then none else parseUintLoop min max 0 (c :: p)

/-- `strrchr`: what stands before the last `c` of a string, and what stands behind it. -/
def strrchr (c : UInt8) : Bytes → Option (Bytes × Bytes)
  | [] => none
  | b :: s =>
    match strrchr c s with
    | some r => some (b :: r.1, r.2)
    | none => if b = c then some ([], s) else none

/-- `parse_host_port` -/
def parseHostPort (s : Bytes) : Bool :=
  if cString s = [] then false
  else if ¬ isSafeString s then false
  else
    match strrchr 0x3a (cString s) with
    | none => false
    | some (host, port) =>
      if host = [] ∨ port = [] then false else (parseUintBounded port 1 65535).isSome

/-- The options of a call whose cache has passed the checks of `parse_with_config`. -/
structure CacheOptions extends CallOptions where
  redisAddr_ok : cacheBackend = lit "redis" → parseHostPort cacheRedisAddr = true
  redisPassword_ok : cacheBackend = lit "redis" → isSafeString cacheRedisPassword = true
  redisDb_range : ∀ db ∈ cacheRedisDb, 0 ≤ db ∧ db ≤ 15
  servers_ne : cacheBackend = lit "memcached" → cacheMemcachedServers ≠ []
  servers_ok : cacheBackend = lit "memcached" →
    ∀ server ∈ cacheMemcachedServers, parseHostPort server = true

/-! ## Rendering -/

/-- The number of the database, unless it is absent. -/
def appendDb : Option ℤ → Write Unit
  | none => pure ()
  | some db => do
    match ← snprintf (← left) (lit ",\"redisDB\":" ++ formatInt db) with
    | none => refuse
    | some n =>
      refuseIf fun pos cap ↦ decide (n ≥ cap - pos)
      advance n

/-- The branch for redis. -/
def writeRedis (o : CallOptions) : Write Unit := do
  refuseIf fun _ cap ↦ decide (cap < 32)
  copy (lit "\x7b\"redisAddr\":")
  mesiJsonAppendStr o.cacheRedisAddr
  copy (lit ",\"redisPassword\":")
  mesiJsonAppendStr o.cacheRedisPassword
  appendDb o.cacheRedisDb
  refuseIf fun pos cap ↦ decide (pos + 2 ≥ cap)
  put 0x7d
  terminate

/-- A comma, unless it is the first entry. -/
def appendComma (first : Bool) : Write Unit :=
  if ¬ first then do
    refuseIf fun pos cap ↦ decide (pos + 1 ≥ cap)
    put 0x2c
  else pure ()

/-- The body of the loop over the servers. -/
def appendServer (first : Bool) (server : Bytes) : Write Bool := do
  appendComma first
  mesiJsonAppendStr server
  pure false

/-- The branch for memcached. That the servers are a list of strings has been checked. -/
def writeMemcached (o : CallOptions) : Write Unit := do
  refuseIf fun _ cap ↦ decide (cap < 16)
  copy (lit "\x7b\"servers\":[")
  let _ ← o.cacheMemcachedServers.foldlM appendServer true
  refuseIf fun pos cap ↦ decide (pos + 2 ≥ cap)
  put 0x5d
  put 0x7d
  terminate

/-- The branch without servers. -/
def writeEmpty : Write Unit := do
  refuseIf fun _ cap ↦ decide (cap < 3)
  put 0x7b
  put 0x7d
  terminate

/-- `build_cache_config_json` -/
def writeCacheConfig (o : CallOptions) : Write Unit := do
  terminate
  if o.cacheBackend = [] ∨ o.cacheBackend = lit "memory" then writeEmpty
  else if o.cacheBackend = lit "redis" then writeRedis o
  else if o.cacheBackend = lit "memcached" then writeMemcached o
  else refuse

/-! ## What is claimed of it -/

/-- libgomesi gets the values of the options out of a text. -/
def Decodes (U : Unicode) (o : CallOptions) (text : Bytes) : Prop :=
  if o.cacheBackend = lit "redis" then
    parseRedisConfig U (cString text) =
      .ok ⟨o.cacheRedisAddr, o.cacheRedisPassword, o.cacheRedisDb.getD 0⟩
  else if o.cacheBackend = lit "memcached" then
    parseMemcachedConfig U (cString text) = .ok o.cacheMemcachedServers
  else text = lit "\x7b\x7d"

/-- Nothing is written outside of a buffer, and if the options are rendered at all they are rendered
as what they are. -/
def RendersExactly (U : Unicode) (o : CallOptions) (cap : ℕ) : Prop :=
  match writeCacheConfig o (Block.alloc cap) with
  | .ok (_, out) => ∃ text, out.IsString text ∧ Decodes U o text
  | .error .refused => True
  | .error .overrun => False

/-- The length of a string in C. -/
def strlen (s : Bytes) : ℕ := (cString s).length

/-- The length of the member for the database, whose number has two digits at most. -/
def dbLength (db : Option ℤ) : ℕ := db.elim 0 fun n ↦ if n < 10 then 12 else 13

/-- The name of the second member goes over the end of a buffer. -/
def Overruns (o : CallOptions) (cap : ℕ) : Prop :=
  32 ≤ cap ∧ strlen o.cacheRedisAddr + 16 ≤ cap ∧ cap < strlen o.cacheRedisAddr + 32

/-- When the rendering is in bounds and exact. -/
structure RendersWhen (o : CallOptions) (cap : ℕ) : Prop where
  cap_pos : 0 < cap
  redis : o.cacheBackend = lit "redis" → ¬ Overruns o cap ∧
    (strlen o.cacheRedisAddr + strlen o.cacheRedisPassword + dbLength o.cacheRedisDb + 37 ≤ cap →
      Transparent o.cacheRedisAddr ∧ Transparent o.cacheRedisPassword)
  memcached : o.cacheBackend = lit "memcached" →
    (o.cacheMemcachedServers.map fun s ↦ strlen s + 3).sum + 14 ≤ cap →
      ∀ s ∈ o.cacheMemcachedServers, Transparent s

/-! ## The escapes -/

theorem hex?_hexDigit : ∀ n < 16, hex? (hexDigit n) = some n ∧ hexDigit n ≠ 0 := by decide

theorem escapes_escapeByte : Escapes escapeByte := by
  intro b
  rw [escapeByte]
  by_cases hquote : b = 0x22
  · rw [if_pos hquote, hquote]
    exact .inr ⟨by decide, [0x22], rfl, fun _ ↦ rfl⟩
  by_cases hbackslash : b = 0x5c
  · rw [if_neg hquote, if_pos hbackslash, hbackslash]
    exact .inr ⟨by decide, [0x5c], rfl, fun _ ↦ rfl⟩
  by_cases hcontrol : b < 0x20
  · have hsmall : b.toNat < 0x20 := UInt8.lt_iff_toNat_lt.mp hcontrol
    have hascii : b < 0x80 := UInt8.lt_iff_toNat_lt.mpr (hsmall.trans (by decide))
    rw [if_neg hquote, if_neg hbackslash, if_pos hcontrol]
    refine .inr ⟨hascii, [0x75, 0x30, 0x30, hexDigit (b.toNat / 16), hexDigit (b.toNat % 16)], rfl,
      fun rest ↦ ?_⟩
    have hhigh := (hex?_hexDigit (b.toNat / 16) (by omega)).1
    have hlow := (hex?_hexDigit (b.toNat % 16) (by omega)).1
    have hgetu4 : getu4 (0x30 :: 0x30 :: hexDigit (b.toNat / 16) :: hexDigit (b.toNat % 16) :: rest) =
        some (b.toNat, rest) := by
      rw [getu4, hhigh, hlow]
      change some (0 * 4096 + 0 * 256 + b.toNat / 16 * 16 + b.toNat % 16, rest) = _
      congr 2
      omega
    have hrune : surrogate b.toNat rest = (b.toNat, rest) := if_neg (by omega)
    change (getu4 (0x30 :: 0x30 :: hexDigit (b.toNat / 16) :: hexDigit (b.toNat % 16) :: rest)).map _ =
      _
    rw [hgetu4, Option.map_some, hrune, encodeRune_of_lt hascii]
  · rw [if_neg hquote, if_neg hbackslash, if_neg hcontrol]
    exact .inl ⟨rfl, hquote, hbackslash⟩

/-- Every control character is written with an escape. -/
theorem legible_escapeByte (s : Bytes) : legible escapeByte s = true := by
  rw [legible, List.all_eq_true]
  intro b _
  rw [decide_eq_true_eq]
  intro hcontrol h
  have hquote : b ≠ 0x22 := by rintro rfl; exact absurd hcontrol (by decide)
  have hbackslash : b ≠ 0x5c := by rintro rfl; exact absurd hcontrol (by decide)
  rw [escapeByte, if_neg hquote, if_neg hbackslash, if_pos hcontrol] at h
  have hhead := congrArg List.head? h
  change some 0x5c = some b at hhead
  exact hbackslash (Option.some.inj hhead).symm

theorem keepsNul_escapeByte : KeepsNul escapeByte := by
  intro b hb
  have hunicode : 0 ∉ lit "\\u00" := by decide
  have hlt := UInt8.toNat_lt b
  rw [escapeByte]
  split_ifs
  · decide
  · decide
  · rw [List.mem_append, not_or]
    refine ⟨hunicode, fun h ↦ ?_⟩
    rcases List.mem_cons.mp h with h | h
    · exact (hex?_hexDigit (b.toNat / 16) (by omega)).2 h.symm
    · exact (hex?_hexDigit (b.toNat % 16) (by omega)).2 (List.mem_singleton.mp h).symm
  · exact fun h ↦ hb (List.mem_singleton.mp h).symm

/-- A safe string needs no escapes. -/
theorem flatMap_escapeByte {s : Bytes} (h : isSafeString s = true) :
    (cString s).flatMap escapeByte = cString s := by
  rw [isSafeString, List.all_eq_true] at h
  rw [← List.flatMap_singleton' (cString s), List.flatMap_assoc]
  refine List.flatMap_congr fun b hb ↦ ?_
  have hb' := h b hb
  rw [List.flatMap_singleton, escapeByte]
  by_cases hcontrol : b < 0x20
  · rw [if_pos hcontrol] at hb'
    cases hb'
  by_cases hmeta : b = 0x22 ∨ b = 0x5c
  · split_ifs at hb'
  · rw [not_or] at hmeta
    rw [if_neg hmeta.1, if_neg hmeta.2, if_neg hcontrol]

theorem jsonString_eq (s : Bytes) : jsonString s = quoted escapeByte (cString s) := rfl

theorem length_jsonString {s : Bytes} (h : isSafeString s = true) :
    (jsonString s).length = strlen s + 2 := by
  rw [jsonString, flatMap_escapeByte h, List.length_append, List.length_append, strlen]
  exact Nat.add_comm 1 _

theorem isSafeString_of_parseHostPort {s : Bytes} (h : parseHostPort s = true) :
    cString s ≠ [] ∧ isSafeString s = true := by
  rw [parseHostPort] at h
  by_cases hnil : cString s = []
  · rw [if_pos hnil] at h
    exact nomatch h
  by_cases hsafe : isSafeString s = true
  · exact ⟨hnil, hsafe⟩
  · rw [if_neg hnil, if_pos hsafe] at h
    exact nomatch h

/-! ## The steps -/

theorem checked_appendDb {db : Option ℤ} (h : ∀ n ∈ db, 0 ≤ n ∧ n ≤ 15) :
    Checked (appendDb db) (dbText db) () := by
  cases db with
  | none => exact .pure ()
  | some n =>
    have hint : (lit ",\"redisDB\":" ++ formatInt n).length ≤ intMax :=
      (length_number_le _ (k := 2) (by decide) (h n rfl).1 (by have := (h n rfl).2; omega)).trans
        (by decide)
    have hchecked := checked_appendf hint
    -- Where there is room for a NUL, the first check of `appendf` does nothing.
    have heq {b : Block} {t : Bytes} (hb : b.Holds t) (hroom : t.length + 1 ≤ b.cap) :
        appendDb (some n) b = C.Write.appendf (lit ",\"redisDB\":" ++ formatInt n) b := by
      have hpos := hb.pos_eq
      rw [C.Write.appendf, bind_of_ok (refuseIf_of_not (by simp; omega))]
      rfl
    exact
      { run := fun {b t} hb hroom ↦ by
          rw [heq hb (by omega)]
          exact hchecked.run hb hroom
        stops := fun {b t} hb hroom hlt ↦ by
          rw [heq hb hroom]
          exact hchecked.stops hb hroom hlt }

theorem length_dbText {db : Option ℤ} (h : ∀ n ∈ db, 0 ≤ n ∧ n ≤ 15) :
    (dbText db).length = dbLength db := by
  cases db with
  | none => rfl
  | some n =>
    obtain ⟨h0, h15⟩ := h n rfl
    interval_cases n <;> decide

theorem checked_appendServer (first : Bool) (server : Bytes) :
    Checked (appendServer first server)
      ((if !first then lit "," else []) ++ jsonString server) false := by
  have hcomma : Checked (appendComma first) (if !first then lit "," else []) () := by
    rw [appendComma]
    cases first with
    | true => exact .pure ()
    | false => exact (emits_put 0x2c).checked
  refine (hcomma.bind <| (checked_mesiJsonAppendStr server).bind <| .pure false).of_eq ?_
  rw [List.append_nil]

theorem checked_servers (servers : List Bytes) : ∃ first,
    Checked (servers.foldlM appendServer true) (commas (servers.map jsonString)) first := by
  refine ⟨_, (Appends.foldlM checked_appendServer true servers).of_eq ?_⟩
  have hstarted : (!true) = false := rfl
  exact emitted_separated (fun (_ : Bool) _ ↦ (rfl : (!false) = true)) hstarted servers

/-! ## What becomes of a rendering -/

variable {o : CacheOptions} {b : Block} {t : Bytes}

theorem mesiJsonAppendStr_of_full (h : b.cap ≤ b.pos + 1) (src : Bytes) :
    mesiJsonAppendStr src b = .error .refused := by
  have hputc : mesiPutc 0x22 b = .error .refused :=
    bind_of_error (refuseIf_of_true (decide_eq_true h))
  exact bind_of_error hputc

/-- The end of the branch for redis, after the name of the second member. -/
def endRedis (o : CallOptions) : Write Unit := do
  mesiJsonAppendStr o.cacheRedisPassword
  appendDb o.cacheRedisDb
  refuseIf fun pos cap ↦ decide (pos + 2 ≥ cap)
  put 0x7d
  terminate

theorem endRedis_refused (hredis : o.cacheBackend = lit "redis") (hb : b.Holds t)
    (h : b.cap < t.length + strlen o.cacheRedisPassword + dbLength o.cacheRedisDb + 5) :
    endRedis o.toCallOptions b = .error .refused := by
  have hpos := hb.pos_eq
  have hpassword := length_jsonString (o.redisPassword_ok hredis)
  have hdb := length_dbText o.redisDb_range
  by_cases hfull : b.cap ≤ t.length + 1
  · exact bind_of_error (mesiJsonAppendStr_of_full (hpos ▸ hfull) _)
  by_cases hlong : b.cap < t.length + (jsonString o.cacheRedisPassword).length + 1
  · exact bind_of_error ((checked_mesiJsonAppendStr _).stops hb (by omega) hlong)
  obtain ⟨b₁, hb₁, hcap₁, hholds₁⟩ :=
    (checked_mesiJsonAppendStr o.cacheRedisPassword).run hb (by omega)
  rw [endRedis, bind_of_ok hb₁]
  have hlength₁ : (t ++ jsonString o.cacheRedisPassword).length =
      t.length + (jsonString o.cacheRedisPassword).length := List.length_append
  by_cases hlong' : b.cap < (t ++ jsonString o.cacheRedisPassword).length +
      (dbText o.cacheRedisDb).length + 1
  · exact bind_of_error ((checked_appendDb o.redisDb_range).stops hholds₁ (by omega) (by omega))
  obtain ⟨b₂, hb₂, hcap₂, hholds₂⟩ := (checked_appendDb o.redisDb_range).run hholds₁ (by omega)
  have hpos₂ := hholds₂.pos_eq
  rw [List.length_append] at hpos₂
  rw [bind_of_ok hb₂]
  exact bind_of_error (refuseIf_of_true (decide_eq_true (by omega)))

theorem endRedis_isString (hredis : o.cacheBackend = lit "redis") (hb : b.Holds t)
    (h : t.length + strlen o.cacheRedisPassword + dbLength o.cacheRedisDb + 5 ≤ b.cap) :
    ∃ out, endRedis o.toCallOptions b = .ok ((), out) ∧ out.IsString
      (t ++ jsonString o.cacheRedisPassword ++ dbText o.cacheRedisDb ++ lit "\x7d") := by
  have hpassword := length_jsonString (o.redisPassword_ok hredis)
  have hdb := length_dbText o.redisDb_range
  obtain ⟨b₁, hb₁, hcap₁, hholds₁⟩ :=
    (checked_mesiJsonAppendStr o.cacheRedisPassword).run hb (by omega)
  have hlength₁ : (t ++ jsonString o.cacheRedisPassword).length =
      t.length + (jsonString o.cacheRedisPassword).length := List.length_append
  obtain ⟨b₂, hb₂, hcap₂, hholds₂⟩ := (checked_appendDb o.redisDb_range).run hholds₁ (by omega)
  have hlength₂ := hholds₂.pos_eq
  rw [List.length_append] at hlength₂
  have hclose : ¬ decide (b₂.pos + 2 ≥ b₂.cap) = true := by
    rw [decide_eq_true_eq]
    omega
  obtain ⟨out, hout, -, hstring⟩ := (emits_put 0x7d).exists_terminate hholds₂
    (by rw [List.length_append, List.length_singleton]; omega)
    (by rw [List.length_append, List.length_singleton]; omega)
  refine ⟨out, ?_, hstring⟩
  rw [endRedis, bind_of_ok hb₁, bind_of_ok hb₂, bind_of_ok (refuseIf_of_not hclose)]
  exact hout

/-- The text before the name of the second member. -/
def redisHead (o : CallOptions) : Bytes := lit "\x7b\"redisAddr\":" ++ jsonString o.cacheRedisAddr

theorem length_redisHead (hredis : o.cacheBackend = lit "redis") :
    (redisHead o.toCallOptions).length = strlen o.cacheRedisAddr + 15 := by
  have haddr := length_jsonString (isSafeString_of_parseHostPort (o.redisAddr_ok hredis)).2
  rw [redisHead, List.length_append, haddr]
  exact Nat.add_comm 13 _

/-- The branch for redis up to the copy that is not checked. -/
theorem writeRedis_eq (hredis : o.cacheBackend = lit "redis") (hb : b.Holds []) (hcap : 32 ≤ b.cap)
    (h : strlen o.cacheRedisAddr + 16 ≤ b.cap) :
    ∃ b', b'.cap = b.cap ∧ b'.Holds (redisHead o.toCallOptions) ∧
      writeRedis o.toCallOptions b =
        (do copy (lit ",\"redisPassword\":"); endRedis o.toCallOptions : Write Unit) b' := by
  have haddr := length_jsonString (isSafeString_of_parseHostPort (o.redisAddr_ok hredis)).2
  have hkey : (lit "\x7b\"redisAddr\":").length = 13 := by decide
  have henough : ¬ decide (b.cap < 32) = true := by
    rw [decide_eq_true_eq]
    omega
  obtain ⟨b₁, hb₁, hcap₁, hholds₁⟩ := (emits_copy (lit "\x7b\"redisAddr\":")).run hb
    (by rw [List.length_nil]; omega)
  obtain ⟨b₂, hb₂, hcap₂, hholds₂⟩ := (checked_mesiJsonAppendStr o.cacheRedisAddr).run hholds₁
    (by rw [List.nil_append]; omega)
  rw [List.nil_append] at hholds₂
  refine ⟨b₂, hcap₂.trans hcap₁, hholds₂, ?_⟩
  rw [writeRedis, bind_of_ok (refuseIf_of_not henough), bind_of_ok hb₁, bind_of_ok hb₂]
  rfl

theorem writeRedis_refused_of_addr (hredis : o.cacheBackend = lit "redis") (hb : b.Holds [])
    (h : b.cap < 32 ∨ b.cap < strlen o.cacheRedisAddr + 16) :
    writeRedis o.toCallOptions b = .error .refused := by
  have haddr := length_jsonString (isSafeString_of_parseHostPort (o.redisAddr_ok hredis)).2
  have hkey : (lit "\x7b\"redisAddr\":").length = 13 := by decide
  by_cases hsmall : b.cap < 32
  · exact bind_of_error (refuseIf_of_true (decide_eq_true hsmall))
  have henough : ¬ decide (b.cap < 32) = true := by rwa [decide_eq_true_eq]
  obtain ⟨b₁, hb₁, hcap₁, hholds₁⟩ := (emits_copy (lit "\x7b\"redisAddr\":")).run hb
    (by rw [List.length_nil]; omega)
  rw [writeRedis, bind_of_ok (refuseIf_of_not henough), bind_of_ok hb₁]
  exact bind_of_error ((checked_mesiJsonAppendStr o.cacheRedisAddr).stops hholds₁
    (by rw [List.nil_append]; omega) (by rw [List.nil_append]; omega))

/-- **The defect.** The second name is copied over the end of the buffer. -/
theorem writeRedis_overrun (hredis : o.cacheBackend = lit "redis") (hb : b.Holds [])
    (h : Overruns o.toCallOptions b.cap) : writeRedis o.toCallOptions b = .error .overrun := by
  obtain ⟨hcap, hfits, hlong⟩ := h
  have hkey : (lit ",\"redisPassword\":").length = 17 := by decide
  obtain ⟨b', hcap', hholds, heq⟩ := writeRedis_eq hredis hb hcap hfits
  have hhead := length_redisHead hredis
  rw [heq]
  exact bind_of_error ((emits_copy _).stops hholds (by omega) (by omega))

/-- The branch for redis where the second name does fit. -/
theorem writeRedis_spec (hredis : o.cacheBackend = lit "redis") (hb : b.Holds []) (hcap : 32 ≤ b.cap)
    (h : strlen o.cacheRedisAddr + 32 ≤ b.cap) :
    if strlen o.cacheRedisAddr + strlen o.cacheRedisPassword + dbLength o.cacheRedisDb + 37 ≤ b.cap
    then ∃ out, writeRedis o.toCallOptions b = .ok ((), out) ∧ out.IsString
      (redisText escapeByte (cString o.cacheRedisAddr) (cString o.cacheRedisPassword) o.cacheRedisDb)
    else writeRedis o.toCallOptions b = .error .refused := by
  have hkey : (lit ",\"redisPassword\":").length = 17 := by decide
  obtain ⟨b', hcap', hholds, heq⟩ := writeRedis_eq hredis hb hcap (by omega)
  have hhead := length_redisHead hredis
  obtain ⟨b₁, hb₁, hcap₁, hholds₁⟩ := (emits_copy (lit ",\"redisPassword\":")).run hholds (by omega)
  have hlength : (redisHead o.toCallOptions ++ lit ",\"redisPassword\":").length =
      strlen o.cacheRedisAddr + 32 := by
    rw [List.length_append, hhead, hkey]
  rw [heq, bind_of_ok hb₁]
  by_cases hroom : strlen o.cacheRedisAddr + strlen o.cacheRedisPassword +
      dbLength o.cacheRedisDb + 37 ≤ b.cap
  · rw [if_pos hroom]
    obtain ⟨out, hout, hstring⟩ := endRedis_isString hredis hholds₁ (by omega)
    refine ⟨out, hout, ?_⟩
    rw [redisText_eq]
    simpa only [redisHead, jsonString_eq, List.append_assoc] using hstring
  · rw [if_neg hroom]
    exact endRedis_refused hredis hholds₁ (by omega)

/-- The sum of the lengths of strings with quotes and commas. -/
theorem length_commas {servers : List Bytes} (hne : servers ≠ [])
    (h : ∀ s ∈ servers, isSafeString s = true) :
    (commas (servers.map jsonString)).length + 1 = (servers.map fun s ↦ strlen s + 3).sum := by
  induction servers with
  | nil => exact absurd rfl hne
  | cons s servers ih =>
    rw [List.forall_mem_cons] at h
    have hs := length_jsonString h.1
    cases servers with
    | nil =>
      rw [List.map_singleton, commas_singleton, hs, List.map_singleton, List.sum_singleton]
    | cons s' servers =>
      have hrest := ih (List.cons_ne_nil _ _) h.2
      have hsum : ((s :: s' :: servers).map fun s ↦ strlen s + 3).sum =
          strlen s + 3 + ((s' :: servers).map fun s ↦ strlen s + 3).sum := List.sum_cons
      rw [hsum, ← hrest, List.map_cons, List.map_cons, commas_cons_cons, List.length_append,
        List.length_cons, hs]
      omega

theorem three_le_sum {servers : List Bytes} (hne : servers ≠ []) :
    3 ≤ (servers.map fun s ↦ strlen s + 3).sum := by
  obtain ⟨server, servers, rfl⟩ := List.exists_cons_of_ne_nil hne
  rw [List.map_cons, List.sum_cons]
  omega

theorem writeMemcached_spec (hmemcached : o.cacheBackend = lit "memcached") (hb : b.Holds []) :
    if (o.cacheMemcachedServers.map fun s ↦ strlen s + 3).sum + 14 ≤ b.cap
    then ∃ out, writeMemcached o.toCallOptions b = .ok ((), out) ∧
      out.IsString (memcachedText escapeByte (o.cacheMemcachedServers.map cString))
    else writeMemcached o.toCallOptions b = .error .refused := by
  have hkey : (lit "\x7b\"servers\":[").length = 12 := by decide
  have hlength := length_commas (o.servers_ne hmemcached) fun s hs ↦
    (isSafeString_of_parseHostPort (o.servers_ok hmemcached s hs)).2
  obtain ⟨first, hservers⟩ := checked_servers o.cacheMemcachedServers
  have hpos := three_le_sum (o.servers_ne hmemcached)
  by_cases hsmall : b.cap < 16
  · rw [if_neg (by omega)]
    exact bind_of_error (refuseIf_of_true (decide_eq_true hsmall))
  have henough : ¬ decide (b.cap < 16) = true := by rwa [decide_eq_true_eq]
  obtain ⟨b₁, hb₁, hcap₁, hholds₁⟩ := (emits_copy (lit "\x7b\"servers\":[")).run hb
    (by rw [List.length_nil]; omega)
  rw [List.nil_append] at hholds₁
  rw [writeMemcached, bind_of_ok (refuseIf_of_not henough), bind_of_ok hb₁]
  by_cases hlong : b.cap < 12 + (commas (o.cacheMemcachedServers.map jsonString)).length + 1
  · rw [if_neg (by omega)]
    exact bind_of_error (hservers.stops hholds₁ (by omega) (by omega))
  obtain ⟨b₂, hb₂, hcap₂, hholds₂⟩ := hservers.run hholds₁ (by omega)
  have hpos₂ := hholds₂.pos_eq
  rw [List.length_append] at hpos₂
  rw [bind_of_ok hb₂]
  by_cases hroom : (o.cacheMemcachedServers.map fun s ↦ strlen s + 3).sum + 14 ≤ b.cap
  · have hclose : ¬ decide (b₂.pos + 2 ≥ b₂.cap) = true := by
      rw [decide_eq_true_eq]
      omega
    obtain ⟨b₃, hb₃, hcap₃, hholds₃⟩ := (emits_put 0x5d).run hholds₂
      (by rw [List.length_append, List.length_singleton]; omega)
    obtain ⟨out, hout, -, hstring⟩ := (emits_put 0x7d).exists_terminate hholds₃
      (by simp only [List.length_append, List.length_singleton]; omega)
      (by simp only [List.length_append, List.length_singleton]; omega)
    rw [if_pos hroom]
    refine ⟨out, ?_, ?_⟩
    · rw [bind_of_ok (refuseIf_of_not hclose), bind_of_ok hb₃]
      exact hout
    · have hquoted : (o.cacheMemcachedServers.map cString).map (quoted escapeByte) =
          o.cacheMemcachedServers.map jsonString := List.map_map
      have hend : lit "]\x7d" = [0x5d] ++ [0x7d] := rfl
      rw [memcachedText_eq, hquoted, hend]
      simpa only [List.append_assoc] using hstring
  · rw [if_neg hroom]
    exact bind_of_error (refuseIf_of_true (decide_eq_true (by omega)))

/-! ## What libgomesi reads -/

theorem toValid_ne_nil {s : Bytes} (h : s ≠ []) : toValid s ≠ [] := by
  have hle := length_le_toValid s
  exact List.ne_nil_of_length_pos ((List.length_pos_of_ne_nil h).trans_le hle)

theorem decodes_redis_iff {U : Unicode} (hredis : o.cacheBackend = lit "redis") :
    Decodes U o.toCallOptions (redisText escapeByte (cString o.cacheRedisAddr)
        (cString o.cacheRedisPassword) o.cacheRedisDb) ↔
      Transparent o.cacheRedisAddr ∧ Transparent o.cacheRedisPassword := by
  have haddr := toValid_ne_nil (isSafeString_of_parseHostPort (o.redisAddr_ok hredis)).1
  have hserver : (RedisConfig.mk (toValid (cString o.cacheRedisAddr))
      (toValid (cString o.cacheRedisPassword)) o.cacheRedisDb).server =
      ⟨toValid (cString o.cacheRedisAddr), toValid (cString o.cacheRedisPassword),
        o.cacheRedisDb.getD 0⟩ := by
    rw [RedisConfig.server, RedisServer.mk.injEq]
    refine ⟨if_pos haddr, ite_eq_left_iff.mpr fun h ↦ (not_not.mp h).symm, ?_⟩
    cases hdb : o.cacheRedisDb with
    | none => rfl
    | some n => exact if_pos (o.redisDb_range n hdb).1
  rw [Decodes, if_pos hredis, cString_redisText keepsNul_escapeByte (zero_not_mem_cString _)
      (zero_not_mem_cString _), parseRedisConfig_text escapes_escapeByte _ _ fun n hn ↦
      have := o.redisDb_range n hn
      ⟨by omega, by omega⟩,
    if_pos ⟨legible_escapeByte _, legible_escapeByte _⟩, hserver, Except.ok.injEq,
    RedisServer.mk.injEq, transparent_iff, transparent_iff]
  exact and_congr_right fun _ ↦ and_iff_left rfl

theorem decodes_memcached_iff {U : Unicode} (hmemcached : o.cacheBackend = lit "memcached") :
    Decodes U o.toCallOptions
        (memcachedText escapeByte (o.cacheMemcachedServers.map cString)) ↔
      ∀ s ∈ o.cacheMemcachedServers, Transparent s := by
  have hredis : o.cacheBackend ≠ lit "redis" := by
    rw [hmemcached]
    decide
  have hall : ¬ ¬ ((o.cacheMemcachedServers.map cString).all (legible escapeByte)) = true := by
    rw [not_not, List.all_eq_true]
    exact fun s _ ↦ legible_escapeByte s
  have hne : o.cacheMemcachedServers.map cString ≠ [] :=
    List.map_eq_nil_iff.not.mpr (o.servers_ne hmemcached)
  have hnul : ∀ s ∈ o.cacheMemcachedServers.map cString, 0 ∉ s := by
    intro s hs
    obtain ⟨s, -, rfl⟩ := List.mem_map.mp hs
    exact zero_not_mem_cString s
  rw [Decodes, if_neg hredis, if_pos hmemcached, cString_memcachedText keepsNul_escapeByte hnul,
    parseMemcachedConfig_text escapes_escapeByte, if_neg hall, if_neg hne, Except.ok.injEq,
    List.map_map]
  conv_lhs => rhs; rw [← List.map_id o.cacheMemcachedServers]
  rw [List.map_inj_left]
  exact forall₂_congr fun s _ ↦ transparent_iff.symm

/-! ## When it is in bounds and exact -/

theorem rendersExactly_of_ok {U : Unicode} {cap : ℕ} {out : Block} {text : Bytes}
    (h : writeCacheConfig o.toCallOptions (Block.alloc cap) = .ok ((), out))
    (hstring : out.IsString text) :
    RendersExactly U o.toCallOptions cap ↔ Decodes U o.toCallOptions text := by
  rw [RendersExactly, h]
  constructor
  · rintro ⟨text', hstring', hdecodes⟩
    rwa [hstring.toHolds.unique hstring'.toHolds]
  · exact fun hdecodes ↦ ⟨text, hstring, hdecodes⟩

theorem rendersExactly_of_refused {U : Unicode} {cap : ℕ}
    (h : writeCacheConfig o.toCallOptions (Block.alloc cap) = .error .refused) :
    RendersExactly U o.toCallOptions cap := by
  rw [RendersExactly, h]
  trivial

theorem not_rendersExactly_of_overrun {U : Unicode} {cap : ℕ}
    (h : writeCacheConfig o.toCallOptions (Block.alloc cap) = .error .overrun) :
    ¬ RendersExactly U o.toCallOptions cap := by
  rw [RendersExactly, h]
  exact id

/-- The NUL at the front, which is written whatever the capacity is. -/
theorem writeCacheConfig_zero (o : CallOptions) :
    writeCacheConfig o (Block.alloc 0) = .error .overrun :=
  bind_of_error ((Block.holds_alloc 0).terminate_eq_overrun le_rfl)

theorem writeCacheConfig_eq (o : CallOptions) {cap : ℕ} (hcap : 0 < cap) :
    ∃ b, b.cap = cap ∧ b.Holds [] ∧ writeCacheConfig o (Block.alloc cap) =
      (if o.cacheBackend = [] ∨ o.cacheBackend = lit "memory" then writeEmpty
      else if o.cacheBackend = lit "redis" then writeRedis o
      else if o.cacheBackend = lit "memcached" then writeMemcached o
      else refuse) b := by
  obtain ⟨b, hb, hcap', hstring⟩ := (Block.holds_alloc cap).exists_terminate hcap
  exact ⟨b, hcap', hstring.toHolds, bind_of_ok hb⟩

theorem writeEmpty_spec (hb : b.Holds []) :
    if 3 ≤ b.cap then ∃ out, writeEmpty b = .ok ((), out) ∧ out.IsString (lit "\x7b\x7d")
    else writeEmpty b = .error .refused := by
  by_cases hcap : 3 ≤ b.cap
  · have henough : ¬ decide (b.cap < 3) = true := by
      rw [decide_eq_true_eq]
      omega
    obtain ⟨b₁, hb₁, hcap₁, hholds₁⟩ := (emits_put 0x7b).run hb (by simp; omega)
    obtain ⟨out, hout, -, hstring⟩ := (emits_put 0x7d).exists_terminate hholds₁
      (by simp; omega) (by simp; omega)
    rw [if_pos hcap]
    refine ⟨out, ?_, hstring⟩
    rw [writeEmpty, bind_of_ok (refuseIf_of_not henough), bind_of_ok hb₁]
    exact hout
  · rw [if_neg hcap]
    exact bind_of_error (refuseIf_of_true (decide_eq_true (not_le.mp hcap)))

theorem writeCacheConfig_redis (hredis : o.cacheBackend = lit "redis") {cap : ℕ} (hcap : 0 < cap)
    (hbounds : ¬ Overruns o.toCallOptions cap) :
    if strlen o.cacheRedisAddr + strlen o.cacheRedisPassword + dbLength o.cacheRedisDb + 37 ≤ cap
    then ∃ out, writeCacheConfig o.toCallOptions (Block.alloc cap) = .ok ((), out) ∧ out.IsString
      (redisText escapeByte (cString o.cacheRedisAddr) (cString o.cacheRedisPassword) o.cacheRedisDb)
    else writeCacheConfig o.toCallOptions (Block.alloc cap) = .error .refused := by
  obtain ⟨b, rfl, hholds, heq⟩ := writeCacheConfig_eq o.toCallOptions hcap
  have hempty : ¬ (o.cacheBackend = [] ∨ o.cacheBackend = lit "memory") := by
    rw [hredis]
    decide
  rw [if_neg hempty, if_pos hredis] at heq
  rw [Overruns] at hbounds
  by_cases haddr : b.cap < 32 ∨ b.cap < strlen o.cacheRedisAddr + 16
  · -- It gives up before the name.
    rw [if_neg (by omega)]
    exact heq.trans (writeRedis_refused_of_addr hredis hholds haddr)
  · rw [heq]
    exact writeRedis_spec hredis hholds (by omega) (by omega)

theorem writeCacheConfig_overrun (hredis : o.cacheBackend = lit "redis") {cap : ℕ}
    (h : Overruns o.toCallOptions cap) :
    writeCacheConfig o.toCallOptions (Block.alloc cap) = .error .overrun := by
  have hcap : 0 < cap := lt_of_lt_of_le (by decide) h.1
  obtain ⟨b, rfl, hholds, heq⟩ := writeCacheConfig_eq o.toCallOptions hcap
  have hempty : ¬ (o.cacheBackend = [] ∨ o.cacheBackend = lit "memory") := by
    rw [hredis]
    decide
  rw [heq, if_neg hempty, if_pos hredis]
  exact writeRedis_overrun hredis hholds h

theorem writeCacheConfig_memcached (hmemcached : o.cacheBackend = lit "memcached") {cap : ℕ}
    (hcap : 0 < cap) :
    if (o.cacheMemcachedServers.map fun s ↦ strlen s + 3).sum + 14 ≤ cap
    then ∃ out, writeCacheConfig o.toCallOptions (Block.alloc cap) = .ok ((), out) ∧
      out.IsString (memcachedText escapeByte (o.cacheMemcachedServers.map cString))
    else writeCacheConfig o.toCallOptions (Block.alloc cap) = .error .refused := by
  obtain ⟨b, rfl, hholds, heq⟩ := writeCacheConfig_eq o.toCallOptions hcap
  have hempty : ¬ (o.cacheBackend = [] ∨ o.cacheBackend = lit "memory") := by
    rw [hmemcached]
    decide
  have hredis : o.cacheBackend ≠ lit "redis" := by
    rw [hmemcached]
    decide
  rw [heq, if_neg hempty, if_neg hredis, if_pos hmemcached]
  exact writeMemcached_spec hmemcached hholds

theorem writeCacheConfig_empty (hempty : o.cacheBackend = [] ∨ o.cacheBackend = lit "memory") {cap : ℕ}
    (hcap : 0 < cap) :
    if 3 ≤ cap
    then ∃ out, writeCacheConfig o.toCallOptions (Block.alloc cap) = .ok ((), out) ∧
      out.IsString (lit "\x7b\x7d")
    else writeCacheConfig o.toCallOptions (Block.alloc cap) = .error .refused := by
  obtain ⟨b, rfl, hholds, heq⟩ := writeCacheConfig_eq o.toCallOptions hcap
  rw [heq, if_pos hempty]
  exact writeEmpty_spec hholds

theorem backend_cases (o : CacheOptions) :
    (o.cacheBackend = [] ∨ o.cacheBackend = lit "memory") ∨ o.cacheBackend = lit "redis" ∨
      o.cacheBackend = lit "memcached" := by
  have hmem := o.cacheBackend_mem
  rw [backends] at hmem
  simp only [List.mem_cons, List.not_mem_nil, or_false] at hmem
  exact or_assoc.mpr hmem

theorem ne_of_empty (hempty : o.cacheBackend = [] ∨ o.cacheBackend = lit "memory") :
    o.cacheBackend ≠ lit "redis" ∧ o.cacheBackend ≠ lit "memcached" := by
  rcases hempty with h | h <;> rw [h] <;> decide

theorem rendersExactly_redis (U : Unicode) (hredis : o.cacheBackend = lit "redis") {cap : ℕ}
    (hcap : 0 < cap) :
    RendersExactly U o.toCallOptions cap ↔ ¬ Overruns o.toCallOptions cap ∧
      (strlen o.cacheRedisAddr + strlen o.cacheRedisPassword + dbLength o.cacheRedisDb + 37 ≤ cap →
        Transparent o.cacheRedisAddr ∧ Transparent o.cacheRedisPassword) := by
  by_cases hoverrun : Overruns o.toCallOptions cap
  · exact iff_of_false (not_rendersExactly_of_overrun (writeCacheConfig_overrun hredis hoverrun))
      fun h ↦ h.1 hoverrun
  rw [and_iff_right hoverrun]
  have hspec := writeCacheConfig_redis hredis hcap hoverrun
  by_cases hfits : strlen o.cacheRedisAddr + strlen o.cacheRedisPassword +
      dbLength o.cacheRedisDb + 37 ≤ cap
  · rw [if_pos hfits] at hspec
    obtain ⟨out, hout, hstring⟩ := hspec
    rw [rendersExactly_of_ok hout hstring, decodes_redis_iff hredis]
    exact ⟨fun h _ ↦ h, fun h ↦ h hfits⟩
  · rw [if_neg hfits] at hspec
    exact iff_of_true (rendersExactly_of_refused hspec) fun h ↦ absurd h hfits

theorem rendersExactly_memcached (U : Unicode) (hmemcached : o.cacheBackend = lit "memcached")
    {cap : ℕ} (hcap : 0 < cap) :
    RendersExactly U o.toCallOptions cap ↔
      ((o.cacheMemcachedServers.map fun s ↦ strlen s + 3).sum + 14 ≤ cap →
        ∀ s ∈ o.cacheMemcachedServers, Transparent s) := by
  have hspec := writeCacheConfig_memcached hmemcached hcap
  by_cases hfits : (o.cacheMemcachedServers.map fun s ↦ strlen s + 3).sum + 14 ≤ cap
  · rw [if_pos hfits] at hspec
    obtain ⟨out, hout, hstring⟩ := hspec
    rw [rendersExactly_of_ok hout hstring, decodes_memcached_iff hmemcached]
    exact ⟨fun h _ ↦ h, fun h ↦ h hfits⟩
  · rw [if_neg hfits] at hspec
    exact iff_of_true (rendersExactly_of_refused hspec) fun h ↦ absurd h hfits

theorem rendersExactly_empty (U : Unicode)
    (hempty : o.cacheBackend = [] ∨ o.cacheBackend = lit "memory") {cap : ℕ} (hcap : 0 < cap) :
    RendersExactly U o.toCallOptions cap := by
  have hspec := writeCacheConfig_empty hempty hcap
  by_cases hfits : 3 ≤ cap
  · rw [if_pos hfits] at hspec
    obtain ⟨out, hout, hstring⟩ := hspec
    obtain ⟨hredis, hmemcached⟩ := ne_of_empty hempty
    rw [rendersExactly_of_ok hout hstring, Decodes, if_neg hredis, if_neg hmemcached]
  · rw [if_neg hfits] at hspec
    exact rendersExactly_of_refused hspec

/-- **Main result.** The rendering is in bounds and exact if and only if there is a byte at all, the
name after the address does not go over the end, and what fits is not changed by a NUL or by what
is not UTF-8. -/
theorem rendersExactly_iff (U : Unicode) (o : CacheOptions) (cap : ℕ) :
    RendersExactly U o.toCallOptions cap ↔ RendersWhen o.toCallOptions cap := by
  by_cases hcap : 0 < cap
  swap
  · obtain rfl : cap = 0 := Nat.eq_zero_of_not_pos hcap
    exact iff_of_false (not_rendersExactly_of_overrun (writeCacheConfig_zero _)) fun h ↦
      hcap h.cap_pos
  have hdistinct : lit "redis" ≠ lit "memcached" := by decide
  rcases backend_cases o with hempty | hredis | hmemcached
  · obtain ⟨hredis, hmemcached⟩ := ne_of_empty hempty
    exact iff_of_true (rendersExactly_empty U hempty hcap)
      ⟨hcap, fun hr ↦ absurd hr hredis, fun hm ↦ absurd hm hmemcached⟩
  · have hmemcached : o.cacheBackend ≠ lit "memcached" := hredis ▸ hdistinct
    rw [rendersExactly_redis U hredis hcap]
    exact ⟨fun h ↦ ⟨hcap, fun _ ↦ h, fun hm ↦ absurd hm hmemcached⟩, fun h ↦ h.redis hredis⟩
  · have hredis : o.cacheBackend ≠ lit "redis" := hmemcached ▸ hdistinct.symm
    rw [rendersExactly_memcached U hmemcached hcap]
    exact ⟨fun h ↦ ⟨hcap, fun hr ↦ absurd hr hredis, fun _ ↦ h⟩, fun h ↦ h.memcached hmemcached⟩

/-- A host with a long name, on port 1. -/
def longHost (n : ℕ) : Bytes := List.replicate (n + 1) 0x61 ++ lit ":1"

theorem mem_longHost {n : ℕ} {b : UInt8} (h : b ∈ longHost n) : b = 0x61 ∨ b = 0x3a ∨ b = 0x31 := by
  rcases List.mem_append.mp h with h | h
  · exact .inl (List.eq_of_mem_replicate h)
  · have hport : lit ":1" = [0x3a, 0x31] := rfl
    rw [hport, List.mem_cons, List.mem_singleton] at h
    exact .inr h

theorem cString_longHost (n : ℕ) : cString (longHost n) = longHost n := by
  rw [cString_eq_iff]
  intro h
  rcases mem_longHost h with h | h | h <;> exact absurd h (by decide)

theorem parseHostPort_longHost (n : ℕ) : parseHostPort (longHost n) = true := by
  have hsafe : isSafeString (longHost n) = true := by
    rw [isSafeString, cString_longHost, List.all_eq_true]
    intro b hb
    rcases mem_longHost hb with rfl | rfl | rfl <;> decide
  have hcolon (n : ℕ) : strrchr 0x3a (List.replicate n 0x61 ++ lit ":1") =
      some (List.replicate n 0x61, [0x31]) := by
    induction n with
    | zero => rfl
    | succ n ih => rw [List.replicate_succ, List.cons_append, strrchr, ih]
  have hne : longHost n ≠ [] := List.cons_ne_nil _ _
  rw [parseHostPort, cString_longHost, if_neg hne, if_neg (not_not.mpr hsafe), longHost, hcolon]
  rfl

theorem redis_ne_memcached : lit "redis" ≠ lit "memcached" := by decide

theorem redis_mem_backends : lit "redis" ∈ backends := by decide

/-- Options with a host like that. -/
def longRedis (n : ℕ) : CacheOptions where
  maxDepth := 5
  cacheBackend := lit "redis"
  cacheBackend_mem := redis_mem_backends
  cacheRedisAddr := longHost n
  redisAddr_ok _ := parseHostPort_longHost n
  redisPassword_ok _ := rfl
  redisDb_range := forall_mem_none
  servers_ne h := absurd h redis_ne_memcached
  servers_ok h := absurd h redis_ne_memcached

theorem overruns_longRedis {n cap : ℕ} (hcap : 32 ≤ cap) (hfits : n + 19 ≤ cap) (hlong : cap < n + 35) :
    Overruns (longRedis n).toCallOptions cap := by
  have hlength : strlen (longHost n) = n + 3 := by
    rw [strlen, cString_longHost, longHost, List.length_append, List.length_replicate]
    rfl
  change 32 ≤ cap ∧ strlen (longHost n) + 16 ≤ cap ∧ cap < strlen (longHost n) + 32
  omega

/-- An address of 4070 bytes, in the buffer that `parse_with_config` has. -/
theorem not_rendersExactly_longRedis :
    ¬ RendersExactly Unicode.ascii (longRedis 4067).toCallOptions cfgMax := by
  rw [rendersExactly_redis _ rfl (by decide)]
  exact fun h ↦ h.1 (overruns_longRedis (by decide) (by decide) (by decide))

/-! ## The text alone -/

theorem puts_eq (cap : ℕ) (out s : Bytes) :
    puts cap out s = if s = [] ∨ out.length + s.length + 1 ≤ cap then some (out ++ s) else none := by
  induction s generalizing out with
  | nil =>
    rw [if_pos (.inl rfl), List.append_nil]
    rfl
  | cons c s ih =>
    have hstep : puts cap out (c :: s) = (putc cap out c).bind fun out ↦ puts cap out s := rfl
    rw [hstep, putc]
    by_cases hfull : out.length + 1 ≥ cap
    · have hlong : ¬ (c :: s = [] ∨ out.length + (c :: s).length + 1 ≤ cap) := by
        rw [not_or, List.length_cons]
        exact ⟨List.cons_ne_nil c s, by omega⟩
      rw [if_pos hfull, if_neg hlong]
      rfl
    · rw [if_neg hfull, Option.bind_some, ih, List.append_assoc, List.singleton_append]
      refine if_congr ?_ rfl rfl
      rw [List.length_append, List.length_singleton, List.length_cons]
      constructor
      · rintro (rfl | h)
        · exact .inr (by rw [List.length_nil]; omega)
        · exact .inr (by omega)
      · rintro (h | h)
        · exact absurd h (List.cons_ne_nil c s)
        · exact .inr (by omega)

theorem puts_append (cap : ℕ) (out s t : Bytes) :
    puts cap out (s ++ t) = (puts cap out s).bind fun out ↦ puts cap out t := List.foldlM_append

theorem puts_singleton (cap : ℕ) (out : Bytes) (c : UInt8) : puts cap out [c] = putc cap out c := by
  change (putc cap out c).bind some = _
  exact Option.bind_fun_some _

theorem jsonAppendStr_eq (cap : ℕ) (out src : Bytes) :
    jsonAppendStr cap out src = puts cap out (jsonString src) := by
  have hquote : lit "\"" = [0x22] := rfl
  rw [jsonString, hquote, puts_append, puts_singleton]
  simp only [puts_append, puts_singleton]
  rfl

theorem appendServers_eq (cap : ℕ) (out : Bytes) (servers : List Bytes) :
    appendServers cap true out servers = puts cap out (commas (servers.map jsonString)) := by
  have hrest (out : Bytes) (servers : List Bytes) : appendServers cap false out servers =
      puts cap out (servers.flatMap fun s ↦ 0x2c :: jsonString s) := by
    induction servers generalizing out with
    | nil => rfl
    | cons s servers ih =>
      rw [appendServers, List.flatMap_cons, ← List.singleton_append, List.append_assoc, puts_append,
        puts_singleton]
      simp only [puts_append, ← jsonAppendStr_eq, ← ih]
      rfl
  cases servers with
  | nil => rfl
  | cons s servers =>
    have hcommas : commas ((s :: servers).map jsonString) =
        jsonString s ++ servers.flatMap fun s ↦ 0x2c :: jsonString s := by
      induction servers generalizing s with
      | nil => rw [List.map_singleton, commas_singleton, List.flatMap_nil, List.append_nil]
      | cons s' servers ih =>
        rw [List.map_cons, List.map_cons, commas_cons_cons, ← List.map_cons, ih, List.flatMap_cons,
          List.cons_append]
    rw [hcommas, puts_append, appendServers, ← jsonAppendStr_eq]
    simp only [← hrest]
    rfl

theorem jsonAppendStr_eq_ite (cap : ℕ) (out src : Bytes) : jsonAppendStr cap out src =
    if out.length + (jsonString src).length + 1 ≤ cap then some (out ++ jsonString src) else none := by
  have hne : jsonString src ≠ [] := List.cons_ne_nil _ _
  rw [jsonAppendStr_eq, puts_eq]
  exact if_congr (or_iff_right hne) rfl rfl

theorem appendRedisDb_eq_ite {cap : ℕ} {out : Bytes} (h : out.length < cap) (db : Option ℤ) :
    appendRedisDb cap out db =
      if out.length + (dbText db).length < cap then some (out ++ dbText db) else none := by
  cases db with
  | none =>
    change some out = if out.length + 0 < cap then some (out ++ []) else none
    rw [Nat.add_zero, if_pos h, List.append_nil]
  | some n =>
    by_cases hfits : out.length + (dbText (some n)).length < cap
    · rw [if_pos hfits]
      exact if_neg (not_le.mpr hfits)
    · rw [if_neg hfits]
      exact if_pos (not_lt.mp hfits)

variable {cap : ℕ}

/-- The text for redis, where the names fit. -/
theorem buildCacheConfigJson_redis (hredis : o.cacheBackend = lit "redis") :
    buildCacheConfigJson o.toCallOptions cap =
      if strlen o.cacheRedisAddr + strlen o.cacheRedisPassword + dbLength o.cacheRedisDb + 37 ≤ cap
      then some (redisText escapeByte (cString o.cacheRedisAddr) (cString o.cacheRedisPassword)
        o.cacheRedisDb)
      else none := by
  have hempty : ¬ (o.cacheBackend = [] ∨ o.cacheBackend = lit "memory") := by
    rw [hredis]
    decide
  have haddr := length_jsonString (isSafeString_of_parseHostPort (o.redisAddr_ok hredis)).2
  have hpassword := length_jsonString (o.redisPassword_ok hredis)
  have hdb := length_dbText o.redisDb_range
  have hkeys : (lit "\x7b\"redisAddr\":").length = 13 ∧
      (lit ",\"redisPassword\":").length = 17 := by decide
  rw [buildCacheConfigJson, if_neg hempty, if_pos hredis]
  by_cases hsmall : cap < 32
  · rw [if_pos hsmall, if_neg (by omega)]
  rw [if_neg hsmall, jsonAppendStr_eq_ite]
  by_cases h₁ : (lit "\x7b\"redisAddr\":").length + (jsonString o.cacheRedisAddr).length + 1 ≤ cap
  swap
  · rw [if_neg h₁, if_neg (by omega)]
    rfl
  rw [if_pos h₁, Option.bind_eq_bind, Option.bind_some, jsonAppendStr_eq_ite]
  simp only [List.length_append]
  by_cases h₂ : (lit "\x7b\"redisAddr\":").length + (jsonString o.cacheRedisAddr).length +
      (lit ",\"redisPassword\":").length + (jsonString o.cacheRedisPassword).length + 1 ≤ cap
  swap
  · rw [if_neg h₂, if_neg (by omega)]
    rfl
  rw [if_pos h₂, Option.bind_some,
    appendRedisDb_eq_ite (by simp only [List.length_append]; omega)]
  simp only [List.length_append]
  by_cases h₃ : (lit "\x7b\"redisAddr\":").length + (jsonString o.cacheRedisAddr).length +
      (lit ",\"redisPassword\":").length + (jsonString o.cacheRedisPassword).length +
      (dbText o.cacheRedisDb).length < cap
  swap
  · rw [if_neg h₃, if_neg (by omega)]
    rfl
  rw [if_pos h₃, Option.bind_some, redisText_eq, ← jsonString_eq, ← jsonString_eq]
  simp only [List.length_append, List.append_assoc]
  by_cases h₄ : strlen o.cacheRedisAddr + strlen o.cacheRedisPassword +
      dbLength o.cacheRedisDb + 37 ≤ cap
  · rw [if_pos h₄, if_neg (by omega)]
  · rw [if_neg h₄, if_pos (by omega)]

/-- The text for memcached. -/
theorem buildCacheConfigJson_memcached (hmemcached : o.cacheBackend = lit "memcached") :
    buildCacheConfigJson o.toCallOptions cap =
      if (o.cacheMemcachedServers.map fun s ↦ strlen s + 3).sum + 14 ≤ cap
      then some (memcachedText escapeByte (o.cacheMemcachedServers.map cString))
      else none := by
  have hempty : ¬ (o.cacheBackend = [] ∨ o.cacheBackend = lit "memory") := by
    rw [hmemcached]
    decide
  have hredis : o.cacheBackend ≠ lit "redis" := by
    rw [hmemcached]
    decide
  have hkey : (lit "\x7b\"servers\":[").length = 12 := by decide
  have hlength := length_commas (o.servers_ne hmemcached) fun s hs ↦
    (isSafeString_of_parseHostPort (o.servers_ok hmemcached s hs)).2
  have hpos := three_le_sum (o.servers_ne hmemcached)
  have hne : commas (o.cacheMemcachedServers.map jsonString) ≠ [] := by
    apply List.ne_nil_of_length_pos
    omega
  have hquoted : (o.cacheMemcachedServers.map cString).map (quoted escapeByte) =
      o.cacheMemcachedServers.map jsonString := List.map_map
  rw [buildCacheConfigJson, if_neg hempty, if_neg hredis, if_pos hmemcached, memcachedText_eq, hquoted]
  by_cases hsmall : cap < 16
  · rw [if_pos hsmall, if_neg (by omega)]
  rw [if_neg hsmall, appendServers_eq, puts_eq]
  by_cases h₁ : (lit "\x7b\"servers\":[").length +
      (commas (o.cacheMemcachedServers.map jsonString)).length + 1 ≤ cap
  swap
  · rw [if_neg (not_or.mpr ⟨hne, h₁⟩), if_neg (by omega)]
    rfl
  rw [if_pos (.inr h₁), Option.bind_eq_bind, Option.bind_some]
  simp only [List.length_append, List.append_assoc]
  by_cases h₂ : (o.cacheMemcachedServers.map fun s ↦ strlen s + 3).sum + 14 ≤ cap
  · rw [if_pos h₂, if_neg (by omega)]
  · rw [if_neg h₂, if_pos (by omega)]

/-- The text that fits is in the buffer. -/
theorem refines_of_ite {fits : Prop} [Decidable fits] {text : Bytes}
    (htext : buildCacheConfigJson o.toCallOptions cap = if fits then some text else none)
    (h : if fits then ∃ out, writeCacheConfig o.toCallOptions (Block.alloc cap) = .ok ((), out) ∧
        out.IsString text
      else writeCacheConfig o.toCallOptions (Block.alloc cap) = .error .refused) :
    (∃ text out, buildCacheConfigJson o.toCallOptions cap = some text ∧
        writeCacheConfig o.toCallOptions (Block.alloc cap) = .ok ((), out) ∧ out.IsString text) ∨
      buildCacheConfigJson o.toCallOptions cap = none ∧
        writeCacheConfig o.toCallOptions (Block.alloc cap) = .error .refused := by
  by_cases hfits : fits
  · rw [if_pos hfits] at htext h
    obtain ⟨out, hout, hstring⟩ := h
    exact .inl ⟨text, out, htext, hout, hstring⟩
  · rw [if_neg hfits] at htext h
    exact .inr ⟨htext, h⟩

/-- **The text model.** Where the buffer is not overrun, `build_cache_config_json` leaves the text of
`buildCacheConfigJson` in it, or both give up. -/
theorem writeCacheConfig_refines (o : CacheOptions) {cap : ℕ} (hcap : 0 < cap)
    (hredis : o.cacheBackend = lit "redis" → ¬ Overruns o.toCallOptions cap) :
    (∃ text out, buildCacheConfigJson o.toCallOptions cap = some text ∧
        writeCacheConfig o.toCallOptions (Block.alloc cap) = .ok ((), out) ∧ out.IsString text) ∨
      buildCacheConfigJson o.toCallOptions cap = none ∧
        writeCacheConfig o.toCallOptions (Block.alloc cap) = .error .refused := by
  rcases backend_cases o with hempty | hredis' | hmemcached
  · have htext : buildCacheConfigJson o.toCallOptions cap =
        if 3 ≤ cap then some (lit "\x7b\x7d") else none := by
      rw [buildCacheConfigJson, if_pos hempty]
      by_cases hfits : 3 ≤ cap
      · rw [if_pos hfits, if_neg (not_lt.mpr hfits)]
      · rw [if_neg hfits, if_pos (not_le.mp hfits)]
    exact refines_of_ite htext (writeCacheConfig_empty hempty hcap)
  · exact refines_of_ite (buildCacheConfigJson_redis hredis')
      (writeCacheConfig_redis hredis' hcap (hredis hredis'))
  · exact refines_of_ite (buildCacheConfigJson_memcached hmemcached)
      (writeCacheConfig_memcached hmemcached hcap)

end GoMesi.Php
