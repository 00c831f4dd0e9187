import GoMesi.C.Integer
import GoMesi.Go.Decimal
import GoMesi.Servers.NginxCache

/-!
# Directives with a number

Six limits are set by a directive with one number, in nginx and in Apache. The setters of nginx read
the argument from its first byte to its last. Two of them compare the value with the maximum after
each digit, four of them before each digit with the largest value that leaves room for it. Apache
has one parser for `int`, which looks at the number of digits first, and one for `apr_off_t`, which
compares before each digit; both skip leading blanks.

All of them accept decimal numerals within the range of the limit and nothing else, and store the
value (`strictIntegers`). The parser for `int` misses the numerals that have more than nine digits
because of leading zeros.
-/

namespace GoMesi

open Strings Strconv C

/-! ## Limits -/

/-- The limits that are set by a number. -/
inductive Limit
  | maxDepth | timeout | maxResponseSize | maxConcurrentRequests | maxWorkers | maxBodySize

/-- The limits of a configuration, with `-1` for one that is not set. -/
structure LimitConf where
  maxDepth : ℤ := -1
  timeoutSeconds : ℤ := -1
  maxResponseSize : ℤ := -1
  maxConcurrentRequests : ℤ := -1
  maxWorkers : ℤ := -1
  maxBodySize : ℤ := -1

/-- The types whose size depends on the platform: `ngx_int_t` and `long`. -/
structure Widths where
  ngxInt : IntType
  long : IntType

/-- `off_t` of nginx and `apr_off_t` -/
def offT : IntType := .int64

namespace Limit

def min : Limit → ℤ
  | timeout => 1
  | _ => 0

/-- `MESI_MAX_MAX_DEPTH` and the others. -/
def max : Limit → ℤ
  | maxDepth => 10000
  | timeout => 86400
  | maxConcurrentRequests | maxWorkers => 999999999
  | maxResponseSize | maxBodySize => 9223372036854775806

def get (l : Limit) (conf : LimitConf) : ℤ :=
  match l with
  | maxDepth => conf.maxDepth
  | timeout => conf.timeoutSeconds
  | maxResponseSize => conf.maxResponseSize
  | maxConcurrentRequests => conf.maxConcurrentRequests
  | maxWorkers => conf.maxWorkers
  | maxBodySize => conf.maxBodySize

def put (l : Limit) (conf : LimitConf) (val : ℤ) : LimitConf :=
  match l with
  | maxDepth => { conf with maxDepth := val }
  | timeout => { conf with timeoutSeconds := val }
  | maxResponseSize => { conf with maxResponseSize := val }
  | maxConcurrentRequests => { conf with maxConcurrentRequests := val }
  | maxWorkers => { conf with maxWorkers := val }
  | maxBodySize => { conf with maxBodySize := val }

/-- A decimal numeral whose value is within the range. -/
structure Strict (l : Limit) (s : Bytes) (val : ℤ) : Prop where
  decimal : ∃ n, Decimal s n ∧ val = n
  min_le : l.min ≤ val
  le_max : val ≤ l.max

theorem nine_le_max (l : Limit) : 9 ≤ l.max := by cases l <;> decide

end Limit

/-! ## The setters of nginx -/

namespace Nginx

/-- What the messages of a setter name. -/
structure Directive where
  name : Bytes
  limit : Limit
  /-- What the directive requires. -/
  argument : Bytes
  /-- What a value must be. -/
  kind : Bytes

/-- A setter gives a text back, or it logs one and gives `NGX_CONF_ERROR`. -/
inductive Refusal
  | returned (text : Bytes)
  | logged (text : Bytes)

/-- Why a loop over the digits stops. -/
inductive Failure
  | notDigit
  | outOfRange

namespace Directive

variable (d : Directive)

/-- The range in a message. -/
def range : Bytes :=
  lit "[" ++ formatInt d.limit.min ++ lit ", " ++ formatInt d.limit.max ++ lit "]"

def missing : Bytes :=
  lit "\"" ++ d.name ++ lit "\" directive requires an argument (" ++ d.argument ++ lit " " ++
    d.range ++ lit ")"

def invalid (arg : Bytes) : Bytes :=
  lit "invalid value \"" ++ arg ++ lit "\" in \"" ++ d.name ++ lit "\" directive: must be " ++
    d.kind ++ lit " in " ++ d.range

def outOfRange (arg : Bytes) : Bytes :=
  lit "value \"" ++ arg ++ lit "\" out of range in \"" ++ d.name ++
    lit "\" directive: must be in " ++ d.range

/-- The refusal for a loop that has stopped. -/
def refuse (arg : Bytes) : Failure → Refusal
  | .notDigit => .logged (d.invalid arg)
  | .outOfRange => .logged (d.outOfRange arg)

/-- A setter with its loop over the digits, after the checks that all setters have. -/
def read (field : ℤ) (arg : Bytes) (loop : ℤ → Bytes → Option (Except Failure ℤ)) :
    Option (Except Refusal ℤ) :=
  if field ≠ -1 then some (.error (.returned (lit "is duplicate")))
  else if arg = [] then some (.error (.logged d.missing))
  else (loop 0 arg).map fun r ↦ r.mapError (d.refuse arg)

end Directive

/-- A loop that compares after each digit. -/
def accumulate (T : IntType) (max : ℤ) : ℤ → Bytes → Option (Except Failure ℤ)
  | val, [] => some (.ok val)
  | val, c :: rest =>
    if c < 0x30 ∨ c > 0x39 then some (.error .notDigit)
    else do
      let val ← T.value ((← T.value (val * 10)) + (c.toNat - 0x30))
      if val > max then some (.error .outOfRange) else accumulate T max val rest

/-- A loop that compares before each digit. -/
def guarded (T : IntType) (max : ℤ) : ℤ → Bytes → Option (Except Failure ℤ)
  | val, [] => some (.ok val)
  | val, c :: rest =>
    if c < 0x30 ∨ c > 0x39 then some (.error .notDigit)
    else do
      let d : ℤ := c.toNat - 0x30
      if val > (← T.value (max - d)).tdiv 10 then some (.error .outOfRange)
      else guarded T max (← T.value ((← T.value (val * 10)) + d)) rest

variable (P : Widths) (lcf : LimitConf) (arg : Bytes)

def maxDepth : Directive where
  name := lit "mesi_max_depth"
  limit := .maxDepth
  argument := lit "a non-negative integer in"
  kind := lit "a non-negative integer (digits only)"

/-- `ngx_http_mesi_set_max_depth` -/
def setMaxDepth : Option (Except Refusal LimitConf) := do
  let r ← maxDepth.read lcf.maxDepth arg (accumulate P.ngxInt Limit.maxDepth.max)
  some (r.map fun val ↦ { lcf with maxDepth := val })

def timeout : Directive where
  name := lit "mesi_timeout"
  limit := .timeout
  argument := lit "an integer in"
  kind := lit "a positive integer (digits only)"

/-- `ngx_http_mesi_set_timeout` -/
def setTimeout : Option (Except Refusal LimitConf) := do
  let r ← timeout.read lcf.timeoutSeconds arg (accumulate P.ngxInt Limit.timeout.max)
  some (r.bind fun val ↦
    if val < 1 then .error (.logged (timeout.outOfRange arg))
    else .ok { lcf with timeoutSeconds := val })

def maxResponseSize : Directive where
  name := lit "mesi_max_response_size"
  limit := .maxResponseSize
  argument := lit "a non-negative integer in bytes, in"
  kind := lit "a non-negative integer (digits only, bytes)"

/-- `ngx_http_mesi_set_max_response_size` -/
def setMaxResponseSize : Option (Except Refusal LimitConf) := do
  let r ← maxResponseSize.read lcf.maxResponseSize arg
    (guarded offT Limit.maxResponseSize.max)
  some (r.map fun val ↦ { lcf with maxResponseSize := val })

def maxConcurrentRequests : Directive where
  name := lit "mesi_max_concurrent_requests"
  limit := .maxConcurrentRequests
  argument := lit "a non-negative integer in"
  kind := lit "a non-negative integer (digits only)"

/-- `ngx_http_mesi_set_max_concurrent_requests` -/
def setMaxConcurrentRequests : Option (Except Refusal LimitConf) := do
  let r ← maxConcurrentRequests.read lcf.maxConcurrentRequests arg
    (guarded P.ngxInt Limit.maxConcurrentRequests.max)
  some (r.map fun val ↦ { lcf with maxConcurrentRequests := val })

def maxWorkers : Directive where
  name := lit "mesi_max_workers"
  limit := .maxWorkers
  argument := lit "a non-negative integer in"
  kind := lit "a non-negative integer (digits only)"

/-- `ngx_http_mesi_set_max_workers` -/
def setMaxWorkers : Option (Except Refusal LimitConf) := do
  let r ← maxWorkers.read lcf.maxWorkers arg (guarded P.ngxInt Limit.maxWorkers.max)
  some (r.map fun val ↦ { lcf with maxWorkers := val })

def maxBodySize : Directive where
  name := lit "mesi_max_body_size"
  limit := .maxBodySize
  argument := lit "a non-negative integer in bytes, in"
  kind := lit "a non-negative integer (digits only, bytes)"

/-- `ngx_http_mesi_set_max_body_size` -/
def setMaxBodySize : Option (Except Refusal LimitConf) := do
  let r ← maxBodySize.read lcf.maxBodySize arg (guarded offT Limit.maxBodySize.max)
  some (r.map fun val ↦ { lcf with maxBodySize := val })

/-- The setter of a limit. -/
def setter (l : Limit) : Option (Except Refusal LimitConf) :=
  match l with
  | .maxDepth => setMaxDepth P lcf arg
  | .timeout => setTimeout P lcf arg
  | .maxResponseSize => setMaxResponseSize lcf arg
  | .maxConcurrentRequests => setMaxConcurrentRequests P lcf arg
  | .maxWorkers => setMaxWorkers P lcf arg
  | .maxBodySize => setMaxBodySize lcf arg

end Nginx

/-! ## The parsers of Apache -/

namespace Apache

def isBlank (c : UInt8) : Bool := c == 0x20 || c == 0x09

def isDigit (c : UInt8) : Bool := decide (c ≥ 0x30) && decide (c ≤ 0x39)

/-- What a parser reads after the leading spaces and tabs. -/
def skipBlanks (arg : Bytes) : Bytes := (cString arg).dropWhile isBlank

/-- The checks of both parsers: the digits, or the message of the first check that fails. -/
def parseDigits (arg : Option Bytes) (directive : Bytes) : Except Bytes Bytes :=
  let p := skipBlanks (arg.getD [])
  let got := cString (arg.getD [])
  if p = [] then .error (directive ++ lit " requires a non-negative integer argument")
  else
    let digits := p.takeWhile isDigit
    if p.drop digits.length ≠ [] then
      .error (directive ++ lit " must be a non-negative integer (got: " ++ got ++ lit ")")
    else if digits = [] then
      .error (directive ++ lit " must contain at least one digit (got: " ++ got ++ lit ")")
    else .ok digits

/-- The message for a number that is too large for the parser. -/
def exceedsMaximum (arg : Option Bytes) (directive : Bytes) (max : ℤ) : Bytes :=
  directive ++ lit " value " ++ cString (arg.getD []) ++ lit " exceeds maximum allowed (" ++
    formatInt max ++ lit ")"

/-- The message for a number outside of the range. -/
def outOfRange (arg : Option Bytes) (directive : Bytes) (min max : ℤ) : Bytes :=
  directive ++ lit " value " ++ cString (arg.getD []) ++ lit " out of range [" ++ formatInt min ++
    lit ", " ++ formatInt max ++ lit "]"

/-- The loop of `parse_nonneg_int`. -/
def accumulate (T : IntType) : ℤ → Bytes → Option ℤ
  | val, [] => some val
  | val, c :: rest => do
    accumulate T (← T.value ((← T.value (val * 10)) + (c.toNat - 0x30))) rest

/-- `parse_nonneg_int` -/
def parseNonnegInt (P : Widths) (arg : Option Bytes) (directive : Bytes) (min max : ℤ) :
    Option (Except Bytes ℤ) :=
  match parseDigits arg directive with
  | .error text => some (.error text)
  | .ok digits =>
    if digits.length > 9 then some (.error (exceedsMaximum arg directive max))
    else do
      let val ← accumulate P.long 0 digits
      if val < min ∨ val > max then some (.error (outOfRange arg directive min max))
      else some (.ok (Nginx.cInt val))

/-- The loop of `parse_nonneg_off`. -/
def guarded (max : ℤ) (tooLarge : Bytes) : ℤ → Bytes → Option (Except Bytes ℤ)
  | val, [] => some (.ok val)
  | val, c :: rest => do
    let d : ℤ := c.toNat - 0x30
    if val > (← offT.value (max - d)).tdiv 10 then some (.error tooLarge)
    else guarded max tooLarge (← offT.value ((← offT.value (val * 10)) + d)) rest

/-- `parse_nonneg_off` -/
def parseNonnegOff (arg : Option Bytes) (directive : Bytes) (min max : ℤ) :
    Option (Except Bytes ℤ) :=
  match parseDigits arg directive with
  | .error text => some (.error text)
  | .ok digits => do
    match ← guarded max (exceedsMaximum arg directive max) 0 digits with
    | .error text => some (.error text)
    | .ok val =>
      if val < min ∨ val > max then some (.error (outOfRange arg directive min max))
      else some (.ok val)

end Apache

/-! ## Loops over digits -/

section Loops

variable {T : IntType} {val max : ℤ} {c : UInt8} {rest s : Bytes}

/-- The value of digits that are read on after `val`. -/
def readOn (val : ℤ) (s : Bytes) : ℤ := val * 10 ^ s.length + digitsValue s

theorem readOn_nil (val : ℤ) : readOn val [] = val := by simp [readOn, digitsValue]

theorem readOn_zero (s : Bytes) : readOn 0 s = digitsValue s := by rw [readOn, zero_mul, zero_add]

theorem readOn_cons (hc : IsDigit c) (val : ℤ) (rest : Bytes) :
    readOn val (c :: rest) = readOn (val * 10 + (c.toNat - 0x30)) rest := by
  have hle : 0x30 ≤ c.toNat := UInt8.le_iff_toNat_le.mp hc.1
  rw [readOn, readOn, digitsValue_cons, List.length_cons]
  push_cast [hle]
  ring

theorem le_readOn (h0 : 0 ≤ val) (s : Bytes) : val ≤ readOn val s := by
  have hpow : (1 : ℤ) ≤ 10 ^ s.length := one_le_pow₀ (by decide)
  have hval : (0 : ℤ) ≤ digitsValue s := Int.natCast_nonneg _
  rw [readOn]
  nlinarith

/-- A digit is a number from 0 to 9. -/
theorem digit_range (hc : IsDigit c) : 0 ≤ (c.toNat : ℤ) - 0x30 ∧ (c.toNat : ℤ) - 0x30 ≤ 9 := by
  have hlo : 0x30 ≤ c.toNat := UInt8.le_iff_toNat_le.mp hc.1
  have hhi : c.toNat ≤ 0x39 := UInt8.le_iff_toNat_le.mp hc.2
  omega

theorem not_isDigit_iff : (c < 0x30 ∨ c > 0x39) ↔ ¬ IsDigit c := by
  rw [IsDigit, not_and_or, UInt8.not_le, UInt8.not_le]

/-- A loop that reads on from `val` keeps within its type, and it accepts what stays below the
maximum. -/
def Reads (loop : ℤ → Bytes → Option (Except Nginx.Failure ℤ)) (max val : ℤ) (s : Bytes) : Prop :=
  ∃ r, loop val s = some r ∧
    ∀ v, r = .ok v ↔ (∀ b ∈ s, IsDigit b) ∧ v = readOn val s ∧ v ≤ max

variable {loop : ℤ → Bytes → Option (Except Nginx.Failure ℤ)}

theorem Reads.nil (hloop : loop val [] = some (.ok val)) (hmax : val ≤ max) :
    Reads loop max val [] := by
  refine ⟨.ok val, hloop, fun v ↦ ?_⟩
  rw [readOn_nil, Except.ok.injEq]
  constructor
  · rintro rfl
    exact ⟨nofun, rfl, hmax⟩
  · rintro ⟨-, rfl, -⟩
    rfl

/-- A loop that stops is right if no continuation can be accepted. -/
theorem Reads.stop {e : Nginx.Failure} (hloop : loop val (c :: rest) = some (.error e))
    (h : IsDigit c → max < val * 10 + (c.toNat - 0x30)) (h0 : 0 ≤ val) :
    Reads loop max val (c :: rest) := by
  refine ⟨.error e, hloop, fun v ↦ iff_of_false nofun ?_⟩
  rintro ⟨hdigits, rfl, hle⟩
  have hc : IsDigit c := hdigits c List.mem_cons_self
  have hnext : 0 ≤ val * 10 + ((c.toNat : ℤ) - 0x30) := by
    have := digit_range hc
    omega
  rw [readOn_cons hc] at hle
  exact absurd (h hc) (not_lt.mpr ((le_readOn hnext rest).trans hle))

theorem Reads.cons (hc : IsDigit c)
    (hloop : loop val (c :: rest) = loop (val * 10 + (c.toNat - 0x30)) rest)
    (h : Reads loop max (val * 10 + (c.toNat - 0x30)) rest) : Reads loop max val (c :: rest) := by
  obtain ⟨r, hr, hiff⟩ := h
  refine ⟨r, hloop.trans hr, fun v ↦ ?_⟩
  rw [hiff, readOn_cons hc, List.forall_mem_cons]
  exact and_congr_left' (and_iff_right hc).symm

theorem reads_accumulate (hT : T.Contains (max * 10 + 9)) (h0 : 0 ≤ val) (hmax : val ≤ max)
    (s : Bytes) : Reads (Nginx.accumulate T max) max val s := by
  induction s generalizing val with
  | nil => exact .nil rfl hmax
  | cons c rest ih =>
    by_cases hc : IsDigit c
    swap
    · refine .stop (e := .notDigit) ?_ (fun h ↦ absurd h hc) h0
      rw [Nginx.accumulate, if_pos (not_isDigit_iff.mpr hc)]
    obtain ⟨hlo, hhi⟩ := digit_range hc
    -- Neither the product nor the sum leaves the type, because `val` is below the maximum.
    have hmul : T.value (val * 10) = some (val * 10) :=
      IntType.value_of_contains (hT.mono (by omega) (by omega))
    have hadd : T.value (val * 10 + (c.toNat - 0x30)) = some (val * 10 + (c.toNat - 0x30)) :=
      IntType.value_of_contains (hT.mono (by omega) (by omega))
    have hstep : Nginx.accumulate T max val (c :: rest) =
        if val * 10 + (c.toNat - 0x30) > max then some (.error .outOfRange)
        else Nginx.accumulate T max (val * 10 + (c.toNat - 0x30)) rest := by
      rw [Nginx.accumulate, if_neg (not_isDigit_iff.not.mpr (not_not.mpr hc)), hmul]
      dsimp only [Option.bind_eq_bind, Option.bind_some]
      rw [hadd]
      rfl
    by_cases hlarge : val * 10 + ((c.toNat : ℤ) - 0x30) > max
    · rw [if_pos hlarge] at hstep
      exact .stop hstep (fun _ ↦ hlarge) h0
    · rw [if_neg hlarge] at hstep
      exact .cons hc hstep (ih (by omega) (not_lt.mp hlarge))

theorem reads_guarded (hT : T.Contains max) (h9 : 9 ≤ max) (h0 : 0 ≤ val) (hmax : val ≤ max)
    (s : Bytes) : Reads (Nginx.guarded T max) max val s := by
  induction s generalizing val with
  | nil => exact .nil rfl hmax
  | cons c rest ih =>
    by_cases hc : IsDigit c
    swap
    · refine .stop (e := .notDigit) ?_ (fun h ↦ absurd h hc) h0
      rw [Nginx.guarded, if_pos (not_isDigit_iff.mpr hc)]
    obtain ⟨hlo, hhi⟩ := digit_range hc
    have hroom : T.value (max - (c.toNat - 0x30)) = some (max - (c.toNat - 0x30)) :=
      IntType.value_of_contains (hT.mono (by omega) (by omega))
    have hdiv : (max - ((c.toNat : ℤ) - 0x30)).tdiv 10 = (max - (c.toNat - 0x30)) / 10 :=
      Int.tdiv_eq_ediv_of_nonneg (by omega)
    by_cases hlarge : val > (max - ((c.toNat : ℤ) - 0x30)) / 10
    · refine .stop (e := .outOfRange) ?_ (fun _ ↦ by omega) h0
      rw [Nginx.guarded, if_neg (not_isDigit_iff.not.mpr (not_not.mpr hc))]
      dsimp only
      rw [hroom]
      dsimp only [Option.bind_eq_bind, Option.bind_some]
      rw [hdiv, if_pos hlarge]
    · -- What is left below the maximum has room for the product and for the sum.
      have hmul : T.value (val * 10) = some (val * 10) :=
        IntType.value_of_contains (hT.mono (by omega) (by omega))
      have hadd : T.value (val * 10 + (c.toNat - 0x30)) = some (val * 10 + (c.toNat - 0x30)) :=
        IntType.value_of_contains (hT.mono (by omega) (by omega))
      refine .cons hc ?_ (ih (by omega) (by omega))
      rw [Nginx.guarded, if_neg (not_isDigit_iff.not.mpr (not_not.mpr hc))]
      dsimp only
      rw [hroom]
      dsimp only [Option.bind_eq_bind, Option.bind_some]
      rw [hdiv, if_neg hlarge, hmul]
      dsimp only [Option.bind_some]
      rw [hadd]
      rfl

end Loops

/-! ## Strict integers -/

namespace Nginx

variable {P : Widths} {d : Directive} {field val : ℤ} {arg : Bytes}
  {loop : ℤ → Bytes → Option (Except Failure ℤ)}

/-- A setter accepts the numerals up to the maximum, if its loop is right. -/
theorem Directive.read_spec (hloop : Reads loop d.limit.max 0 arg) :
    ∃ r, d.read (-1) arg loop = some r ∧
      ∀ v, r = .ok v ↔ (∃ n, Decimal arg n ∧ v = n) ∧ v ≤ d.limit.max := by
  rw [read, if_neg (not_not.mpr rfl)]
  by_cases hnil : arg = []
  · rw [if_pos hnil]
    refine ⟨_, rfl, fun v ↦ iff_of_false nofun ?_⟩
    rintro ⟨⟨n, hn, -⟩, -⟩
    exact hn.ne_nil hnil
  · obtain ⟨r, hr, hiff⟩ := hloop
    rw [if_neg hnil, hr]
    refine ⟨_, rfl, fun v ↦ ?_⟩
    have hok : r.mapError (d.refuse arg) = .ok v ↔ r = .ok v := by
      cases r <;> simp [Except.mapError]
    rw [hok, hiff, readOn_zero]
    constructor
    · rintro ⟨hdigits, hv, hle⟩
      exact ⟨⟨digitsValue arg, ⟨hnil, hdigits, rfl⟩, hv⟩, hle⟩
    · rintro ⟨⟨n, hn, rfl⟩, hle⟩
      exact ⟨hn.digits, by rw [hn.value], hle⟩

/-- A setter stores the value in the field of its limit. -/
theorem stores_of_read {l : Limit} {lcf : LimitConf} {r : Except Refusal ℤ}
    {set : ℤ → LimitConf} (hset : ∀ v, set v = l.put lcf v) (hmin : l.min = 0)
    (hr : ∀ v, r = .ok v ↔ (∃ n, Decimal arg n ∧ v = n) ∧ v ≤ l.max) (lcf' : LimitConf) :
    r.map set = .ok lcf' ↔ ∃ v, l.Strict arg v ∧ lcf' = l.put lcf v := by
  have hok : r.map set = .ok lcf' ↔ ∃ v, r = .ok v ∧ set v = lcf' := by
    cases r <;> simp [Except.map]
  rw [hok]
  refine exists_congr fun v ↦ ?_
  rw [hr, hset, eq_comm (a := lcf')]
  refine and_congr_left' ⟨?_, fun h ↦ ⟨h.decimal, h.le_max⟩⟩
  rintro ⟨⟨n, hn, rfl⟩, hle⟩
  exact ⟨⟨n, hn, rfl⟩, hmin ▸ Int.natCast_nonneg n, hle⟩

theorem Directive.read_of_set (h : field ≠ -1) :
    d.read field arg loop = some (.error (.returned (lit "is duplicate"))) := if_pos h

/-- A field that is set is not set again. -/
theorem setter_of_set (P : Widths) (l : Limit) {lcf : LimitConf} (h : l.get lcf ≠ -1)
    (arg : Bytes) : setter P lcf arg l = some (.error (.returned (lit "is duplicate"))) := by
  cases l <;> exact congrArg (Option.bind · _) (Directive.read_of_set h)

/-- The setters without a minimum of their own. -/
theorem exists_setter_eq {l : Limit} {lcf : LimitConf} {set : ℤ → LimitConf}
    {setter : Option (Except Refusal LimitConf)} (hd : d.limit = l)
    (hsetter : setter = (d.read (-1) arg loop).bind fun r ↦ some (r.map set))
    (hset : ∀ v, set v = l.put lcf v) (hmin : l.min = 0) (hloop : Reads loop l.max 0 arg) :
    ∃ r, setter = some r ∧ ∀ lcf', r = .ok lcf' ↔ ∃ v, l.Strict arg v ∧ lcf' = l.put lcf v := by
  subst hd
  obtain ⟨r, hr, hiff⟩ := Directive.read_spec hloop
  refine ⟨r.map set, ?_, stores_of_read hset hmin hiff⟩
  rw [hsetter, hr]
  rfl

theorem timeout_spec {lcf : LimitConf} (h : lcf.timeoutSeconds = -1) (arg : Bytes) :
    ∃ r, setTimeout P lcf arg = some r ∧ ∀ lcf', r = .ok lcf' ↔
      ∃ v, Limit.timeout.Strict arg v ∧ lcf' = Limit.timeout.put lcf v := by
  have hfits : P.ngxInt.Contains (Limit.timeout.max * 10 + 9) :=
    IntType.contains_of_lt (by decide) (by decide)
  obtain ⟨r, hr, hiff⟩ := Directive.read_spec (d := timeout)
    (reads_accumulate hfits le_rfl (by decide) arg)
  rw [setTimeout, h, show timeout.read (-1) arg _ = _ from hr]
  refine ⟨_, rfl, fun lcf' ↦ ?_⟩
  cases r with
  | error e =>
    refine iff_of_false (by rintro ⟨⟩) ?_
    rintro ⟨v, hv, -⟩
    exact absurd ((hiff v).mpr ⟨hv.decimal, hv.le_max⟩) (by rintro ⟨⟩)
  | ok val =>
    obtain ⟨hdecimal, hle⟩ := (hiff val).mp rfl
    have hval (v : ℤ) (hv : Limit.timeout.Strict arg v) : val = v :=
      Except.ok.inj ((hiff v).mpr ⟨hv.decimal, hv.le_max⟩)
    dsimp only [Except.bind]
    by_cases hone : val < 1
    · rw [if_pos hone]
      refine iff_of_false (by rintro ⟨⟩) ?_
      rintro ⟨v, hv, -⟩
      have hmin : 1 ≤ v := hv.min_le
      have := hval v hv
      omega
    · rw [if_neg hone, Except.ok.injEq]
      constructor
      · rintro rfl
        exact ⟨val, ⟨hdecimal, not_lt.mp hone, hle⟩, rfl⟩
      · rintro ⟨v, hv, rfl⟩
        rw [hval v hv]
        rfl

/-- A setter of nginx accepts the numerals within the range, and it stores the value. -/
theorem setter_spec (P : Widths) (l : Limit) {lcf : LimitConf} (h : l.get lcf = -1)
    (arg : Bytes) : ∃ r, setter P lcf arg l = some r ∧
      ∀ lcf', r = .ok lcf' ↔ ∃ v, l.Strict arg v ∧ lcf' = l.put lcf v := by
  have hint (max : ℤ) (hlo : 9 ≤ max) (hhi : max < 2 ^ 31) :
      Reads (guarded P.ngxInt max) max 0 arg :=
    reads_guarded (IntType.contains_of_lt (by omega) hhi) hlo le_rfl (by omega) arg
  have hoff : Reads (guarded offT 9223372036854775806) 9223372036854775806 0 arg :=
    reads_guarded (by decide) (by decide) le_rfl (by decide) arg
  cases l with
  | timeout => exact timeout_spec h arg
  | maxDepth =>
    have hfits : P.ngxInt.Contains (Limit.maxDepth.max * 10 + 9) :=
      IntType.contains_of_lt (by decide) (by decide)
    refine exists_setter_eq (d := maxDepth) rfl ?_ (fun _ ↦ rfl) rfl
      (reads_accumulate hfits le_rfl (by decide) arg)
    rw [← h]
    rfl
  | maxResponseSize =>
    refine exists_setter_eq (d := maxResponseSize) rfl ?_ (fun _ ↦ rfl) rfl hoff
    rw [← h]
    rfl
  | maxConcurrentRequests =>
    refine exists_setter_eq (d := maxConcurrentRequests) rfl ?_ (fun _ ↦ rfl) rfl
      (hint _ (by decide) (by decide))
    rw [← h]
    rfl
  | maxWorkers =>
    refine exists_setter_eq (d := maxWorkers) rfl ?_ (fun _ ↦ rfl) rfl
      (hint _ (by decide) (by decide))
    rw [← h]
    rfl
  | maxBodySize =>
    refine exists_setter_eq (d := maxBodySize) rfl ?_ (fun _ ↦ rfl) rfl hoff
    rw [← h]
    rfl

end Nginx

namespace Apache

variable {arg : Bytes} {directive digits e : Bytes} {min max val : ℤ}

theorem isDigit_iff {c : UInt8} : isDigit c = true ↔ IsDigit c := by
  rw [isDigit, Bool.and_eq_true, decide_eq_true_eq, decide_eq_true_eq]
  rfl

/-- The checks let digits pass, and nothing after them. -/
theorem parseDigits_eq_ok_iff : parseDigits (some arg) directive = .ok digits ↔
    digits = skipBlanks arg ∧ digits ≠ [] ∧ ∀ b ∈ digits, IsDigit b := by
  have hall (p : Bytes) :
      (∀ b ∈ p, IsDigit b) ↔ p.drop (p.takeWhile isDigit).length = [] := by
    simp only [← isDigit_iff]
    rw [← List.takeWhile_eq_self_iff, List.drop_eq_nil_iff]
    exact ⟨fun h ↦ by rw [h], fun h ↦ (List.takeWhile_prefix _).eq_of_length_le h⟩
  rw [parseDigits]
  dsimp only [Option.getD_some]
  by_cases hnil : skipBlanks arg = []
  · rw [if_pos hnil]
    refine iff_of_false nofun ?_
    rintro ⟨rfl, hne, -⟩
    exact hne hnil
  rw [if_neg hnil]
  by_cases hrest : (skipBlanks arg).drop ((skipBlanks arg).takeWhile isDigit).length = []
  swap
  · rw [if_pos hrest]
    refine iff_of_false nofun ?_
    rintro ⟨rfl, -, hdigits⟩
    exact hrest ((hall _).mp hdigits)
  -- The last check cannot fail: what passes the other two starts with a digit.
  have htake : (skipBlanks arg).takeWhile isDigit = skipBlanks arg :=
    (List.takeWhile_prefix _).eq_of_length_le (List.drop_eq_nil_iff.mp hrest)
  rw [if_neg (not_not.mpr hrest), htake, if_neg hnil, Except.ok.injEq]
  constructor
  · rintro rfl
    exact ⟨rfl, hnil, (hall _).mpr hrest⟩
  · rintro ⟨rfl, -⟩
    rfl

theorem decimal_of_parseDigits (h : parseDigits (some arg) directive = .ok digits) :
    Decimal (skipBlanks arg) (digitsValue digits) := by
  obtain ⟨rfl, hne, hdigits⟩ := parseDigits_eq_ok_iff.mp h
  exact ⟨hne, hdigits, rfl⟩

theorem parseDigits_of_decimal {n : ℕ} (h : Decimal (skipBlanks arg) n) (directive : Bytes) :
    parseDigits (some arg) directive = .ok (skipBlanks arg) :=
  parseDigits_eq_ok_iff.mpr ⟨rfl, h.ne_nil, h.digits⟩

/-- The parser reads digits as the setters of nginx do. -/
theorem guarded_eq (hdigits : ∀ b ∈ digits, IsDigit b) (val : ℤ) :
    guarded max e val digits =
      (Nginx.guarded offT max val digits).map fun r ↦ r.mapError fun _ ↦ e := by
  induction digits generalizing val with
  | nil => rfl
  | cons c rest ih =>
    rw [List.forall_mem_cons] at hdigits
    rw [guarded, Nginx.guarded, if_neg (not_isDigit_iff.not.mpr (not_not.mpr hdigits.1))]
    dsimp only
    cases hroom : offT.value (max - (c.toNat - 0x30)) with
    | none => rfl
    | some room =>
      dsimp only [Option.bind_eq_bind, Option.bind_some]
      by_cases hlarge : val > room.tdiv 10
      · rw [if_pos hlarge, if_pos hlarge]
        rfl
      rw [if_neg hlarge, if_neg hlarge]
      cases hmul : offT.value (val * 10) with
      | none => rfl
      | some product =>
        dsimp only [Option.bind_some]
        cases hadd : offT.value (product + (c.toNat - 0x30)) with
        | none => rfl
        | some sum => exact ih hdigits.2 sum

/-- What `parse_nonneg_off` accepts after the blanks. -/
theorem parseNonnegOff_spec (min : ℤ) (arg directive : Bytes) (hmax : offT.Contains max) (h9 : 9 ≤ max) :
    ∃ r, parseNonnegOff (some arg) directive min max = some r ∧ ∀ v, r = .ok v ↔
      (∃ n, Decimal (skipBlanks arg) n ∧ v = n) ∧ min ≤ v ∧ v ≤ max := by
  rw [parseNonnegOff]
  cases hparse : parseDigits (some arg) directive with
  | error text =>
    refine ⟨_, rfl, fun v ↦ iff_of_false nofun ?_⟩
    rintro ⟨⟨n, hn, -⟩, -⟩
    exact nomatch hparse.symm.trans (parseDigits_of_decimal hn directive)
  | ok digits =>
    have hn := decimal_of_parseDigits hparse
    obtain ⟨rfl, -, hdigits⟩ := parseDigits_eq_ok_iff.mp hparse
    obtain ⟨r, hr, hiff⟩ := reads_guarded hmax h9 le_rfl (by omega) (skipBlanks arg)
    rw [readOn_zero] at hiff
    dsimp only
    rw [guarded_eq hdigits, hr]
    cases r with
    | error failure =>
      refine ⟨_, rfl, fun v ↦ iff_of_false nofun ?_⟩
      rintro ⟨⟨n, hn', rfl⟩, -, hle⟩
      exact nomatch (hiff n).mpr ⟨hdigits, by rw [hn'.unique hn], hle⟩
    | ok val =>
      obtain ⟨-, rfl, hle⟩ := (hiff _).mp rfl
      dsimp only [Option.map_some, Except.mapError, Option.bind_eq_bind, Option.bind_some]
      by_cases hrange : (digitsValue (skipBlanks arg) : ℤ) < min ∨
          (digitsValue (skipBlanks arg) : ℤ) > max
      · rw [if_pos hrange]
        refine ⟨_, rfl, fun v ↦ iff_of_false nofun ?_⟩
        rintro ⟨⟨n, hn', rfl⟩, hlo, hhi⟩
        rw [hn'.unique hn] at hlo hhi
        omega
      · rw [if_neg hrange]
        refine ⟨_, rfl, fun v ↦ ?_⟩
        rw [Except.ok.injEq]
        constructor
        · rintro rfl
          exact ⟨⟨_, hn, rfl⟩, by omega, hle⟩
        · rintro ⟨⟨n, hn', rfl⟩, -⟩
          rw [hn'.unique hn]

theorem digitsValue_lt (hdigits : ∀ b ∈ digits, IsDigit b) :
    digitsValue digits < 10 ^ digits.length := by
  induction digits with
  | nil => exact Nat.one_pos
  | cons c rest ih =>
    rw [List.forall_mem_cons] at hdigits
    have hhi : c.toNat ≤ 0x39 := UInt8.le_iff_toNat_le.mp hdigits.1.2
    have hle : (c.toNat - 0x30) * 10 ^ rest.length ≤ 9 * 10 ^ rest.length :=
      Nat.mul_le_mul_right _ (by omega)
    have hrest := ih hdigits.2
    rw [digitsValue_cons, List.length_cons, pow_succ]
    omega

/-- Nine digits are read without a check. -/
theorem accumulate_spec {T : IntType} (h0 : 0 ≤ val) (hdigits : ∀ b ∈ digits, IsDigit b)
    (hT : T.Contains (readOn val digits)) : accumulate T val digits = some (readOn val digits) := by
  induction digits generalizing val with
  | nil => rw [accumulate, readOn_nil]
  | cons c rest ih =>
    rw [List.forall_mem_cons] at hdigits
    obtain ⟨hlo, hhi⟩ := digit_range hdigits.1
    rw [readOn_cons hdigits.1] at hT ⊢
    have hle : val * 10 + (c.toNat - 0x30) ≤ readOn (val * 10 + (c.toNat - 0x30)) rest :=
      le_readOn (by omega) rest
    have hmul : T.value (val * 10) = some (val * 10) :=
      IntType.value_of_contains (hT.mono (by omega) (by omega))
    have hadd : T.value (val * 10 + (c.toNat - 0x30)) = some (val * 10 + (c.toNat - 0x30)) :=
      IntType.value_of_contains (hT.mono (by omega) hle)
    rw [accumulate, hmul]
    dsimp only [Option.bind_eq_bind, Option.bind_some]
    rw [hadd]
    exact ih (by omega) hdigits.2 hT

/-- What `parse_nonneg_int` accepts after the blanks: at most nine digits. -/
theorem parseNonnegInt_spec (P : Widths) (arg directive : Bytes) (min max : ℤ) :
    ∃ r, parseNonnegInt P (some arg) directive min max = some r ∧ ∀ v, r = .ok v ↔
      ((∃ n, Decimal (skipBlanks arg) n ∧ v = n) ∧ min ≤ v ∧ v ≤ max) ∧
        (skipBlanks arg).length ≤ 9 := by
  rw [parseNonnegInt]
  cases hparse : parseDigits (some arg) directive with
  | error text =>
    refine ⟨_, rfl, fun v ↦ iff_of_false nofun ?_⟩
    rintro ⟨⟨⟨n, hn, -⟩, -⟩, -⟩
    exact nomatch hparse.symm.trans (parseDigits_of_decimal hn directive)
  | ok digits =>
    have hn := decimal_of_parseDigits hparse
    obtain ⟨rfl, -, hdigits⟩ := parseDigits_eq_ok_iff.mp hparse
    dsimp only
    by_cases hlong : (skipBlanks arg).length > 9
    · rw [if_pos hlong]
      exact ⟨_, rfl, fun v ↦ iff_of_false nofun fun h ↦ absurd h.2 (not_le.mpr hlong)⟩
    -- Nine digits are below 10⁹, which fits into any of the types.
    have hlt : digitsValue (skipBlanks arg) < 10 ^ 9 :=
      (digitsValue_lt hdigits).trans_le (Nat.pow_le_pow_right (by decide) (not_lt.mp hlong))
    have hread : accumulate P.long 0 (skipBlanks arg) = some (digitsValue (skipBlanks arg) : ℤ) := by
      rw [← readOn_zero]
      refine accumulate_spec le_rfl hdigits (IntType.contains_of_lt ?_ ?_) <;> rw [readOn_zero]
      · omega
      · omega
    have hint : Nginx.cInt (digitsValue (skipBlanks arg)) = digitsValue (skipBlanks arg) := by
      rw [Nginx.cInt, Int.bmod_eq_of_le (by omega) (by omega)]
    rw [if_neg hlong, hread]
    dsimp only [Option.bind_eq_bind, Option.bind_some]
    by_cases hrange : (digitsValue (skipBlanks arg) : ℤ) < min ∨
        (digitsValue (skipBlanks arg) : ℤ) > max
    · rw [if_pos hrange]
      refine ⟨_, rfl, fun v ↦ iff_of_false nofun ?_⟩
      rintro ⟨⟨⟨n, hn', rfl⟩, hlo, hhi⟩, -⟩
      rw [hn'.unique hn] at hlo hhi
      omega
    · rw [if_neg hrange, hint]
      refine ⟨_, rfl, fun v ↦ ?_⟩
      rw [Except.ok.injEq]
      constructor
      · rintro rfl
        exact ⟨⟨⟨_, hn, rfl⟩, by omega, by omega⟩, not_lt.mp hlong⟩
      · rintro ⟨⟨⟨n, hn', rfl⟩, -⟩, -⟩
        rw [hn'.unique hn]

end Apache

open Apache (skipBlanks parseNonnegInt parseNonnegOff) in
/-- **Main result.** No computation leaves its integer type. A setter of nginx accepts the numerals
within the range; `parse_nonneg_off` accepts them after leading blanks; `parse_nonneg_int` accepts
nothing else, and all of those that have at most nine digits. The value is that of the numeral. -/
theorem strictIntegers (P : Widths) (l : Limit) {lcf : LimitConf} (h : l.get lcf = -1)
    (arg directive : Bytes) :
    (∃ r, Nginx.setter P lcf arg l = some r ∧
      ∀ lcf', r = .ok lcf' ↔ ∃ v, l.Strict arg v ∧ lcf' = l.put lcf v) ∧
    (∃ r, parseNonnegOff (some arg) directive l.min l.max = some r ∧
      ∀ v, r = .ok v ↔ l.Strict (skipBlanks arg) v) ∧
    ∃ r, parseNonnegInt P (some arg) directive l.min l.max = some r ∧
      (∀ v, r = .ok v → l.Strict (skipBlanks arg) v) ∧
      ((skipBlanks arg).length ≤ 9 → ∀ v, l.Strict (skipBlanks arg) v → r = .ok v) := by
  refine ⟨Nginx.setter_spec P l h arg, ?_, ?_⟩
  · have hfits : offT.Contains l.max := by cases l <;> decide
    obtain ⟨r, hr, hiff⟩ := Apache.parseNonnegOff_spec l.min arg directive hfits l.nine_le_max
    refine ⟨r, hr, fun v ↦ (hiff v).trans ⟨?_, fun hv ↦ ⟨hv.decimal, hv.min_le, hv.le_max⟩⟩⟩
    rintro ⟨hdecimal, hlo, hhi⟩
    exact ⟨hdecimal, hlo, hhi⟩
  · obtain ⟨r, hr, hiff⟩ := Apache.parseNonnegInt_spec P arg directive l.min l.max
    refine ⟨r, hr, fun v hv ↦ ?_, fun hshort v hv ↦ ?_⟩
    · obtain ⟨⟨hdecimal, hlo, hhi⟩, -⟩ := (hiff v).mp hv
      exact ⟨hdecimal, hlo, hhi⟩
    · exact (hiff v).mpr ⟨⟨hv.decimal, hv.min_le, hv.le_max⟩, hshort⟩

/-- A depth of 42, where `ngx_int_t` has 64 bits and `long` has 32. -/
theorem strictIntegers_depth :
    Limit.maxDepth.get {} = -1 ∧
    (∃ r, Nginx.setter ⟨.int64, .int32⟩ {} (lit "042") .maxDepth = some r ∧
      ∀ lcf', r = .ok lcf' ↔
        ∃ v, Limit.maxDepth.Strict (lit "042") v ∧ lcf' = Limit.maxDepth.put {} v) :=
  ⟨rfl, (strictIntegers ⟨.int64, .int32⟩ .maxDepth rfl (lit "042") (lit "MesiMaxDepth")).1⟩

/-- Apache skips a blank that nginx refuses. -/
theorem blank_differs :
    Nginx.setter ⟨.int64, .int64⟩ {} (lit " 5") .maxDepth =
        some (.error (.logged (Nginx.maxDepth.invalid (lit " 5")))) ∧
      Apache.parseNonnegInt ⟨.int64, .int64⟩ (some (lit " 5")) (lit "MesiMaxDepth")
        Limit.maxDepth.min Limit.maxDepth.max = some (.ok 5) ∧
      ¬ ∀ b ∈ lit " 5", IsDigit b := by
  refine ⟨rfl, by rfl, fun h ↦ ?_⟩
  exact absurd (h 0x20 (by decide)).1 (by decide)

end GoMesi
