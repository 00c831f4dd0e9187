import GoMesi.Go.Float64
import GoMesi.Mesi.MemoryCache

/-!
# How long the caches keep an entry

The three implementations of `Cache` are given a default lifetime when they are made and a lifetime
with every `Set`. What they make of the two, and what the servers of `cache_redis` and
`cache_memcached` make of that, is compared here with one rule (`ReadableFor`).

A server is a store in which nothing is evicted, a cache of `Lru` without a capacity. What is specific
to each of the two is how a lifetime gets over its protocol: redis takes a number of milliseconds, and
memcached a number of seconds that it reads as a date when it is greater than thirty days.
-/

namespace GoMesi

/-- `time.Millisecond` -/
def millisecond : Duration := 1000000

/-- The entries that a server has. -/
abbrev Server := List (Lru.Entry Bytes Bytes Time)

/-! ## The redis cache -/

/-- The client of `cache_redis`: the milliseconds that `Set` asks for. -/
structure RedisClient where
  millis : Duration → Option ℤ
  /-- Zero expiration means that the key has no expiration time. -/
  millis_zero : millis 0 = none
  /-- Whole milliseconds are sent as they are. -/
  millis_whole : ∀ n > 0, millis (n * millisecond) = some n

namespace RedisCache

/-- The expiration that `Set` hands to the client. -/
def expiration (defaultTTL ttl : Duration) : Duration :=
  let ttl := if ttl = 0 then defaultTTL else ttl
  if ttl > 0 then ttl else 0

/-- `Set`, and what the server does. -/
def set (C : RedisClient) (defaultTTL : Duration) (server : Server) (key value : Bytes)
    (ttl : Duration) (now : Time) : Server :=
  Lru.step none server
    ⟨now, .set key value ((C.millis (expiration defaultTTL ttl)).map fun n ↦ now + n * millisecond)⟩

/-- `Get` -/
def get (server : Server) (key : Bytes) (now : Time) : Option Bytes := Lru.get server key now

end RedisCache

/-! ## The memcached cache -/

/-- `Duration.Seconds` -/
def Duration.seconds (d : Duration) : ℚ :=
  let sec := Int.tdiv d second
  let nsec := Int.tmod d second
  Float64.round (sec + Float64.round (nsec / 1000000000))

/-- `int32(x)` for `x > 0`, the least 32-bit integer when the number does not fit. -/
def int32 (x : ℚ) : ℤ := if ⌊x⌋ < 2 ^ 31 then ⌊x⌋ else -2 ^ 31

/-- `durationToSeconds` -/
def durationToSeconds (d : Duration) : ℤ :=
  let s := Duration.seconds d
  if s ≤ 0 then 0 else if s < 1 then 1 else int32 s

/-- `MemcachedCache`, but for the client. -/
structure MemcachedCache where
  defaultTTL : ℤ

namespace MemcachedCache

/-- `NewMemcachedCache` -/
def new (defaultTTL : Duration) : MemcachedCache := ⟨durationToSeconds defaultTTL⟩

/-- The `Expiration` of the item that `Set` hands to the client. -/
def expiration (c : MemcachedCache) (ttl : Duration) : ℤ :=
  if ttl > 0 then durationToSeconds ttl else c.defaultTTL

/-- What an expiration means to a server: none, a thing of the past, a number of seconds up to thirty
days, or a date. -/
def deadline (expiration : ℤ) (now : Time) : Option Time :=
  if expiration = 0 then none
  else if expiration < 0 then some (now - 1)
  else if expiration ≤ 2592000 then some (now + expiration * second)
  else some (expiration * second)

/-- The keys that the client and the protocol take: at most 250 bytes, without white space and
control characters. -/
def legalKey (key : Bytes) : Bool :=
  key ≠ [] && key.length ≤ 250 && key.all fun b ↦ 0x20 < b && b ≠ 0x7f

/-- `Set`, and what the server does. A key that is not legal is an error. -/
def set (c : MemcachedCache) (server : Server) (key value : Bytes) (ttl : Duration) (now : Time) :
    Option Server :=
  if legalKey key then
    some (Lru.step none server ⟨now, .set key value (deadline (c.expiration ttl) now)⟩)
  else none

/-- `Get` -/
def get (server : Server) (key : Bytes) (now : Time) : Option (Option Bytes) :=
  if legalKey key then some (Lru.get server key now) else none

end MemcachedCache

/-! ## One rule for all -/

/-- The lifetime that a `Set` is about. -/
def effectiveTTL (defaultTTL ttl : Duration) : Duration := if ttl = 0 then defaultTTL else ttl

/-- A lifetime cut to whole seconds, of which there is one at least. -/
def wholeSeconds (eff : Duration) : Duration := if 0 < eff then max 1 (eff / second) * second else eff

/-- From `now` on `get` finds the value, for a time if that is positive and forever if not. -/
def ReadableFor (eff : Duration) (now : Time) (value : Bytes) (get : Time → Option Bytes) : Prop :=
  ∀ now' ≥ now, get now' = if 0 < eff → now' ≤ now + eff then some value else none

/-- The three caches keep what is set as long as the rule says. -/
structure Agree (C : RedisClient) (defaultTTL ttl : Duration) : Prop where
  memory : ∀ maxSize calls key value now, ReadableFor (effectiveTTL defaultTTL ttl) now value fun now' ↦
    (((MemoryCache.run maxSize defaultTTL calls).set key value ttl now).get key now').1
  redis : ∀ server key value now, ReadableFor (effectiveTTL defaultTTL ttl) now value fun now' ↦
    RedisCache.get (RedisCache.set C defaultTTL server key value ttl now) key now'
  memcached : ∀ server key value now, MemcachedCache.legalKey key = true →
    ∃ server', (MemcachedCache.new defaultTTL).set server key value ttl now = some server' ∧
      ReadableFor (wholeSeconds (effectiveTTL defaultTTL ttl)) now value fun now' ↦
        (MemcachedCache.get server' key now').join

/-! ## Deadlines -/

/-- The deadline of an entry with a lifetime. -/
def deadline (eff : Duration) (now : Time) : Option Time := if 0 < eff then some (now + eff) else none

/-- Two deadlines from which the same times on are too late are the same. -/
theorem eq_of_le_iff {now t t' : ℤ} (ht' : now ≤ t') (h : ∀ now' ≥ now, now' ≤ t ↔ now' ≤ t') :
    t = t' := by
  have hlast := (h t' ht').mpr le_rfl
  have hafter := mt (h (t' + 1) (by omega)).mp (by omega)
  omega

/-- No deadline is late enough for all times. -/
theorem not_forall_le (now t : ℤ) : ¬ ∀ now' ≥ now, now' ≤ t := by
  intro h
  have hlate := h (max now (t + 1)) (le_max_left _ _)
  have hmax := le_max_right now (t + 1)
  omega

/-- What is readable, and how long, is a matter of the deadline. -/
theorem readableFor_iff {eff : Duration} {now : Time} {key value : Bytes} {cap : Option ℕ}
    {s : Server} {x : Option Time} :
    ReadableFor eff now value (fun now' ↦ Lru.get (Lru.step cap s ⟨now, .set key value x⟩) key now') ↔
      x = deadline eff now := by
  have hget : ∀ now', Lru.get (Lru.step cap s ⟨now, .set key value x⟩) key now' =
      if ∀ t ∈ x, now' ≤ t then some value else none := by
    intro now'
    rw [Lru.get_step_set, Lru.Entry.expired]
    cases x with
    | none => simp
    | some t => by_cases h : t < now' <;> simp [h]
  have hvalue : ∀ p q : Prop, [Decidable p] → [Decidable q] →
      (((if p then some value else none) = if q then some value else none) ↔ (p ↔ q)) := by
    intro p q _ _
    by_cases hp : p <;> by_cases hq : q <;> simp [hp, hq]
  rw [ReadableFor, deadline]
  simp only [hget, hvalue]
  by_cases heff : 0 < eff
  · rw [if_pos heff]
    simp only [heff, true_imp_iff]
    constructor
    · intro h
      cases x with
      | none => exact absurd (fun now' hnow' ↦ (h now' hnow').mp (by simp)) (not_forall_le now _)
      | some t =>
        congr 1
        refine eq_of_le_iff (Int.le_add_of_nonneg_right heff.le) fun now' hnow' ↦ ?_
        simpa using h now' hnow'
    · rintro rfl now' -
      simp
  · rw [if_neg heff]
    simp only [heff, false_imp_iff, iff_true]
    constructor
    · intro h
      cases x with
      | none => rfl
      | some t => exact absurd (fun now' hnow' ↦ h now' hnow' t rfl) (not_forall_le now t)
    · rintro rfl now' - t ⟨⟩

/-! ## Seconds -/

section Seconds

variable {d : ℤ}

theorem seconds_nonpos (h : d ≤ 0) : Duration.seconds d ≤ 0 := by
  obtain ⟨n, rfl⟩ : ∃ n : ℤ, d = -n := ⟨-d, (neg_neg d).symm⟩
  have hn : 0 ≤ n := by omega
  have hsec : Int.tdiv (-n) second ≤ 0 := by
    rw [Int.neg_tdiv, Int.tdiv_eq_ediv_of_nonneg hn]
    exact Int.neg_nonpos_of_nonneg (Int.ediv_nonneg hn (by decide))
  have hnsec : Int.tmod (-n) second ≤ 0 := by
    rw [Int.neg_tmod, Int.tmod_eq_emod_of_nonneg hn]
    exact Int.neg_nonpos_of_nonneg (Int.emod_nonneg n (by decide))
  have hfraction : Float64.round (Int.tmod (-n) second / 1000000000) ≤ 0 := by
    refine Float64.round_nonpos (div_nonpos_of_nonpos_of_nonneg ?_ (by norm_num))
    exact_mod_cast hnsec
  refine Float64.round_nonpos (add_nonpos ?_ hfraction)
  exact_mod_cast hsec

/-- The fraction of a second after rounding: less than one, and positive if it was. -/
theorem round_fraction {n : ℤ} (h : 0 ≤ n) (hn : n < second) :
    0 ≤ Float64.round (n / 1000000000) ∧ (0 < n → 0 < Float64.round (n / 1000000000)) ∧
      Float64.round (n / 1000000000) ≤ ((2 ^ 30 - 1 : ℤ) : ℚ) / 2 ^ 30 := by
  rw [second] at hn
  rcases h.eq_or_lt with rfl | hpos
  · rw [Int.cast_zero, zero_div, Float64.round, if_pos rfl]
    exact ⟨le_rfl, fun h ↦ absurd h (lt_irrefl 0), by norm_num⟩
  · have hone : (1 : ℚ) ≤ n := by exact_mod_cast hpos
    have hlast : (n : ℚ) ≤ 999999999 := by exact_mod_cast Int.le_of_lt_add_one hn
    have hx : (0 : ℚ) < n / 1000000000 := by positivity
    -- a nanosecond is not less than the last of thirty binary digits
    have hlow : ((1 : ℤ) : ℚ) / 2 ^ 30 ≤ Float64.round (n / 1000000000) := by
      refine Float64.le_round hx (by norm_num) ?_
      rw [div_le_div_iff₀ (by norm_num) (by norm_num)]
      norm_num
      linarith
    have hpositive : (0 : ℚ) < ((1 : ℤ) : ℚ) / 2 ^ 30 := by norm_num
    refine ⟨(hpositive.trans_le hlow).le, fun _ ↦ hpositive.trans_le hlow, ?_⟩
    refine Float64.round_le hx (by norm_num) ?_
    rw [div_le_div_iff₀ (by norm_num) (by norm_num)]
    norm_num
    linarith

theorem seconds_eq (h : 0 ≤ d) : Duration.seconds d =
    Float64.round ((d / second : ℤ) + Float64.round ((d % second : ℤ) / 1000000000)) := by
  rw [Duration.seconds, Int.tdiv_eq_ediv_of_nonneg h, Int.tmod_eq_emod_of_nonneg h]

/-- The number that is rounded is positive, and within the second. -/
theorem seconds_bounds (h : 0 < d) : ∃ x : ℚ, Duration.seconds d = Float64.round x ∧ 0 < x ∧
    (d / second : ℤ) ≤ x ∧ x ≤ (((d / second) * 2 ^ 30 + (2 ^ 30 - 1) : ℤ) : ℚ) / 2 ^ 30 := by
  have hsec : 0 ≤ d / second := Int.ediv_nonneg h.le (by decide)
  have hsecRat : (0 : ℚ) ≤ (d / second : ℤ) := by exact_mod_cast hsec
  obtain ⟨hnonneg, hpos, hlt⟩ :=
    round_fraction (Int.emod_nonneg d (by decide)) (Int.emod_lt_of_pos d (by decide : 0 < second))
  refine ⟨_, seconds_eq h.le, ?_, le_add_of_nonneg_right hnonneg, ?_⟩
  · rcases hsec.eq_or_lt with hzero | hsecPos
    · have hd : d % second = d := by
        have := Int.emod_add_mul_ediv d second
        rw [← hzero] at this
        omega
      exact add_pos_of_nonneg_of_pos hsecRat (hpos (by omega))
    · exact add_pos_of_pos_of_nonneg (by exact_mod_cast hsecPos) hnonneg
  · calc ((d / second : ℤ) : ℚ) + Float64.round ((d % second : ℤ) / 1000000000)
        ≤ (d / second : ℤ) + ((2 ^ 30 - 1 : ℤ) : ℚ) / 2 ^ 30 := by linarith
      _ = (((d / second) * 2 ^ 30 + (2 ^ 30 - 1) : ℤ) : ℚ) / 2 ^ 30 := by
        push_cast
        ring

theorem durationToSeconds_of_nonpos (h : d ≤ 0) : durationToSeconds d = 0 := by
  rw [durationToSeconds]
  exact if_pos (seconds_nonpos h)

/-- Up to thirty days rounding does not reach the next second. -/
theorem durationToSeconds_of_lt (hpos : 0 < d) (h : d < 2592001 * second) :
    durationToSeconds d = max 1 (d / second) := by
  obtain ⟨x, hx, hxpos, hle, hge⟩ := seconds_bounds hpos
  have hsec : d / second ≤ 2592000 := by
    have := Int.ediv_lt_of_lt_mul (by decide : 0 < second) h
    omega
  have hlow : ((d / second : ℤ) : ℚ) ≤ Float64.round x := by
    have := Float64.le_round (k := 0) hxpos (by omega : d / second < 2 ^ 53) (by simpa using hle)
    simpa using this
  have hhigh := Float64.round_le hxpos (by omega) hge
  have hnext : Float64.round x < ((d / second : ℤ) : ℚ) + 1 := by
    refine hhigh.trans_lt ?_
    rw [div_lt_iff₀ (by norm_num)]
    push_cast
    linarith
  rw [durationToSeconds, hx]
  rw [if_neg (not_le.mpr (Float64.round_pos hxpos))]
  by_cases hless : d / second < 1
  · have hzero : d / second = 0 := le_antisymm (Int.le_of_lt_add_one hless) (Int.ediv_nonneg hpos.le (by decide))
    rw [hzero] at hnext ⊢
    rw [if_pos (by simpa using hnext)]
    rfl
  · have hone : 1 ≤ d / second := not_lt.mp hless
    have hfloor : ⌊Float64.round x⌋ = d / second := Int.floor_eq_iff.mpr ⟨hlow, hnext⟩
    have hlong : (1 : ℚ) ≤ Float64.round x := le_trans (by exact_mod_cast hone) hlow
    rw [if_neg (not_lt.mpr hlong), int32, hfloor, if_pos (by omega), max_eq_right hone]

/-- Beyond that the result is a date, at most one second after `d` itself in seconds, or negative. -/
theorem durationToSeconds_of_le (h : 2592001 * second ≤ d) :
    durationToSeconds d < 0 ∨
      2592001 ≤ durationToSeconds d ∧ durationToSeconds d ≤ d / second + 1 := by
  have hpos : 0 < d := lt_of_lt_of_le (by decide) h
  obtain ⟨x, hx, hxpos, hle, hge⟩ := seconds_bounds hpos
  have hsec : 2592001 ≤ d / second := (Int.le_ediv_iff_mul_le (by decide)).mpr h
  have hlow {m : ℤ} (hm : m < 2 ^ 53) (hmd : m ≤ d / second) : (m : ℚ) ≤ Float64.round x := by
    have hmx : (m : ℚ) ≤ x := le_trans (by exact_mod_cast hmd) hle
    simpa using Float64.le_round (k := 0) hxpos hm (by simpa using hmx)
  have hlong : (2592001 : ℚ) ≤ Float64.round x := by exact_mod_cast hlow (by norm_num) hsec
  rw [durationToSeconds, hx, if_neg (by linarith), if_neg (by linarith), int32]
  by_cases hfits : ⌊Float64.round x⌋ < 2 ^ 31
  · rw [if_pos hfits]
    right
    refine ⟨Int.le_floor.mpr (by exact_mod_cast hlong), ?_⟩
    -- a number this small has 53 digits
    have hsmall : d / second < 2 ^ 31 := by
      by_contra hlarge
      have hbig := hlow (m := 2 ^ 31) (by norm_num) (not_lt.mp hlarge)
      exact absurd (Int.le_floor.mpr hbig) (not_le.mpr hfits)
    have hxnext : x ≤ ((d / second + 1 : ℤ) : ℚ) := by
      refine hge.trans ?_
      rw [div_le_iff₀ (by norm_num)]
      push_cast
      linarith
    have hround := Float64.round_le (m := d / second + 1) (k := 0) hxpos (by omega)
      (by simpa using hxnext)
    rw [pow_zero, div_one] at hround
    exact Int.cast_le.mp ((Int.floor_le _).trans hround)
  · rw [if_neg hfits]
    exact .inl (by norm_num)

end Seconds

/-! ## What each backend makes of a lifetime -/

theorem memory_deadline (defaultTTL ttl : Duration) (now : Time) :
    MemoryCache.expireAt defaultTTL ttl now = deadline (effectiveTTL defaultTTL ttl) now := rfl

/-- Redis keeps what is a whole number of milliseconds. -/
theorem redis_deadline_iff (C : RedisClient) (defaultTTL ttl : Duration) (now : Time) :
    (C.millis (RedisCache.expiration defaultTTL ttl)).map (fun n ↦ now + n * millisecond) =
        deadline (effectiveTTL defaultTTL ttl) now ↔
      (0 < effectiveTTL defaultTTL ttl → millisecond ∣ effectiveTTL defaultTTL ttl) := by
  have hexpiration : RedisCache.expiration defaultTTL ttl =
      if 0 < effectiveTTL defaultTTL ttl then effectiveTTL defaultTTL ttl else 0 := rfl
  rw [hexpiration, deadline]
  by_cases heff : 0 < effectiveTTL defaultTTL ttl
  · rw [if_pos heff, if_pos heff]
    generalize effectiveTTL defaultTTL ttl = eff at *
    constructor
    · intro h _
      obtain ⟨n, -, hn⟩ := Option.map_eq_some_iff.mp h
      exact ⟨n, by rw [mul_comm]; exact (Int.add_left_cancel hn).symm⟩
    · intro h
      obtain ⟨n, rfl⟩ := h heff
      have hn : 0 < n := pos_of_mul_pos_right heff (by decide : (0 : ℤ) ≤ millisecond)
      rw [mul_comm, C.millis_whole n hn]
      rfl
  · rw [if_neg heff, if_neg heff, C.millis_zero]
    exact iff_of_true rfl fun h ↦ absurd h heff

namespace MemcachedCache

theorem deadline_of_mem {n : ℤ} (hpos : 0 < n) (h : n ≤ 2592000) (now : Time) :
    deadline n now = some (now + n * second) := by
  rw [deadline, if_neg hpos.ne', if_neg hpos.not_gt, if_pos h]

theorem deadline_of_gt {n : ℤ} (h : 2592000 < n) (now : Time) :
    deadline n now = some (n * second) := by
  have hpos : 0 < n := by omega
  rw [deadline, if_neg hpos.ne', if_neg hpos.not_gt, if_neg h.not_ge]

theorem deadline_of_neg {n : ℤ} (h : n < 0) (now : Time) : deadline n now = some (now - 1) := by
  rw [deadline, if_neg h.ne, if_pos h]

theorem deadline_eq_none_iff {n : ℤ} {now : Time} : deadline n now = none ↔ n = 0 := by
  rw [deadline]
  split_ifs with h <;> simp [h]

end MemcachedCache

/-- A date that is at most a second after `n` seconds is not `n` seconds after `now`. -/
theorem date_ne {e n now : ℤ} (he : e ≤ n + 1) (hnow : second < now) :
    e * second ≠ now + n * second := by
  have hsecond : (1000000000 : ℤ) < now := hnow
  show e * (1000000000 : ℤ) ≠ now + n * 1000000000
  omega

/-- Memcached keeps up to thirty days. -/
theorem memcached_deadline_of_pos {eff : ℤ} (heff : 0 < eff) :
    (∀ now, MemcachedCache.deadline (durationToSeconds eff) now = deadline (wholeSeconds eff) now) ↔
      eff < 2592001 * second := by
  have hwhole : wholeSeconds eff = max 1 (eff / second) * second := if_pos heff
  have hwholePos : 0 < wholeSeconds eff := by
    rw [hwhole]
    exact mul_pos (lt_max_of_lt_left one_pos) (by decide)
  simp only [deadline, if_pos hwholePos]
  constructor
  · intro h
    by_contra hlong
    have hsec : 2592001 ≤ eff / second := (Int.le_ediv_iff_mul_le (by decide)).mpr (not_lt.mp hlong)
    -- any time will do that is not within the first second of 1970
    have hnow := h (1700000000 * second)
    rw [hwhole, max_eq_right (le_trans (by norm_num) hsec)] at hnow
    rcases durationToSeconds_of_le (not_lt.mp hlong) with hneg | ⟨hdate, hle⟩
    · rw [MemcachedCache.deadline_of_neg hneg, Option.some_inj] at hnow
      have hpast : (1700000000 * 1000000000 - 1 : ℤ) =
          1700000000 * 1000000000 + eff / second * 1000000000 := hnow
      omega
    · rw [MemcachedCache.deadline_of_gt (by omega), Option.some_inj] at hnow
      exact date_ne hle (by decide) hnow
  · intro h now
    have hsec := Int.ediv_lt_of_lt_mul (by decide : 0 < second) h
    rw [durationToSeconds_of_lt heff h, hwhole, MemcachedCache.deadline_of_mem]
    · exact lt_max_of_lt_left one_pos
    · exact max_le (by norm_num) (by omega)

/-- No lifetime that is positive turns into none. -/
theorem durationToSeconds_eq_zero_iff {d : ℤ} : durationToSeconds d = 0 ↔ d ≤ 0 := by
  constructor
  · intro h
    by_contra hpos
    rcases lt_or_ge d (2592001 * second) with hlt | hge
    · rw [durationToSeconds_of_lt (not_le.mp hpos) hlt] at h
      exact absurd h (lt_max_of_lt_left one_pos).ne'
    · rcases durationToSeconds_of_le hge with hneg | ⟨hdate, -⟩ <;> omega
  · exact durationToSeconds_of_nonpos

theorem memcached_deadline_iff (defaultTTL ttl : ℤ) :
    (∀ now, MemcachedCache.deadline ((MemcachedCache.new defaultTTL).expiration ttl) now =
        deadline (wholeSeconds (effectiveTTL defaultTTL ttl)) now) ↔
      (ttl < 0 → defaultTTL ≤ 0) ∧
        (0 < effectiveTTL defaultTTL ttl → effectiveTTL defaultTTL ttl < 2592001 * second) := by
  -- without a positive lifetime there has to be no expiration at all
  have hnone {eff n : ℤ} (heff : ¬ 0 < eff) :
      (∀ now, MemcachedCache.deadline n now = deadline (wholeSeconds eff) now) ↔ n = 0 := by
    simp only [wholeSeconds, deadline, if_neg heff, MemcachedCache.deadline_eq_none_iff]
    exact forall_const _
  rw [MemcachedCache.expiration, MemcachedCache.new]
  rcases lt_trichotomy ttl 0 with hneg | rfl | hpos
  · have heff : effectiveTTL defaultTTL ttl = ttl := if_neg hneg.ne
    rw [heff, if_neg hneg.not_gt, hnone hneg.not_gt, durationToSeconds_eq_zero_iff]
    exact ⟨fun h ↦ ⟨fun _ ↦ h, fun hpos ↦ absurd hpos hneg.not_gt⟩, fun h ↦ h.1 hneg⟩
  · have heff : effectiveTTL defaultTTL 0 = defaultTTL := if_pos rfl
    rw [heff, if_neg (lt_irrefl _)]
    by_cases hdefault : 0 < defaultTTL
    · rw [memcached_deadline_of_pos hdefault]
      exact ⟨fun h ↦ ⟨fun h₀ ↦ absurd h₀ (lt_irrefl _), fun _ ↦ h⟩, fun h ↦ h.2 hdefault⟩
    · rw [hnone hdefault, durationToSeconds_eq_zero_iff]
      exact iff_of_true (not_lt.mp hdefault)
        ⟨fun _ ↦ not_lt.mp hdefault, fun h ↦ absurd h hdefault⟩
  · have heff : effectiveTTL defaultTTL ttl = ttl := if_neg hpos.ne'
    rw [heff, if_pos hpos, memcached_deadline_of_pos hpos]
    exact ⟨fun h ↦ ⟨fun h₀ ↦ absurd h₀ hpos.not_gt, fun _ ↦ h⟩, fun h ↦ h.2 hpos⟩

/-! ## The three of them -/

/-- The memory cache keeps the rule, whatever happened to it before. -/
theorem readableFor_memory (maxSize : ℤ) (defaultTTL ttl : Duration) (calls : List CacheCall)
    (key value : Bytes) (now : Time) :
    ReadableFor (effectiveTTL defaultTTL ttl) now value fun now' ↦
      (((MemoryCache.run maxSize defaultTTL calls).set key value ttl now).get key now').1 := by
  obtain ⟨hwf, -⟩ := MemoryCache.run_spec maxSize defaultTTL calls
  obtain ⟨-, httl⟩ := MemoryCache.run_config maxSize defaultTTL calls
  obtain ⟨hwf', habs⟩ := @MemoryCache.Wf.set _ key now hwf value ttl
  simp only [hwf'.get_fst, habs, httl]
  exact readableFor_iff.mpr (memory_deadline defaultTTL ttl now)

/-- With memcached it is a matter of the deadlines. -/
theorem readableFor_memcached_iff {defaultTTL ttl eff : Duration} :
    (∀ server key value now, MemcachedCache.legalKey key = true →
      ∃ server', (MemcachedCache.new defaultTTL).set server key value ttl now = some server' ∧
        ReadableFor eff now value fun now' ↦ (MemcachedCache.get server' key now').join) ↔
      ∀ now, MemcachedCache.deadline ((MemcachedCache.new defaultTTL).expiration ttl) now =
        deadline eff now := by
  constructor
  · intro h now
    have hlegal : MemcachedCache.legalKey (lit "k") = true := by decide
    obtain ⟨server', hset, hreadable⟩ := h [] (lit "k") [] now hlegal
    rw [MemcachedCache.set, if_pos hlegal] at hset
    rw [← Option.some.inj hset] at hreadable
    simp only [MemcachedCache.get, if_pos hlegal, Option.join_some] at hreadable
    exact readableFor_iff.mp hreadable
  · intro h server key value now hkey
    refine ⟨_, by rw [MemcachedCache.set, if_pos hkey], ?_⟩
    simp only [MemcachedCache.get, if_pos hkey, Option.join_some]
    exact readableFor_iff.mpr (h now)

/-- **Main result.** When the three caches keep an entry for the same time. -/
theorem agree_iff (C : RedisClient) (defaultTTL ttl : Duration) : Agree C defaultTTL ttl ↔
    (ttl < 0 → defaultTTL ≤ 0) ∧ (0 < effectiveTTL defaultTTL ttl →
      effectiveTTL defaultTTL ttl < 2592001 * second ∧
        millisecond ∣ effectiveTTL defaultTTL ttl) := by
  have hmemcached := readableFor_memcached_iff.trans (memcached_deadline_iff defaultTTL ttl)
  constructor
  · intro h
    have hredis := (redis_deadline_iff C defaultTTL ttl 0).mp
      (readableFor_iff.mp (h.redis [] (lit "k") [] 0))
    obtain ⟨hneg, hlong⟩ := hmemcached.mp h.memcached
    exact ⟨hneg, fun heff ↦ ⟨hlong heff, hredis heff⟩⟩
  · rintro ⟨hneg, heff⟩
    refine ⟨fun maxSize ↦ readableFor_memory maxSize defaultTTL ttl, ?_, ?_⟩
    · intro server key value now
      exact readableFor_iff.mpr ((redis_deadline_iff C defaultTTL ttl now).mpr fun h ↦ (heff h).2)
    · exact hmemcached.mpr ⟨hneg, fun h ↦ (heff h).1⟩

/-- A client that cuts to whole milliseconds, of which it sends one at least. -/
def RedisClient.cutting : RedisClient where
  millis d := if d ≤ 0 then none else some (max 1 (d / millisecond))
  millis_zero := rfl
  millis_whole n hn := by
    have hpos : 0 < n * millisecond := mul_pos hn (by decide)
    rw [if_neg (not_le.mpr hpos), Int.mul_ediv_cancel n (by decide), max_eq_right hn]

/-- A negative lifetime with a default of an hour: memcached takes the default. -/
theorem not_agree : ¬ ∀ (C : RedisClient) (defaultTTL ttl : Duration), Agree C defaultTTL ttl := by
  intro h
  have hmemcached := (h .cutting (3600 * second) (-1)).memcached
  obtain ⟨hneg, -⟩ := (memcached_deadline_iff _ _).mp (readableFor_memcached_iff.mp hmemcached)
  exact absurd (hneg (by decide)) (by decide)

end GoMesi
