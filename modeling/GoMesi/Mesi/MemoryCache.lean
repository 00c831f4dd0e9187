import GoMesi.Caching.Lru
import GoMesi.Mesi.Operations

/-!
# The memory cache

`cache_memory.go`. A `MemoryCache` keeps its entries twice, in a map by their keys and in a linked
list by their last uses, and every operation changes both. That they stay in step is `Wf`. What the
two together mean is the list of the entries in the order of the linked list (`abs`), and on that
list the operations are those of `Lru`.

Every method holds the mutex from beginning to end and reads the clock at most once, so a method is
a function of the cache and of one clock reading.
-/

namespace GoMesi

/-- A `*memoryCacheEntry`, by the order of allocation. Its element in the linked list is the one
with this entry as its value. -/
abbrev EntryId := ℕ

/-- `memoryCacheEntry`, without the pointer to its element. An `expireAt` that is zero is absent. -/
structure MemoryCacheEntry where
  key : Bytes
  value : Bytes
  expireAt : Option Time

/-- `MemoryCache` and what its pointers point to. The front of the linked list is the head. -/
structure MemoryCache where
  items : AList fun _ : Bytes ↦ EntryId
  entries : EntryId → MemoryCacheEntry
  lru : List EntryId
  /-- The entry that is allocated next. -/
  next : EntryId
  maxSize : ℤ
  defaultTTL : Duration

namespace MemoryCache

/-- `NewMemoryCache` -/
def new (maxSize : ℤ) (defaultTTL : Duration) : MemoryCache where
  items := ∅
  entries _ := ⟨[], [], none⟩
  lru := []
  next := 0
  maxSize := maxSize
  defaultTTL := defaultTTL

/-- `List.MoveToFront` -/
def moveToFront (l : List EntryId) (entry : EntryId) : List EntryId :=
  if entry ∈ l then entry :: l.erase entry else l

/-- `removeEntry` -/
def removeEntry (c : MemoryCache) (key : Bytes) (entry : EntryId) : MemoryCache :=
  { c with lru := c.lru.erase entry, items := c.items.erase key }

/-- `evictLRU` -/
def evictLRU (c : MemoryCache) : MemoryCache :=
  match c.lru.getLast? with
  | none => c
  | some entry => c.removeEntry (c.entries entry).key entry

/-- The `expireAt` of an entry that is set with a `ttl`. -/
def expireAt (defaultTTL ttl : Duration) (now : Time) : Option Time :=
  let ttl := if ttl = 0 then defaultTTL else ttl
  if ttl > 0 then some (now + ttl) else none

/-- The entry has an `expireAt` before `now`. -/
def expired (c : MemoryCache) (entry : EntryId) (now : Time) : Bool :=
  match (c.entries entry).expireAt with
  | none => false
  | some t => t < now

/-- `Get` -/
def get (c : MemoryCache) (key : Bytes) (now : Time) : Option Bytes × MemoryCache :=
  match c.items.lookup key with
  | none => (none, c)
  | some entry =>
    if c.expired entry now then (none, c.removeEntry key entry)
    else (some (c.entries entry).value, { c with lru := moveToFront c.lru entry })

/-- `Set` -/
def set (c : MemoryCache) (key value : Bytes) (ttl : Duration) (now : Time) : MemoryCache :=
  match c.items.lookup key with
  | some entry =>
    { c with
      entries := Function.update c.entries entry
        { c.entries entry with value, expireAt := expireAt c.defaultTTL ttl now }
      lru := moveToFront c.lru entry }
  | none =>
    let c := if c.maxSize > 0 ∧ c.lru.length ≥ c.maxSize then c.evictLRU else c
    { c with
      entries := Function.update c.entries c.next ⟨key, value, expireAt c.defaultTTL ttl now⟩
      lru := c.next :: c.lru
      items := c.items.insert key c.next
      next := c.next + 1 }

/-- `Delete` -/
def delete (c : MemoryCache) (key : Bytes) : MemoryCache :=
  match c.items.lookup key with
  | none => c
  | some entry => c.removeEntry key entry

end MemoryCache

/-- A call of a method. -/
inductive CacheOp
  | get (key : Bytes)
  | set (key value : Bytes) (ttl : Duration)
  | delete (key : Bytes)

/-- A call of a method at a time. -/
structure CacheCall where
  now : Time
  op : CacheOp

namespace MemoryCache

/-- What a call makes of the cache. -/
def step (c : MemoryCache) (call : CacheCall) : MemoryCache :=
  match call.op with
  | .get key => (c.get key call.now).2
  | .set key value ttl => c.set key value ttl call.now
  | .delete key => c.delete key

/-- What the calls make of a new cache. -/
def run (maxSize : ℤ) (defaultTTL : Duration) (calls : List CacheCall) : MemoryCache :=
  calls.foldl step (new maxSize defaultTTL)

/-- The entry of a key. -/
def find (c : MemoryCache) (key : Bytes) : Option MemoryCacheEntry :=
  (c.items.lookup key).map c.entries

/-- The call is a `Set`, and the entry of `key` is gone after it. -/
def Evicts (c : MemoryCache) (call : CacheCall) (key : Bytes) : Prop :=
  (∃ key' value ttl, call.op = .set key' value ttl) ∧ key ∈ c.items ∧ key ∉ (c.step call).items

/-! ## The map and the list -/

/-- The map and the list hold the same entries, each under its key, and none of them is the next one
to be allocated. -/
structure Wf (c : MemoryCache) : Prop where
  nodup : c.lru.Nodup
  lookup_iff : ∀ {key entry}, c.items.lookup key = some entry ↔
    entry ∈ c.lru ∧ (c.entries entry).key = key
  fresh : ∀ {entry}, entry ∈ c.lru → entry < c.next

/-- The entries as those of a cache in the sense of `Lru`. -/
def entry (c : MemoryCache) (e : EntryId) : Lru.Entry Bytes Bytes Time :=
  ⟨(c.entries e).key, (c.entries e).value, (c.entries e).expireAt⟩

/-- What the cache means. -/
def abs (c : MemoryCache) : List (Lru.Entry Bytes Bytes Time) := c.lru.map c.entry

/-- The capacity, if there is a limit. -/
def capacity (maxSize : ℤ) : Option ℕ := if maxSize > 0 then some maxSize.toNat else none

variable {c : MemoryCache} {key : Bytes} {e : EntryId}

namespace Wf

theorem lookup (h : c.Wf) (he : e ∈ c.lru) : c.items.lookup (c.entries e).key = some e :=
  h.lookup_iff.mpr ⟨he, rfl⟩

/-- Different entries have different keys. -/
theorem key_ne (h : c.Wf) {e' : EntryId} (he : e ∈ c.lru) (he' : e' ∈ c.lru) (hne : e' ≠ e) :
    (c.entries e').key ≠ (c.entries e).key := fun hkey ↦
  hne (Option.some.inj ((h.lookup he').symm.trans (hkey ▸ h.lookup he)))

theorem find_abs (h : c.Wf) (key : Bytes) :
    Lru.find c.abs key = (c.items.lookup key).map c.entry := by
  cases hlookup : c.items.lookup key with
  | none =>
    refine Lru.find_eq_none.mpr fun x hx hkey ↦ ?_
    obtain ⟨e, he, rfl⟩ := List.mem_map.mp hx
    exact absurd (hlookup.symm.trans (h.lookup_iff.mpr ⟨he, hkey⟩)) (by simp)
  | some e =>
    obtain ⟨he, hkey⟩ := h.lookup_iff.mp hlookup
    cases hfind : Lru.find c.abs key with
    | none => exact absurd hkey (Lru.find_eq_none.mp hfind _ (List.mem_map_of_mem he))
    | some x =>
      obtain ⟨e', he', rfl⟩ := List.mem_map.mp (Lru.mem_of_find hfind)
      have hkey' : (c.entries e').key = key := Lru.key_of_find hfind
      rw [Option.some.inj ((h.lookup_iff.mpr ⟨he', hkey'⟩).symm.trans hlookup)]
      rfl

/-- Taking an entry from the list is removing its key. -/
theorem abs_erase (h : c.Wf) (he : e ∈ c.lru) :
    (c.lru.erase e).map c.entry = Lru.remove c.abs (c.entries e).key := by
  rw [h.nodup.erase_eq_filter, abs, Lru.remove, List.filter_map]
  refine congrArg _ (List.filter_congr fun e' he' ↦ ?_)
  by_cases hne : e' = e
  · simp [hne, entry]
  · have hkey : (c.entry e').key ≠ (c.entries e).key := h.key_ne he he' hne
    simp [hne, hkey]

theorem removeEntry (h : c.Wf) (he : e ∈ c.lru) :
    (c.removeEntry (c.entries e).key e).Wf where
  nodup := h.nodup.erase e
  lookup_iff {key e'} := by
    show AList.lookup key (c.items.erase _) = some e' ↔ e' ∈ c.lru.erase e ∧ (c.entries e').key = key
    rw [h.nodup.mem_erase_iff]
    by_cases hkey : key = (c.entries e).key
    · subst hkey
      rw [AList.lookup_erase]
      refine iff_of_false (by simp) fun ⟨⟨hne, he'⟩, hkey⟩ ↦ ?_
      exact h.key_ne he he' hne hkey
    · rw [AList.lookup_erase_ne hkey, h.lookup_iff]
      refine ⟨fun ⟨he', hkey'⟩ ↦ ⟨⟨fun heq ↦ ?_, he'⟩, hkey'⟩, fun ⟨⟨_, he'⟩, hkey'⟩ ↦ ⟨he', hkey'⟩⟩
      exact hkey (heq ▸ hkey'.symm)
  fresh he' := h.fresh (List.mem_of_mem_erase he')

theorem abs_removeEntry (h : c.Wf) (he : e ∈ c.lru) :
    (c.removeEntry (c.entries e).key e).abs = Lru.remove c.abs (c.entries e).key :=
  h.abs_erase he

theorem mem_moveToFront {l : List EntryId} (hl : l.Nodup) (e : EntryId) {e' : EntryId} :
    e' ∈ moveToFront l e ↔ e' ∈ l := by
  rw [moveToFront]
  split_ifs with he
  · rw [List.mem_cons, hl.mem_erase_iff]
    exact ⟨fun h ↦ h.elim (fun heq ↦ heq ▸ he) And.right, fun h ↦
      (eq_or_ne e' e).imp_right fun hne ↦ ⟨hne, h⟩⟩
  · rfl

theorem nodup_moveToFront {l : List EntryId} (hl : l.Nodup) (e : EntryId) :
    (moveToFront l e).Nodup := by
  rw [moveToFront]
  split_ifs
  · exact List.nodup_cons.mpr ⟨fun he ↦ (hl.mem_erase_iff.mp he).1 rfl, hl.erase e⟩
  · exact hl

/-- The back of the list is the entry that `Lru` evicts. -/
theorem evictLRU (h : c.Wf) : c.evictLRU.Wf ∧ c.evictLRU.abs = c.abs.dropLast := by
  rw [MemoryCache.evictLRU]
  split
  · rename_i hlast
    have hnil : c.lru = [] := by simpa using hlast
    exact ⟨h, by simp [abs, hnil]⟩
  · rename_i e hlast
    have he : e ∈ c.lru := List.mem_of_getLast? hlast
    refine ⟨h.removeEntry he, ?_⟩
    obtain ⟨l, hl⟩ := List.getLast?_eq_some_iff.mp hlast
    have hnotin : e ∉ l := fun hmem ↦ by
      have := h.nodup
      rw [hl, List.nodup_append] at this
      exact this.2.2 e hmem e (by simp) rfl
    show (c.lru.erase e).map c.entry = (c.lru.map c.entry).dropLast
    rw [hl, List.erase_append_right _ hnotin]
    simp

end Wf

/-! ## The operations are those of `Lru` -/

end MemoryCache

/-- A call as a call to a cache of `Lru`. -/
def CacheCall.abs (defaultTTL : Duration) (call : CacheCall) : Lru.Call Bytes Bytes Time where
  now := call.now
  op :=
    match call.op with
    | .get key => .get key
    | .set key value ttl => .set key value (MemoryCache.expireAt defaultTTL ttl call.now)
    | .delete key => .delete key

namespace MemoryCache

variable {c : MemoryCache} {key : Bytes} {e : EntryId} {now : Time} {call : CacheCall}

@[simp] theorem expired_entry : (c.entry e).expired now = c.expired e now := by
  simp only [Lru.Entry.expired, entry, expired]
  cases (c.entries e).expireAt <;> simp

@[simp] theorem maxSize_evictLRU (c : MemoryCache) : c.evictLRU.maxSize = c.maxSize := by
  rw [evictLRU]
  split <;> rfl

@[simp] theorem defaultTTL_evictLRU (c : MemoryCache) : c.evictLRU.defaultTTL = c.defaultTTL := by
  rw [evictLRU]
  split <;> rfl

theorem full_abs (c : MemoryCache) :
    Lru.full (capacity c.maxSize) c.abs = true ↔ c.maxSize > 0 ∧ c.lru.length ≥ c.maxSize := by
  rw [capacity]
  split_ifs with hpos
  · simp only [Lru.full, abs, List.length_map, decide_eq_true_eq]
    omega
  · simp [Lru.full, hpos]

namespace Wf

theorem get_fst (h : c.Wf) : (c.get key now).1 = Lru.get c.abs key now := by
  rw [get, Lru.get, h.find_abs]
  cases c.items.lookup key with
  | none => rfl
  | some e =>
    simp only [Option.map_some, expired_entry]
    by_cases hexp : c.expired e now = true
    · simp only [if_pos hexp]
    · simp only [if_neg hexp]
      rfl

theorem moveToFront (h : c.Wf) (e : EntryId) : { c with lru := moveToFront c.lru e }.Wf where
  nodup := nodup_moveToFront h.nodup e
  lookup_iff := h.lookup_iff.trans (and_congr_left fun _ ↦ (mem_moveToFront h.nodup e).symm)
  fresh he := h.fresh ((mem_moveToFront h.nodup e).mp he)

theorem get_snd (h : c.Wf) : (c.get key now).2.Wf ∧
    (c.get key now).2.abs = Lru.step (capacity c.maxSize) c.abs ⟨now, .get key⟩ := by
  simp only [get, Lru.step, h.find_abs]
  cases hlookup : c.items.lookup key with
  | none => exact ⟨h, rfl⟩
  | some e =>
    obtain ⟨he, rfl⟩ := h.lookup_iff.mp hlookup
    simp only [Option.map_some, expired_entry]
    by_cases hexp : c.expired e now = true
    · simp only [if_pos hexp]
      exact ⟨h.removeEntry he, h.abs_removeEntry he⟩
    · simp only [if_neg hexp]
      refine ⟨h.moveToFront e, ?_⟩
      simp only [abs, MemoryCache.moveToFront, if_pos he, List.map_cons]
      exact congrArg _ (h.abs_erase he)

theorem delete (h : c.Wf) : (c.delete key).Wf ∧
    (c.delete key).abs = Lru.step (capacity c.maxSize) c.abs ⟨now, .delete key⟩ := by
  simp only [MemoryCache.delete, Lru.step]
  cases hlookup : c.items.lookup key with
  | none =>
    have hne := Lru.find_eq_none.mp ((h.find_abs key).trans (by rw [hlookup]; rfl))
    exact ⟨h, (List.filter_eq_self.mpr fun x hx ↦ by simpa using hne x hx).symm⟩
  | some e =>
    obtain ⟨he, rfl⟩ := h.lookup_iff.mp hlookup
    exact ⟨h.removeEntry he, h.abs_removeEntry he⟩

/-- Writing to an entry that is in the list. -/
theorem overwrite (h : c.Wf) (he : e ∈ c.lru) (value : Bytes) (x : Option Time) :
    { c with
      entries := Function.update c.entries e { c.entries e with value, expireAt := x }
      lru := MemoryCache.moveToFront c.lru e }.Wf where
  nodup := nodup_moveToFront h.nodup e
  lookup_iff {key e'} := by
    have hkey : (Function.update c.entries e { c.entries e with value, expireAt := x } e').key
        = (c.entries e').key := by
      by_cases hne : e' = e
      · subst hne
        simp
      · simp [hne]
    show _ ↔ e' ∈ MemoryCache.moveToFront c.lru e ∧ (Function.update c.entries e _ e').key = key
    rw [hkey, mem_moveToFront h.nodup, ← h.lookup_iff]
  fresh he' := h.fresh ((mem_moveToFront h.nodup e).mp he')

/-- Allocating an entry for a key that has none. -/
theorem insert (h : c.Wf) (hnone : c.items.lookup key = none) (value : Bytes) (x : Option Time) :
    { c with
      entries := Function.update c.entries c.next ⟨key, value, x⟩
      lru := c.next :: c.lru
      items := c.items.insert key c.next
      next := c.next + 1 }.Wf where
  nodup := List.nodup_cons.mpr ⟨fun hmem ↦ (h.fresh hmem).false, h.nodup⟩
  lookup_iff {key' e'} := by
    show AList.lookup key' (c.items.insert key c.next) = some e' ↔
      e' ∈ c.next :: c.lru ∧ (Function.update c.entries c.next _ e').key = key'
    by_cases hkey : key' = key
    · subst hkey
      rw [AList.lookup_insert, List.mem_cons]
      refine ⟨fun heq ↦ ?_, fun ⟨hmem, hkey⟩ ↦ ?_⟩
      · obtain rfl := Option.some.inj heq
        simp
      · by_cases hne : e' = c.next
        · rw [hne]
        · have he' := hmem.resolve_left hne
          rw [Function.update_of_ne hne] at hkey
          exact absurd (hnone.symm.trans (h.lookup_iff.mpr ⟨he', hkey⟩)) (by simp)
    · rw [AList.lookup_insert_ne hkey, h.lookup_iff, List.mem_cons]
      by_cases hne : e' = c.next
      · subst hne
        refine iff_of_false (fun hmem ↦ (h.fresh hmem.1).false) fun ⟨_, heq⟩ ↦ ?_
        rw [Function.update_self] at heq
        exact hkey heq.symm
      · rw [Function.update_of_ne hne]
        exact and_congr_left fun _ ↦ ⟨.inr, fun hmem ↦ hmem.resolve_left hne⟩
  fresh he' := by
    rcases List.mem_cons.mp he' with rfl | he'
    · exact Nat.lt_succ_self _
    · exact (h.fresh he').trans (Nat.lt_succ_self _)

/-- Entries that are not written to mean the same. -/
theorem map_entry_update {l : List EntryId} (he : e ∉ l) (x : MemoryCacheEntry) :
    (l.map fun e' ↦ entry { c with entries := Function.update c.entries e x } e') = l.map c.entry := by
  refine List.map_congr_left fun e' he' ↦ ?_
  have hne : e' ≠ e := fun heq ↦ he (heq ▸ he')
  simp [entry, hne]

theorem set (h : c.Wf) (value : Bytes) (ttl : Duration) : (c.set key value ttl now).Wf ∧
    (c.set key value ttl now).abs = Lru.step (capacity c.maxSize) c.abs
      ⟨now, .set key value (expireAt c.defaultTTL ttl now)⟩ := by
  simp only [MemoryCache.set, Lru.step, h.find_abs]
  cases hlookup : c.items.lookup key with
  | some e =>
    obtain ⟨he, rfl⟩ := h.lookup_iff.mp hlookup
    refine ⟨h.overwrite he value _, ?_⟩
    have hnotin : e ∉ c.lru.erase e := fun hmem ↦ (h.nodup.mem_erase_iff.mp hmem).1 rfl
    simp only [Option.map_some, Option.isSome_some, if_true, abs, MemoryCache.moveToFront, if_pos he,
      List.map_cons]
    refine congrArg₂ _ (by simp [entry]) ((map_entry_update hnotin _).trans (h.abs_erase he))
  | none =>
    simp only [Option.map_none, Option.isSome_none, Bool.false_eq_true, if_false, full_abs]
    have hput {c' : MemoryCache} (h' : c'.Wf) (hnone : c'.items.lookup key = none) :
        { c' with
          entries := Function.update c'.entries c'.next
            ⟨key, value, expireAt c'.defaultTTL ttl now⟩
          lru := c'.next :: c'.lru
          items := c'.items.insert key c'.next
          next := c'.next + 1 }.Wf ∧
        { c' with
          entries := Function.update c'.entries c'.next
            ⟨key, value, expireAt c'.defaultTTL ttl now⟩
          lru := c'.next :: c'.lru
          items := c'.items.insert key c'.next
          next := c'.next + 1 }.abs = ⟨key, value, expireAt c'.defaultTTL ttl now⟩ :: c'.abs := by
      have hnotin : c'.next ∉ c'.lru := fun hmem ↦ (h'.fresh hmem).false
      refine ⟨h'.insert hnone value _, ?_⟩
      simp only [abs, List.map_cons]
      exact congrArg₂ _ (by simp [entry]) (map_entry_update hnotin _)
    split_ifs with hfull
    · obtain ⟨hwf, habs⟩ := h.evictLRU
      have hnone : c.evictLRU.items.lookup key = none := by
        have hfind := Lru.find_eq_none.mp ((h.find_abs key).trans (by rw [hlookup]; rfl))
        by_contra hsome
        obtain ⟨e, he⟩ := Option.ne_none_iff_exists'.mp hsome
        obtain ⟨hmem, hkey⟩ := hwf.lookup_iff.mp he
        refine hfind (c.evictLRU.entry e) (List.mem_of_mem_dropLast ?_) hkey
        rw [← habs]
        exact List.mem_map_of_mem hmem
      obtain ⟨hput₁, hput₂⟩ := hput hwf hnone
      refine ⟨hput₁, ?_⟩
      rw [hput₂, habs, defaultTTL_evictLRU]
    · exact hput h hlookup

/-- **One step.** -/
theorem step (h : c.Wf) (call : CacheCall) : (c.step call).Wf ∧
    (c.step call).abs = Lru.step (capacity c.maxSize) c.abs (call.abs c.defaultTTL) := by
  obtain ⟨now, op⟩ := call
  cases op with
  | get key => exact h.get_snd
  | set key value ttl => exact h.set value ttl
  | delete key => exact h.delete

end Wf

/-! ## Runs -/

variable {maxSize : ℤ} {defaultTTL : Duration} {calls : List CacheCall}

@[simp] theorem run_snoc :
    run maxSize defaultTTL (calls ++ [call]) = (run maxSize defaultTTL calls).step call := by
  simp [run]

theorem step_config (c : MemoryCache) (call : CacheCall) :
    (c.step call).maxSize = c.maxSize ∧ (c.step call).defaultTTL = c.defaultTTL := by
  obtain ⟨now, op⟩ := call
  cases op with
  | get key =>
    simp only [step, get]
    split
    · exact ⟨rfl, rfl⟩
    · split_ifs <;> exact ⟨rfl, rfl⟩
  | set key value ttl =>
    simp only [step, set]
    split
    · exact ⟨rfl, rfl⟩
    · split_ifs
      · exact ⟨c.maxSize_evictLRU, c.defaultTTL_evictLRU⟩
      · exact ⟨rfl, rfl⟩
  | delete key =>
    simp only [step, delete]
    split <;> exact ⟨rfl, rfl⟩

theorem run_config (maxSize : ℤ) (defaultTTL : Duration) (calls : List CacheCall) :
    (run maxSize defaultTTL calls).maxSize = maxSize ∧
      (run maxSize defaultTTL calls).defaultTTL = defaultTTL := by
  induction calls using List.reverseRecOn with
  | nil => exact ⟨rfl, rfl⟩
  | append_singleton calls call ih =>
    obtain ⟨hsize, httl⟩ := (run maxSize defaultTTL calls).step_config call
    rw [run_snoc]
    exact ⟨hsize.trans ih.1, httl.trans ih.2⟩

theorem wf_new (maxSize : ℤ) (defaultTTL : Duration) : (new maxSize defaultTTL).Wf where
  nodup := List.nodup_nil
  lookup_iff := by simp [new]
  fresh := by simp [new]

/-- **Runs.** The map and the list stay in step, and the cache does what a cache of `Lru` does. -/
theorem run_spec (maxSize : ℤ) (defaultTTL : Duration) (calls : List CacheCall) :
    (run maxSize defaultTTL calls).Wf ∧ (run maxSize defaultTTL calls).abs =
      Lru.run (capacity maxSize) (calls.map (CacheCall.abs defaultTTL)) := by
  induction calls using List.reverseRecOn with
  | nil => exact ⟨wf_new maxSize defaultTTL, rfl⟩
  | append_singleton calls call ih =>
    obtain ⟨hwf, habs⟩ := ih.1.step call
    obtain ⟨hsize, httl⟩ := run_config maxSize defaultTTL calls
    rw [run_snoc, List.map_append, List.map_singleton, Lru.run_snoc]
    rw [hsize, httl, ih.2] at habs
    exact ⟨hwf, habs⟩

namespace Wf

theorem mem_items (h : c.Wf) : key ∈ c.items ↔ ∃ x ∈ c.abs, x.key = key := by
  rw [← AList.lookup_isSome]
  cases hlookup : c.items.lookup key with
  | none =>
    have hne := Lru.find_eq_none.mp ((h.find_abs key).trans (by rw [hlookup]; rfl))
    exact iff_of_false (by simp) fun ⟨x, hx, hkey⟩ ↦ hne x hx hkey
  | some e =>
    obtain ⟨he, hkey⟩ := h.lookup_iff.mp hlookup
    exact iff_of_true rfl ⟨c.entry e, List.mem_map_of_mem he, hkey⟩

theorem nodup_abs (h : c.Wf) : (c.abs.map Lru.Entry.key).Nodup := by
  rw [abs, List.map_map]
  exact h.nodup.map_on fun e he e' he' hkey ↦ by
    by_contra hne
    exact h.key_ne he' he hne hkey

/-- The keys of the map are those of the list. -/
theorem keys_perm (h : c.Wf) : (c.lru.map fun e ↦ (c.entries e).key).Perm c.items.keys := by
  have hnodup := h.nodup_abs
  rw [abs, List.map_map] at hnodup
  refine (List.perm_ext_iff_of_nodup hnodup c.items.keys_nodup).mpr fun key ↦ ?_
  rw [← AList.mem_keys, h.mem_items, abs]
  simp [entry]

theorem find_eq (h : c.Wf) (key : Bytes) :
    c.find key = (Lru.find c.abs key).map fun x ↦ ⟨x.key, x.value, x.expireAt⟩ := by
  rw [find, h.find_abs, Option.map_map]
  rfl

/-- The entry that goes in a `Set` is the one that `Lru` evicts. -/
theorem evicts_iff (h : c.Wf) : c.Evicts call key ↔
    Lru.evicted (capacity c.maxSize) c.abs (call.abs c.defaultTTL) = some key := by
  obtain ⟨hwf, habs⟩ := h.step call
  obtain ⟨now, op⟩ := call
  rw [Evicts, h.mem_items, hwf.mem_items, habs]
  cases op with
  | set key' value ttl =>
    constructor
    · rintro ⟨-, ⟨x, hx, rfl⟩, hgone⟩
      by_contra hev
      -- otherwise the entry has been kept or replaced by one of the same key
      by_cases hkey : key' = x.key
      · exact hgone ⟨⟨key', value, _⟩, List.mem_cons_self, hkey⟩
      · refine hgone ⟨x, (Lru.mem_step_iff h.nodup_abs).mpr (.inr ⟨hx, fun hends ↦ ?_⟩), rfl⟩
        exact hends.elim hkey hev
    · intro hev
      have hev' := hev
      simp only [Lru.evicted, CacheCall.abs] at hev'
      split_ifs at hev' with hfind hfull
      obtain ⟨x, hlast, rfl⟩ := Option.map_eq_some_iff.mp hev'
      have hx : x ∈ c.abs := List.mem_of_getLast? hlast
      refine ⟨⟨key', value, ttl, rfl⟩, ⟨x, hx, rfl⟩, ?_⟩
      rintro ⟨y, hy, hkey⟩
      rcases (Lru.mem_step_iff h.nodup_abs).mp hy with hset | ⟨-, hends⟩
      · have hkey' : key' = y.key := by
          simp only [CacheCall.abs, Lru.Op.set.injEq] at hset
          exact hset.1
        rw [Option.not_isSome_iff_eq_none, Lru.find_eq_none] at hfind
        exact hfind x hx (hkey'.trans hkey).symm
      · exact hends (.inr (hkey ▸ hev))
  | _ =>
    simp only [reduceCtorEq, exists_false, false_and, false_iff]
    exact fun hev ↦ by simp [Lru.evicted, CacheCall.abs] at hev

end Wf

theorem abs_op_ne_set : (∀ v x, (call.abs defaultTTL).op ≠ .set key v x) ↔
    ∀ v ttl, call.op ≠ .set key v ttl := by
  obtain ⟨now, op⟩ := call
  cases op <;> simp [CacheCall.abs]

theorem abs_op_ne_delete : (call.abs defaultTTL).op ≠ .delete key ↔ call.op ≠ .delete key := by
  obtain ⟨now, op⟩ := call
  cases op <;> simp [CacheCall.abs]

theorem abs_eq_set {t : Time} {v : Bytes} {x : Option Time} :
    call.abs defaultTTL = ⟨t, .set key v x⟩ ↔
      ∃ ttl, call = ⟨t, .set key v ttl⟩ ∧ x = expireAt defaultTTL ttl t := by
  obtain ⟨now, op⟩ := call
  cases op with
  | set key' v' ttl =>
    simp only [CacheCall.abs, Lru.Call.mk.injEq, Lru.Op.set.injEq, CacheCall.mk.injEq,
      CacheOp.set.injEq]
    constructor
    · rintro ⟨rfl, rfl, rfl, rfl⟩
      exact ⟨ttl, ⟨rfl, rfl, rfl, rfl⟩, rfl⟩
    · rintro ⟨ttl', ⟨rfl, rfl, rfl, rfl⟩, rfl⟩
      exact ⟨rfl, rfl, rfl, rfl⟩
  | _ => simp [CacheCall.abs]

/-- What `Lru.get_run_eq_some_iff` says of a memory cache. -/
theorem get_run_eq_some_iff {now : Time} {v : Bytes} (hnow : ∀ call ∈ calls, call.now ≤ now) :
    ((run maxSize defaultTTL calls).get key now).1 = some v ↔ ∃ pre t ttl post,
      calls = pre ++ ⟨t, .set key v ttl⟩ :: post ∧
        (∀ t', expireAt defaultTTL ttl t = some t' → now ≤ t') ∧
          ∀ p₁ call p₂, post = p₁ ++ call :: p₂ →
            (∀ v' ttl', call.op ≠ .set key v' ttl') ∧ call.op ≠ .delete key ∧
              ¬ (run maxSize defaultTTL (pre ++ ⟨t, .set key v ttl⟩ :: p₁)).Evicts call key := by
  obtain ⟨hwf, habs⟩ := run_spec maxSize defaultTTL calls
  have hnow' : ∀ c ∈ calls.map (CacheCall.abs defaultTTL), c.now ≤ now := by
    intro c hc
    obtain ⟨call, hcall, rfl⟩ := List.mem_map.mp hc
    exact hnow call hcall
  -- what a call does to the entry, on either side
  have hkept (calls' : List CacheCall) (call : CacheCall) :
      ((∀ v' x', (call.abs defaultTTL).op ≠ .set key v' x') ∧
        (call.abs defaultTTL).op ≠ .delete key ∧
          Lru.evicted (capacity maxSize)
            (Lru.run (capacity maxSize) (calls'.map (CacheCall.abs defaultTTL)))
            (call.abs defaultTTL) ≠ some key) ↔
      ((∀ v' ttl', call.op ≠ .set key v' ttl') ∧ call.op ≠ .delete key ∧
        ¬ (run maxSize defaultTTL calls').Evicts call key) := by
    obtain ⟨hwf', habs'⟩ := run_spec maxSize defaultTTL calls'
    obtain ⟨hsize, httl⟩ := run_config maxSize defaultTTL calls'
    rw [hwf'.evicts_iff, hsize, httl, habs', abs_op_ne_set, abs_op_ne_delete]
  rw [hwf.get_fst, habs, Lru.get_run_eq_some_iff hnow']
  constructor
  · rintro ⟨pre, t, x, post, heq, hx, hpost⟩
    obtain ⟨pre, rest, rfl, rfl, hrest⟩ := List.map_eq_append_iff.mp heq
    obtain ⟨call, post, rfl, hcall, rfl⟩ := List.map_eq_cons_iff.mp hrest
    obtain ⟨ttl, rfl, rfl⟩ := abs_eq_set.mp hcall
    refine ⟨pre, t, ttl, post, rfl, hx, fun p₁ call p₂ heq ↦ ?_⟩
    have hlru := hpost (p₁.map (CacheCall.abs defaultTTL)) (call.abs defaultTTL)
      (p₂.map (CacheCall.abs defaultTTL)) (by rw [heq, List.map_append, List.map_cons])
    rw [← hcall, ← List.map_cons, ← List.map_append] at hlru
    exact (hkept _ call).mp hlru
  · rintro ⟨pre, t, ttl, post, rfl, hx, hpost⟩
    refine ⟨pre.map (CacheCall.abs defaultTTL), t, _, post.map (CacheCall.abs defaultTTL),
      by rw [List.map_append, List.map_cons]; rfl, hx, fun p₁ c p₂ heq ↦ ?_⟩
    obtain ⟨p₁, rest, rfl, rfl, hrest⟩ := List.map_eq_append_iff.mp heq
    obtain ⟨call, p₂, rfl, rfl, -⟩ := List.map_eq_cons_iff.mp hrest
    have hkept' := (hkept (pre ++ ⟨t, .set key v ttl⟩ :: p₁) call).mpr (hpost p₁ call p₂ rfl)
    rwa [List.map_append, List.map_cons] at hkept'

/-- What `Lru.step_run_of_full` says of a memory cache. -/
theorem set_run_of_full {v : Bytes} {ttl : Duration}
    (hkey : key ∉ (run maxSize defaultTTL calls).items) (hpos : maxSize > 0)
    (hfull : (run maxSize defaultTTL calls).lru.length ≥ maxSize) :
    ∃ key' ∈ (run maxSize defaultTTL calls).items,
      (∀ k ∈ (run maxSize defaultTTL calls).items, k ≠ key' →
        Lru.lastUse (calls.map (CacheCall.abs defaultTTL)) key' <
          Lru.lastUse (calls.map (CacheCall.abs defaultTTL)) k) ∧
        ∀ k, k ≠ key → ((run maxSize defaultTTL calls).set key v ttl now).find k =
          if k = key' then none else (run maxSize defaultTTL calls).find k := by
  obtain ⟨hwf, habs⟩ := run_spec maxSize defaultTTL calls
  obtain ⟨hsize, httl⟩ := run_config maxSize defaultTTL calls
  have hne : (run maxSize defaultTTL calls).abs ≠ [] := by
    rw [abs, ← List.length_pos_iff, List.length_map]
    omega
  have hfull' := (full_abs (run maxSize defaultTTL calls)).mpr (by rw [hsize]; exact ⟨hpos, hfull⟩)
  rw [hwf.mem_items] at hkey
  push Not at hkey
  rw [hsize, habs] at hfull'
  rw [habs] at hkey hne
  obtain ⟨hwf', habs'⟩ : ((run maxSize defaultTTL calls).set key v ttl now).Wf ∧ _ := hwf.set v ttl
  obtain ⟨e, he, hleast, -, hstep⟩ := Lru.step_run_of_full hfull' hne hkey
  rw [hsize, httl, habs, hstep] at habs'
  refine ⟨e.key, hwf.mem_items.mpr ⟨e, habs ▸ he, rfl⟩, fun k hk hne ↦ ?_, fun k hk ↦ ?_⟩
  · obtain ⟨e', he', rfl⟩ := hwf.mem_items.mp hk
    exact hleast e' (habs ▸ he') fun heq ↦ hne (congrArg _ heq)
  · rw [hwf'.find_eq, habs', hwf.find_eq, habs, Lru.find, List.find?_cons_of_neg (by simpa using hk.symm),
      ← Lru.find, Lru.find_remove]
    split_ifs <;> rfl

/-- **The memory cache.** Whatever the calls were, the map and the list hold the same entries and no
more than the size allows; the cache is a cache of `Lru`. One gets for a key what has been set last,
unless it has been deleted or evicted since or has expired. At capacity a new key replaces the entry
whose last use is the longest ago. -/
theorem run_isLru (maxSize : ℤ) (defaultTTL : Duration) (calls : List CacheCall) :
    (run maxSize defaultTTL calls).Wf ∧
    ((run maxSize defaultTTL calls).lru.map fun e ↦ ((run maxSize defaultTTL calls).entries e).key).Perm
      (run maxSize defaultTTL calls).items.keys ∧
    (maxSize > 0 → ((run maxSize defaultTTL calls).items.keys.length : ℤ) ≤ maxSize) ∧
    (run maxSize defaultTTL calls).abs =
      Lru.run (capacity maxSize) (calls.map (CacheCall.abs defaultTTL)) ∧
    (∀ key now v, (∀ call ∈ calls, call.now ≤ now) →
      (((run maxSize defaultTTL calls).get key now).1 = some v ↔ ∃ pre t ttl post,
        calls = pre ++ ⟨t, .set key v ttl⟩ :: post ∧
          (∀ t', expireAt defaultTTL ttl t = some t' → now ≤ t') ∧
            ∀ p₁ call p₂, post = p₁ ++ call :: p₂ →
              (∀ v' ttl', call.op ≠ .set key v' ttl') ∧ call.op ≠ .delete key ∧
                ¬ (run maxSize defaultTTL (pre ++ ⟨t, .set key v ttl⟩ :: p₁)).Evicts call key)) ∧
    ∀ key v ttl now, key ∉ (run maxSize defaultTTL calls).items → maxSize > 0 →
      (run maxSize defaultTTL calls).lru.length ≥ maxSize →
        ∃ key' ∈ (run maxSize defaultTTL calls).items,
          (∀ k ∈ (run maxSize defaultTTL calls).items, k ≠ key' →
            Lru.lastUse (calls.map (CacheCall.abs defaultTTL)) key' <
              Lru.lastUse (calls.map (CacheCall.abs defaultTTL)) k) ∧
            ∀ k, k ≠ key → ((run maxSize defaultTTL calls).set key v ttl now).find k =
              if k = key' then none else (run maxSize defaultTTL calls).find k := by
  obtain ⟨hwf, habs⟩ := run_spec maxSize defaultTTL calls
  refine ⟨hwf, hwf.keys_perm, fun hpos ↦ ?_, habs, fun key now v hnow ↦ ?_,
    fun key v ttl now hkey hpos hfull ↦ ?_⟩
  · have hlength := Lru.length_run_le (n := maxSize.toNat) (by omega)
      (calls.map (CacheCall.abs defaultTTL))
    rw [← hwf.keys_perm.length_eq, List.length_map]
    rw [← if_pos (c := maxSize > 0) (t := some maxSize.toNat) (e := none) hpos, ← capacity, ← habs, abs,
      List.length_map] at hlength
    omega
  · exact get_run_eq_some_iff hnow
  · exact set_run_of_full hkey hpos hfull

end MemoryCache

end GoMesi
