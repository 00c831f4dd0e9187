import Mathlib

/-!
# Least recently used caches with expiry

A cache is the list of its entries, the one used last first. Getting an entry and setting it bring
it to the front. An entry that has expired goes when somebody asks for it, and a new key at capacity
takes the place of the entry at the back.

What the list means is said in terms of the calls that led to it. It holds what has been set and not
ended since (`mem_run_iff`), and its order is the order of the last uses (`pairwise_lastUse_run`).
-/

namespace Lru

variable {K V T : Type}

/-- An entry, with the time after which it is no longer valid, if there is one. -/
structure Entry (K V T : Type) where
  key : K
  value : V
  expireAt : Option T

/-- What one may do to a cache. -/
inductive Op (K V T : Type)
  | get (key : K)
  | set (key : K) (value : V) (expireAt : Option T)
  | delete (key : K)

/-- An operation and the time it is made at. -/
structure Call (K V T : Type) where
  now : T
  op : Op K V T

variable [DecidableEq K]

/-- The entry of a key. -/
def find (s : List (Entry K V T)) (k : K) : Option (Entry K V T) := s.find? (·.key = k)

/-- The cache without the entry of a key. -/
def remove (s : List (Entry K V T)) (k : K) : List (Entry K V T) := s.filter (·.key ≠ k)

/-- The cache is at capacity. There may be no limit. -/
def full (cap : Option ℕ) (s : List (Entry K V T)) : Bool :=
  match cap with
  | none => false
  | some n => n ≤ s.length

/-- The key that has to make room for a new one. -/
def evicted (cap : Option ℕ) (s : List (Entry K V T)) (c : Call K V T) : Option K :=
  match c.op with
  | .set k _ _ =>
    if (find s k).isSome then none else if full cap s then s.getLast?.map Entry.key else none
  | _ => none

variable {cap : Option ℕ} {s : List (Entry K V T)} {k : K} {e : Entry K V T} {c : Call K V T}
  {calls : List (Call K V T)}

@[simp] theorem mem_remove : e ∈ remove s k ↔ e ∈ s ∧ e.key ≠ k := by simp [remove]

theorem remove_sublist (s : List (Entry K V T)) (k : K) : (remove s k).Sublist s :=
  List.filter_sublist

theorem key_of_find (h : find s k = some e) : e.key = k := by
  simpa using List.find?_some h

theorem mem_of_find (h : find s k = some e) : e ∈ s := List.mem_of_find?_eq_some h

theorem find_eq_none : find s k = none ↔ ∀ e ∈ s, e.key ≠ k := by simp [find]

/-- With one entry a key, the entry that is found is the one there is. -/
theorem find_eq_some_iff (hs : (s.map Entry.key).Nodup) :
    find s k = some e ↔ e ∈ s ∧ e.key = k := by
  refine ⟨fun h ↦ ⟨mem_of_find h, key_of_find h⟩, fun ⟨hmem, hkey⟩ ↦ ?_⟩
  cases hfind : find s k with
  | none => exact absurd hkey (find_eq_none.mp hfind e hmem)
  | some e' =>
    rw [List.inj_on_of_nodup_map hs (mem_of_find hfind) hmem ((key_of_find hfind).trans hkey.symm)]

theorem find_remove (s : List (Entry K V T)) (k k' : K) :
    find (remove s k') k = if k = k' then none else find s k := by
  split_ifs with hk
  · exact find_eq_none.mpr fun e he ↦ hk ▸ (mem_remove.mp he).2
  · rw [find, remove, List.find?_filter]
    refine congrArg (List.find? · s) (funext fun e ↦ ?_)
    by_cases he : e.key = k
    · simp [he, hk]
    · simp [he]

/-- Removing an entry that is there makes the cache shorter. -/
theorem length_remove_lt (h : find s k = some e) : (remove s k).length < s.length :=
  List.length_filter_lt_length_iff_exists.mpr ⟨e, mem_of_find h, by simp [key_of_find h]⟩

omit [DecidableEq K] in
theorem mem_dropLast_iff (hs : (s.map Entry.key).Nodup) :
    e ∈ s.dropLast ↔ e ∈ s ∧ s.getLast?.map Entry.key ≠ some e.key := by
  induction s using List.reverseRecOn with
  | nil => simp
  | append_singleton s e' =>
    rw [List.map_append, List.nodup_append] at hs
    have hne : e ∈ s → e'.key ≠ e.key := fun he ↦
      (hs.2.2 _ (List.mem_map_of_mem he) _ (by simp)).symm
    constructor
    · intro he
      rw [List.dropLast_concat] at he
      simpa [he] using hne he
    · rintro ⟨he, hlast⟩
      rcases List.mem_append.mp he with he | he
      · simpa using he
      · simp [List.mem_singleton.mp he] at hlast

/-- The call gets or sets the key. -/
def uses (k : K) (c : Call K V T) : Bool :=
  match c.op with
  | .get k' => k' = k
  | .set k' _ _ => k' = k
  | .delete _ => false

/-- The number of the last call that used the key, counted from one. -/
def lastUse (calls : List (Call K V T)) (k : K) : ℕ :=
  calls.length - calls.reverse.findIdx (uses k)

theorem lastUse_snoc (calls : List (Call K V T)) (c : Call K V T) (k : K) :
    lastUse (calls ++ [c]) k = if uses k c then calls.length + 1 else lastUse calls k := by
  rw [lastUse, lastUse, List.reverse_append, List.reverse_singleton, List.singleton_append,
    List.findIdx_cons, List.length_append, List.length_singleton]
  cases uses k c <;> simp

theorem lastUse_le (calls : List (Call K V T)) (k : K) : lastUse calls k ≤ calls.length :=
  Nat.sub_le _ _

variable [LinearOrder T]

def Entry.expired (e : Entry K V T) (now : T) : Bool :=
  match e.expireAt with
  | none => false
  | some t => t < now

/-- What an operation makes of the cache. -/
def step (cap : Option ℕ) (s : List (Entry K V T)) (c : Call K V T) : List (Entry K V T) :=
  match c.op with
  | .get k =>
    match find s k with
    | none => s
    | some e => if e.expired c.now then remove s k else e :: remove s k
  | .set k v x =>
    ⟨k, v, x⟩ :: if (find s k).isSome then remove s k else if full cap s then s.dropLast else s
  | .delete k => remove s k

/-- What the operations make of an empty cache. -/
def run (cap : Option ℕ) (calls : List (Call K V T)) : List (Entry K V T) :=
  calls.foldl (step cap) []

/-- The value one gets for a key. -/
def get (s : List (Entry K V T)) (k : K) (now : T) : Option V :=
  match find s k with
  | none => none
  | some e => if e.expired now then none else some e.value

@[simp] theorem run_nil : run cap ([] : List (Call K V T)) = [] := rfl

@[simp] theorem run_snoc : run cap (calls ++ [c]) = step cap (run cap calls) c := by
  simp [run]

/-- What has just been set is found as long as it has not expired. -/
theorem get_step_set (cap : Option ℕ) (s : List (Entry K V T)) (k : K) (v : V) (x : Option T)
    (now now' : T) : get (step cap s ⟨now, .set k v x⟩) k now' =
      if (Entry.mk k v x).expired now' then none else some v := by
  simp [step, get, find]

/-! ## One entry a key, and no more than fit -/

theorem nodup_step (hs : (s.map Entry.key).Nodup) : ((step cap s c).map Entry.key).Nodup := by
  have hremove (k : K) : ((remove s k).map Entry.key).Nodup :=
    hs.sublist ((remove_sublist s k).map _)
  have hcons (e : Entry K V T) {l : List (Entry K V T)} (hl : (l.map Entry.key).Nodup)
      (hne : ∀ e' ∈ l, e'.key ≠ e.key) : ((e :: l).map Entry.key).Nodup := by
    refine List.nodup_cons.mpr ⟨fun hmem ↦ ?_, hl⟩
    obtain ⟨e', he', hkey⟩ := List.mem_map.mp hmem
    exact hne e' he' hkey
  obtain ⟨now, op⟩ := c
  cases op with
  | get k =>
    simp only [step]
    cases hfind : find s k with
    | none => exact hs
    | some e =>
      dsimp only
      split_ifs
      · exact hremove k
      · exact hcons e (hremove k) fun e' he' ↦ key_of_find hfind ▸ (mem_remove.mp he').2
  | set k v x =>
    simp only [step]
    split_ifs with hfind hfull
    · exact hcons _ (hremove k) fun e' he' ↦ (mem_remove.mp he').2
    · rw [Option.not_isSome_iff_eq_none, find_eq_none] at hfind
      exact hcons _ (hs.sublist (s.dropLast_sublist.map _))
        fun e' he' ↦ hfind e' (s.dropLast_sublist.subset he')
    · rw [Option.not_isSome_iff_eq_none, find_eq_none] at hfind
      exact hcons _ hs fun e' he' ↦ hfind e' he'
  | delete k => exact hremove k

/-- There is one entry a key. -/
theorem nodup_run (cap : Option ℕ) (calls : List (Call K V T)) :
    ((run cap calls).map Entry.key).Nodup := by
  induction calls using List.reverseRecOn with
  | nil => exact List.nodup_nil
  | append_singleton calls c ih =>
    rw [run_snoc]
    exact nodup_step ih

theorem length_step_le {n : ℕ} (hn : 0 < n) (hs : s.length ≤ n) :
    (step (some n) s c).length ≤ n := by
  obtain ⟨now, op⟩ := c
  cases op with
  | get k =>
    simp only [step]
    cases hfind : find s k with
    | none => exact hs
    | some e =>
      have hlt := length_remove_lt hfind
      dsimp only
      split_ifs
      · exact hlt.le.trans hs
      · exact (Nat.succ_le_of_lt hlt).trans hs
  | set k v x =>
    simp only [step, full, decide_eq_true_eq]
    split_ifs with hfind hfull
    · obtain ⟨e, he⟩ := Option.isSome_iff_exists.mp hfind
      exact (Nat.succ_le_of_lt (length_remove_lt he)).trans hs
    · rw [List.length_cons, List.length_dropLast]
      omega
    · rw [List.length_cons]
      omega
  | delete k => exact (remove_sublist s k).length_le.trans hs

/-- The cache keeps to its capacity. -/
theorem length_run_le {n : ℕ} (hn : 0 < n) (calls : List (Call K V T)) :
    (run (some n) calls).length ≤ n := by
  induction calls using List.reverseRecOn with
  | nil => exact Nat.zero_le n
  | append_singleton calls c ih =>
    rw [run_snoc]
    exact length_step_le hn ih

/-! ## What the cache holds -/

/-- The call ends the entry `e`: it sets or deletes its key, has it make room for a new one, or
finds that it has expired. -/
def Ends (cap : Option ℕ) (s : List (Entry K V T)) (c : Call K V T) (e : Entry K V T) : Prop :=
  match c.op with
  | .get k => k = e.key ∧ e.expired c.now = true
  | .set k _ _ => k = e.key ∨ evicted cap s c = some e.key
  | .delete k => k = e.key

/-- **One step.** An entry is in the cache after a call if the call has set it, or if it was there
and the call has not ended it. -/
theorem mem_step_iff (hs : (s.map Entry.key).Nodup) :
    e ∈ step cap s c ↔
      c.op = .set e.key e.value e.expireAt ∨ (e ∈ s ∧ ¬ Ends cap s c e) := by
  obtain ⟨now, op⟩ := c
  cases op with
  | get k =>
    simp only [step, Ends, reduceCtorEq, false_or]
    cases hfind : find s k with
    | none =>
      have hne := find_eq_none.mp hfind
      exact ⟨fun he ↦ ⟨he, fun h ↦ hne e he h.1.symm⟩, And.left⟩
    | some e' =>
      have hmem := mem_of_find hfind
      have hkey := key_of_find hfind
      have heq (he : e ∈ s) (hek : e.key = k) : e = e' :=
        List.inj_on_of_nodup_map hs he hmem (hek.trans hkey.symm)
      dsimp only
      split_ifs with hexp
      · rw [mem_remove]
        refine and_congr_right fun he ↦ not_congr ⟨fun hek ↦ ⟨hek.symm, heq he hek ▸ hexp⟩,
          fun h ↦ h.1.symm⟩
      · rw [List.mem_cons, mem_remove]
        constructor
        · rintro (rfl | ⟨he, hek⟩)
          · exact ⟨hmem, fun h ↦ hexp h.2⟩
          · exact ⟨he, fun h ↦ hek h.1.symm⟩
        · rintro ⟨he, -⟩
          by_cases hek : e.key = k
          · exact .inl (heq he hek)
          · exact .inr ⟨he, hek⟩
  | set k v x =>
    have hset : e = ⟨k, v, x⟩ ↔
        Op.set k v x = .set e.key e.value e.expireAt := by
      obtain ⟨k', v', x'⟩ := e
      simp only [Entry.mk.injEq, Op.set.injEq]
      exact ⟨fun ⟨h₁, h₂, h₃⟩ ↦ ⟨h₁.symm, h₂.symm, h₃.symm⟩,
        fun ⟨h₁, h₂, h₃⟩ ↦ ⟨h₁.symm, h₂.symm, h₃.symm⟩⟩
    simp only [step, Ends, evicted, List.mem_cons, hset]
    refine or_congr_right ?_
    split_ifs with hfind hfull
    · rw [mem_remove]
      simp [eq_comm]
    · rw [Option.not_isSome_iff_eq_none, find_eq_none] at hfind
      rw [mem_dropLast_iff hs]
      exact and_congr_right fun he ↦
        ⟨fun h ↦ fun h' ↦ h'.elim (fun hk ↦ hfind e he hk.symm) h, fun h h' ↦ h (.inr h')⟩
    · rw [Option.not_isSome_iff_eq_none, find_eq_none] at hfind
      exact ⟨fun he ↦ ⟨he, fun h ↦ h.elim (fun hk ↦ hfind e he hk.symm) (by simp)⟩, And.left⟩
  | delete k =>
    simp only [step, Ends, reduceCtorEq, false_or, mem_remove]
    exact and_congr_right fun _ ↦ not_congr eq_comm

/-- **The contents.** The cache holds what has been set and not ended since. -/
theorem mem_run_iff :
    e ∈ run cap calls ↔ ∃ pre t post,
      calls = pre ++ ⟨t, .set e.key e.value e.expireAt⟩ :: post ∧
        ∀ p₁ c p₂, post = p₁ ++ c :: p₂ →
          ¬ Ends cap (run cap (pre ++ ⟨t, .set e.key e.value e.expireAt⟩ :: p₁)) c e := by
  induction calls using List.reverseRecOn with
  | nil => simp
  | append_singleton calls c ih =>
    rw [run_snoc, mem_step_iff (nodup_run cap calls)]
    constructor
    · rintro (hset | ⟨he, hends⟩)
      · refine ⟨calls, c.now, [], ?_, by simp⟩
        rw [← hset]
      · obtain ⟨pre, t, post, rfl, hpost⟩ := ih.mp he
        refine ⟨pre, t, post ++ [c], by simp, fun p₁ c' p₂ heq ↦ ?_⟩
        -- the call is the last one or one before
        rcases List.eq_nil_or_concat' p₂ with rfl | ⟨p₂, c'', rfl⟩
        · obtain ⟨rfl, rfl⟩ : post = p₁ ∧ c = c' := by simpa using heq
          exact hends
        · rw [← List.cons_append, ← List.append_assoc] at heq
          exact hpost p₁ c' p₂ (List.append_inj' heq rfl).1
    · rintro ⟨pre, t, post, heq, hpost⟩
      rcases List.eq_nil_or_concat' post with rfl | ⟨post, c', rfl⟩
      · obtain ⟨rfl, rfl⟩ : calls = pre ∧ c = ⟨t, .set e.key e.value e.expireAt⟩ := by simpa using heq
        exact .inl rfl
      · rw [← List.cons_append, ← List.append_assoc] at heq
        obtain ⟨rfl, hc⟩ := List.append_inj' heq rfl
        obtain rfl : c = c' := by simpa using hc
        refine .inr ⟨ih.mpr ⟨pre, t, post, rfl, fun p₁ c' p₂ heq ↦ ?_⟩, hpost post c [] (by simp)⟩
        exact hpost p₁ c' (p₂ ++ [c]) (by simp [heq])

/-- A key has a value now if its latest entry has been neither overwritten, deleted nor evicted
since it was set, and has not expired by now. -/
theorem get_run_eq_some_iff {now : T} {v : V} (hcalls : ∀ c ∈ calls, c.now ≤ now) :
    get (run cap calls) k now = some v ↔ ∃ pre t x post,
      calls = pre ++ ⟨t, .set k v x⟩ :: post ∧ (∀ t', x = some t' → now ≤ t') ∧
        ∀ p₁ c p₂, post = p₁ ++ c :: p₂ →
          (∀ v' x', c.op ≠ .set k v' x') ∧ c.op ≠ .delete k ∧
            evicted cap (run cap (pre ++ ⟨t, .set k v x⟩ :: p₁)) c ≠ some k := by
  have hexpired (x : Option T) (t : T) : (⟨k, v, x⟩ : Entry K V T).expired t = false ↔
      ∀ t', x = some t' → t ≤ t' := by
    cases x <;> simp [Entry.expired]
  have hget : get (run cap calls) k now = some v ↔
      ∃ x, (⟨k, v, x⟩ : Entry K V T) ∈ run cap calls ∧ ∀ t', x = some t' → now ≤ t' := by
    have hfind (e : Entry K V T) := find_eq_some_iff (k := k) (e := e) (nodup_run cap calls)
    constructor
    · intro h
      rw [get] at h
      split at h
      · simp at h
      · rename_i e he
        split_ifs at h with hexp
        obtain ⟨k', v', x⟩ := e
        obtain rfl : v' = v := Option.some.inj h
        obtain ⟨hmem, rfl⟩ := (hfind _).mp he
        exact ⟨x, hmem, (hexpired x now).mp (by simpa using hexp)⟩
    · rintro ⟨x, hmem, hx⟩
      rw [get, (hfind ⟨k, v, x⟩).mpr ⟨hmem, rfl⟩]
      simp [(hexpired x now).mpr hx]
  rw [hget]
  refine ⟨fun ⟨x, hmem, hx⟩ ↦ ?_, fun ⟨pre, t, x, post, hcalls', hx, hpost⟩ ↦ ?_⟩
  · obtain ⟨pre, t, post, hcalls', hpost⟩ := mem_run_iff.mp hmem
    refine ⟨pre, t, x, post, hcalls', hx, fun p₁ c p₂ heq ↦ ?_⟩
    have hends := hpost p₁ c p₂ heq
    refine ⟨fun v' x' hop ↦ ?_, fun hop ↦ ?_, fun hev ↦ ?_⟩
    · exact hends (by simp [Ends, hop])
    · exact hends (by simp [Ends, hop])
    · cases hop : c.op with
      | set k' v' x' => exact hends (by simp only [Ends, hop]; exact .inr hev)
      | _ => simp [evicted, hop] at hev
  · refine ⟨x, mem_run_iff.mpr ⟨pre, t, post, hcalls', fun p₁ c p₂ heq hends ↦ ?_⟩, hx⟩
    obtain ⟨hset, hdelete, hev⟩ := hpost p₁ c p₂ heq
    -- an entry that is valid now was valid at every earlier call
    have hnow : c.now ≤ now := hcalls c (by simp [hcalls', heq])
    cases hop : c.op with
    | get k' =>
      simp only [Ends, hop] at hends
      have hvalid := (hexpired x c.now).mpr fun t' ht' ↦ hnow.trans (hx t' ht')
      rw [hends.2] at hvalid
      exact Bool.noConfusion hvalid
    | set k' v' x' =>
      simp only [Ends, hop] at hends
      rcases hends with rfl | hends
      · exact hset v' x' hop
      · exact hev hends
    | delete k' =>
      simp only [Ends, hop] at hends
      exact hdelete (hends ▸ hop)

/-! ## The order of the last uses -/

/-- **The order.** The entries are in the order of their last uses, the latest first. -/
theorem pairwise_lastUse_run (cap : Option ℕ) (calls : List (Call K V T)) :
    (run cap calls).Pairwise fun x y ↦ lastUse calls y.key < lastUse calls x.key := by
  induction calls using List.reverseRecOn with
  | nil => exact List.Pairwise.nil
  | append_singleton calls c ih =>
    rw [run_snoc]
    -- entries the call does not use keep their order, and the one it uses comes to the front
    have hkeep {l : List (Entry K V T)} (hl : l.Sublist (run cap calls))
        (hne : ∀ e ∈ l, uses e.key c = false) :
        l.Pairwise fun x y ↦ lastUse (calls ++ [c]) y.key < lastUse (calls ++ [c]) x.key := by
      refine (ih.sublist hl).imp_of_mem fun {x y} hx hy h ↦ ?_
      simpa [lastUse_snoc, hne x hx, hne y hy] using h
    have hfront {l : List (Entry K V T)} {e : Entry K V T} (hl : l.Sublist (run cap calls))
        (he : uses e.key c = true) (hne : ∀ e ∈ l, uses e.key c = false) :
        (e :: l).Pairwise fun x y ↦ lastUse (calls ++ [c]) y.key < lastUse (calls ++ [c]) x.key := by
      refine List.pairwise_cons.mpr ⟨fun y hy ↦ ?_, hkeep hl hne⟩
      have := lastUse_le calls y.key
      simp only [lastUse_snoc, he, hne y hy, if_true, Bool.false_eq_true, if_false]
      omega
    obtain ⟨now, op⟩ := c
    cases op with
    | get k =>
      have hremove : ∀ e ∈ remove (run cap calls) k, uses e.key (⟨now, .get k⟩ : Call K V T) = false :=
        fun e he ↦ decide_eq_false (mem_remove.mp he).2.symm
      simp only [step]
      cases hfind : find (run cap calls) k with
      | none =>
        have hne := find_eq_none.mp hfind
        exact hkeep (List.Sublist.refl _) fun e he ↦ decide_eq_false (hne e he).symm
      | some e =>
        dsimp only
        split_ifs
        · exact hkeep (remove_sublist _ k) hremove
        · exact hfront (remove_sublist _ k) (decide_eq_true (key_of_find hfind).symm) hremove
    | set k v x =>
      simp only [step]
      split_ifs with hfind hfull
      · exact hfront (remove_sublist _ k) (decide_eq_true rfl)
          fun e he ↦ decide_eq_false (mem_remove.mp he).2.symm
      · rw [Option.not_isSome_iff_eq_none, find_eq_none] at hfind
        exact hfront (List.dropLast_sublist _) (decide_eq_true rfl)
          fun e he ↦ decide_eq_false (hfind e ((List.dropLast_sublist _).subset he)).symm
      · rw [Option.not_isSome_iff_eq_none, find_eq_none] at hfind
        exact hfront (List.Sublist.refl _) (decide_eq_true rfl)
          fun e he ↦ decide_eq_false (hfind e he).symm
    | delete k => exact hkeep (remove_sublist _ k) fun _ _ ↦ rfl

/-- **Eviction.** At capacity a new key takes the place of the entry whose last use is the longest
ago, and of no other. -/
theorem step_run_of_full {now : T} {v : V} {x : Option T} (hfull : full cap (run cap calls) = true)
    (hne : run cap calls ≠ []) (hk : ∀ e ∈ run cap calls, e.key ≠ k) :
    ∃ e ∈ run cap calls, (∀ e' ∈ run cap calls, e' ≠ e → lastUse calls e.key < lastUse calls e'.key) ∧
      evicted cap (run cap calls) ⟨now, .set k v x⟩ = some e.key ∧
        step cap (run cap calls) ⟨now, .set k v x⟩ = ⟨k, v, x⟩ :: remove (run cap calls) e.key := by
  have hnodup := nodup_run cap calls
  have horder := pairwise_lastUse_run cap calls
  generalize run cap calls = s at *
  have hfind : find s k = none := find_eq_none.mpr hk
  induction s using List.reverseRecOn with
  | nil => exact absurd rfl hne
  | append_singleton s e =>
    rw [List.pairwise_append] at horder
    rw [List.map_append, List.nodup_append] at hnodup
    refine ⟨e, by simp, fun e' he' hne' ↦ ?_, by simp [evicted, hfind, hfull], ?_⟩
    · rcases List.mem_append.mp he' with he' | he'
      · exact horder.2.2 e' he' e (by simp)
      · exact absurd (List.mem_singleton.mp he') hne'
    · have hkeep : remove s e.key = s := List.filter_eq_self.mpr fun e' he' ↦ by
        simpa using hnodup.2.2 _ (List.mem_map_of_mem he') _ (by simp)
      have hlast : remove (s ++ [e]) e.key = s := by
        rw [remove, List.filter_append, ← remove, hkeep]
        simp
      simp [step, hfind, hfull, hlast]

end Lru
