import GoMesi.Interleaving.Pool
import GoMesi.Mesi.Simulate

/-!
# In-flight locks

Fetches of one cache key take turns. `inflightLocks` has a lock for every key that somebody fetches: a
channel with one slot, and the number of those who use it. A fetch gets hold of the lock of its key or
makes one, waits for the slot, and takes the lock out of the map when it is the last one to leave.

What a fetch has to do with the locks is its `Role`, and what must hold of all roles and the locks is
`LockInv`. Each of the four operations on locks keeps it, whatever the other operations of the fetches
are answered, so it holds in every state of every interleaving of any number of fetches.
-/

namespace GoMesi

open Interleaving

/-! ## The locks -/

/-- `inflightLocks` and the locks it has ever held. -/
structure Locks where
  /-- `inflightLocks` -/
  locks : Bytes → Option LockId
  /-- `refCount` -/
  refCount : LockId → ℤ
  /-- Whether `ch` holds a value. -/
  slot : LockId → Bool
  /-- The lock that is allocated next. -/
  next : LockId

namespace Locks

/-- No lock has been made yet. -/
def initial : Locks where
  locks _ := none
  refCount _ := 0
  slot _ := false
  next := 0

/-- `acquireInflightLock` -/
def acquireInflightLock (s : Locks) (cacheKey : Bytes) : LockId × Locks :=
  match s.locks cacheKey with
  | some lock => (lock, { s with refCount := Function.update s.refCount lock (s.refCount lock + 1) })
  | none =>
    let lock := s.next
    (lock, {
      locks := Function.update s.locks cacheKey (some lock)
      refCount := Function.update s.refCount lock 1
      slot := Function.update s.slot lock false
      next := lock + 1 })

/-- `releaseInflightLock` -/
def releaseInflightLock (s : Locks) (cacheKey : Bytes) (lock : LockId) : Locks :=
  let s := { s with refCount := Function.update s.refCount lock (s.refCount lock - 1) }
  if s.refCount lock = 0 ∧ s.locks cacheKey = some lock then
    { s with locks := Function.update s.locks cacheKey none }
  else s

/-- Put a value into a channel or take it out. -/
def setSlot (s : Locks) (lock : LockId) (full : Bool) : Locks :=
  { s with slot := Function.update s.slot lock full }

@[simp] theorem slot_setSlot (s : Locks) (lock : LockId) (full : Bool) :
    (s.setSlot lock full).slot = Function.update s.slot lock full := rfl

/-- What the operations of a fetch do to the locks. A send waits for the channel to be empty, unless
the context ends, and a receive for a value. All other operations leave the locks alone and are
answered in any way. -/
def Sem : (o : FetchOp) → Locks → fetchSignature.Res o → Locks → Prop
  | .acquireInflightLock key, s, r, s' => (r, s') = s.acquireInflightLock key
  | .releaseInflightLock key lock, s, _, s' => s' = s.releaseInflightLock key lock
  | .sendSlot lock, s, r, s' =>
    (r = none ∧ s.slot lock = false ∧ s' = s.setSlot lock true) ∨ ((∃ err, r = some err) ∧ s' = s)
  | .drainSlot lock, s, _, s' => s.slot lock = true ∧ s' = s.setSlot lock false
  | _, s, _, s' => s' = s

end Locks

/-! ## Roles -/

/-- What a fetch has to do with the locks: nothing, it uses the lock of a key, or it has the slot of
the lock as well. -/
inductive Role
  | outside
  | waiting (key : Bytes) (lock : LockId)
  | holding (key : Bytes) (lock : LockId)

namespace Role

/-- The key and the lock, if the fetch is a participant. -/
def participates : Role → Option (Bytes × LockId)
  | outside => none
  | waiting key lock => some (key, lock)
  | holding key lock => some (key, lock)

def holds (lock : LockId) : Role → Bool
  | holding _ lock' => lock' = lock
  | _ => false

/-- The role after an operation. -/
def after (g : Role) : (o : FetchOp) → fetchSignature.Res o → Role
  | .acquireInflightLock key, lock => waiting key lock
  | .releaseInflightLock _ _, _ => outside
  | .sendSlot lock, none =>
    match g with
    | waiting key _ => holding key lock
    | g => g
  | .drainSlot lock, _ =>
    match g with
    | holding key _ => waiting key lock
    | g => g
  | _, _ => g

/-- The operations a fetch may ask for. -/
def Permits (g : Role) : FetchOp → Prop
  | .acquireInflightLock _ => g = outside
  | .releaseInflightLock key lock => g = waiting key lock
  | .sendSlot lock => ∃ key, g = waiting key lock
  | .drainSlot lock => ∃ key, g = holding key lock
  | _ => True

end Role

/-- The role as a ghost state. -/
def roleGhost : Ghost fetchSignature Role where
  ok := Role.Permits
  next g o r g' := g' = g.after o r
  fork _ _ _ _ := True

/-! ## What a fetch asks for -/

variable {U : Unicode} {L : NetLib} {config : FetchConfig}

/-- The operations of the hops. -/
def IsHopOp : FetchOp → Prop
  | .resolve _ | .connect _ _ | .request _ => True
  | _ => False

/-- The operations between the locks. -/
def IsUpstreamOp : FetchOp → Prop
  | .resolve _ | .connect _ _ | .request _ | .cacheSet _ _ _ => True
  | _ => False

theorem seq_dialSerial {P : FetchOp → Prop} {client : Client} {url : Bytes}
    (hP : ∀ address, P (.connect url address)) (addresses : List Bytes) (firstErr : Option Bytes) :
    (dialSerial L client url addresses firstErr).Seq P := by
  induction addresses generalizing firstErr with
  | nil => exact trivial
  | cons address addresses ih =>
    rw [dialSerial]
    split
    · exact ih _
    · refine ⟨hP address, fun r ↦ ?_⟩
      cases r with
      | true => exact trivial
      | false => exact ih _

theorem seq_do_ {client : Client} {url : Bytes} : (client.do_ L url).Seq IsHopOp := by
  refine Prog.Seq.bind (⟨trivial, fun _ ↦ trivial⟩) fun addresses ↦ ?_
  refine Prog.Seq.bind (seq_dialSerial (fun _ ↦ trivial) addresses none) fun err ↦ ?_
  cases err with
  | some err => exact trivial
  | none => exact ⟨trivial, fun _ ↦ trivial⟩

theorem seq_fetchHops (left : ℕ) (hopURL : Bytes) :
    (fetchHops U L config left hopURL).Seq IsHopOp := by
  induction left generalizing hopURL with
  | zero =>
    rw [fetchHops]
    split
    · exact trivial
    · refine Prog.Seq.bind seq_do_ fun r ↦ ?_
      split
      · exact trivial
      · dsimp only
        split_ifs <;> exact trivial
  | succ left ih =>
    rw [fetchHops]
    split
    · exact trivial
    · refine Prog.Seq.bind seq_do_ fun r ↦ ?_
      split
      · exact trivial
      · dsimp only
        split_ifs
        · exact trivial
        · split
          · exact trivial
          · split
            · exact trivial
            · exact ih _

theorem seq_fetchUpstream (url : Bytes) (cacheKey : Option Bytes) :
    (fetchUpstream U L config url cacheKey).Seq IsUpstreamOp := by
  have hhops := Prog.Seq.imp (Q := IsUpstreamOp)
    (fun o ho ↦ by cases o <;> first | exact ho | exact ho.elim)
    (seq_fetchHops maxRedirects url : (fetchHops U L config maxRedirects url).Seq _)
  refine Prog.Seq.bind hhops fun r ↦ ?_
  split
  · exact trivial
  · split
    · exact trivial
    · split
      · exact ⟨trivial, fun _ ↦ trivial⟩
      · exact trivial

/-- Between the locks the role stays. -/
theorem walk_fetchUpstream_role (url : Bytes) (cacheKey : Option Bytes) (g : Role) :
    (fetchUpstream U L config url cacheKey).Walk roleGhost g fun g' _ ↦ g' = g :=
  (seq_fetchUpstream url cacheKey).walk (fun o ho ↦ by cases o <;> trivial)
    fun o r g' ho hnext ↦ by cases o <;> first | exact hnext | exact ho.elim

/-- Every exit gives back what has been taken. -/
theorem walk_withInflightLock_role {key : Bytes} {fetch : Fetch FetchResult}
    (hfetch : ∀ g, fetch.Walk roleGhost g fun g' _ ↦ g' = g) :
    (withInflightLock key fetch).Walk roleGhost .outside fun g' _ ↦ g' = .outside := by
  refine ⟨rfl, fun lock g₁ hnext ↦ ?_⟩
  obtain rfl : g₁ = .waiting key lock := hnext
  have hrelease (r : FetchResult) : (Prog.op (S := fetchSignature) (.releaseInflightLock key lock)
      fun _ ↦ (.ret r : Fetch FetchResult)).Walk roleGhost (.waiting key lock)
        fun g' _ ↦ g' = .outside :=
    ⟨rfl, fun _ g' hnext ↦ hnext⟩
  have hdrain (r : FetchResult) : (Prog.op (S := fetchSignature) (.drainSlot lock) fun _ ↦
      .op (.releaseInflightLock key lock) fun _ ↦ (.ret r : Fetch FetchResult)).Walk roleGhost
        (.holding key lock) fun g' _ ↦ g' = .outside := by
    refine ⟨⟨key, rfl⟩, fun _ g' hnext ↦ ?_⟩
    obtain rfl : g' = .waiting key lock := hnext
    exact hrelease r
  refine ⟨⟨key, rfl⟩, fun err g₂ hnext ↦ ?_⟩
  cases err with
  | some err =>
    obtain rfl : g₂ = .waiting key lock := hnext
    exact hrelease _
  | none =>
    obtain rfl : g₂ = .holding key lock := hnext
    refine ⟨trivial, fun err g₃ hnext ↦ ?_⟩
    obtain rfl : g₃ = .holding key lock := hnext
    cases err with
    | some err => exact hdrain _
    | none =>
      refine ⟨trivial, fun hit g₄ hnext ↦ ?_⟩
      obtain rfl : g₄ = .holding key lock := hnext
      show Prog.Walk _ (if hit.ok then _ else _) _ _
      split_ifs
      · exact hdrain _
      · refine Prog.walk_bind.mpr ((hfetch _).mono fun g' r hg' ↦ ?_)
        subst hg'
        exact hdrain r

theorem walk_withSemaphore_role {fetch : Fetch FetchResult}
    (hfetch : fetch.Walk roleGhost .outside fun g' _ ↦ g' = .outside) :
    (withSemaphore config fetch).Walk roleGhost .outside fun g' _ ↦ g' = .outside := by
  rw [withSemaphore]
  split
  · exact hfetch
  · refine ⟨trivial, fun err g₁ hnext ↦ ?_⟩
    obtain rfl : g₁ = .outside := hnext
    cases err with
    | some err => rfl
    | none =>
      show Prog.Walk _ (fetch.bind _) _ _
      exact Prog.walk_bind.mpr (hfetch.mono fun g' _ hg' ↦ ⟨trivial, fun _ _ hnext ↦ hnext.trans hg'⟩)

theorem walk_fetchAdmitted_role (requestedURL : Bytes) :
    (fetchAdmitted U L requestedURL config).Walk roleGhost .outside fun g' _ ↦ g' = .outside := by
  rw [fetchAdmitted]
  split
  · rfl
  · split
    · exact walk_fetchUpstream_role _ none .outside
    · refine ⟨trivial, fun hit g₁ hnext ↦ ?_⟩
      obtain rfl : g₁ = .outside := hnext
      show Prog.Walk _ (if hit.ok && !hit.err then _ else _) _ _
      split_ifs
      · rfl
      · exact walk_withInflightLock_role (walk_fetchUpstream_role _ _)

theorem walk_singleFetchUrlWithContext_role (requestedURL : Bytes) :
    (singleFetchUrlWithContext U L requestedURL config).Walk roleGhost .outside
      fun g' _ ↦ g' = .outside := by
  rw [singleFetchUrlWithContext]
  split_ifs
  · rfl
  · split
    · rfl
    · exact walk_withSemaphore_role (walk_fetchAdmitted_role requestedURL)

/-! ## The invariant -/

variable {ι : Type}

/-- The fetches that use the lock of a key. -/
def participants (role : ι → Role) (key : Bytes) : Set ι :=
  {i | ∃ lock, (role i).participates = some (key, lock)}

/-- The locks and the roles fit together. -/
structure LockInv (role : ι → Role) (s : Locks) : Prop where
  /-- A participant uses the lock that is in the map. -/
  entry : ∀ {i key lock}, (role i).participates = some (key, lock) → s.locks key = some lock
  inj : ∀ {key key' lock}, s.locks key = some lock → s.locks key' = some lock → key = key'
  fresh : ∀ {key lock}, s.locks key = some lock → lock < s.next
  /-- A lock in the map is used, and counts those who use it. -/
  nonempty : ∀ {key lock}, s.locks key = some lock → (participants role key).Nonempty
  finite : ∀ {key lock}, s.locks key = some lock → (participants role key).Finite
  count : ∀ {key lock}, s.locks key = some lock → s.refCount lock = (participants role key).ncard
  /-- A slot is taken by one fetch. -/
  slot : ∀ {lock}, s.slot lock = true ↔ ∃ i key, role i = .holding key lock
  holder : ∀ {i j key key' lock}, role i = .holding key lock → role j = .holding key' lock → i = j

theorem lockInv_initial : LockInv (fun _ : ι ↦ .outside) .initial := by
  constructor <;> simp [Locks.initial, Role.participates]

namespace LockInv

variable [DecidableEq ι] {role : ι → Role} {s : Locks} {i : ι} {key : Bytes} {lock : LockId}

theorem participants_update_of_ne {g : Role} (hkey : ∀ lock, g.participates ≠ some (key, lock))
    (hi : i ∉ participants role key) :
    participants (Function.update role i g) key = participants role key := by
  ext j
  by_cases hj : j = i
  · subst hj
    exact iff_of_false (by simpa [participants] using hkey) hi
  · simp [participants, hj]

theorem participants_update_of_eq {g : Role} (hg : g.participates = (role i).participates)
    (key : Bytes) : participants (Function.update role i g) key = participants role key := by
  ext j
  by_cases hj : j = i
  · subst hj
    simp [participants, hg]
  · simp [participants, hj]

theorem participants_update_insert {g : Role} (hg : g.participates = some (key, lock)) :
    participants (Function.update role i g) key = insert i (participants role key) := by
  ext j
  by_cases hj : j = i
  · subst hj
    simp [participants, hg]
  · simp [participants, hj]

theorem participants_update_erase {g : Role} (hg : g.participates = none) (key : Bytes) :
    participants (Function.update role i g) key = participants role key \ {i} := by
  ext j
  by_cases hj : j = i
  · subst hj
    simp [participants, hg]
  · simp [participants, hj]

omit [DecidableEq ι] in
/-- Nobody else holds a slot that a fetch holds or that is free. -/
theorem not_holding_of_ne (h : LockInv role s)
    (hrole : role i = .holding key lock ∨ s.slot lock = false) {j : ι} {key' : Bytes} (hj : j ≠ i) :
    role j ≠ .holding key' lock := by
  intro hholding
  rcases hrole with hi | hfree
  · exact hj (h.holder hholding hi)
  · exact absurd (h.slot.mpr ⟨j, key', hholding⟩) (by simp [hfree])

/-- A change between waiting and holding. -/
theorem setSlot (h : LockInv role s) {g : Role} {full : Bool}
    (hi : (role i).participates = some (key, lock)) (hg : g.participates = some (key, lock))
    (hfull : full = true ↔ g = .holding key lock)
    (hrole : role i = .holding key lock ∨ s.slot lock = false) :
    LockInv (Function.update role i g) (s.setSlot lock full) where
  entry {j key' lock'} hj := by
    by_cases hji : j = i
    · subst hji
      rw [Function.update_self, hg, ← hi] at hj
      exact h.entry hj
    · rw [Function.update_of_ne hji] at hj
      exact h.entry hj
  inj := h.inj
  fresh := h.fresh
  nonempty hkey := by
    rw [participants_update_of_eq (hg.trans hi.symm)]
    exact h.nonempty hkey
  finite hkey := by
    rw [participants_update_of_eq (hg.trans hi.symm)]
    exact h.finite hkey
  count hkey := by
    rw [participants_update_of_eq (hg.trans hi.symm)]
    exact h.count hkey
  slot {lock'} := by
    have hnone {j : ι} {key' : Bytes} (hj : j ≠ i) :
        role j ≠ .holding key' lock := h.not_holding_of_ne hrole hj
    by_cases hlock : lock' = lock
    · subst hlock
      rw [Locks.slot_setSlot, Function.update_self, hfull]
      refine ⟨fun hg' ↦ ⟨i, key, by rw [Function.update_self, hg']⟩, fun ⟨j, key', hj⟩ ↦ ?_⟩
      by_cases hji : j = i
      · subst hji
        rw [Function.update_self] at hj
        subst hj
        obtain ⟨rfl, -⟩ := Prod.mk.inj (Option.some.inj hg)
        rfl
      · rw [Function.update_of_ne hji] at hj
        exact absurd hj (hnone hji)
    · have hother {g : Role} (hg : g.participates = some (key, lock)) (key' : Bytes) :
          g ≠ .holding key' lock' := fun heq ↦ by
        subst heq
        exact hlock (Prod.mk.inj (Option.some.inj hg)).2
      rw [Locks.slot_setSlot, Function.update_of_ne hlock, h.slot]
      refine exists_congr fun j ↦ exists_congr fun key' ↦ ?_
      by_cases hji : j = i
      · subst hji
        rw [Function.update_self]
        exact iff_of_false (hother hi key') (hother hg key')
      · rw [Function.update_of_ne hji]
  holder {j j' key₁ key₂ lock'} hj hj' := by
    have hnone {j : ι} {key' : Bytes} (hj : j ≠ i) :
        role j ≠ .holding key' lock := h.not_holding_of_ne hrole hj
    have hlock {key' : Bytes} (hg' : g = .holding key' lock') : lock' = lock := by
      subst hg'
      exact (Prod.mk.inj (Option.some.inj hg)).2
    by_cases hji : j = i
    · by_cases hji' : j' = i
      · rw [hji, hji']
      · subst hji
        rw [Function.update_self] at hj
        rw [Function.update_of_ne hji', hlock hj] at hj'
        exact absurd hj' (hnone hji')
    · by_cases hji' : j' = i
      · subst hji'
        rw [Function.update_self] at hj'
        rw [Function.update_of_ne hji, hlock hj'] at hj
        exact absurd hj (hnone hji)
      · rw [Function.update_of_ne hji] at hj
        rw [Function.update_of_ne hji'] at hj'
        exact h.holder hj hj'

omit [DecidableEq ι] in
/-- Whether there is a lock for the key or not, afterwards there is one in the map that counts one
participant more. -/
theorem acquireInflightLock_spec (h : LockInv role s) (key : Bytes) :
    ∃ lock s', s.acquireInflightLock key = (lock, s') ∧
      s'.locks = Function.update s.locks key (some lock) ∧ s'.slot = s.slot ∧
        lock < s'.next ∧ s.next ≤ s'.next ∧ (participants role key).Finite ∧
          s'.refCount = Function.update s.refCount lock ((participants role key).ncard + 1) ∧
            ∀ key' ≠ key, s.locks key' ≠ some lock := by
  rw [Locks.acquireInflightLock]
  cases hkey : s.locks key with
  | some lock =>
    refine ⟨lock, _, rfl, ?_, rfl, h.fresh hkey, le_rfl, h.finite hkey, ?_, fun key' hne hkey' ↦ ?_⟩
    · rw [← hkey, Function.update_eq_self]
    · rw [h.count hkey]
    · exact hne (h.inj hkey' hkey)
  | none =>
    have hempty : participants role key = ∅ := Set.eq_empty_of_forall_notMem fun j ⟨lock, hj⟩ ↦ by
      rw [h.entry hj] at hkey
      simp at hkey
    have hnot (key' : Bytes) : s.locks key' ≠ some s.next := fun hlock ↦ (h.fresh hlock).false
    have hslot : s.slot s.next = false := by
      by_contra hslot
      obtain ⟨j, key', hj⟩ := h.slot.mp (Bool.of_not_eq_false hslot)
      exact hnot key' (h.entry (show (role j).participates = some (key', s.next) from hj ▸ rfl))
    refine ⟨s.next, _, rfl, rfl, ?_, Nat.lt_succ_self _, Nat.le_succ _, ?_, ?_, fun key' _ ↦ hnot key'⟩
    · rw [← hslot, Function.update_eq_self]
    · rw [hempty]
      exact Set.finite_empty
    · rw [hempty, Set.ncard_empty]
      rfl

/-- A fetch joins the participants of a key. -/
theorem acquire (h : LockInv role s) (hi : role i = .outside) (key : Bytes) :
    LockInv (Function.update role i (.waiting key (s.acquireInflightLock key).1))
      (s.acquireInflightLock key).2 := by
  obtain ⟨lock, s', heq, hlocks, hslot, hlt, hle, hfinite, hcount, hne⟩ :=
    h.acquireInflightLock_spec key
  rw [heq]
  dsimp only
  have hnot (key' : Bytes) : i ∉ participants role key' := by simp [participants, hi, Role.participates]
  have hinsert : participants (Function.update role i (.waiting key lock)) key =
      insert i (participants role key) := participants_update_insert rfl
  have hother {key' : Bytes} (hk : key' ≠ key) :
      participants (Function.update role i (.waiting key lock)) key' = participants role key' :=
    participants_update_of_ne (fun lock' hg ↦ hk (Prod.mk.inj (Option.some.inj hg)).1.symm) (hnot key')
  have hholding {j : ι} {key' : Bytes} {lock' : LockId} :
      Function.update role i (.waiting key lock) j = .holding key' lock' ↔
        role j = .holding key' lock' := by
    by_cases hji : j = i
    · subst hji
      simp [hi]
    · simp [hji]
  -- a lock in the map is the one of the key, or it was there and is another one
  have hcases {key' : Bytes} {lock' : LockId} (hlock : s'.locks key' = some lock') :
      (key' = key ∧ lock' = lock) ∨ (key' ≠ key ∧ lock' ≠ lock ∧ s.locks key' = some lock') := by
    rw [hlocks] at hlock
    by_cases hk : key' = key
    · subst hk
      rw [Function.update_self] at hlock
      exact .inl ⟨rfl, (Option.some.inj hlock).symm⟩
    · rw [Function.update_of_ne hk] at hlock
      exact .inr ⟨hk, fun heq ↦ hne key' hk (heq ▸ hlock), hlock⟩
  refine ⟨fun {j key' lock'} hj ↦ ?_, fun {key₁ key₂ lock'} h₁ h₂ ↦ ?_, fun {key' lock'} hlock ↦ ?_,
    fun {key' lock'} hlock ↦ ?_, fun {key' lock'} hlock ↦ ?_, fun {key' lock'} hlock ↦ ?_, ?_, ?_⟩
  · rw [hlocks]
    by_cases hji : j = i
    · subst hji
      rw [Function.update_self] at hj
      obtain ⟨rfl, rfl⟩ := Prod.mk.inj (Option.some.inj hj)
      exact Function.update_self ..
    · rw [Function.update_of_ne hji] at hj
      have hentry := h.entry hj
      by_cases hk : key' = key
      · subst hk
        -- the key had a lock, so that is the one it has now
        rw [Function.update_self]
        rw [Locks.acquireInflightLock, hentry] at heq
        exact congrArg some (congrArg Prod.fst heq).symm
      · rw [Function.update_of_ne hk]
        exact hentry
  · rcases hcases h₁ with ⟨rfl, rfl⟩ | ⟨hk₁, hl₁, h₁⟩
    · rcases hcases h₂ with ⟨rfl, -⟩ | ⟨-, hl₂, -⟩
      · rfl
      · exact absurd rfl hl₂
    · rcases hcases h₂ with ⟨-, rfl⟩ | ⟨-, -, h₂⟩
      · exact absurd rfl hl₁
      · exact h.inj h₁ h₂
  · rcases hcases hlock with ⟨-, rfl⟩ | ⟨-, -, hlock⟩
    · exact hlt
    · exact (h.fresh hlock).trans_le hle
  · rcases hcases hlock with ⟨rfl, -⟩ | ⟨hk, -, hlock⟩
    · rw [hinsert]
      exact Set.insert_nonempty _ _
    · rw [hother hk]
      exact h.nonempty hlock
  · rcases hcases hlock with ⟨rfl, -⟩ | ⟨hk, -, hlock⟩
    · rw [hinsert]
      exact hfinite.insert i
    · rw [hother hk]
      exact h.finite hlock
  · rw [hcount]
    rcases hcases hlock with ⟨rfl, rfl⟩ | ⟨hk, hl, hlock⟩
    · rw [hinsert, Set.ncard_insert_of_notMem (hnot key') hfinite, Function.update_self, Nat.cast_succ]
    · rw [hother hk, Function.update_of_ne hl, h.count hlock]
  · simp only [hholding, hslot]
    exact h.slot
  · simp only [hholding]
    exact h.holder

/-- A fetch leaves the participants of a key, and the last one takes the lock out of the map. -/
theorem release (h : LockInv role s) (hi : role i = .waiting key lock) :
    LockInv (Function.update role i .outside) (s.releaseInflightLock key lock) := by
  have hparticipates : (role i).participates = some (key, lock) := by rw [hi]; rfl
  have hkey := h.entry hparticipates
  have hmem : i ∈ participants role key := ⟨lock, hparticipates⟩
  have herase (key' : Bytes) : participants (Function.update role i .outside) key' =
      participants role key' \ {i} := participants_update_erase rfl key'
  have hother {key' : Bytes} (hk : key' ≠ key) : participants role key' \ {i} = participants role key' :=
    Set.sdiff_singleton_eq_self fun ⟨lock', hi'⟩ ↦ by
      rw [hparticipates] at hi'
      exact hk (Prod.mk.inj (Option.some.inj hi')).1.symm
  have hncard := Set.ncard_sdiff_singleton_add_one hmem (h.finite hkey)
  have hholding {j : ι} {key' : Bytes} {lock' : LockId} :
      Function.update role i .outside j = .holding key' lock' ↔ role j = .holding key' lock' := by
    by_cases hji : j = i
    · subst hji
      simp [hi]
    · simp [hji]
  have hcount {key' : Bytes} {lock' : LockId} (hlock : s.locks key' = some lock') :
      Function.update s.refCount lock (s.refCount lock - 1) lock' =
        (participants role key' \ {i}).ncard := by
    by_cases hk : key' = key
    · subst hk
      obtain rfl := Option.some.inj (hkey.symm.trans hlock)
      rw [Function.update_self, h.count hkey]
      omega
    · have hne : lock' ≠ lock := fun heq ↦ hk (h.inj hlock (hkey.trans (congrArg some heq.symm)))
      rw [Function.update_of_ne hne, hother hk, h.count hlock]
  have hentry {j : ι} {key' : Bytes} {lock' : LockId}
      (hj : (Function.update role i .outside j).participates = some (key', lock')) :
      j ≠ i ∧ (role j).participates = some (key', lock') := by
    by_cases hji : j = i
    · subst hji
      simp [Role.participates] at hj
    · rw [Function.update_of_ne hji] at hj
      exact ⟨hji, hj⟩
  simp only [Locks.releaseInflightLock, Function.update_self]
  split_ifs with hlast
  · -- nobody else takes part, so no other role speaks of the lock that goes
    have hempty : participants role key \ {i} = ∅ := by
      rw [← Set.ncard_eq_zero ((h.finite hkey).subset Set.sdiff_subset)]
      have := h.count hkey
      omega
    have hold {key' : Bytes} {lock' : LockId}
        (hlock : Function.update s.locks key none key' = some lock') :
        key' ≠ key ∧ s.locks key' = some lock' := by
      by_cases hk : key' = key
      · subst hk
        simp at hlock
      · rw [Function.update_of_ne hk] at hlock
        exact ⟨hk, hlock⟩
    refine ⟨fun {j key' lock'} hj ↦ ?_, fun h₁ h₂ ↦ h.inj (hold h₁).2 (hold h₂).2,
      fun hlock ↦ h.fresh (hold hlock).2, fun {key' lock'} hlock ↦ ?_, fun {key' lock'} hlock ↦ ?_,
      fun {key' lock'} hlock ↦ ?_, ?_, ?_⟩
    · obtain ⟨hji, hj⟩ := hentry hj
      have hk : key' ≠ key := by
        rintro rfl
        have hmem' : j ∈ participants role key' \ {i} := ⟨⟨lock', hj⟩, hji⟩
        rw [hempty] at hmem'
        exact hmem'
      show Function.update s.locks key none key' = some lock'
      rw [Function.update_of_ne hk]
      exact h.entry hj
    · obtain ⟨hk, hlock⟩ := hold hlock
      rw [herase, hother hk]
      exact h.nonempty hlock
    · rw [herase]
      exact (h.finite (hold hlock).2).subset Set.sdiff_subset
    · rw [herase]
      exact hcount (hold hlock).2
    · simp only [hholding]
      exact h.slot
    · simp only [hholding]
      exact h.holder
  · have hstill : (participants role key \ {i}).Nonempty := by
      rw [Set.nonempty_iff_ne_empty]
      intro hempty
      have hzero := hcount hkey
      rw [Function.update_self, hempty, Set.ncard_empty] at hzero
      exact hlast ⟨hzero, hkey⟩
    refine ⟨fun hj ↦ h.entry (hentry hj).2, h.inj, h.fresh, fun {key' lock'} hlock ↦ ?_,
      fun {key' lock'} hlock ↦ ?_, fun {key' lock'} hlock ↦ ?_, ?_, ?_⟩
    · rw [herase]
      by_cases hk : key' = key
      · rw [hk]
        exact hstill
      · rw [hother hk]
        exact h.nonempty hlock
    · rw [herase]
      exact (h.finite hlock).subset Set.sdiff_subset
    · rw [herase]
      exact hcount hlock
    · simp only [hholding]
      exact h.slot
    · simp only [hholding]
      exact h.holder

/-- **One step.** Every operation that the role of a fetch permits keeps the locks and the roles
together. -/
theorem step (h : LockInv role s) {o : FetchOp} {r : fetchSignature.Res o} {s' : Locks}
    (hok : (role i).Permits o) (hsem : Locks.Sem o s r s') :
    LockInv (Function.update role i ((role i).after o r)) s' := by
  have hsame (hafter : (role i).after o r = role i) (hs : s' = s) :
      LockInv (Function.update role i ((role i).after o r)) s' := by
    rw [hafter, Function.update_eq_self, hs]
    exact h
  cases o with
  | acquireInflightLock key =>
    obtain ⟨rfl, rfl⟩ := Prod.mk.inj hsem
    exact h.acquire hok key
  | releaseInflightLock key lock =>
    obtain rfl : s' = s.releaseInflightLock key lock := hsem
    exact h.release hok
  | sendSlot lock =>
    obtain ⟨key, hi⟩ := hok
    rcases hsem with ⟨rfl, hfree, rfl⟩ | ⟨⟨err, rfl⟩, rfl⟩
    · rw [hi]
      exact h.setSlot (by rw [hi]; rfl) (g := .holding key lock) rfl (by simp) (.inr hfree)
    · exact hsame rfl rfl
  | drainSlot lock =>
    obtain ⟨key, hi⟩ := hok
    obtain ⟨-, rfl⟩ := hsem
    rw [hi]
    exact h.setSlot (by rw [hi]; rfl) (g := .waiting key lock) rfl (by simp) (.inl hi)
  | _ => exact hsame rfl hsem

end LockInv

/-! ## Runs of a pool of fetches -/

variable {σ : Type} [DecidableEq ι]

/-- The roles after the events of a run. -/
def roles (tr : List (ι × Event fetchSignature σ)) : ι → Role :=
  tr.foldl (fun role e ↦ Function.update role e.1 ((role e.1).after e.2.op e.2.res))
    fun _ ↦ .outside

theorem roles_snoc (tr : List (ι × Event fetchSignature σ)) (e : ι × Event fetchSignature σ) :
    roles (tr ++ [e]) = Function.update (roles tr) e.1 ((roles tr e.1).after e.2.op e.2.res) := by
  simp [roles]

/-- The event puts a value into the channel of a lock. -/
def acquiresSlot (lock : LockId) : Event fetchSignature σ → Bool
  | ⟨_, .sendSlot lock', none⟩ => lock' = lock
  | _ => false

/-- The event takes the value out of the channel of a lock. -/
def releasesSlot (lock : LockId) : Event fetchSignature σ → Bool
  | ⟨_, .drainSlot lock', _⟩ => lock' = lock
  | _ => false

/-- How many events of a fetch are of a kind. -/
def eventCount (kind : Event fetchSignature σ → Bool) (tr : List (ι × Event fetchSignature σ))
    (i : ι) : ℕ :=
  tr.countP fun e ↦ e.1 = i && kind e.2

theorem eventCount_snoc (kind : Event fetchSignature σ → Bool)
    (tr : List (ι × Event fetchSignature σ)) (e : ι × Event fetchSignature σ) (i : ι) :
    eventCount kind (tr ++ [e]) i = eventCount kind tr i + if e.1 = i ∧ kind e.2 = true then 1 else 0 := by
  simp [eventCount, List.countP_append, List.countP_singleton]

/-- The slots a fetch has acquired are those it has released and the one it holds. -/
def SlotsCounted (tr : List (ι × Event fetchSignature σ)) (role : ι → Role) : Prop :=
  ∀ i lock, eventCount (acquiresSlot lock) tr i =
    eventCount (releasesSlot lock) tr i + if (role i).holds lock then 1 else 0

theorem SlotsCounted.step {tr : List (ι × Event fetchSignature σ)} {role : ι → Role}
    (h : SlotsCounted tr role) {i : ι} {s : σ} {o : FetchOp} {r : fetchSignature.Res o}
    (hok : (role i).Permits o) :
    SlotsCounted (tr ++ [(i, ⟨s, o, r⟩)]) (Function.update role i ((role i).after o r)) := by
  intro j lock
  have hj := h j lock
  rw [eventCount_snoc, eventCount_snoc]
  by_cases hji : j = i
  · subst hji
    rw [Function.update_self]
    simp only [true_and]
    cases o with
    | sendSlot lock' =>
      obtain ⟨key, hi⟩ := hok
      rw [hi] at hj ⊢
      cases r <;> simp_all [acquiresSlot, releasesSlot, Role.after, Role.holds]
    | drainSlot lock' =>
      obtain ⟨key, hi⟩ := hok
      rw [hi] at hj ⊢
      simp_all [acquiresSlot, releasesSlot, Role.after, Role.holds]
    | acquireInflightLock key =>
      rw [show role j = .outside from hok] at hj
      simpa [acquiresSlot, releasesSlot, Role.after, Role.holds] using hj
    | releaseInflightLock key lock' =>
      rw [show role j = .waiting key lock' from hok] at hj
      simpa [acquiresSlot, releasesSlot, Role.after, Role.holds] using hj
    | _ =>
      simp only [acquiresSlot, releasesSlot, Role.after, Bool.false_eq_true, if_false, Nat.add_zero]
      exact hj
  · rw [Function.update_of_ne hji]
    simpa [Ne.symm hji] using hj

/-- What holds of the locks, of the fetches as far as they are left, and of what they have done. -/
structure InflightProtocol (tr : List (ι × Event fetchSignature Locks)) (q : ι → Fetch FetchResult)
    (t : Locks) : Prop where
  /-- One fetch at a time holds the slot of a key. -/
  holder : ∀ i j key lock lock', roles tr i = .holding key lock → roles tr j = .holding key lock' →
    i = j
  /-- The slot is taken if and only if somebody holds it. -/
  slot : ∀ lock, t.slot lock = true ↔ ∃ i key, roles tr i = .holding key lock
  /-- All participants of a key use the lock in the map. -/
  entry : ∀ i key lock, (roles tr i).participates = some (key, lock) → t.locks key = some lock
  /-- The lock in the map counts the participants. -/
  count : ∀ key lock, t.locks key = some lock → (participants (roles tr) key).Finite ∧
    t.refCount lock = (participants (roles tr) key).ncard
  /-- There is no lock in the map for a key without participants. -/
  absent : ∀ key, participants (roles tr) key = ∅ → t.locks key = none
  /-- What a fetch has acquired it has released once, unless it holds it still. -/
  released : ∀ i lock, eventCount (acquiresSlot lock) tr i =
    eventCount (releasesSlot lock) tr i + if (roles tr i).holds lock then 1 else 0
  /-- A fetch that has returned is no participant, and so holds nothing. -/
  outside : ∀ i result, q i = .ret result → roles tr i = .outside
  /-- No release of a slot has to wait. -/
  drain : ∀ i lock k, q i = .op (.drainSlot lock) k → t.slot lock = true

/-- **In-flight locks.** In every state of every interleaving of any number of fetches the protocol
holds, whatever their other operations are answered. -/
theorem inflightProtocol_of_run {url : ι → Bytes} {config : ι → FetchConfig}
    {tr : List (ι × Event fetchSignature Locks)} {q : ι → Fetch FetchResult} {t : Locks}
    (h : PoolRun Locks.Sem (fun i ↦ singleFetchUrlWithContext U L (url i) (config i)) .initial tr q t) :
    InflightProtocol tr q t := by
  obtain ⟨role, hwalk, hrole, hinv, hcount⟩ := h.ghost (γ := fun _ ↦ roleGhost)
    (I := fun tr role s ↦ role = roles tr ∧ LockInv role s ∧ SlotsCounted tr role)
    (fun tr role s i o r s' hI hok hsem ↦ by
      obtain ⟨hrole, hinv, hcount⟩ := hI
      refine ⟨_, rfl, ?_, hinv.step hok hsem, hcount.step hok⟩
      rw [roles_snoc, hrole])
    (fun i ↦ walk_singleFetchUrlWithContext_role (url i))
    (⟨rfl, lockInv_initial, fun _ _ ↦ rfl⟩ : (fun _ : ι ↦ Role.outside) = roles [] ∧ _ ∧ _)
  rw [List.nil_append] at hrole hcount
  subst hrole
  refine ⟨fun i j key lock lock' hi hj ↦ ?_, fun _ ↦ hinv.slot, fun _ _ _ ↦ hinv.entry,
    fun _ _ hlock ↦ ⟨hinv.finite hlock, hinv.count hlock⟩, fun key hempty ↦ ?_, hcount,
    fun i result hq ↦ ?_, fun i lock k hq ↦ ?_⟩
  · have hlock : t.locks key = some lock := hinv.entry (by rw [hi]; rfl)
    have hlock' : t.locks key = some lock' := hinv.entry (by rw [hj]; rfl)
    obtain rfl := Option.some.inj (hlock.symm.trans hlock')
    exact hinv.holder hi hj
  · by_contra hne
    obtain ⟨lock, hlock⟩ := Option.ne_none_iff_exists'.mp hne
    exact (hinv.nonempty hlock).ne_empty hempty
  · have hi := hwalk i
    rw [hq] at hi
    exact hi
  · have hi := hwalk i
    rw [hq] at hi
    obtain ⟨key, hkey⟩ := hi.1
    exact hinv.slot.mpr ⟨i, key, hkey⟩

/-! ## Two fetches of one key -/

/-- The answers when nothing is in the cache and the upstream has one page. -/
def Locks.answer : (o : FetchOp) → Locks → Option (fetchSignature.Res o × Locks)
  | .acquireInflightLock key, s => some (s.acquireInflightLock key)
  | .releaseInflightLock key lock, s => some ((), s.releaseInflightLock key lock)
  | .sendSlot lock, s => if s.slot lock then none else some (none, s.setSlot lock true)
  | .drainSlot lock, s => if s.slot lock then some ((), s.setSlot lock false) else none
  | o, s => some (upstreamAnswer [(lit "http://a/1", .ofBody (lit "text"))] o, s)

theorem Locks.answer_sound (o : FetchOp) (s : Locks) (r : fetchSignature.Res o) (s' : Locks)
    (h : Locks.answer o s = some (r, s')) : Locks.Sem o s r s' := by
  cases o with
  | acquireInflightLock key => exact (Option.some.inj h).symm
  | releaseInflightLock key lock =>
    cases h
    rfl
  | sendSlot lock =>
    simp only [Locks.answer] at h
    split_ifs at h with hslot
    cases h
    exact .inl ⟨rfl, by simpa using hslot, rfl⟩
  | drainSlot lock =>
    simp only [Locks.answer] at h
    split_ifs at h with hslot
    cases h
    exact ⟨hslot, rfl⟩
  | _ =>
    cases h
    rfl

/-- Two fetches of one URL, the second of which arrives while the first one holds the slot. -/
def twoFetches (sched : List Bool) :
    List (Bool × Event fetchSignature Locks) × (Bool → Fetch FetchResult) × Locks :=
  poolExec Locks.answer sched (fun _ : Bool ↦ singleFetchUrlWithContext .ascii .simple
    (lit "http://a/1") { timeout := 1000, cache := true }) .initial

theorem inflightProtocol_twoFetches :
    (twoFetches (List.replicate 4 false ++ List.replicate 3 true)).2.2.refCount 0 = 2 ∧
      InflightProtocol (twoFetches (List.replicate 4 false ++ List.replicate 3 true)).1
        (twoFetches (List.replicate 4 false ++ List.replicate 3 true)).2.1
        (twoFetches (List.replicate 4 false ++ List.replicate 3 true)).2.2 :=
  ⟨by decide +kernel, inflightProtocol_of_run (poolExec_run Locks.answer_sound _ _ _)⟩

end GoMesi
