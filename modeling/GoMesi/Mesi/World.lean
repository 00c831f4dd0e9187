import GoMesi.Interleaving.Run
import GoMesi.Mesi.Fetch
import GoMesi.Mesi.Include

/-!
# The world of a render

What the operations of a render do: the contents of `Variables` maps, a clock that does not go
back, the cancellation of the context, and the fetches. A fetch is started by a render and then goes
its own way: it waits for a slot of its semaphore, is in flight, and ends with one of the values its
program can end with.

Each read and each write of a map is one step. That makes the world kinder than the language, for
which unsynchronized writes to a map are an error.
-/

namespace GoMesi

open Interleaving

/-! ## States -/

/-- How far a fetch has come. -/
inductive Phase
  /-- Not admitted yet. -/
  | queued
  /-- It has its slot of the semaphore, if there is one. -/
  | inFlight
  | done (result : FetchResult)

/-- The checks a fetch makes before it is admitted. -/
def FetchRequest.Admissible (r : FetchRequest) : Prop :=
  0 < r.config.timeout ∧ r.config.maxResponseSize ≤ maxMaxResponseSize

instance (r : FetchRequest) : Decidable r.Admissible :=
  inferInstanceAs (Decidable (_ ∧ _))

/-- A fetch that has been started. -/
structure FetchState where
  id : FetchId
  request : FetchRequest
  phase : Phase

namespace FetchState

def isQueued (f : FetchState) : Bool :=
  match f.phase with
  | .queued => true
  | _ => false

def isInFlight (f : FetchState) : Bool :=
  match f.phase with
  | .inFlight => true
  | _ => false

theorem isQueued_iff {f : FetchState} : f.isQueued = true ↔ f.phase = .queued := by
  rw [isQueued]
  split <;> simp_all

theorem isInFlight_iff {f : FetchState} : f.isInFlight = true ↔ f.phase = .inFlight := by
  rw [isInFlight]
  split <;> simp_all

end FetchState

/-- The state of the world. -/
structure World where
  /-- The contents of the `Variables` maps. -/
  maps : MapRef → Bytes → Option Bytes
  clock : Time
  /-- Whether the context is cancelled. -/
  cancelled : Bool
  /-- The fetches that have been started, the latest first. -/
  fetches : List FetchState

namespace World

/-- The world before anything has happened, except that the caller may have set some variables. -/
def initial (vars : Bytes → Option Bytes) : World where
  maps
    | .caller => vars
    | .made _ => fun _ ↦ none
  clock := 0
  cancelled := false
  fetches := []

/-- The bindings one sees through the `Variables` field of a configuration. -/
def visible (s : World) : Option MapRef → Bytes → Option Bytes
  | none, _ => none
  | some m, key => s.maps m key

/-- Replace the content of a map. -/
def setMap (s : World) (m : MapRef) (content : Bytes → Option Bytes) : World :=
  { s with maps := Function.update s.maps m content }

/-- Set one key of a map. -/
def assign (s : World) (m : MapRef) (key value : Bytes) : World :=
  s.setMap m (Function.update (s.maps m) key (some value))

def addFetch (s : World) (f : FetchState) : World := { s with fetches := f :: s.fetches }

/-- The fetch with a given name. -/
def lookup (s : World) (id : FetchId) : Option FetchState := s.fetches.find? (·.id = id)

/-- The fetches in flight. -/
def inFlight (s : World) : List FetchState := s.fetches.filter (·.isInFlight)

/-- A semaphore has a free slot. Without a semaphore there is always one. -/
def hasSlot (s : World) : Option Semaphore → Bool
  | none => true
  | some sem =>
    decide ((s.inFlight.filter (·.request.config.requestSemaphore = some sem)).length < sem.cap)

@[simp] theorem maps_setMap (s : World) (m : MapRef) (c : Bytes → Option Bytes) :
    (s.setMap m c).maps = Function.update s.maps m c := rfl

@[simp] theorem maps_assign (s : World) (m : MapRef) (k v : Bytes) :
    (s.assign m k v).maps = Function.update s.maps m (Function.update (s.maps m) k (some v)) := rfl

@[simp] theorem maps_addFetch (s : World) (f : FetchState) : (s.addFetch f).maps = s.maps := rfl

@[simp] theorem fetches_setMap (s : World) (m : MapRef) (c : Bytes → Option Bytes) :
    (s.setMap m c).fetches = s.fetches := rfl

@[simp] theorem fetches_assign (s : World) (m : MapRef) (k v : Bytes) :
    (s.assign m k v).fetches = s.fetches := rfl

@[simp] theorem fetches_addFetch (s : World) (f : FetchState) :
    (s.addFetch f).fetches = f :: s.fetches := rfl

@[simp] theorem clock_setMap (s : World) (m : MapRef) (c : Bytes → Option Bytes) :
    (s.setMap m c).clock = s.clock := rfl

@[simp] theorem clock_assign (s : World) (m : MapRef) (k v : Bytes) :
    (s.assign m k v).clock = s.clock := rfl

@[simp] theorem clock_addFetch (s : World) (f : FetchState) : (s.addFetch f).clock = s.clock := rfl

/-- Setting a key to the value it has changes nothing. -/
theorem assign_of_eq {s : World} {m : MapRef} {k v : Bytes} (h : s.maps m k = some v) :
    s.assign m k v = s := by
  rw [assign, setMap, ← h, Function.update_eq_self, Function.update_eq_self]

/-- The fetch has ended with a result. -/
def result (s : World) (id : FetchId) (r : FetchResult) : Prop :=
  ∃ f, s.lookup id = some f ∧ f.phase = .done r

/-! ## Operations of renders -/

/-- What an operation of a render answers and does. -/
def Sem : (o : RenderOp) → World → renderSignature.Res o → World → Prop
  | .enter _ _ _, s, r, s' => r = s.clock ∧ s' = s
  | .now _, s, r, s' => r = s.clock ∧ s' = s
  | .since _ _ _, s, r, s' => r = s.clock ∧ s' = s
  | .lookup _ vars key, s, r, s' => r = s.visible vars key ∧ s' = s
  | .range _, s, _, s' => s' = s
  | .newMap site bindings, s, _, s' => s' = s.setMap (.made site.render) (bindings.lookup ·)
  | .assign _ _ vars key value, s, _, s' => s' = s.assign vars key value
  | .intn _ n, s, r, s' => r < n ∧ s' = s
  | .spawn id request _, s, _, s' => s' = s.addFetch ⟨id, request, .queued⟩
  | .wait id, s, r, s' => s.result id r ∧ s' = s
  | .select element slots, s, r, s' =>
    ((∃ slot ∈ slots, ∃ result, s.result ⟨element, slot⟩ result ∧ r = .ok (slot, result)) ∨
      (s.cancelled = true ∧ ∃ err, r = .error err)) ∧ s' = s
  | .collect n, s, r, s' => (s.cancelled = true ∨ r.1.length = n) ∧ s' = s

/-! ## Moves of the world -/

/-- The fetch is turned away: the checks before its admission fail, or the context ends while it
waits for a slot. -/
def refused : (o : FetchOp) → fetchSignature.Res o → Prop
  | .acquireSemaphore _, r => ∃ err, r = some err
  | _, _ => False

/-- The fetch is admitted, and what it asks for is answered as `A` allows. -/
def admitted (A : (o : FetchOp) → fetchSignature.Res o → Prop) :
    (o : FetchOp) → fetchSignature.Res o → Prop
  | .acquireSemaphore _, r => r = none
  | o, r => A o r

/-- The world moves by itself: time passes, the context is cancelled, a fetch gets on. `A` is what
the operations of fetches can be answered. -/
inductive Env (U : Unicode) (L : NetLib) (A : (o : FetchOp) → fetchSignature.Res o → Prop) :
    World → World → Prop
  | tick {s : World} (t : Time) (h : s.clock ≤ t) : Env U L A s { s with clock := t }
  | cancel {s : World} : Env U L A s { s with cancelled := true }
  | start {s : World} {pre post : List FetchState} {f : FetchState}
      (h : s.fetches = pre ++ f :: post) (hphase : f.phase = .queued)
      (hadm : f.request.Admissible) (hslot : s.hasSlot f.request.config.requestSemaphore) :
      Env U L A s { s with fetches := pre ++ { f with phase := .inFlight } :: post }
  | finish {s : World} {pre post : List FetchState} {f : FetchState} (result : FetchResult)
      (h : s.fetches = pre ++ f :: post) (hphase : f.phase = .inFlight)
      (hresult : (singleFetchUrlWithContext U L f.request.url f.request.config).Ends
        (admitted A) result) :
      Env U L A s { s with fetches := pre ++ { f with phase := .done result } :: post }
  | refuse {s : World} {pre post : List FetchState} {f : FetchState} (result : FetchResult)
      (h : s.fetches = pre ++ f :: post) (hphase : f.phase = .queued)
      (hresult : (singleFetchUrlWithContext U L f.request.url f.request.config).Ends
        refused result) :
      Env U L A s { s with fetches := pre ++ { f with phase := .done result } :: post }

/-- Time does not go back. -/
theorem Env.clock_le {U : Unicode} {L : NetLib} {A : (o : FetchOp) → fetchSignature.Res o → Prop}
    {s s' : World} (h : Env U L A s s') : s.clock ≤ s'.clock := by
  cases h with
  | tick t h => exact h
  | _ => exact le_rfl

/-- The operations of a render take no time. -/
theorem Sem.clock_eq {o : RenderOp} {s s' : World} {r : renderSignature.Res o} (h : Sem o s r s') :
    s'.clock = s.clock := by
  cases o with
  | range vars => exact (show s' = s from h) ▸ rfl
  | newMap site bindings => exact (show s' = _ from h) ▸ rfl
  | assign job site vars key value => exact (show s' = _ from h) ▸ rfl
  | spawn id request readAt => exact (show s' = _ from h) ▸ rfl
  | _ => exact h.2 ▸ rfl

/-! ## Executing -/

/-- The result of a fetch, if it has ended. -/
def result? (s : World) (id : FetchId) : Option FetchResult :=
  match s.lookup id with
  | some ⟨_, _, .done r⟩ => some r
  | _ => none

theorem result_of_result? {s : World} {id : FetchId} {r : FetchResult} (h : s.result? id = some r) :
    s.result id r := by
  rw [result?] at h
  split at h
  · cases h
    exact ⟨_, ‹_›, rfl⟩
  · simp at h

/-- The answers of a world in which nothing is left to chance: a `select` takes the first fetch
that is done, maps are gone over in the order of their entries, and random numbers are zero. -/
def answer : (o : RenderOp) → World → Option (renderSignature.Res o × World)
  | .enter _ _ _, s => some (s.clock, s)
  | .now _, s => some (s.clock, s)
  | .since _ _ _, s => some (s.clock, s)
  | .lookup _ vars key, s => some (s.visible vars key, s)
  | .range vars, s => some (⟨vars.entries, .refl _⟩, s)
  | .newMap site bindings, s => some ((), s.setMap (.made site.render) (bindings.lookup ·))
  | .assign _ _ vars key value, s => some ((), s.assign vars key value)
  | .intn _ n, s => if 0 < n then some (0, s) else none
  | .spawn id request _, s => some ((), s.addFetch ⟨id, request, .queued⟩)
  | .wait id, s => (s.result? id).map fun r ↦ (r, s)
  | .select element slots, s =>
    slots.firstM fun slot ↦ (s.result? ⟨element, slot⟩).map fun r ↦ (.ok (slot, r), s)
  | .collect n, s => some (⟨List.finRange n, List.nodup_finRange n⟩, s)

private theorem firstM_eq_some {α β : Type} {f : α → Option β} {l : List α} {b : β}
    (h : l.firstM f = some b) : ∃ a ∈ l, f a = some b := by
  induction l with
  | nil => simp [List.firstM, failure] at h
  | cons a l ih =>
    cases hfa : f a with
    | some b' =>
      refine ⟨a, by simp, ?_⟩
      rw [← h]
      simp [List.firstM, hfa]
    | none =>
      obtain ⟨a', ha', hfa'⟩ := ih (by simpa [List.firstM, hfa] using h)
      exact ⟨a', by simp [ha'], hfa'⟩

theorem answer_sound (o : RenderOp) (s : World) (r : renderSignature.Res o) (s' : World)
    (h : answer o s = some (r, s')) : Sem o s r s' := by
  cases o with
  | intn element n =>
    simp only [answer] at h
    split_ifs at h with hn
    cases h
    exact ⟨hn, rfl⟩
  | wait id =>
    obtain ⟨r', hr', heq⟩ := Option.map_eq_some_iff.mp h
    cases heq
    exact ⟨result_of_result? hr', rfl⟩
  | select element slots =>
    obtain ⟨slot, hmem, hslot⟩ := firstM_eq_some h
    obtain ⟨r', hr', heq⟩ := Option.map_eq_some_iff.mp hslot
    cases heq
    exact ⟨.inl ⟨slot, hmem, r', result_of_result? hr', rfl⟩, rfl⟩
  | collect n =>
    cases h
    exact ⟨.inr (List.length_finRange), rfl⟩
  | range vars =>
    cases h
    rfl
  | newMap site bindings =>
    cases h
    rfl
  | assign job site vars key value =>
    cases h
    rfl
  | spawn id request readAt =>
    cases h
    rfl
  | enter entry timeout vars =>
    cases h
    exact ⟨rfl, rfl⟩
  | now readAt =>
    cases h
    exact ⟨rfl, rfl⟩
  | since start budget attr =>
    cases h
    exact ⟨rfl, rfl⟩
  | lookup site vars key =>
    cases h
    exact ⟨rfl, rfl⟩

/-- A move of the world in a schedule. -/
inductive EnvMove
  | tick (t : Time)
  | start (id : FetchId)
  | finish (id : FetchId)
  deriving Repr

/-- The fetches up to the first one that satisfies `p`, that one, and the others. -/
def splitFetches (s : World) (p : FetchState → Bool) :
    Option (List FetchState × FetchState × List FetchState) :=
  match s.fetches.dropWhile fun f ↦ !p f with
  | [] => none
  | f :: post => some (s.fetches.takeWhile fun f ↦ !p f, f, post)

theorem splitFetches_eq_some {s : World} {p : FetchState → Bool} {pre post : List FetchState}
    {f : FetchState} (h : s.splitFetches p = some (pre, f, post)) :
    s.fetches = pre ++ f :: post ∧ p f = true := by
  rw [splitFetches] at h
  split at h
  · simp at h
  · rename_i f' post' hdrop
    cases h
    refine ⟨by rw [← hdrop, List.takeWhile_append_dropWhile], ?_⟩
    have hne : s.fetches.dropWhile (fun f ↦ !p f) ≠ [] := by simp [hdrop]
    have hhead := List.head_dropWhile_not (fun f ↦ !p f) hne
    simpa [hdrop] using hhead

/-- Make a move, with the answers `answers` for the operations of fetches. -/
def move (U : Unicode) (L : NetLib) (answers : (o : FetchOp) → fetchSignature.Res o) :
    EnvMove → World → Option World
  | .tick t, s => if s.clock ≤ t then some { s with clock := t } else none
  | .start id, s =>
    match s.splitFetches fun f ↦ decide (f.id = id) && f.isQueued with
    | some (pre, f, post) =>
      if f.request.Admissible ∧ s.hasSlot f.request.config.requestSemaphore then
        some { s with fetches := pre ++ { f with phase := .inFlight } :: post }
      else none
    | none => none
  | .finish id, s =>
    match s.splitFetches fun f ↦ decide (f.id = id) && f.isInFlight with
    | some (pre, f, post) =>
      match (singleFetchUrlWithContext U L f.request.url f.request.config).eval
          fun o ↦ some (answers o) with
      | some result => some { s with fetches := pre ++ { f with phase := .done result } :: post }
      | none => none
    | none => none

theorem move_sound {U : Unicode} {L : NetLib} {A : (o : FetchOp) → fetchSignature.Res o → Prop}
    {answers : (o : FetchOp) → fetchSignature.Res o} (hanswers : ∀ o, admitted A o (answers o))
    (m : EnvMove) (s s' : World) (h : move U L answers m s = some s') : Env U L A s s' := by
  cases m with
  | tick t =>
    simp only [move] at h
    split_ifs at h with ht
    cases h
    exact .tick t ht
  | start id =>
    simp only [move] at h
    split at h
    · rename_i pre f post hsplit
      obtain ⟨heq, hf⟩ := splitFetches_eq_some hsplit
      split_ifs at h with hstart
      cases h
      exact .start heq (FetchState.isQueued_iff.mp (Bool.and_eq_true_iff.mp hf).2) hstart.1 hstart.2
    · simp at h
  | finish id =>
    simp only [move] at h
    split at h
    · rename_i pre f post hsplit
      obtain ⟨heq, hf⟩ := splitFetches_eq_some hsplit
      split at h
      · rename_i result heval
        cases h
        exact .finish result heq (FetchState.isInFlight_iff.mp (Bool.and_eq_true_iff.mp hf).2)
          (Prog.ends_of_eval (fun o _ ho ↦ Option.some.inj ho ▸ hanswers o) heval)
      · simp at h
    · simp at h

end World

end GoMesi
