import GoMesi.Mesi.Inflight

/-!
# One fetch for all

When several fetches want the same key at the same time, one of them goes to the upstream and the
others get what it has put into the cache. The one that has the slot looks into the cache again, so
what it does not find there nobody has fetched successfully; and it fills the cache before it gives
the slot back, so whoever comes next finds it.

For this the cache has to show a value to all after it has been set, and to keep it.
-/

namespace GoMesi

open Interleaving

/-! ## The cache -/

/-- The locks and a cache. -/
structure CachedLocks where
  locks : Locks
  cache : Bytes → Option Bytes

/-- What the operations of a fetch do to a cache that neither fails nor forgets. -/
def cacheSem : (o : FetchOp) → (Bytes → Option Bytes) → fetchSignature.Res o →
    (Bytes → Option Bytes) → Prop
  | .cacheGet key, c, r, c' =>
    c' = c ∧ r.err = false ∧ (r.ok = true → c key = some r.val) ∧ (r.ok = false → c key = none)
  | .cacheSet key value _, c, _, c' => c' = Function.update c key (some value)
  | _, c, _, c' => c' = c

/-- What the operations of a fetch do to the locks and the cache. -/
def CachedLocks.Sem (o : FetchOp) (s : CachedLocks) (r : fetchSignature.Res o) (s' : CachedLocks) :
    Prop :=
  Locks.Sem o s.locks r s'.locks ∧ cacheSem o s.cache r s'.cache

/-! ## How far a fetch has come -/

/-- The body that a response brings, if it is not a redirect that is followed or an error. -/
def responseBody (config : FetchConfig) : Except Bytes HttpResponse → Option Bytes
  | .ok content =>
    if isRedirectStatus content.status ∧ content.header.get (lit "Location") ≠ [] then none
    else (content.data config).toOption
  | .error _ => none

/-- The body that an operation has brought from the upstream. -/
def fetchedBody (config : FetchConfig) : (o : FetchOp) → fetchSignature.Res o → Option Bytes
  | .request _, r => responseBody config r
  | _, _ => none

/-- What a fetch knows of the value of its key. -/
inductive Stage
  /-- Nothing. -/
  | start
  /-- There was none when it looked with the slot in its hands. -/
  | missed
  /-- It has fetched the value and is about to set it. -/
  | won (body : Bytes)
  /-- The value. -/
  | known (body : Bytes)
  deriving DecidableEq

/-- What a fetch in a given role knows when it has found nothing in the cache. -/
def Stage.ofMiss : Role → Stage
  | .holding _ _ => missed
  | _ => start

theorem Stage.ofMiss_eq (g : Role) : ofMiss g = missed ∨ ofMiss g = start := by
  cases g <;> simp [ofMiss]

/-- What a fetch in a given role knows after an operation. -/
def Stage.after (config : FetchConfig) (g : Role) (st : Stage) :
    (o : FetchOp) → fetchSignature.Res o → Stage
  | .cacheGet _, hit => if hit.ok then known hit.val else ofMiss g
  | .cacheSet _ value _, _ => known value
  | .request _, r =>
    match responseBody config r with
    | some body => won body
    | none => st
  | _, _ => st

/-- The operations a fetch may ask for, beyond what its role permits. -/
def Stage.Permits (key : Bytes) (g : Role) (st : Stage) : FetchOp → Prop
  | .cacheGet key' => key' = key ∧ st = start
  | .cacheSet key' value _ => key' = key ∧ st = won value
  | .request _ => st = missed ∧ ∃ lock, g = .holding key lock
  | .sendSlot _ => st = start
  | .drainSlot _ => ∀ body, st ≠ won body
  | _ => True

/-- The cache does not fail. -/
def CacheAnswers : (o : FetchOp) → fetchSignature.Res o → Prop
  | .cacheGet _, hit => hit.err = false
  | _, _ => True

/-- The role of a fetch of the key, and what it knows. -/
def stageGhost (config : FetchConfig) (key : Bytes) : Ghost fetchSignature (Role × Stage) where
  ok g o := g.1.Permits o ∧ g.2.Permits key g.1 o
  next g o r g' := CacheAnswers o r ∧ g' = (g.1.after o r, g.2.after config g.1 o r)
  fork _ _ _ _ := True

/-! ## What a fetch asks for -/

variable {U : Unicode} {L : NetLib} {config : FetchConfig} {key : Bytes} {lock : LockId}

/-- What a fetch knows after a response that is not followed any further. -/
def Stage.ofData (config : FetchConfig) (content : HttpResponse) : Stage :=
  match content.data config with
  | .ok body => won body
  | .error _ => missed

/-- What a fetch knows once its request has ended with a result. -/
def Stage.ofResult : FetchResult → Stage
  | .ok (body, _) => known body
  | .error _ => missed

/-- What a fetch knows after a response to one of its requests. -/
def Stage.ofResponse (config : FetchConfig) : Except Bytes HttpResponse → Stage
  | .ok content =>
    if isRedirectStatus content.status ∧ content.header.get (lit "Location") ≠ [] then missed
    else ofData config content
  | .error _ => missed

theorem Stage.after_request (g : Role) (url : Bytes) (r : Except Bytes HttpResponse) :
    Stage.after config g .missed (.request url) r = .ofResponse config r := by
  cases r with
  | error err => rfl
  | ok content =>
    simp only [after, responseBody, ofResponse]
    split_ifs
    · rfl
    · rw [ofData]
      cases content.data config <;> rfl

theorem walk_do_stage {client : Client} {url : Bytes} :
    (client.do_ L url).Walk (stageGhost config key) (.holding key lock, .missed) fun g r ↦
      g = (.holding key lock, .ofResponse config r) := by
  refine Prog.walk_bind.mpr ⟨⟨trivial, trivial⟩, fun addresses g₁ hnext ↦ ?_⟩
  obtain rfl : g₁ = (.holding key lock, .missed) := hnext.2
  have hseq : (dialSerial L client url addresses none).Seq
      fun o : FetchOp ↦ ∃ address, o = .connect url address :=
    seq_dialSerial (fun a ↦ ⟨a, rfl⟩) addresses none
  have hdial := hseq.walk (γ := stageGhost config key) (g := (.holding key lock, .missed))
    (fun _ ⟨_, ho⟩ ↦ ho ▸ ⟨trivial, trivial⟩) (fun o r g' ho hnext ↦ by
      obtain ⟨address, rfl⟩ := ho
      exact hnext.2)
  refine Prog.walk_bind.mpr (hdial.mono fun g₂ err hg₂ ↦ ?_)
  subst hg₂
  cases err with
  | some err => rfl
  | none =>
    refine ⟨⟨trivial, rfl, lock, rfl⟩, fun r g₃ hnext ↦ ?_⟩
    exact hnext.2.trans (by rw [Stage.after_request]; rfl)

theorem walk_fetchHops_stage (left : ℕ) (hopURL : Bytes) :
    (fetchHops U L config left hopURL).Walk (stageGhost config key) (.holding key lock, .missed)
      fun g r ↦ g = (.holding key lock, match r with
        | .ok content => .ofData config content
        | .error _ => .missed) := by
  induction left generalizing hopURL with
  | zero =>
    rw [fetchHops]
    split
    · rfl
    · refine Prog.walk_bind.mpr (walk_do_stage.mono fun g r hg ↦ ?_)
      subst hg
      split
      · rfl
      · dsimp only [Stage.ofResponse]
        split_ifs with hfinal hredirect hredirect
        · exact absurd hredirect.1 (by simp_all)
        · rfl
        · rfl
        · exact absurd hredirect (by simp_all)
  | succ left ih =>
    rw [fetchHops]
    split
    · rfl
    · refine Prog.walk_bind.mpr (walk_do_stage.mono fun g r hg ↦ ?_)
      subst hg
      split
      · rfl
      · dsimp only [Stage.ofResponse]
        split_ifs with hfinal hredirect hredirect
        · exact absurd hredirect.1 (by simp_all)
        · rfl
        · split
          · rfl
          · split
            · rfl
            · exact ih _
        · exact absurd hredirect (by simp_all)

/-- After the last response the value is set, before anything else is asked for. -/
theorem walk_fetchUpstream_stage (url : Bytes) :
    (fetchUpstream U L config url (some key)).Walk (stageGhost config key)
      (.holding key lock, .missed) fun g r ↦ g = (.holding key lock, .ofResult r) := by
  refine Prog.walk_bind.mpr ((walk_fetchHops_stage _ _).mono fun g r hg ↦ ?_)
  subst hg
  cases r with
  | error err => rfl
  | ok content =>
    cases hdata : content.data config with
    | error err => simp only [Stage.ofData, hdata]; rfl
    | ok data =>
      simp only [Stage.ofData, hdata]
      exact ⟨⟨trivial, rfl, rfl⟩, fun _ g' hnext ↦ hnext.2⟩

/-- What holds of a fetch that has returned. -/
def Returned (g : Role × Stage) (result : FetchResult) : Prop :=
  g.1 = .outside ∧ ∀ body esi, result = .ok (body, esi) → g.2 = .known body

theorem walk_withInflightLock_stage (url : Bytes) :
    (withInflightLock key (fetchUpstream U L config url (some key))).Walk (stageGhost config key)
      (.outside, .start) Returned := by
  refine ⟨⟨rfl, trivial⟩, fun lock g₁ hnext ↦ ?_⟩
  obtain rfl : g₁ = (.waiting key lock, .start) := hnext.2
  have hrelease {st : Stage} {r : FetchResult}
      (hr : ∀ body esi, r = .ok (body, esi) → st = .known body) :
      (Prog.op (S := fetchSignature) (.releaseInflightLock key lock)
        fun _ ↦ (.ret r : Fetch FetchResult)).Walk (stageGhost config key) (.waiting key lock, st)
          Returned :=
    ⟨⟨rfl, trivial⟩, fun _ g' hnext ↦ by
      obtain rfl : g' = (.outside, st) := hnext.2
      exact ⟨rfl, hr⟩⟩
  have hdrain {st : Stage} {r : FetchResult} (hst : ∀ body, st ≠ .won body)
      (hr : ∀ body esi, r = .ok (body, esi) → st = .known body) :
      (Prog.op (S := fetchSignature) (.drainSlot lock) fun _ ↦
        .op (.releaseInflightLock key lock) fun _ ↦ (.ret r : Fetch FetchResult)).Walk
          (stageGhost config key) (.holding key lock, st) Returned := by
    refine ⟨⟨⟨key, rfl⟩, hst⟩, fun _ g' hnext ↦ ?_⟩
    obtain rfl : g' = (.waiting key lock, st) := hnext.2
    exact hrelease hr
  refine ⟨⟨⟨key, rfl⟩, rfl⟩, fun err g₂ hnext ↦ ?_⟩
  cases err with
  | some err =>
    obtain rfl : g₂ = (.waiting key lock, .start) := hnext.2
    exact hrelease (by simp)
  | none =>
    obtain rfl : g₂ = (.holding key lock, .start) := hnext.2
    refine ⟨⟨trivial, trivial⟩, fun err g₃ hnext ↦ ?_⟩
    obtain rfl : g₃ = (.holding key lock, .start) := hnext.2
    cases err with
    | some err => exact hdrain (by simp) (by simp)
    | none =>
      refine ⟨⟨trivial, rfl, rfl⟩, fun hit g₄ hnext ↦ ?_⟩
      obtain rfl : g₄ = (.holding key lock, if hit.ok then .known hit.val else .missed) := hnext.2
      show Prog.Walk _ (if hit.ok then _ else _) _ _
      split_ifs with hok
      · exact hdrain (by simp) (by simp)
      · refine Prog.walk_bind.mpr ((walk_fetchUpstream_stage url).mono fun g r hg ↦ ?_)
        subst hg
        refine hdrain (fun body ↦ ?_) fun body esi hr ↦ ?_
        · cases r <;> simp [Stage.ofResult]
        · subst hr
          rfl

theorem walk_withSemaphore_stage {fetch : Fetch FetchResult}
    (hfetch : fetch.Walk (stageGhost config key) (.outside, .start) Returned) :
    (withSemaphore config fetch).Walk (stageGhost config key) (.outside, .start) Returned := by
  rw [withSemaphore]
  split
  · exact hfetch
  · refine ⟨⟨trivial, trivial⟩, fun err g₁ hnext ↦ ?_⟩
    obtain rfl : g₁ = (.outside, .start) := hnext.2
    cases err with
    | some err => exact ⟨rfl, by simp⟩
    | none =>
      show Prog.Walk _ (fetch.bind _) _ _
      refine Prog.walk_bind.mpr (hfetch.mono fun g r hg ↦ ⟨⟨trivial, trivial⟩, fun _ g' hnext ↦ ?_⟩)
      obtain rfl : g' = g := hnext.2
      exact hg

theorem walk_singleFetchUrlWithContext_stage {requestedURL : Bytes}
    (hkey : ∀ url, urlToFetch U L requestedURL config = .ok url →
      fullCacheKey config url = some key) :
    (singleFetchUrlWithContext U L requestedURL config).Walk (stageGhost config key)
      (.outside, .start) Returned := by
  rw [singleFetchUrlWithContext]
  split_ifs
  · exact ⟨rfl, by simp⟩
  · split
    · exact ⟨rfl, by simp⟩
    · refine walk_withSemaphore_stage ?_
      rw [fetchAdmitted]
      split
      · exact ⟨rfl, by simp⟩
      · rename_i url hurl
        rw [hkey url hurl]
        refine ⟨⟨trivial, rfl, rfl⟩, fun hit g₁ hnext ↦ ?_⟩
        have herr : hit.err = false := hnext.1
        obtain rfl : g₁ = (.outside, if hit.ok then .known hit.val else .start) := hnext.2
        show Prog.Walk _ (if hit.ok && !hit.err then _ else _) _ _
        cases hok : hit.ok with
        | true =>
          simp only [herr, Bool.not_false, Bool.and_self, if_true]
          exact ⟨rfl, by simp⟩
        | false =>
          simp only [Bool.false_and, Bool.false_eq_true, if_false]
          exact walk_withInflightLock_stage url

/-! ## The invariant -/

variable {ι : Type} {σ : Type}

/-- The bodies that have been fetched from the upstream. -/
def fetchedBodies (config : ι → FetchConfig) (tr : List (ι × Event fetchSignature σ)) : List Bytes :=
  tr.filterMap fun e ↦ fetchedBody (config e.1) e.2.op e.2.res

theorem fetchedBodies_snoc (config : ι → FetchConfig) (tr : List (ι × Event fetchSignature σ))
    (e : ι × Event fetchSignature σ) : fetchedBodies config (tr ++ [e]) =
      fetchedBodies config tr ++ (fetchedBody (config e.1) e.2.op e.2.res).toList := by
  rw [fetchedBodies, List.filterMap_append, fetchedBodies]
  cases h : fetchedBody (config e.1) e.2.op e.2.res <;> simp [h]

/-- The body that has been fetched, if any, is in the cache or about to be set, and the fetches
know what is true. -/
structure DedupInv (key : Bytes) (bodies : List Bytes) (gs : ι → Role × Stage) (s : CachedLocks) :
    Prop where
  lock : LockInv (fun i ↦ (gs i).1) s.locks
  known : ∀ {i body}, (gs i).2 = .known body → s.cache key = some body
  missed : ∀ {i lock}, gs i = (.holding key lock, .missed) → s.cache key = none
  won : ∀ {i body}, (gs i).2 = .won body →
    (∃ lock, (gs i).1 = .holding key lock) ∧ s.cache key = none ∧ bodies = [body]
  absent : s.cache key = none → (∀ i body, (gs i).2 ≠ .won body) → bodies = []
  present : ∀ {body}, s.cache key = some body → bodies = [body]

namespace DedupInv

variable {bodies : List Bytes} {gs : ι → Role × Stage} {s : CachedLocks} {i j : ι}

/-- One fetch at a time holds the slot of the key. -/
theorem holder (h : DedupInv key bodies gs s) {lock lock' : LockId}
    (hi : (gs i).1 = .holding key lock) (hj : (gs j).1 = .holding key lock') : i = j := by
  have hlock : s.locks.locks key = some lock := h.lock.entry (by rw [hi]; rfl)
  have hlock' : s.locks.locks key = some lock' := h.lock.entry (by rw [hj]; rfl)
  obtain rfl := Option.some.inj (hlock.symm.trans hlock')
  exact h.lock.holder hi hj

theorem append_none (h : DedupInv key bodies gs s) :
    DedupInv key (bodies ++ (none : Option Bytes).toList) gs s := by
  rwa [Option.toList_none, List.append_nil]

variable [DecidableEq ι]

theorem fst_update (gs : ι → Role × Stage) (i : ι) (g : Role × Stage) :
    (fun j ↦ (Function.update gs i g j).1) = Function.update (fun j ↦ (gs j).1) i g.1 := by
  funext j
  by_cases hj : j = i
  · subst hj
    simp
  · simp [hj]

/-- An operation that is not about the value of the key. -/
theorem of_stage (h : DedupInv key bodies gs s) {g : Role} {locks : Locks}
    (hlock : LockInv (Function.update (fun j ↦ (gs j).1) i g) locks)
    (hmissed : ∀ lock, (gs i).2 = .missed → g = .holding key lock → (gs i).1 = g)
    (hwon : ∀ body, (gs i).2 = .won body → (gs i).1 = g) :
    DedupInv key bodies (Function.update gs i (g, (gs i).2)) ⟨locks, s.cache⟩ := by
  have hsnd (j : ι) : (Function.update gs i (g, (gs i).2) j).2 = (gs j).2 := by
    by_cases hj : j = i
    · subst hj
      simp
    · simp [hj]
  refine ⟨by rwa [fst_update], fun hj ↦ h.known (by rwa [hsnd] at hj), fun {j lock} hj ↦ ?_,
    fun {j body} hj ↦ ?_, fun hnone hj ↦ h.absent hnone fun j body ↦ by simpa only [hsnd] using hj j body,
    h.present⟩
  · by_cases hji : j = i
    · subst hji
      rw [Function.update_self] at hj
      obtain ⟨rfl, hst⟩ := Prod.mk.inj hj
      exact h.missed (Prod.ext (hmissed lock hst rfl) hst)
    · rw [Function.update_of_ne hji] at hj
      exact h.missed hj
  · rw [hsnd] at hj
    obtain ⟨hholding, hrest⟩ := h.won hj
    refine ⟨?_, hrest⟩
    by_cases hji : j = i
    · subst hji
      rw [Function.update_self, ← hwon body hj]
      exact hholding
    · rw [Function.update_of_ne hji]
      exact hholding

/-- A look into the cache. -/
theorem cacheGet (h : DedupInv key bodies gs s) {hit : CacheAnswer} (hstart : (gs i).2 = .start)
    (hsome : hit.ok = true → s.cache key = some hit.val)
    (hnone : hit.ok = false → s.cache key = none) (config : FetchConfig) :
    DedupInv key bodies (Function.update gs i
      ((gs i).1, .after config (gs i).1 .start (.cacheGet key) hit)) s := by
  have hst {body : Bytes} : Stage.after config (gs i).1 .start (.cacheGet key) hit ≠ .won body := by
    rw [Stage.after]
    split_ifs
    · simp
    · rcases Stage.ofMiss_eq (gs i).1 with hmiss | hmiss <;> simp [hmiss]
  refine ⟨?_, fun {j body} hj ↦ ?_, fun {j lock} hj ↦ ?_, fun {j body} hj ↦ ?_, fun hcache hj ↦ ?_,
    h.present⟩
  · rw [fst_update, Function.update_eq_self]
    exact h.lock
  · by_cases hji : j = i
    · subst hji
      rw [Function.update_self] at hj
      dsimp only [Stage.after] at hj
      split_ifs at hj with hok
      · obtain rfl := Stage.known.inj hj
        exact hsome hok
      · rcases Stage.ofMiss_eq (gs j).1 with hmiss | hmiss <;> simp [hmiss] at hj
    · rw [Function.update_of_ne hji] at hj
      exact h.known hj
  · by_cases hji : j = i
    · subst hji
      rw [Function.update_self] at hj
      obtain ⟨-, hmissed⟩ := Prod.mk.inj hj
      refine hnone (Bool.of_not_eq_true fun hok ↦ ?_)
      simp [Stage.after, hok] at hmissed
    · rw [Function.update_of_ne hji] at hj
      exact h.missed hj
  · by_cases hji : j = i
    · subst hji
      rw [Function.update_self] at hj
      exact absurd hj hst
    · rw [Function.update_of_ne hji] at hj ⊢
      exact h.won hj
  · refine h.absent hcache fun j body hwon ↦ ?_
    by_cases hji : j = i
    · subst hji
      rw [hstart] at hwon
      cases hwon
    · exact hj j body (by rwa [Function.update_of_ne hji])

/-- The response that brings the body. -/
theorem fetched (h : DedupInv key bodies gs s) {lock : LockId}
    (hi : gs i = (.holding key lock, .missed)) (body : Bytes) :
    DedupInv key (bodies ++ [body]) (Function.update gs i ((gs i).1, .won body)) s := by
  have hcache := h.missed hi
  have hother {j : ι} (hji : j ≠ i) {body' : Bytes} : (gs j).2 ≠ .won body' := fun hj ↦ by
    obtain ⟨⟨lock', hholding⟩, -⟩ := h.won hj
    exact hji (h.holder hholding (congrArg Prod.fst hi))
  have hempty : bodies = [] := h.absent hcache fun j body' ↦ by
    by_cases hji : j = i
    · subst hji
      simp [hi]
    · exact hother hji
  subst hempty
  refine ⟨?_, fun {j body'} hj ↦ ?_, fun {j lock'} _ ↦ hcache, fun {j body'} hj ↦ ?_, fun _ hj ↦ ?_,
    fun hsome ↦ by simp [hcache] at hsome⟩
  · rw [fst_update, Function.update_eq_self]
    exact h.lock
  · by_cases hji : j = i
    · subst hji
      simp at hj
    · rw [Function.update_of_ne hji] at hj
      exact h.known hj
  · by_cases hji : j = i
    · subst hji
      rw [Function.update_self] at hj ⊢
      obtain rfl := Stage.won.inj hj
      exact ⟨⟨lock, congrArg Prod.fst hi⟩, hcache, rfl⟩
    · rw [Function.update_of_ne hji] at hj
      exact absurd hj (hother hji)
  · exact absurd (by simp) (hj i body)

/-- The body is set. -/
theorem cacheSet (h : DedupInv key bodies gs s) {body : Bytes} (hi : (gs i).2 = .won body) :
    DedupInv key bodies (Function.update gs i ((gs i).1, .known body))
      ⟨s.locks, Function.update s.cache key (some body)⟩ := by
  obtain ⟨⟨lock, hholding⟩, hcache, rfl⟩ := h.won hi
  have hother {j : ι} {lock' : LockId} (hji : j ≠ i) : (gs j).1 ≠ .holding key lock' :=
    fun hj ↦ hji (h.holder hj hholding)
  refine ⟨?_, fun {j body'} hj ↦ ?_, fun {j lock'} hj ↦ ?_, fun {j body'} hj ↦ ?_, fun hnone _ ↦ ?_,
    fun hsome ↦ ?_⟩
  · rw [fst_update, Function.update_eq_self]
    exact h.lock
  · by_cases hji : j = i
    · subst hji
      rw [Function.update_self] at hj
      obtain rfl := Stage.known.inj hj
      exact Function.update_self ..
    · rw [Function.update_of_ne hji] at hj
      simp [h.known hj] at hcache
  · by_cases hji : j = i
    · subst hji
      simp at hj
    · rw [Function.update_of_ne hji] at hj
      exact absurd (congrArg Prod.fst hj) (hother hji)
  · by_cases hji : j = i
    · subst hji
      simp at hj
    · rw [Function.update_of_ne hji] at hj
      obtain ⟨⟨lock', hj⟩, -⟩ := h.won hj
      exact absurd hj (hother hji)
  · simp at hnone
  · have hself : Function.update s.cache key (some body) key = some body := Function.update_self ..
    rw [Option.some.inj (hself.symm.trans hsome)]

/-- **One step.** Whatever the key's fetches ask for and are answered, they keep the invariant. -/
theorem step (h : DedupInv key bodies gs s) {o : FetchOp} {r : fetchSignature.Res o}
    {s' : CachedLocks} (config : FetchConfig) (hok : (stageGhost config key).ok (gs i) o)
    (hsem : CachedLocks.Sem o s r s') :
    DedupInv key (bodies ++ (fetchedBody config o r).toList)
      (Function.update gs i ((gs i).1.after o r, (gs i).2.after config (gs i).1 o r)) s' := by
  obtain ⟨hrole, hstage⟩ := hok
  obtain ⟨hlocks, hcache⟩ := hsem
  have hlock := h.lock.step hrole hlocks
  obtain ⟨locks', cache'⟩ := s'
  dsimp only at hlocks hcache hlock
  cases o with
  | cacheGet key' =>
    obtain ⟨rfl, hstart⟩ : key' = key ∧ (gs i).2 = .start := hstage
    obtain ⟨rfl, -, hsome, hnone⟩ := hcache
    obtain rfl : locks' = s.locks := hlocks
    rw [hstart]
    exact (h.cacheGet hstart hsome hnone config).append_none
  | cacheSet key' value ttl =>
    obtain ⟨rfl, hwon⟩ : key' = key ∧ (gs i).2 = .won value := hstage
    obtain rfl : cache' = _ := hcache
    obtain rfl : locks' = s.locks := hlocks
    exact (h.cacheSet hwon).append_none
  | request url =>
    obtain ⟨hmissed, lock, hholding⟩ : (gs i).2 = .missed ∧ ∃ lock, (gs i).1 = .holding key lock :=
      hstage
    obtain rfl : cache' = s.cache := hcache
    obtain rfl : locks' = s.locks := hlocks
    dsimp only [Stage.after, fetchedBody]
    cases responseBody config r with
    | some body => exact h.fetched (Prod.ext hholding hmissed) body
    | none => exact (h.of_stage hlock (fun _ _ _ ↦ rfl) fun _ _ ↦ rfl).append_none
  | sendSlot lock =>
    obtain rfl : cache' = s.cache := hcache
    have hstart : (gs i).2 = .start := hstage
    exact (h.of_stage hlock (by simp [hstart]) (by simp [hstart])).append_none
  | drainSlot lock =>
    obtain rfl : cache' = s.cache := hcache
    obtain ⟨key', hi⟩ := hrole
    have hwon : ∀ body, (gs i).2 ≠ .won body := hstage
    exact (h.of_stage hlock (fun _ _ hholding ↦ by simp [Role.after, hi] at hholding)
      fun body hbody ↦ absurd hbody (hwon body)).append_none
  | acquireInflightLock key' =>
    obtain rfl : cache' = s.cache := hcache
    have hi : (gs i).1 = .outside := hrole
    refine (h.of_stage hlock (fun _ _ hholding ↦ by cases hholding) fun body hbody ↦ ?_).append_none
    obtain ⟨⟨lock, hholding⟩, -⟩ := h.won hbody
    rw [hi] at hholding
    cases hholding
  | releaseInflightLock key' lock =>
    obtain rfl : cache' = s.cache := hcache
    have hi : (gs i).1 = .waiting key' lock := hrole
    refine (h.of_stage hlock (fun _ _ hholding ↦ by cases hholding) fun body hbody ↦ ?_).append_none
    obtain ⟨⟨lock, hholding⟩, -⟩ := h.won hbody
    rw [hi] at hholding
    cases hholding
  | _ =>
    obtain rfl : cache' = s.cache := hcache
    exact (h.of_stage hlock (fun _ _ _ ↦ rfl) fun _ _ ↦ rfl).append_none

end DedupInv

/-! ## Runs -/

variable [DecidableEq ι] {config : ι → FetchConfig} {url : ι → Bytes}

/-- The keys of all fetches are `key`. -/
def SameKey (U : Unicode) (L : NetLib) (url : ι → Bytes) (config : ι → FetchConfig) (key : Bytes) :
    Prop :=
  ∀ i u, urlToFetch U L (url i) (config i) = .ok u → fullCacheKey (config i) u = some key

/-- **One fetch for all.** However the fetches of a key interleave, at most one of them gets a body
from the upstream, and all that succeed return that body. -/
theorem fetchedBodies_of_run (hkey : SameKey U L url config key) {cache : Bytes → Option Bytes}
    (hcache : cache key = none) {tr : List (ι × Event fetchSignature CachedLocks)}
    {q : ι → Fetch FetchResult} {t : CachedLocks}
    (h : PoolRun CachedLocks.Sem (fun i ↦ singleFetchUrlWithContext U L (url i) (config i))
      ⟨.initial, cache⟩ tr q t) :
    (fetchedBodies config tr).length ≤ 1 ∧
      ∀ i body esi, q i = .ret (.ok (body, esi)) → fetchedBodies config tr = [body] := by
  obtain ⟨gs, hwalk, hinv⟩ := h.ghost (γ := fun i ↦ stageGhost (config i) key)
    (I := fun tr gs s ↦ DedupInv key (fetchedBodies config tr) gs s)
    (fun tr gs s i o r s' hI hok hsem ↦ by
      refine ⟨_, ⟨?_, rfl⟩, ?_⟩
      · cases o with
        | cacheGet key' => exact hsem.2.2.1
        | _ => trivial
      · rw [fetchedBodies_snoc]
        exact hI.step (config i) hok hsem)
    (fun i ↦ walk_singleFetchUrlWithContext_stage (hkey i))
    (show DedupInv key (fetchedBodies config []) _ _ from
      ⟨lockInv_initial, by simp, by simp, by simp, fun _ _ ↦ rfl, by simp [hcache]⟩)
  rw [List.nil_append] at hinv
  refine ⟨?_, fun i body esi hq ↦ ?_⟩
  · cases hkey : t.cache key with
    | some body => simp [hinv.present hkey]
    | none =>
      by_cases hwon : ∃ i body, (gs i).2 = .won body
      · obtain ⟨i, body, hi⟩ := hwon
        simp [(hinv.won hi).2.2]
      · push Not at hwon
        simp [hinv.absent hkey hwon]
  · have hi := hwalk i
    rw [hq] at hi
    exact hinv.present (hinv.known (hi.2 body esi rfl))

/-! ## Two fetches that share -/

/-- The answers of a cache and an upstream with one page. -/
def CachedLocks.answer (o : FetchOp) (s : CachedLocks) :
    Option (fetchSignature.Res o × CachedLocks) :=
  match o with
  | .cacheGet key => some (⟨(s.cache key).getD [], (s.cache key).isSome, false⟩, s)
  | .cacheSet key value _ => some ((), ⟨s.locks, Function.update s.cache key (some value)⟩)
  | o => (Locks.answer o s.locks).map fun out ↦ (out.1, ⟨out.2, s.cache⟩)

theorem CachedLocks.answer_sound (o : FetchOp) (s : CachedLocks) (r : fetchSignature.Res o)
    (s' : CachedLocks) (h : CachedLocks.answer o s = some (r, s')) : CachedLocks.Sem o s r s' := by
  have hlocks {o : FetchOp} {r : fetchSignature.Res o}
      (h : (Locks.answer o s.locks).map (fun out ↦ (out.1, CachedLocks.mk out.2 s.cache)) =
        some (r, s')) : Locks.Sem o s.locks r s'.locks ∧ s'.cache = s.cache := by
    obtain ⟨⟨r', locks⟩, hanswer, hout⟩ := Option.map_eq_some_iff.mp h
    obtain ⟨rfl, rfl⟩ := Prod.mk.inj hout
    exact ⟨Locks.answer_sound _ _ _ _ hanswer, rfl⟩
  cases o with
  | cacheGet key =>
    cases h
    cases hkey : s.cache key <;> exact ⟨rfl, rfl, rfl, by simp [hkey], by simp [hkey]⟩
  | cacheSet key value ttl =>
    cases h
    exact ⟨rfl, rfl⟩
  | _ => exact hlocks h

/-- Two fetches of one URL, the second of which waits for the first one. -/
def sharedFetch : List (Bool × Event fetchSignature CachedLocks) × (Bool → Fetch FetchResult) ×
    CachedLocks :=
  poolExec CachedLocks.answer (List.replicate 4 false ++ List.replicate 2 true ++
      List.replicate 7 false ++ List.replicate 5 true)
    (fun _ : Bool ↦ singleFetchUrlWithContext .ascii .simple (lit "http://a/1")
      { timeout := 1000, cache := true }) ⟨.initial, fun _ ↦ none⟩

theorem fetchedBodies_sharedFetch :
    (∀ i, ((sharedFetch.2.1 i).value?.bind Except.toOption).map Prod.fst = some (lit "text")) ∧
      (fetchedBodies (fun _ ↦ { timeout := 1000, cache := true }) sharedFetch.1).length ≤ 1 ∧
        ∀ i body esi, sharedFetch.2.1 i = .ret (.ok (body, esi)) →
          fetchedBodies (fun _ ↦ { timeout := 1000, cache := true }) sharedFetch.1 = [body] := by
  have hurl : urlToFetch .ascii .simple (lit "http://a/1") { timeout := 1000, cache := true } =
      .ok (lit "http://a/1") := by decide +kernel
  have hkey : SameKey .ascii .simple (fun _ : Bool ↦ lit "http://a/1")
      (fun _ ↦ { timeout := 1000, cache := true })
      ((fullCacheKey { timeout := 1000, cache := true } (lit "http://a/1")).getD []) := by
    intro _ u hu
    rw [hurl] at hu
    cases hu
    rfl
  exact ⟨by decide +kernel,
    fetchedBodies_of_run hkey rfl (poolExec_run CachedLocks.answer_sound _ _ _)⟩

end GoMesi
