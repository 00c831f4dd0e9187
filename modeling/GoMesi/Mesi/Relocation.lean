import GoMesi.Mesi.RenderTwin
import GoMesi.Mesi.World

/-!
# A render at another place

What a render does does not depend on where it stands in the tree of renders, nor on what its
fetches are told as long as they end the same way. A `Relocation` moves places, and rewrites the
configurations of fetches. The moved render has the same outputs (`Relocation.output_iff`).

There is no shared state but what a `World` has. What is named after a place there is moved with it:
the maps of the vars blocks, the fetches, and the semaphores.
-/

namespace GoMesi

open Strings Interleaving

/-- The same semaphore, with the places moved. -/
def Semaphore.rename (place : Path → Path) (s : Semaphore) : Semaphore :=
  { s with render := place s.render }

/-- The same fetch, with the places moved. -/
def FetchId.rename (place : Path → Path) (id : FetchId) : FetchId :=
  { id with element := place id.element }

theorem EsiParserConfig.forRender_eq (P : Platform) (c : EsiParserConfig) (render : Path) :
    c.forRender P render =
      { c with
        toFetchConfig :=
          if c.maxConcurrentRequests > 0 then
            { c.toFetchConfig with
              requestSemaphore := some ⟨render, c.maxConcurrentRequests.toNat⟩ }
          else c.toFetchConfig
        maxConcurrentRequests := max 0 c.maxConcurrentRequests
        maxWorkers := if c.maxWorkers ≤ 0 then P.numCPU * 4 else c.maxWorkers } := by
  rcases lt_or_ge c.maxConcurrentRequests 0 with hneg | hnonneg
  · rw [forRender, if_pos hneg, if_neg hneg.le.not_gt, max_eq_left hneg.le, if_neg (lt_irrefl 0),
      normalizeMaxWorkers]
    split_ifs <;> rfl
  · rw [forRender, if_neg hnonneg.not_gt, max_eq_right hnonneg]
    by_cases hpos : c.maxConcurrentRequests > 0
    · rw [if_pos hpos, if_pos hpos, normalizeMaxWorkers]
      split_ifs <;> rfl
    · rw [if_neg hpos, if_neg hpos, normalizeMaxWorkers]
      split_ifs <;> rfl

/-- How places are moved and configurations rewritten. -/
structure Relocation (U : Unicode) (L : NetLib) (A : (o : FetchOp) → fetchSignature.Res o → Prop) where
  place : Path → Path
  /-- The configuration of a fetch on the other side. -/
  config : FetchConfig → FetchConfig
  /-- The configurations this is about. -/
  Kept : FetchConfig → Prop
  place_append : ∀ p i, place (p ++ [i]) = place p ++ [i]
  place_injective : Function.Injective place
  timeout : ∀ c timeout, config { c with timeout } = { config c with timeout }
  semaphore : ∀ c s, config { c with requestSemaphore := some s } =
    { config c with requestSemaphore := some (s.rename place) }
  config_timeout : ∀ c, (config c).timeout = c.timeout
  config_maxResponseSize : ∀ c, (config c).maxResponseSize = c.maxResponseSize
  config_semaphore : ∀ c, (config c).requestSemaphore = c.requestSemaphore.map (·.rename place)
  kept_timeout : ∀ {c} timeout, Kept c → Kept { c with timeout }
  kept_semaphore : ∀ {c} s, Kept c → Kept { c with requestSemaphore := some s }
  /-- The fetches end the same way, if they are admitted. -/
  finish : ∀ {c} url result, Kept c →
    ((singleFetchUrlWithContext U L url (config c)).Ends (World.admitted A) result ↔
      (singleFetchUrlWithContext U L url c).Ends (World.admitted A) result)
  /-- And if they are turned away. -/
  refuse : ∀ {c} url result, Kept c →
    ((singleFetchUrlWithContext U L url (config c)).Ends World.refused result ↔
      (singleFetchUrlWithContext U L url c).Ends World.refused result)

theorem MapRef.rename_injective {place : Path → Path} (h : Function.Injective place) :
    Function.Injective (MapRef.rename place) := by
  rintro (- | p) (- | q) heq
  · rfl
  · exact nomatch heq
  · exact nomatch heq
  · rw [h (MapRef.made.inj heq)]

theorem Semaphore.rename_injective {place : Path → Path} (h : Function.Injective place) :
    Function.Injective (Semaphore.rename place) := by
  rintro ⟨p, n⟩ ⟨q, m⟩ heq
  obtain ⟨hp, hn⟩ := Semaphore.mk.inj heq
  exact congrArg₂ Semaphore.mk (h hp) hn

theorem FetchId.rename_injective {place : Path → Path} (h : Function.Injective place) :
    Function.Injective (FetchId.rename place) := by
  rintro ⟨p, n⟩ ⟨q, m⟩ heq
  obtain ⟨hp, hn⟩ := FetchId.mk.inj heq
  exact congrArg₂ FetchId.mk (h hp) hn

namespace Relocation

variable {U : Unicode} {L : NetLib} {A : (o : FetchOp) → fetchSignature.Res o → Prop}
  (R : Relocation U L A)

/-! ## Operations -/

/-- The configuration of a render on the other side. -/
def parserConfig (c : EsiParserConfig) : EsiParserConfig :=
  { c with toFetchConfig := R.config c.toFetchConfig, vars := c.vars.map (·.rename R.place) }

/-- The request of a fetch on the other side. -/
def request (r : FetchRequest) : FetchRequest := { r with config := R.config r.config }

/-- The operations correspond to each other. How a render was called, and at which token of it
something is done, makes no difference. -/
inductive Moved : RenderOp → RenderOp → Prop
  | enter (entry entry' timeout vars) :
    Moved (.enter entry timeout vars) (.enter entry' timeout (vars.map (·.rename R.place)))
  | now (t) : Moved (.now t) (.now t)
  | since (start budget attr) : Moved (.since start budget attr) (.since start budget attr)
  | lookup (site site' vars key) :
    Moved (.lookup site vars key) (.lookup site' (vars.map (·.rename R.place)) key)
  | range (vars) : Moved (.range vars) (.range vars)
  | newMap (render i bindings) :
    Moved (.newMap ⟨render, i⟩ bindings) (.newMap ⟨R.place render, i⟩ bindings)
  | assign (job job' site site' m key value) :
    Moved (.assign job site m key value) (.assign job' site' (m.rename R.place) key value)
  | intn (element n) : Moved (.intn element n) (.intn (R.place element) n)
  | spawn (id request t) (h : R.Kept request.config) :
    Moved (.spawn id request t) (.spawn (id.rename R.place) (R.request request) t)
  | wait (id) : Moved (.wait id) (.wait (id.rename R.place))
  | select (element slots) : Moved (.select element slots) (.select (R.place element) slots)
  | collect (n) : Moved (.collect n) (.collect n)

/-- Operations that correspond to each other, with the same answers. -/
def matching : Matching renderSignature Bytes where
  op := R.Moved
  res _ _ r r' := HEq r r'
  val := Eq

/-! ## Worlds -/

/-- A fetch on the other side. -/
def fetch (f : FetchState) : FetchState :=
  ⟨f.id.rename R.place, R.request f.request, f.phase⟩

/-- The other world is this one with the places moved. -/
structure Worlds (s t : World) : Prop where
  maps : ∀ m, t.maps (m.rename R.place) = s.maps m
  clock : t.clock = s.clock
  cancelled : t.cancelled = s.cancelled
  fetches : t.fetches = s.fetches.map R.fetch
  kept : ∀ f ∈ s.fetches, R.Kept f.request.config

variable {R} {s t : World}

theorem worlds_initial (vars : Bytes → Option Bytes) :
    R.Worlds (World.initial vars) (World.initial vars) where
  maps m := by cases m <;> rfl
  clock := rfl
  cancelled := rfl
  fetches := rfl
  kept := by simp [World.initial]

namespace Worlds

variable (h : R.Worlds s t)

include h

theorem visible (vars : Option MapRef) (key : Bytes) :
    t.visible (vars.map (·.rename R.place)) key = s.visible vars key := by
  cases vars with
  | none => rfl
  | some m => exact congrFun (h.maps m) key

theorem setMap (m : MapRef) (content : Bytes → Option Bytes) :
    R.Worlds (s.setMap m content) (t.setMap (m.rename R.place) content) where
  maps m' := by
    rw [World.maps_setMap, World.maps_setMap]
    by_cases hm : m' = m
    · rw [hm, Function.update_self, Function.update_self]
    · have hm' : m'.rename R.place ≠ m.rename R.place :=
        fun heq ↦ hm (MapRef.rename_injective R.place_injective heq)
      rw [Function.update_of_ne hm, Function.update_of_ne hm', h.maps]
  clock := h.clock
  cancelled := h.cancelled
  fetches := h.fetches
  kept := h.kept

theorem assign (m : MapRef) (key value : Bytes) :
    R.Worlds (s.assign m key value) (t.assign (m.rename R.place) key value) := by
  rw [World.assign, World.assign, h.maps]
  exact h.setMap m _

theorem addFetch (id : FetchId) {r : FetchRequest} (hr : R.Kept r.config) :
    R.Worlds (s.addFetch ⟨id, r, .queued⟩)
      (t.addFetch ⟨id.rename R.place, R.request r, .queued⟩) where
  maps := h.maps
  clock := h.clock
  cancelled := h.cancelled
  fetches := by
    rw [World.fetches_addFetch, World.fetches_addFetch, h.fetches]
    rfl
  kept f hf := by
    rcases List.mem_cons.mp hf with rfl | hf
    · exact hr
    · exact h.kept f hf

theorem lookup (id : FetchId) : t.lookup (id.rename R.place) = (s.lookup id).map R.fetch := by
  rw [World.lookup, World.lookup, h.fetches, List.find?_map]
  congr 2
  funext f
  exact decide_eq_decide.mpr (FetchId.rename_injective R.place_injective).eq_iff

theorem result (id : FetchId) (r : FetchResult) :
    t.result (id.rename R.place) r ↔ s.result id r := by
  rw [World.result, World.result, h.lookup]
  constructor
  · rintro ⟨f, hf, hphase⟩
    obtain ⟨f', hf', rfl⟩ := Option.map_eq_some_iff.mp hf
    exact ⟨f', hf', hphase⟩
  · rintro ⟨f, hf, hphase⟩
    exact ⟨R.fetch f, Option.map_eq_some_iff.mpr ⟨f, hf, rfl⟩, hphase⟩

theorem hasSlot (s' : Option Semaphore) :
    t.hasSlot (s'.map (·.rename R.place)) = s.hasSlot s' := by
  cases s' with
  | none => rfl
  | some sem =>
    have hinFlight : t.inFlight = s.inFlight.map R.fetch := by
      rw [World.inFlight, World.inFlight, h.fetches, List.filter_map]
      rfl
    have hsame (f : FetchState) : (R.fetch f).request.config.requestSemaphore =
        some (sem.rename R.place) ↔ f.request.config.requestSemaphore = some sem := by
      have hsem : (R.fetch f).request.config.requestSemaphore =
          f.request.config.requestSemaphore.map (·.rename R.place) := R.config_semaphore _
      rw [hsem]
      exact (Option.map_injective (Semaphore.rename_injective R.place_injective)).eq_iff
        (b := some sem)
    have hlength : (t.inFlight.filter
        (·.request.config.requestSemaphore = some (sem.rename R.place))).length =
        (s.inFlight.filter (·.request.config.requestSemaphore = some sem)).length := by
      rw [hinFlight, List.filter_map, List.length_map]
      exact congrArg _ (List.filter_congr fun f _ ↦ decide_eq_decide.mpr (hsame f))
    exact decide_eq_decide.mpr (hlength ▸ Iff.rfl)

omit h in
theorem admissible (r : FetchRequest) : (R.request r).Admissible ↔ r.Admissible := by
  rw [FetchRequest.Admissible, FetchRequest.Admissible, request, R.config_timeout,
    R.config_maxResponseSize]

/-- A fetch gets on, in both worlds. -/
theorem setPhase {pre post : List FetchState} {f : FetchState} (hs : s.fetches = pre ++ f :: post)
    (phase : Phase) :
    t.fetches = pre.map R.fetch ++ R.fetch f :: post.map R.fetch ∧
      R.Worlds { s with fetches := pre ++ { f with phase } :: post }
        { t with fetches := pre.map R.fetch ++ { R.fetch f with phase } :: post.map R.fetch } := by
  have hkept := h.kept
  rw [hs] at hkept
  refine ⟨by rw [h.fetches, hs, List.map_append, List.map_cons], h.maps, h.clock, h.cancelled, ?_,
    fun f' hf' ↦ ?_⟩
  · rw [List.map_append, List.map_cons]
    rfl
  · simp only [List.mem_append, List.mem_cons] at hf' hkept
    rcases hf' with hf' | rfl | hf'
    · exact hkept f' (.inl hf')
    · exact hkept f (.inr (.inl rfl))
    · exact hkept f' (.inr (.inr hf'))

end Worlds

/-- What an operation is answered and what it does, in both worlds. -/
theorem own_iff {o o' : RenderOp} (hZ : R.Worlds s t) (ho : R.Moved o o') :
    ∃ (hres : renderSignature.Res o' = renderSignature.Res o) (ok : renderSignature.Res o → Prop)
      (s₁ t₁ : World), R.Worlds s₁ t₁ ∧ (∀ r s', World.Sem o s r s' ↔ ok r ∧ s' = s₁) ∧
        ∀ r' t', World.Sem o' t r' t' ↔ ok (cast hres r') ∧ t' = t₁ := by
  cases ho with
  | enter entry entry' timeout vars =>
    refine ⟨rfl, (· = s.clock), s, t, hZ, fun r s' ↦ Iff.rfl, fun r t' ↦ ?_⟩
    rw [← hZ.clock]
    exact Iff.rfl
  | now _ =>
    refine ⟨rfl, (· = s.clock), s, t, hZ, fun r s' ↦ Iff.rfl, fun r t' ↦ ?_⟩
    rw [← hZ.clock]
    exact Iff.rfl
  | since _ _ _ =>
    refine ⟨rfl, (· = s.clock), s, t, hZ, fun r s' ↦ Iff.rfl, fun r t' ↦ ?_⟩
    rw [← hZ.clock]
    exact Iff.rfl
  | lookup site site' vars key =>
    refine ⟨rfl, (· = s.visible vars key), s, t, hZ, fun r s' ↦ Iff.rfl, fun r t' ↦ ?_⟩
    rw [← hZ.visible vars key]
    exact Iff.rfl
  | range vars =>
    exact ⟨rfl, fun _ ↦ True, s, t, hZ, fun r s' ↦ (and_iff_right trivial).symm,
      fun r t' ↦ (and_iff_right trivial).symm⟩
  | newMap render i bindings =>
    exact ⟨rfl, fun _ ↦ True, _, _, hZ.setMap (.made render) (bindings.lookup ·),
      fun r s' ↦ (and_iff_right trivial).symm, fun r t' ↦ (and_iff_right trivial).symm⟩
  | assign job job' site site' m key value =>
    exact ⟨rfl, fun _ ↦ True, _, _, hZ.assign m key value,
      fun r s' ↦ (and_iff_right trivial).symm, fun r t' ↦ (and_iff_right trivial).symm⟩
  | intn element n =>
    exact ⟨rfl, (· < n), s, t, hZ, fun r s' ↦ Iff.rfl, fun r t' ↦ Iff.rfl⟩
  | spawn id request t' hkept =>
    exact ⟨rfl, fun _ ↦ True, _, _, hZ.addFetch id hkept,
      fun r s' ↦ (and_iff_right trivial).symm, fun r t' ↦ (and_iff_right trivial).symm⟩
  | wait id =>
    exact ⟨rfl, s.result id, s, t, hZ, fun r s' ↦ Iff.rfl,
      fun r t' ↦ and_congr_left fun _ ↦ hZ.result id r⟩
  | select element slots =>
    refine ⟨rfl, fun r ↦ (∃ slot ∈ slots, ∃ result, s.result ⟨element, slot⟩ result ∧
      r = .ok (slot, result)) ∨ (s.cancelled = true ∧ ∃ err, r = .error err), s, t, hZ,
      fun r s' ↦ Iff.rfl, fun r t' ↦ ?_⟩
    rw [← hZ.cancelled]
    refine and_congr_left fun _ ↦ or_congr_left ?_
    exact exists_congr fun slot ↦ and_congr_right fun _ ↦ exists_congr fun result ↦
      and_congr_left fun _ ↦ hZ.result ⟨element, slot⟩ result
  | collect n =>
    refine ⟨rfl, fun r ↦ s.cancelled = true ∨ r.1.length = n, s, t, hZ, fun r s' ↦ Iff.rfl,
      fun r t' ↦ ?_⟩
    rw [← hZ.cancelled]
    exact Iff.rfl

/-! ## The moves of the world -/

/-- What this world can do by itself the other one can do as well. -/
theorem env (hZ : R.Worlds s t) {s' : World} (he : World.Env U L A s s') :
    ∃ t', World.Env U L A t t' ∧ R.Worlds s' t' := by
  cases he with
  | tick now hnow =>
    exact ⟨_, .tick now (hZ.clock ▸ hnow), hZ.maps, rfl, hZ.cancelled, hZ.fetches, hZ.kept⟩
  | cancel => exact ⟨_, .cancel, hZ.maps, hZ.clock, rfl, hZ.fetches, hZ.kept⟩
  | @start pre post f hs hphase hadm hslot =>
    obtain ⟨ht, hZ'⟩ := hZ.setPhase hs .inFlight
    refine ⟨_, .start ht hphase ((Worlds.admissible f.request).mpr hadm) ?_, hZ'⟩
    exact (R.config_semaphore f.request.config ▸ hZ.hasSlot _).trans hslot
  | @finish pre post f result hs hphase hresult =>
    obtain ⟨ht, hZ'⟩ := hZ.setPhase hs (.done result)
    have hkept : R.Kept f.request.config := hZ.kept f (by simp [hs])
    exact ⟨_, .finish result ht hphase ((R.finish _ _ hkept).mpr hresult), hZ'⟩
  | @refuse pre post f result hs hphase hresult =>
    obtain ⟨ht, hZ'⟩ := hZ.setPhase hs (.done result)
    have hkept : R.Kept f.request.config := hZ.kept f (by simp [hs])
    exact ⟨_, .refuse result ht hphase ((R.refuse _ _ hkept).mpr hresult), hZ'⟩

/-- The fetches of the other world are those of this one. -/
theorem Worlds.split (h : R.Worlds s t) {pre post : List FetchState} {f : FetchState}
    (ht : t.fetches = pre ++ f :: post) :
    ∃ pre₀ f₀ post₀, s.fetches = pre₀ ++ f₀ :: post₀ ∧ pre = pre₀.map R.fetch ∧ f = R.fetch f₀ ∧
      post = post₀.map R.fetch := by
  obtain ⟨pre₀, rest, hs, hpre, hrest⟩ := List.map_eq_append_iff.mp (h.fetches.symm.trans ht)
  obtain ⟨f₀, post₀, rfl, hf, hpost⟩ := List.map_eq_cons_iff.mp hrest
  exact ⟨pre₀, f₀, post₀, hs, hpre.symm, hf.symm, hpost.symm⟩

/-- And nothing else. -/
theorem env_back (hZ : R.Worlds s t) {t' : World} (he : World.Env U L A t t') :
    ∃ s', World.Env U L A s s' ∧ R.Worlds s' t' := by
  cases he with
  | tick now hnow =>
    exact ⟨_, .tick now (hZ.clock ▸ hnow), hZ.maps, rfl, hZ.cancelled, hZ.fetches, hZ.kept⟩
  | cancel => exact ⟨_, .cancel, hZ.maps, hZ.clock, rfl, hZ.fetches, hZ.kept⟩
  | start ht hphase hadm hslot =>
    obtain ⟨pre, f, post, hs, rfl, rfl, rfl⟩ := hZ.split ht
    refine ⟨_, .start hs hphase ((Worlds.admissible f.request).mp hadm) ?_, (hZ.setPhase hs .inFlight).2⟩
    exact (R.config_semaphore f.request.config ▸ hZ.hasSlot _).symm.trans hslot
  | finish result ht hphase hresult =>
    obtain ⟨pre, f, post, hs, rfl, rfl, rfl⟩ := hZ.split ht
    have hkept : R.Kept f.request.config := hZ.kept f (by simp [hs])
    exact ⟨_, .finish result hs hphase ((R.finish _ _ hkept).mp hresult),
      (hZ.setPhase hs (.done result)).2⟩
  | refuse result ht hphase hresult =>
    obtain ⟨pre, f, post, hs, rfl, rfl, rfl⟩ := hZ.split ht
    have hkept : R.Kept f.request.config := hZ.kept f (by simp [hs])
    exact ⟨_, .refuse result hs hphase ((R.refuse _ _ hkept).mp hresult),
      (hZ.setPhase hs (.done result)).2⟩

/-- **Worlds.** The other world can do what this one does. -/
theorem simulates :
    R.matching.Simulates World.Sem (World.Env U L A) World.Sem (World.Env U L A) R.Worlds where
  own {o o' s t r s'} hZ ho hsem := by
    obtain ⟨hres, ok, s₁, t₁, hZ₁, hs, ht⟩ := own_iff hZ ho
    obtain ⟨hr, rfl⟩ := (hs r s').mp hsem
    refine ⟨cast hres.symm r, t₁, (ht _ _).mpr ⟨?_, rfl⟩, (cast_heq _ r).symm, hZ₁⟩
    rwa [cast_cast, cast_eq]
  env hZ he := env hZ he

/-- And this one what the other one does. -/
theorem simulates_flip :
    R.matching.flip.Simulates World.Sem (World.Env U L A) World.Sem (World.Env U L A)
      fun t s ↦ R.Worlds s t where
  own {o o' t s r t'} hZ ho hsem := by
    obtain ⟨hres, ok, s₁, t₁, hZ₁, hs, ht⟩ := own_iff hZ ho
    obtain ⟨hr, rfl⟩ := (ht r t').mp hsem
    exact ⟨cast hres r, s₁, (hs _ _).mpr ⟨hr, rfl⟩, cast_heq _ r, hZ₁⟩
  env hZ he := env_back hZ he

/-! ## Renders -/

variable (R)

theorem parserConfig_forRender (P : Platform) (c : EsiParserConfig) (render : Path) :
    R.parserConfig (c.forRender P render) = (R.parserConfig c).forRender P (R.place render) := by
  rw [c.forRender_eq, (R.parserConfig c).forRender_eq]
  by_cases h : c.maxConcurrentRequests > 0
  · have h' : (R.parserConfig c).maxConcurrentRequests > 0 := h
    rw [if_pos h, if_pos h', parserConfig, R.semaphore]
    rfl
  · have h' : ¬ (R.parserConfig c).maxConcurrentRequests > 0 := h
    rw [if_neg h, if_neg h']
    rfl

theorem kept_forRender {c : EsiParserConfig} (h : R.Kept c.toFetchConfig) (P : Platform)
    (render : Path) : R.Kept (c.forRender P render).toFetchConfig := by
  rw [c.forRender_eq]
  dsimp only
  split_ifs
  · exact R.kept_semaphore _ h
  · exact h

/-- An operation with the same kind of answer on both sides. -/
theorem matches_ask {α : Type} {o : RenderOp} {o' : RenderOp}
    (ho : R.Moved o o') (hres : renderSignature.Res o' = renderSignature.Res o)
    {k : renderSignature.Res o → Render α} {k' : renderSignature.Res o' → Render α}
    (hk : ∀ r, (k r).Matches R.matching Eq (k' (cast hres.symm r))) :
    ((ask o).bind k).Matches R.matching Eq ((ask o').bind k') := by
  refine .op ho fun r r' hr ↦ ?_
  obtain rfl : r' = cast hres.symm r := eq_of_heq (hr.symm.trans (cast_heq hres.symm r).symm)
  exact hk r

theorem matches_resolveRef (site site' : Site) (c : EsiParserConfig) (inner : Bytes) :
    (resolveRef site c inner).Matches R.matching Eq
      (resolveRef site' (R.parserConfig c) inner) := by
  rw [resolveRef, resolveRef]
  refine R.matches_ask (.lookup site site' c.vars inner) rfl fun r ↦ ?_
  cases r with
  | some val => exact .ret rfl
  | none =>
    cases refName (lit "HTTP_HEADER") inner with
    | some key =>
      simp only [cast_eq]
      rw [show (R.parserConfig c).requestHeaders = c.requestHeaders from rfl]
      split_ifs
      · exact .ret rfl
      · exact R.matches_ask (.lookup site site' c.vars _) rfl fun r ↦ .ret rfl
    | none =>
      cases refName (lit "HTTP_COOKIE") inner with
      | some key => exact .ret rfl
      | none => cases refName (lit "QUERY_STRING") inner <;> exact .ret rfl

theorem matches_evaluateSegments (site site' : Site) (c : EsiParserConfig) (l : List Segment) :
    (evaluateSegments site c l).Matches R.matching Eq
      (evaluateSegments site' (R.parserConfig c) l) := by
  induction l with
  | nil => exact .ret rfl
  | cons segment l ih =>
    cases segment with
    | text b =>
      rw [evaluateSegments, evaluateSegments]
      refine ih.bind ?_
      rintro rest _ rfl
      exact .ret rfl
    | ref inner =>
      rw [evaluateSegments, evaluateSegments]
      refine (R.matches_resolveRef site site' c inner).bind ?_
      rintro val _ rfl
      refine ih.bind ?_
      rintro rest _ rfl
      exact .ret rfl

/-- The render and the moved one, side by side. -/
def twin (P : Platform) : RenderTwin P where
  M := R.matching
  place := R.place
  Cfg c c' := c' = R.parserConfig c ∧ R.Kept c.toFetchConfig
  Doc _ := True
  Attempt _ := True
  Block _ _ := True
  Static _ := True
  Attr _ := True
  place_append := R.place_append
  agrees := by
    rintro c _ ⟨rfl, -⟩
    exact ⟨R.config_timeout _, rfl, rfl, rfl, rfl⟩
  vars := by
    rintro c _ ⟨rfl, -⟩
    rfl
  cfg_forRender := by
    rintro c _ render ⟨rfl, h⟩
    exact ⟨(R.parserConfig_forRender P c render).symm, R.kept_forRender h P render⟩
  cfg_limits := by
    rintro c _ timeout maxDepth ⟨rfl, h⟩
    refine ⟨?_, R.kept_timeout timeout h⟩
    exact congrArg (fun f : FetchConfig ↦ { R.parserConfig c with toFetchConfig := f, maxDepth })
      (R.timeout c.toFetchConfig timeout).symm
  cfg_vars := by
    rintro c _ vars ⟨rfl, h⟩
    exact ⟨rfl, h⟩
  doc _ _ := ⟨fun _ _ ↦ trivial, trivial⟩
  attempt _ _ := ⟨fun _ _ ↦ trivial, trivial⟩
  block_try _ := ⟨trivial, trivial⟩
  block_choose _ := ⟨fun _ _ ↦ ⟨trivial, trivial⟩, trivial⟩
  block_include _ _ := ⟨trivial, trivial, trivial⟩
  doc_nil := trivial
  doc_marker _ := trivial
  static := by
    rintro c _ s site site' ⟨rfl, -⟩ -
    exact R.matches_evaluateSegments site site' c _
  attr := by
    rintro c _ s site site' ⟨rfl, -⟩ -
    exact R.matches_evaluateSegments site site' c _
  out_refl _ := rfl
  out_append := by
    rintro s _ t _ rfl rfl
    rfl
  enter := by
    rintro c _ entry entry' ⟨rfl, -⟩
    refine ⟨?_, fun r r' hr ↦ eq_of_heq hr⟩
    rw [show (R.parserConfig c).timeout = c.timeout from R.config_timeout _]
    exact .enter entry entry' c.timeout c.vars
  now t := ⟨.now t, fun _ _ hr ↦ eq_of_heq hr⟩
  since start budget attr := ⟨.since start budget attr, fun _ _ hr ↦ eq_of_heq hr⟩
  range bindings := ⟨.range bindings, fun _ _ hr ↦ eq_of_heq hr⟩
  newMap render i bindings := .newMap render i bindings
  assign job job' site site' m key value := .assign job job' site site' m key value
  intn element n := ⟨.intn element n, fun _ _ hr ↦ eq_of_heq hr⟩
  spawn := by
    rintro c _ element slot url chain t ⟨rfl, h⟩
    exact .spawn ⟨element, slot⟩ ⟨url, c.toFetchConfig, chain⟩ t h
  wait element slot :=
    ⟨.wait ⟨element, slot⟩, fun _ _ hr ↦ ⟨eq_of_heq hr, fun _ _ _ ↦ trivial⟩⟩
  select element slots :=
    ⟨.select element slots, fun _ _ hr ↦ ⟨eq_of_heq hr, fun _ _ _ _ ↦ trivial⟩⟩
  collect n := ⟨.collect n, fun _ _ hr ↦ eq_of_heq hr⟩

/-- **Main result.** A render and the moved one have the same outputs. -/
theorem output_iff {P : Platform} {F F' : Frame} (hF : F.Twin R.place F') {config : EsiParserConfig}
    (hkept : R.Kept config.toFetchConfig) (entry entry' : Entry) (input : Bytes)
    (vars : Bytes → Option Bytes) (output : Bytes) :
    (∃ tr t, Run World.Sem (World.Env U L A) (mesiParse P F' entry' input (R.parserConfig config))
      (.initial vars) tr (.ret output) t) ↔
    ∃ tr t, Run World.Sem (World.Env U L A) (mesiParse P F entry input config)
      (.initial vars) tr (.ret output) t := by
  have hmatches : (mesiParse P F entry input config).Matches R.matching Eq
      (mesiParse P F' entry' input (R.parserConfig config)) :=
    (R.twin P).matches_mesiParse hF ⟨rfl, hkept⟩ trivial entry entry'
  constructor
  · rintro ⟨tr, t, hrun⟩
    obtain ⟨tr', q, s', hrun', -, hq, -⟩ :=
      hrun.matched R.simulates_flip hmatches.flip (worlds_initial vars)
    obtain ⟨out, rfl, rfl⟩ := hq
    exact ⟨tr', s', hrun'⟩
  · rintro ⟨tr, s, hrun⟩
    obtain ⟨tr', q, t', hrun', -, hq, -⟩ :=
      hrun.matched R.simulates hmatches (worlds_initial vars)
    obtain ⟨out, rfl, rfl⟩ := hq
    exact ⟨tr', t', hrun'⟩

end Relocation

end GoMesi
