import GoMesi.Mesi.RenderLogic
import GoMesi.Mesi.Simulate

/-!
# Concurrent requests

`MaxConcurrentRequests` is enforced by a semaphore, and every call of `MESIParse` makes a semaphore
of its own, the calls for the bodies of includes too. A fetch is admitted by the semaphore of its
render, so each semaphore has at most `n` fetches in flight, and the whole page has at most `n` as
long as the fetches of one render are not admitted while those of another are in flight
(`inFlight_length_le`). The bodies of includes are rendered by the workers of the page, next to one
another, and so that does happen (`not_inFlight_length_le`).
-/

namespace GoMesi

open Strings Interleaving

/-! ## Semaphores -/

/-- The configuration asks for at most `n` concurrent requests. -/
def EsiParserConfig.Caps (n : ℕ) (c : EsiParserConfig) : Prop := c.maxConcurrentRequests = n

/-- The fetches with this configuration are admitted by a semaphore with `n` slots. -/
def FetchConfig.CappedBy (n : ℕ) (c : FetchConfig) : Prop :=
  ∃ sem, c.requestSemaphore = some sem ∧ sem.cap = n

/-- Every fetch that is started has a semaphore with `n` slots. -/
def CappedSpawn (n : ℕ) : RenderOp → Prop
  | .spawn _ request _ => request.config.CappedBy n
  | _ => True

variable {P : Platform} {n : ℕ}

theorem EsiParserConfig.Caps.forRender {c : EsiParserConfig} (h : c.Caps n) (hn : 0 < n)
    (render : Path) :
    (c.forRender P render).Caps n ∧ (c.forRender P render).toFetchConfig.CappedBy n := by
  have hneg : ¬ c.maxConcurrentRequests < 0 := by rw [h]; omega
  have hpos : c.maxConcurrentRequests > 0 := by rw [h]; omega
  have hcap : c.maxConcurrentRequests.toNat = n := by rw [h, Int.toNat_natCast]
  simp only [EsiParserConfig.forRender, if_neg hneg, if_pos hpos, normalizeMaxWorkers]
  split_ifs
  · exact ⟨h, _, rfl, hcap⟩
  · exact ⟨h, _, rfl, hcap⟩

theorem EsiParserConfig.Caps.decreased {c : EsiParserConfig} (h : c.Caps n) (e : Duration) :
    (c.decreaseMaxDepth.withElapsedTime e).Caps n := h

/-- Every render passes the cap on to the renders inside of it, each of which then has a semaphore
of its own. -/
def capLogic (P : Platform) (n : ℕ) (hn : 0 < n) : RenderLogic P Unit where
  γ := .only (CappedSpawn n)
  Top C _ := C.config.Caps n ∧ C.config.toFetchConfig.CappedBy n
  Inv C _ := C.config.Caps n ∧ C.config.toFetchConfig.CappedBy n
  Fit C c _ _ := c.Caps n ∧ c.toFetchConfig.CappedBy n
  next_le _ := le_rfl
  top_mono _ h := h
  inv_mono _ h := h
  fit_mono _ h := h
  lookup _ := trivial
  since _ := trivial
  intn _ _ := trivial
  wait _ _ := trivial
  select _ _ _ := trivial
  fit {C} g token t g' h _ _ := by
    obtain ⟨timeout, maxDepth, heq⟩ := C.config.forInclude_eq P token C.start t
    exact heq ▸ h
  spawn _ h _ := h.2
  now _ _ := trivial
  refit _ h _ _ := ⟨trivial, fun _ _ _ ↦ h⟩
  include_ _ _ h _ _ := ⟨trivial, fun _ _ _ ↦ (h.1.decreased _).forRender hn _⟩
  choose h := ⟨trivial, fun _ _ _ ↦ h.1.forRender hn _⟩
  except_ h := ⟨trivial, fun _ _ _ ↦ h.1.forRender hn _⟩
  sub _ h := h
  token _ h := h
  newMap h _ := ⟨trivial, fun _ _ _ ↦ h⟩
  range _ := trivial
  assign _ _ := trivial
  fork _ h _ _ := ⟨fun _ ↦ (), trivial, fun _ ↦ h⟩
  collect _ := trivial

/-- All fetches of a page are capped. -/
theorem cappedSpawn_mesiParse {F : Frame} {entry : Entry} {input : Bytes} {config : EsiParserConfig}
    (h : config.Caps n) (hn : 0 < n) :
    (mesiParse P F entry input config).All (CappedSpawn n) :=
  ((capLogic P n hn).safe_mesiParse ⟨trivial, fun _ _ _ ↦ h.forRender hn _⟩).mono
    fun _ _ _ ↦ trivial

/-! ## The fetches in flight -/

namespace World

/-- All fetches are capped, and there are at most `n` in flight. -/
structure WithinCap (n : ℕ) (s : World) : Prop where
  capped : ∀ f ∈ s.fetches, f.request.config.CappedBy n
  length_le : s.inFlight.length ≤ n

/-- When a fetch is admitted while a fetch that another semaphore has admitted is in flight, there
are fewer than `n` in flight. -/
def AdmitsWithin (n : ℕ) (s s' : World) : Prop :=
  ∀ pre f post, s.fetches = pre ++ f :: post → f.phase = .queued →
    s'.fetches = pre ++ { f with phase := .inFlight } :: post →
      (∃ f' ∈ s.inFlight,
        f'.request.config.requestSemaphore ≠ f.request.config.requestSemaphore) →
          s.inFlight.length < n

private theorem capped_of_eq {s s' : World} {pre post : List FetchState} {f : FetchState}
    {phase : Phase} (h : s.fetches = pre ++ f :: post)
    (h' : s'.fetches = pre ++ { f with phase } :: post)
    (hs : ∀ f ∈ s.fetches, f.request.config.CappedBy n) :
    ∀ f ∈ s'.fetches, f.request.config.CappedBy n := by
  intro f' hf'
  rw [h', List.mem_append, List.mem_cons] at hf'
  rcases hf' with hf' | rfl | hf'
  · exact hs f' (by simp [h, hf'])
  · exact hs f (by simp [h])
  · exact hs f' (by simp [h, hf'])

/-- A fetch that is not in flight afterwards makes for no more of them. -/
private theorem length_inFlight_le {s s' : World} {pre post : List FetchState} {f : FetchState}
    {phase : Phase} (h : s.fetches = pre ++ f :: post)
    (h' : s'.fetches = pre ++ { f with phase } :: post) (hphase : phase ≠ .inFlight) :
    s'.inFlight.length ≤ s.inFlight.length := by
  have hf : ({ f with phase } : FetchState).isInFlight = false := by
    rw [Bool.eq_false_iff, ne_eq, FetchState.isInFlight_iff]
    exact hphase
  simp only [inFlight, h, h', List.filter_append, List.filter_cons, hf, List.length_append,
    Bool.false_eq_true, if_false]
  split_ifs
  · rw [List.length_cons]
    omega
  · exact le_rfl

/-- A fetch that is admitted makes for one more. -/
private theorem length_inFlight_start {s s' : World} {pre post : List FetchState} {f : FetchState}
    (h : s.fetches = pre ++ f :: post) (hphase : f.phase = .queued)
    (h' : s'.fetches = pre ++ { f with phase := .inFlight } :: post) :
    s'.inFlight.length = s.inFlight.length + 1 := by
  have hf : f.isInFlight = false := by
    rw [Bool.eq_false_iff, ne_eq, FetchState.isInFlight_iff, hphase]
    exact Phase.noConfusion
  have hf' : ({ f with phase := .inFlight } : FetchState).isInFlight = true := rfl
  simp only [inFlight, h, h', List.filter_append, List.filter_cons, hf, hf', List.length_append,
    if_true, List.length_cons]
  simp [Nat.add_assoc]

/-- When the fetches in flight have the semaphore of a fetch that is admitted, its slot makes
room. -/
theorem length_inFlight_lt_of_hasSlot {s : World} {semaphore : Semaphore}
    (hslot : s.hasSlot (some semaphore) = true)
    (hall : ∀ f ∈ s.inFlight, f.request.config.requestSemaphore = some semaphore) :
    s.inFlight.length < semaphore.cap := by
  have hfilter : s.inFlight.filter (·.request.config.requestSemaphore = some semaphore)
      = s.inFlight := List.filter_eq_self.mpr fun f hf ↦ decide_eq_true (hall f hf)
  have hlt := of_decide_eq_true hslot
  rwa [hfilter] at hlt

variable {U : Unicode} {L : NetLib} {A : (o : FetchOp) → fetchSignature.Res o → Prop}

theorem WithinCap.env {s s' : World} (hs : s.WithinCap n) (h : Env U L A s s')
    (hadmits : AdmitsWithin n s s') : s'.WithinCap n := by
  cases h with
  | tick | cancel => exact ⟨hs.capped, hs.length_le⟩
  | @start pre post f hsplit hphase hadm hslot =>
    refine ⟨capped_of_eq hsplit rfl hs.capped, ?_⟩
    rw [length_inFlight_start hsplit hphase rfl]
    by_cases hother : ∃ f' ∈ s.inFlight,
        f'.request.config.requestSemaphore ≠ f.request.config.requestSemaphore
    · exact hadmits pre f post hsplit hphase rfl hother
    · push Not at hother
      obtain ⟨semaphore, hsem, rfl⟩ := hs.capped f (by simp [hsplit])
      rw [hsem] at hslot hother
      exact length_inFlight_lt_of_hasSlot hslot hother
  | finish result hsplit =>
    exact ⟨capped_of_eq hsplit rfl hs.capped,
      (length_inFlight_le hsplit rfl Phase.noConfusion).trans hs.length_le⟩
  | refuse result hsplit =>
    exact ⟨capped_of_eq hsplit rfl hs.capped,
      (length_inFlight_le hsplit rfl Phase.noConfusion).trans hs.length_le⟩

/-- The condition asks for no more than it has to. -/
theorem admitsWithin_of_length_le {s s' : World} (h : s'.inFlight.length ≤ n) :
    AdmitsWithin n s s' := by
  intro pre f post hsplit hphase hsplit' _
  rw [length_inFlight_start hsplit hphase hsplit'] at h
  exact h

theorem WithinCap.sem {s s' : World} (hs : s.WithinCap n) {o : RenderOp}
    {r : renderSignature.Res o} (h : Sem o s r s') (ho : CappedSpawn n o) : s'.WithinCap n := by
  cases o with
  | spawn id request readAt =>
    obtain rfl : s' = _ := h
    refine ⟨fun f hf ↦ ?_, hs.length_le⟩
    rcases List.mem_cons.mp hf with rfl | hf
    · exact ho
    · exact hs.capped f hf
  | range vars => exact (show s' = s from h) ▸ hs
  | newMap site bindings => exact (show s' = _ from h) ▸ ⟨hs.capped, hs.length_le⟩
  | assign job site vars key value => exact (show s' = _ from h) ▸ ⟨hs.capped, hs.length_le⟩
  | _ => exact h.2 ▸ hs

end World

/-! ## The whole page -/

variable {U : Unicode} {L : NetLib} {A : (o : FetchOp) → fetchSignature.Res o → Prop}

/-- **The cap of a page.** In a run of a page in which a fetch is admitted next to the fetches of
another render only while there are fewer than `n` in flight, there are never more than `n`. -/
theorem inFlight_length_le {input : Bytes} {config : EsiParserConfig}
    (hconfig : config.maxConcurrentRequests = n) (hn : 0 < n) {s t : World}
    {tr : List (Event renderSignature World)} {q : Render Bytes} (hs : s.fetches = [])
    (h : Run World.Sem (fun s s' ↦ World.Env U L A s s' ∧ World.AdmitsWithin n s s')
      (mesiParse P .page .page input config) s tr q t) :
    t.inFlight.length ≤ n := by
  have hinit : s.WithinCap n := ⟨by simp [hs], by simp [World.inFlight, hs]⟩
  have hop : ∀ o s r s', World.Sem o s r s' → CappedSpawn n o → s.WithinCap n → s'.WithinCap n :=
    fun _ _ _ _ hsem ho hs ↦ hs.sem hsem ho
  have henv : ∀ s s', World.Env U L A s s' ∧ World.AdmitsWithin n s s' → s.WithinCap n →
      s'.WithinCap n := fun _ _ henv hs ↦ hs.env henv.1 henv.2
  exact (Run.all hop henv h (cappedSpawn_mesiParse hconfig hn) hinit).1.length_le

/-! ## A page with an include in a fragment -/

def firstText : Bytes := lit "<esi:include src=\"http://a/1\"/>"

def secondText : Bytes := lit "<esi:include src=\"http://a/2\"/>"

def nestedText : Bytes := lit "<esi:include src=\"http://a/3\"/>"

/-- A page with two includes, the body of the first of which has a third one, and a cap of one
concurrent request. -/
def nestedPage : Page where
  elements := [(firstText, { src := lit "http://a/1" }), (secondText, { src := lit "http://a/2" }),
    (nestedText, { src := lit "http://a/3" })]
  upstream := [(lit "http://a/1", .ofBody nestedText)]
  input := firstText ++ secondText
  config := { maxDepth := 2, timeout := 1000, maxConcurrentRequests := 1, maxWorkers := 2 }

/-- The first worker fetches the first include, renders its body and starts the fetch of the nested
include. The second worker starts the fetch of the second include. Both fetches are admitted. -/
def nestedSchedule : List (Move World.EnvMove) :=
  .job [] :: List.replicate 4 (.job [0]) ++
    [.world (.start ⟨[0], 0⟩), .world (.finish ⟨[0], 0⟩)] ++ List.replicate 4 (.job [0]) ++
      List.replicate 4 (.job [0, 0]) ++ [.world (.start ⟨[0, 0], 0⟩)] ++
        List.replicate 4 (.job [1]) ++ [.world (.start ⟨[1], 0⟩)]

/-- The same run in a world that keeps to the cap. -/
def cappedNestedRun : Outcome renderSignature Bytes World Bytes :=
  nestedPage.prog.exec World.answer
    (fun m s ↦ (World.move .ascii .simple (upstreamAnswer nestedPage.upstream) m s).filter
      fun s' ↦ s'.inFlight.length ≤ 1) nestedSchedule (.initial fun _ ↦ none)

private theorem cappedNestedRun_run :
    Run World.Sem (fun s s' ↦ World.Env .ascii .simple (answersOf nestedPage.upstream) s s' ∧
        World.AdmitsWithin 1 s s')
      nestedPage.prog (.initial fun _ ↦ none) cappedNestedRun.trace cappedNestedRun.prog
        cappedNestedRun.state := by
  refine Prog.exec_run World.answer_sound (fun m s s' h ↦ ?_) nestedSchedule nestedPage.prog _
  obtain ⟨hmove, hle⟩ := Option.filter_eq_some_iff.mp h
  exact ⟨World.move_sound (admitted_upstreamAnswer nestedPage.upstream) m s s' hmove,
    World.admitsWithin_of_length_le (of_decide_eq_true hle)⟩

theorem inFlight_length_le_nestedPage : cappedNestedRun.state.inFlight.length ≤ 1 :=
  have hrun : Run World.Sem _ (mesiParse _ _ _ nestedPage.input nestedPage.config) _ _ _ _ :=
    cappedNestedRun_run
  inFlight_length_le rfl one_pos rfl hrun

private theorem length_inFlight_nestedPage :
    (nestedPage.run nestedSchedule (.initial fun _ ↦ none)).state.inFlight.length = 2 := by
  decide +kernel

/-- **Two semaphores.** A page with `MaxConcurrentRequests` one can have two fetches in flight. -/
theorem not_inFlight_length_le :
    ¬ ∀ tr q t, Run World.Sem (World.Env .ascii .simple (answersOf nestedPage.upstream))
        nestedPage.prog (.initial fun _ ↦ none) tr q t → t.inFlight.length ≤ 1 := by
  intro h
  have hle := h _ _ _ (nestedPage.run_run nestedSchedule (.initial fun _ ↦ none))
  rw [length_inFlight_nestedPage] at hle
  exact absurd hle (by decide)

end GoMesi
