import GoMesi.Mesi.RenderLogic
import GoMesi.Mesi.Simulate

/-!
# Termination and the depth of includes

A fetch carries its chain: the values of `MaxDepth` it was made with and the fetches before it whose
bodies led to it. From a fetch to the next one in its chain the value decreases, whatever the bodies
are and whatever their include elements ask for. So a chain is no longer than the `MaxDepth` of the
page (`mesiParse_terminates`).

That a render ends has two parts. Its program has no infinite run, since every program is well
founded; the measures that justify this are those of the recursions in `Mesi.Parser`. And it never
gets stuck: a thread that waits is waiting for a fetch that has been started, every parallel node
has a worker, and a fetch that has been started can end.
-/

namespace GoMesi

open Interleaving

/-! ## Chains -/

/-- The values of `MaxDepth` along a chain, the latest first, increase from a positive one up to
`bound` at most. -/
def ChainWithin (bound : ℕ) (chain : List ℕ) : Prop :=
  chain.Pairwise (· < ·) ∧ ∀ d ∈ chain, 1 ≤ d ∧ d ≤ bound

/-- A render with the depth `m` may be entered at the end of the chain. -/
def DepthWithin (bound m : ℕ) (chain : List ℕ) : Prop :=
  (m :: chain).Pairwise (· < ·) ∧ ∀ d ∈ m :: chain, d ≤ bound

private theorem length_add_le {k d : ℕ} {later earlier : List ℕ}
    (h : (later ++ d :: earlier).Pairwise (· < ·)) (hk : ∀ x ∈ later ++ d :: earlier, k ≤ x) :
    later.length + k ≤ d := by
  induction later generalizing k with
  | nil => simpa using hk d (by simp)
  | cons x later ih =>
    obtain ⟨hx, hlater⟩ := List.pairwise_cons.mp h
    have hkx : k ≤ x := hk x (by simp)
    have := ih (k := k + 1) hlater fun y hy ↦ Nat.succ_le_of_lt (hkx.trans_lt (hx y hy))
    rw [List.length_cons]
    omega

/-- From a fetch with the depth `d` on, a chain has at most `d` fetches. -/
theorem ChainWithin.length_later_lt {bound d : ℕ} {later earlier : List ℕ}
    (h : ChainWithin bound (later ++ d :: earlier)) : later.length < d :=
  length_add_le h.1 fun x hx ↦ (h.2 x hx).1

theorem ChainWithin.add_length_earlier_le {bound d : ℕ} {later earlier : List ℕ}
    (h : ChainWithin bound (later ++ d :: earlier)) : d + earlier.length ≤ bound := by
  rcases List.eq_nil_or_concat' earlier with rfl | ⟨mid, last, rfl⟩
  · exact (h.2 d (by simp)).2
  · have hd : (d :: (mid ++ [last])).Pairwise (· < ·) := (List.pairwise_append.mp h.1).2.1
    obtain ⟨hlt, hmid⟩ := List.pairwise_cons.mp hd
    have hlast := length_add_le hmid fun x hx ↦ Nat.succ_le_of_lt (hlt x hx)
    have hbound := (h.2 last (by simp)).2
    rw [List.length_append, List.length_singleton]
    omega

theorem ChainWithin.length_le {bound : ℕ} {chain : List ℕ} (h : ChainWithin bound chain) :
    chain.length ≤ bound := by
  cases chain with
  | nil => exact Nat.zero_le _
  | cons d earlier =>
    have := ChainWithin.add_length_earlier_le (List.nil_append (d :: earlier) ▸ h)
    have hd := (h.2 d (by simp)).1
    rw [List.length_cons]
    omega

theorem DepthWithin.chain {bound m m' : ℕ} {chain : List ℕ} (h : DepthWithin bound m chain)
    (hle : m' ≤ m) (hpos : 1 ≤ m') : ChainWithin bound (m' :: chain) := by
  obtain ⟨hlt, hchain⟩ := List.pairwise_cons.mp h.1
  refine ⟨List.pairwise_cons.mpr ⟨fun x hx ↦ hle.trans_lt (hlt x hx), hchain⟩, fun x hx ↦ ?_⟩
  rcases List.mem_cons.mp hx with rfl | hx
  · exact ⟨hpos, hle.trans (h.2 m (by simp))⟩
  · exact ⟨(Nat.zero_le m).trans_lt (hlt x hx), h.2 x (by simp [hx])⟩

theorem ChainWithin.depth {bound m : ℕ} {chain : List ℕ} (h : ChainWithin bound (m :: chain)) :
    DepthWithin bound (m - 1) (m :: chain) := by
  have hpos := (h.2 m (by simp)).1
  refine ⟨List.pairwise_cons.mpr ⟨fun x hx ↦ ?_, h.1⟩, fun x hx ↦ ?_⟩
  · rcases List.mem_cons.mp hx with rfl | hx
    · omega
    · have := (List.pairwise_cons.mp h.1).1 x hx
      omega
  · rcases List.mem_cons.mp hx with rfl | hx
    · have := (h.2 m (by simp)).2
      omega
    · exact (h.2 x hx).2

/-- A `max-depth` attribute leaves a depth that is not used up above zero. -/
theorem EsiParserConfig.one_le_maxDepth_overrideConfig (P : Platform) (c : EsiParserConfig)
    (token : EsiIncludeToken) (h : 1 ≤ c.maxDepth) : 1 ≤ (c.overrideConfig P token).maxDepth := by
  rw [overrideConfig, overrideMaxDepth]
  rw [← c.maxDepth_overrideTimeout P token] at h
  split_ifs
  · exact h
  · split
    · exact h
    · split_ifs
      · exact Nat.succ_le_succ (Nat.zero_le _)
      · exact h

/-! ## What a thread knows -/

/-- A thread remembers the fetches it has started. -/
def depthGhost (bound : ℕ) : Ghost renderSignature (Set FetchId) where
  ok
    | _, .spawn _ request _ => ChainWithin bound request.chain
    | g, .wait id => id ∈ g
    | g, .select element slots => slots ≠ [] ∧ ∀ slot ∈ slots, ⟨element, slot⟩ ∈ g
    | _, .intn _ n => 0 < n
    | _, _ => True
  next
    | g, .spawn id _ _, _, g' => g' = insert id g
    | g, _, _, g' => g' = g
  fork _ w _ gs := 0 < w ∧ ∀ i, gs i = ∅

private theorem workers_pos {bound : ℕ} :
    ∀ g w n (gs : Fin n → Set FetchId), (depthGhost bound).fork g w gs → 0 < w :=
  fun _ _ _ _ h ↦ h.1

/-- A configuration at its place in the tree of renders. -/
def DepthFits (bound : ℕ) (C : RenderCtx) : Prop :=
  DepthWithin bound C.config.maxDepth C.frame.chain ∧ 0 < C.config.maxWorkers

private theorem depth_next_le {bound : ℕ} {g g' : Set FetchId} {o : RenderOp}
    {r : renderSignature.Res o} (h : (depthGhost bound).next g o r g') : g ≤ g' := by
  cases o with
  | spawn id request readAt => exact h ▸ Set.subset_insert id g
  | _ => exact h.ge

private theorem mem_of_spawned {bound : ℕ} {g : Set FetchId} {id : FetchId}
    (h : Spawned (depthGhost bound) id g) : id ∈ g := by
  obtain ⟨request, t, g₀, r, g₁, rfl, hle⟩ := h
  exact hle (Set.mem_insert id g₀)

private theorem depthFits_forRender {P : Platform} {bound : ℕ} {F : Frame}
    {config : EsiParserConfig} {start : Time} (h : DepthWithin bound config.maxDepth F.chain) :
    DepthFits bound ⟨F, config.forRender P F.render, start⟩ :=
  ⟨(config.maxDepth_forRender P F.render).symm ▸ h, EsiParserConfig.normalizeMaxWorkers_pos _ P⟩

/-- Depths decrease along chains. -/
def depthLogic (P : Platform) (bound : ℕ) : RenderLogic P (Set FetchId) where
  γ := depthGhost bound
  Top C _ := DepthFits bound C
  Inv C _ := DepthFits bound C.toRenderCtx
  Fit C c _ _ := c.maxDepth ≤ C.config.maxDepth
  next_le := depth_next_le
  top_mono _ h := h
  inv_mono _ h := h
  fit_mono _ h := h
  lookup _ := trivial
  since _ := trivial
  intn _ h := h
  wait _ h := mem_of_spawned h
  select _ hne h := ⟨hne, fun slot hslot ↦ mem_of_spawned (h slot hslot)⟩
  fit {C} g token t g' _ _ _ := C.config.maxDepth_forInclude_le P token C.start t
  spawn hinv hfit hpos := hinv.1.chain hfit hpos
  now _ _ := trivial
  refit _ hfit _ _ := ⟨trivial, fun _ _ _ ↦ hfit⟩
  include_ {C} g token t e t' g' hinv _ hfit hdeep _ := by
    have hpos := C.config.one_le_maxDepth_overrideConfig P token (of_decide_eq_true hdeep).1
    exact ⟨trivial, fun _ _ _ ↦ depthFits_forRender (hinv.1.chain hfit hpos).depth⟩
  choose hinv := ⟨trivial, fun _ _ _ ↦ depthFits_forRender hinv.1⟩
  except_ hinv := ⟨trivial, fun _ _ _ ↦ depthFits_forRender hinv.1⟩
  sub _ h := h
  token _ h := h
  newMap h _ := ⟨trivial, fun _ _ _ ↦ h⟩
  range _ := trivial
  assign _ _ := trivial
  fork {C} g n ids h hn _ := by
    have hworkers := h.2
    exact ⟨fun _ ↦ ∅, ⟨lt_min (by omega) hn, fun _ ↦ rfl⟩, fun _ ↦ h⟩
  collect _ := trivial

/-! ## Fetches end -/

namespace World

variable {U : Unicode} {L : NetLib} {A : (o : FetchOp) → fetchSignature.Res o → Prop}

/-- The fetch has been started. -/
def Started (s : World) (id : FetchId) : Prop := ∃ f ∈ s.fetches, f.id = id

/-- The fetch has ended. -/
def IsDone (s : World) (id : FetchId) : Prop := ∃ r, s.result id r

theorem Started.exists_lookup {s : World} {id : FetchId} (h : s.Started id) :
    ∃ f, s.lookup id = some f := by
  obtain ⟨f, hf, hid⟩ := h
  exact Option.isSome_iff_exists.mp (List.find?_isSome.mpr ⟨f, hf, decide_eq_true hid⟩)

/-- A fetch that has been started stays so. -/
theorem Sem.started {o : RenderOp} {s s' : World} {r : renderSignature.Res o}
    (h : Sem o s r s') {id : FetchId} (hid : s.Started id) : s'.Started id := by
  cases o with
  | spawn id' request readAt =>
    obtain ⟨f, hf, rfl⟩ := hid
    rw [show s' = _ from h]
    exact ⟨f, List.mem_cons_of_mem _ hf, rfl⟩
  | range vars => rwa [show s' = s from h]
  | newMap site bindings => exact (show s' = _ from h) ▸ hid
  | assign job site vars key value => exact (show s' = _ from h) ▸ hid
  | _ => rwa [h.2]

/-- Where a fetch has got on, the same fetches are started. -/
private theorem started_of_eq {s s' : World} {pre post : List FetchState} {f : FetchState}
    {phase : Phase} (h : s.fetches = pre ++ f :: post)
    (h' : s'.fetches = pre ++ { f with phase } :: post) {id : FetchId} (hid : s.Started id) :
    s'.Started id := by
  obtain ⟨f', hf', rfl⟩ := hid
  rw [h, List.mem_append, List.mem_cons] at hf'
  rcases hf' with hf' | rfl | hf'
  · exact ⟨f', by simp [h', hf'], rfl⟩
  · exact ⟨{ f' with phase }, by simp [h'], rfl⟩
  · exact ⟨f', by simp [h', hf'], rfl⟩

theorem Env.started {s s' : World} (h : Env U L A s s') {id : FetchId} (hid : s.Started id) :
    s'.Started id := by
  cases h with
  | tick | cancel => exact hid
  | start h => exact started_of_eq h rfl hid
  | finish result h => exact started_of_eq h rfl hid
  | refuse result h => exact started_of_eq h rfl hid

/-- A fetch that the checks before its admission turn away ends without an operation. -/
theorem exists_refused {request : FetchRequest} (h : ¬ request.Admissible) :
    ∃ result, (singleFetchUrlWithContext U L request.url request.config).Ends refused result := by
  rw [singleFetchUrlWithContext]
  split_ifs with htimeout
  · exact ⟨_, rfl⟩
  · have hsize : ¬ request.config.maxResponseSize ≤ maxMaxResponseSize := fun hle ↦
      h ⟨not_le.mp htimeout, hle⟩
    rw [validateMaxResponseSize, if_neg hsize]
    exact ⟨_, rfl⟩

/-- The context of a fetch may end while the fetch waits for a slot. -/
theorem exists_refused_of_semaphore {request : FetchRequest} {semaphore : Semaphore}
    (h : request.config.requestSemaphore = some semaphore) :
    ∃ result, (singleFetchUrlWithContext U L request.url request.config).Ends refused result := by
  by_cases hadm : request.Admissible
  · rw [singleFetchUrlWithContext, if_neg (not_le.mpr hadm.1), validateMaxResponseSize,
      if_pos hadm.2, withSemaphore, h]
    exact ⟨_, some [], ⟨[], rfl⟩, rfl⟩
  · exact exists_refused hadm

/-- If every single fetch can end, a fetch that has been started can be brought to its end. -/
theorem exists_isDone
    (hA : ∀ url config, ∃ result, (singleFetchUrlWithContext U L url config).Ends (admitted A) result)
    {s : World} {id : FetchId} (hid : s.Started id) :
    ∃ s', Relation.ReflTransGen (Env U L A) s s' ∧ s'.IsDone id := by
  obtain ⟨f, hf⟩ := hid.exists_lookup
  obtain ⟨hfid, pre, post, hsplit, hpre⟩ := List.find?_eq_some_iff_append.mp hf
  -- the fetch stays the one with its name when it gets on
  have hlookup : ∀ phase, ({ s with fetches := pre ++ { f with phase } :: post } : World).lookup id
      = some { f with phase } := fun phase ↦
    List.find?_eq_some_iff_append.mpr ⟨hfid, pre, post, rfl, hpre⟩
  have hdone : ∀ r, ({ s with fetches := pre ++ { f with phase := .done r } :: post } : World).IsDone id
    := fun r ↦ ⟨r, _, hlookup _, rfl⟩
  have hrefuse : f.phase = .queued → (∃ result,
      (singleFetchUrlWithContext U L f.request.url f.request.config).Ends refused result) →
        ∃ s', Relation.ReflTransGen (Env U L A) s s' ∧ s'.IsDone id := fun hphase ⟨result, hresult⟩ ↦
    ⟨_, .single (.refuse result hsplit hphase hresult), hdone result⟩
  obtain ⟨result, hresult⟩ := hA f.request.url f.request.config
  cases hphase : f.phase with
  | done r => exact ⟨s, .refl, r, f, hf, hphase⟩
  | inFlight => exact ⟨_, .single (.finish result hsplit hphase hresult), hdone result⟩
  | queued =>
    by_cases hadm : f.request.Admissible
    · cases hsem : f.request.config.requestSemaphore with
      | some semaphore => exact hrefuse hphase (exists_refused_of_semaphore hsem)
      | none =>
        have hslot : s.hasSlot f.request.config.requestSemaphore := by rw [hsem]; rfl
        exact ⟨_, .head (.start hsplit hphase hadm hslot)
          (.single (.finish (f := { f with phase := .inFlight }) result rfl rfl hresult)), hdone result⟩
    · exact hrefuse hphase (exists_refused hadm)

end World

/-! ## Threads go on -/

/-- The fetches a thread knows of have been started. -/
def KnowsStarted (g : Set FetchId) (s : World) : Prop := ∀ id ∈ g, s.Started id

variable {U : Unicode} {L : NetLib} {A : (o : FetchOp) → fetchSignature.Res o → Prop}

theorem tracks_depthGhost (bound : ℕ) :
    Tracks (depthGhost bound) World.Sem (World.Env U L A) KnowsStarted fun _ ↦ True where
  own {g o s r s'} hg _ h := by
    cases o with
    | spawn id request readAt =>
      refine ⟨insert id g, rfl, ?_, fun _ ↦ trivial⟩
      rintro id' (rfl | hid')
      · rw [show s' = _ from h]
        exact ⟨_, List.mem_cons_self, rfl⟩
      · exact h.started (hg id' hid')
    | _ => exact ⟨g, rfl, fun id hid ↦ h.started (hg id hid), fun _ ↦ trivial⟩
  stable _ _ _ h _ hg id hid := h.started (hg id hid)
  env h _ hg id hid := h.started (hg id hid)
  fork _ h i := ⟨h.2 i ▸ fun _ hid ↦ absurd hid (Set.notMem_empty _), trivial⟩

/-- The fetch an operation waits for. Of several it is the first. -/
def RenderOp.awaited : RenderOp → Option FetchId
  | .wait id => some id
  | .select element (slot :: _) => some ⟨element, slot⟩
  | _ => none

theorem mem_of_awaited {bound : ℕ} {g : Set FetchId} {o : RenderOp} {id : FetchId}
    (hok : (depthGhost bound).ok g o) (hid : o.awaited = some id) : id ∈ g := by
  cases o with
  | wait id' =>
    obtain rfl : id' = id := by simpa [RenderOp.awaited] using hid
    exact hok
  | select element slots =>
    cases slots with
    | nil => exact absurd rfl hok.1
    | cons slot slots =>
      obtain rfl : ⟨element, slot⟩ = id := by simpa [RenderOp.awaited] using hid
      exact hok.2 slot (by simp)
  | _ => simp [RenderOp.awaited] at hid

/-- An operation is answered as soon as the fetch it waits for has ended. -/
theorem exists_sem {bound : ℕ} {g : Set FetchId} {o : RenderOp} {s : World}
    (hok : (depthGhost bound).ok g o) (hdone : ∀ id, o.awaited = some id → s.IsDone id) :
    ∃ r s', World.Sem o s r s' := by
  cases o with
  | enter entry timeout vars => exact ⟨_, _, rfl, rfl⟩
  | now readAt => exact ⟨_, _, rfl, rfl⟩
  | since start budget attr => exact ⟨_, _, rfl, rfl⟩
  | lookup site vars key => exact ⟨_, _, rfl, rfl⟩
  | range vars => exact ⟨⟨vars.entries, .refl _⟩, _, rfl⟩
  | newMap site bindings => exact ⟨(), _, rfl⟩
  | assign job site vars key value => exact ⟨(), _, rfl⟩
  | intn element n => exact ⟨0, _, hok, rfl⟩
  | spawn id request readAt => exact ⟨(), _, rfl⟩
  | wait id =>
    obtain ⟨result, h⟩ := hdone id rfl
    exact ⟨result, s, h, rfl⟩
  | select element slots =>
    cases slots with
    | nil => exact absurd rfl hok.1
    | cons slot slots =>
      obtain ⟨result, h⟩ := hdone ⟨element, slot⟩ rfl
      exact ⟨.ok (slot, result), s, .inl ⟨slot, by simp, result, h, rfl⟩, rfl⟩
  | collect n => exact ⟨⟨List.finRange n, List.nodup_finRange n⟩, s, .inr List.length_finRange, rfl⟩

/-! ## The result -/

section

variable {P : Platform} {input : Bytes} {config : EsiParserConfig} {s t : World}
  {tr : List (Event renderSignature World)} {q : Render Bytes}

/-- What is known along a run of a page. -/
private theorem live_mesiParse
    (h : Run World.Sem (World.Env U L A) (mesiParse P .page .page input config) s tr q t) :
    q.Live (depthGhost config.maxDepth) (fun _ ↦ True) (KnowsStarted · t) false (fun _ _ ↦ True) ∧
      ∀ ev ∈ tr, ∃ g, (depthGhost config.maxDepth).ok g ev.op := by
  have hdepth : DepthWithin config.maxDepth config.maxDepth Frame.page.chain := by
    simp [DepthWithin, Frame.page]
  have hsafe : (depthLogic P config.maxDepth).Safe ∅ (mesiParse P .page .page input config) :=
    RenderLogic.safe_mesiParse ⟨trivial, fun _ _ _ ↦ depthFits_forRender hdepth⟩
  have T := tracks_depthGhost (U := U) (L := L) (A := A) config.maxDepth
  obtain ⟨hq, hev⟩ := h.ghost T
    (hsafe.walk.live T (fun id hid ↦ absurd hid (Set.notMem_empty id)) fun _ ↦ trivial)
  exact ⟨hq, fun ev hmem ↦ (hev ev hmem).imp fun _ hg ↦ hg.2⟩

/-- Wherever a run of a page has come to, it can go on to its end if every single fetch can end. -/
theorem exists_run_ret
    (hA : ∀ url config, ∃ result,
      (singleFetchUrlWithContext U L url config).Ends (World.admitted A) result)
    (h : Run World.Sem (World.Env U L A) (mesiParse P .page .page input config) s tr q t) :
    ∃ tr' output t', Run World.Sem (World.Env U L A) q t tr' (.ret output) t' := by
  refine (live_mesiParse h).1.exists_run (tracks_depthGhost config.maxDepth)
    workers_pos fun g o s hg hok ↦ ?_
  cases hawaited : o.awaited with
  | none =>
    obtain ⟨r, s', hsem⟩ := exists_sem (s := s) hok fun id hid ↦ by simp [hawaited] at hid
    exact ⟨s, r, s', .refl, hsem⟩
  | some id =>
    obtain ⟨s₁, henv, hdone⟩ := World.exists_isDone hA (hg id (mem_of_awaited hok hawaited))
    obtain ⟨r, s', hsem⟩ := exists_sem (s := s₁) hok fun id' hid' ↦ by
      obtain rfl : id = id' := by simpa [hawaited] using hid'
      exact hdone
    exact ⟨s₁, r, s', henv, hsem⟩

/-- A run of a page that is not at its end can go on by itself as soon as the fetches it has started
have ended. -/
theorem exists_step
    (h : Run World.Sem (World.Env U L A) (mesiParse P .page .page input config) s tr q t)
    (hq : q.value? = none) (hdone : ∀ f ∈ t.fetches, ∃ r, f.phase = .done r) :
    ∃ e q' t', Step World.Sem q t e q' t' := by
  have hlive : q.Live (depthGhost config.maxDepth) (fun _ ↦ True)
      (fun g ↦ KnowsStarted g t ∧ t = t) false fun _ _ ↦ True :=
    (live_mesiParse h).1.imp fun _ hg ↦ ⟨hg, rfl⟩
  have hans : ∀ g o s, KnowsStarted g s ∧ s = t → (depthGhost config.maxDepth).ok g o →
      ∃ s₁ r s₂, Relation.ReflTransGen (fun _ _ ↦ False) s s₁ ∧ World.Sem o s₁ r s₂ := by
    rintro g o s ⟨hg, hs⟩ hok
    obtain ⟨r, s', hsem⟩ := exists_sem (s := s) hok fun id hid ↦ by
      obtain ⟨f, hf⟩ := (hg id (mem_of_awaited hok hid)).exists_lookup
      obtain ⟨r, hr⟩ := hdone f (hs ▸ List.mem_of_find?_eq_some hf)
      exact ⟨r, f, hf, hr⟩
    exact ⟨s, r, s', .refl, hsem⟩
  obtain ⟨t₁, e, q', t', henv, hstep⟩ := hlive.progress
    (R := fun g s ↦ KnowsStarted g s ∧ s = t) workers_pos hans hq
  rcases henv.cases_head with rfl | ⟨_, hfalse, -⟩
  · exact ⟨e, q', t', hstep⟩
  · exact hfalse.elim

/-- **Termination and the depth bound.** If every single fetch can end, then from wherever a run of
a page has come to, it has no infinite run, it goes on as long as it is not at its end and no fetch
is under way, and its end can be reached. The chain of every fetch it starts has at most
`config.maxDepth` fetches, and of these fewer than `d` come after one that was made with the depth
`d`, which a `max-depth` attribute can only lower. -/
theorem mesiParse_terminates
    (hA : ∀ url config, ∃ result,
      (singleFetchUrlWithContext U L url config).Ends (World.admitted A) result)
    (h : Run World.Sem (World.Env U L A) (mesiParse P .page .page input config) s tr q t) :
    (Acc Prog.Next q ∧
      (q.value? = none → (∀ f ∈ t.fetches, ∃ r, f.phase = .done r) →
        ∃ e q' t', Step World.Sem q t e q' t') ∧
      ∃ tr' output t', Run World.Sem (World.Env U L A) q t tr' (.ret output) t') ∧
    (∀ ev ∈ tr, ∀ id request readAt, ev.op = .spawn id request readAt →
      request.chain.length ≤ config.maxDepth ∧
        ∀ later d earlier, request.chain = later ++ d :: earlier →
          later.length < d ∧ d + earlier.length ≤ config.maxDepth) ∧
    ∀ (c : EsiParserConfig) (token : EsiIncludeToken),
      (c.overrideConfig P token).maxDepth ≤ (c.overrideConfig P { token with maxDepth := [] }).maxDepth
    := by
  refine ⟨⟨q.acc_next, exists_step h, exists_run_ret hA h⟩, fun ev hev id request readAt hop ↦ ?_,
    fun c token ↦ ?_⟩
  · obtain ⟨g, hok⟩ := (live_mesiParse h).2 ev hev
    rw [hop] at hok
    have hchain : ChainWithin config.maxDepth request.chain := hok
    exact ⟨hchain.length_le, fun later d earlier heq ↦
      ⟨(heq ▸ hchain).length_later_lt, (heq ▸ hchain).add_length_earlier_le⟩⟩
  · have hnone : (c.overrideConfig P { token with maxDepth := [] }).maxDepth = c.maxDepth :=
      c.maxDepth_overrideTimeout P { token with maxDepth := [] }
    exact hnone ▸ c.maxDepth_overrideConfig_le P token

end

/-! ## A page that includes itself -/

def selfIncludeText : Bytes := lit "<esi:include src=\"http://a/\"/>"

/-- A page whose include element fetches the same page again. -/
def selfInclude : Page where
  elements := [(selfIncludeText, { src := lit "http://a/" })]
  upstream := [(lit "http://a/", .ofBody selfIncludeText)]
  input := selfIncludeText
  config := { maxDepth := 2, timeout := 1000 }

/-- The page fetches itself, and what it fetched fetches itself once more. -/
def selfIncludeSchedule : List (Move World.EnvMove) :=
  List.replicate 1 (.job []) ++ List.replicate 5 (.job [0]) ++
    [.world (.start ⟨[0], 0⟩), .world (.finish ⟨[0], 0⟩)] ++ List.replicate 4 (.job [0]) ++
      List.replicate 5 (.job [0, 0])

theorem mesiParse_terminates_selfInclude :
    (selfInclude.run selfIncludeSchedule (.initial fun _ ↦ none)).state.fetches.length = 2 ∧
    ∀ ev ∈ (selfInclude.run selfIncludeSchedule (.initial fun _ ↦ none)).trace,
      ∀ id request readAt, ev.op = .spawn id request readAt → request.chain.length ≤ 2 :=
  ⟨by decide +kernel, fun ev hev id request readAt hop ↦
    ((mesiParse_terminates (exists_ends_singleFetch selfInclude.upstream .ascii .simple)
      (selfInclude.run_run selfIncludeSchedule (.initial fun _ ↦ none))).2.1
        ev hev id request readAt hop).1⟩

end GoMesi
