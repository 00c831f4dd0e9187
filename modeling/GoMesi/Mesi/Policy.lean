import GoMesi.Mesi.RenderLogic

/-!
# The dial policy of a render

Which addresses the fetches of a render may connect to is decided by a few fields of the
configuration. No attribute of an include overrides them, and no render inside of a page changes
them, so all fetches of a run have the policy of the page (`fetchesUnder_of_run`).
-/

namespace GoMesi

open Strings Interleaving

/-- The fields of a configuration that decide which addresses are connected to. -/
structure DialPolicy where
  allowedHosts : List Bytes
  blockPrivateIPs : Bool
  allowPrivateIPsForAllowedHosts : Bool
  httpClient : Option HttpClient

def FetchConfig.dialPolicy (config : FetchConfig) : DialPolicy :=
  ⟨config.allowedHosts, config.blockPrivateIPs, config.allowPrivateIPsForAllowedHosts,
    config.httpClient⟩

/-- The fetches of a render see the same of the configuration as the render itself: neither the timeout
nor the semaphore. -/
structure HandedDown {β : Type} (view : FetchConfig → β) : Prop where
  timeout : ∀ c timeout, view { c with timeout } = view c
  requestSemaphore : ∀ c requestSemaphore, view { c with requestSemaphore } = view c

theorem handedDown_dialPolicy : HandedDown FetchConfig.dialPolicy :=
  ⟨fun _ _ ↦ rfl, fun _ _ ↦ rfl⟩

section

variable {β : Type} {view : FetchConfig → β}

theorem HandedDown.forRender (hview : HandedDown view) (P : Platform) (c : EsiParserConfig)
    (render : Path) : view (c.forRender P render).toFetchConfig = view c.toFetchConfig := by
  simp only [EsiParserConfig.forRender, EsiParserConfig.normalizeMaxWorkers]
  split_ifs <;> first | rfl | exact hview.requestSemaphore _ _

theorem HandedDown.forInclude (hview : HandedDown view) (P : Platform) (c : EsiParserConfig)
    (token : EsiIncludeToken) (start t : Time) :
    view (c.forInclude P token start t).toFetchConfig = view c.toFetchConfig := by
  obtain ⟨timeout, maxDepth, h⟩ := c.forInclude_eq P token start t
  rw [h]
  exact hview.timeout _ _

/-- Fetches are started with the view `v`, and only if there is depth left. -/
def FetchesWith (view : FetchConfig → β) (v : β) (maxDepth : ℕ) : RenderOp → Prop
  | .spawn _ request _ => view request.config = v ∧ 1 ≤ maxDepth
  | _ => True

/-- Fetches are started with the policy `policy`, and only if there is depth left. -/
def FetchesUnder (policy : DialPolicy) (maxDepth : ℕ) : RenderOp → Prop :=
  FetchesWith FetchConfig.dialPolicy policy maxDepth

/-- A configuration that is made from one with the view and the depth. -/
structure EsiParserConfig.Under (view : FetchConfig → β) (v : β) (maxDepth : ℕ)
    (c : EsiParserConfig) : Prop where
  view : view c.toFetchConfig = v
  depth : c.maxDepth ≤ maxDepth

variable {P : Platform} {v : β} {maxDepth : ℕ} {c : EsiParserConfig}

theorem EsiParserConfig.Under.forInclude (hview : HandedDown view) (h : c.Under view v maxDepth)
    (token : EsiIncludeToken) (start t : Time) :
    (c.forInclude P token start t).Under view v maxDepth :=
  ⟨(hview.forInclude P c token start t).trans h.view,
    (c.maxDepth_forInclude_le P token start t).trans h.depth⟩

theorem EsiParserConfig.Under.decreased (hview : HandedDown view) (h : c.Under view v maxDepth)
    (e : Duration) : (c.decreaseMaxDepth.withElapsedTime e).Under view v maxDepth :=
  ⟨(hview.timeout c.toFetchConfig _).trans h.view, (Nat.sub_le _ _).trans h.depth⟩

private theorem entering_policy {F : Frame} {entry : Entry} (hview : HandedDown view)
    (h : c.Under view v maxDepth) :
    Entering P (Ghost.only (FetchesWith view v maxDepth))
      (fun C _ ↦ C.config.Under view v maxDepth) F entry c () :=
  ⟨trivial, fun _ _ _ ↦ ⟨(hview.forRender P c F.render).trans h.view,
    (c.maxDepth_forRender P F.render).trans_le h.depth⟩⟩

/-- What the fetches see of the configuration is handed down as it is. -/
def policyLogic (P : Platform) (hview : HandedDown view) (v : β) (maxDepth : ℕ) :
    RenderLogic P Unit where
  γ := .only (FetchesWith view v maxDepth)
  Top C _ := C.config.Under view v maxDepth
  Inv C _ := C.config.Under view v maxDepth
  Fit _ c _ _ := c.Under view v maxDepth
  next_le _ := le_rfl
  top_mono _ h := h
  inv_mono _ h := h
  fit_mono _ h := h
  lookup _ := trivial
  since _ := trivial
  intn _ _ := trivial
  wait _ _ := trivial
  select _ _ _ := trivial
  fit {C} _ token t _ h _ _ := h.forInclude hview token C.start t
  spawn _ h hdepth := ⟨h.view, hdepth.trans h.depth⟩
  now _ _ := trivial
  refit _ h _ _ := ⟨trivial, fun _ _ _ ↦ ⟨(hview.timeout _ _).trans h.view, h.depth⟩⟩
  include_ {C} _ token t _ _ _ h _ _ _ _ :=
    entering_policy hview ((h.forInclude hview token C.start t).decreased hview _)
  choose h := entering_policy hview h
  except_ h := entering_policy hview h
  sub _ h := h
  token _ h := h
  newMap h _ := ⟨trivial, fun _ _ _ ↦ ⟨h.view, h.depth⟩⟩
  range _ := trivial
  assign _ _ := trivial
  fork _ h _ _ := ⟨fun _ ↦ (), trivial, fun _ ↦ ⟨h.view, h.depth⟩⟩
  collect _ := trivial

/-- **Main result.** Every fetch of a run sees of the configuration what the page does, and there is
none if the page has no depth. -/
theorem fetchesWith_of_run (hview : HandedDown view) {F : Frame} {entry : Entry} {input : Bytes}
    {config : EsiParserConfig} {σ : Type} {sem : (o : RenderOp) → σ → renderSignature.Res o → σ → Prop}
    {env : σ → σ → Prop} {q : Render Bytes} {s t : σ} {tr : List (Event renderSignature σ)}
    (h : Run sem env (mesiParse P F entry input config) s tr q t) :
    ∀ ev ∈ tr, FetchesWith view (view config.toFetchConfig) config.maxDepth ev.op := by
  have hall : (mesiParse P F entry input config).All
      (FetchesWith view (view config.toFetchConfig) config.maxDepth) :=
    ((policyLogic P hview (view config.toFetchConfig) config.maxDepth).safe_mesiParse
      (entering_policy hview ⟨rfl, le_rfl⟩)).walk
  have hrun := Run.all (I := fun _ ↦ True) (fun _ _ _ _ _ _ _ ↦ trivial) (fun _ _ _ _ ↦ trivial) h
    hall trivial
  exact fun ev hev ↦ (hrun.2 ev hev).2

/-- Every fetch of a run is started with the policy of the page. -/
theorem fetchesUnder_of_run {F : Frame} {entry : Entry} {input : Bytes}
    {config : EsiParserConfig} {σ : Type} {sem : (o : RenderOp) → σ → renderSignature.Res o → σ → Prop}
    {env : σ → σ → Prop} {q : Render Bytes} {s t : σ} {tr : List (Event renderSignature σ)}
    (h : Run sem env (mesiParse P F entry input config) s tr q t) :
    ∀ ev ∈ tr, FetchesUnder config.dialPolicy config.maxDepth ev.op :=
  fetchesWith_of_run handedDown_dialPolicy h

end

/-! ## A page with an include element -/

def plainInclude : Bytes := lit "<esi:include src=\"http://a/\"/>"

/-- A fetch is started. -/
def IsSpawn (o : RenderOp) : Prop := ∃ id request t, o = .spawn id request t

variable {P : Platform} {config : EsiParserConfig} {d : ℕ} {deeper : Deeper d}

theorem asks_fetchInclude {F : Frame} {site : Site} {path : Path} {start : Time}
    (hdepth : 1 ≤ config.maxDepth) :
    (fetchInclude P F site path config start { src := lit "http://a/" }).Asks IsSpawn := by
  have hfetch (el : Element) (c : EsiParserConfig) (t : Time) (hc : 1 ≤ c.maxDepth) :
      (EsiIncludeToken.fetch P el { src := lit "http://a/" } c t).Asks IsSpawn := by
    have hparse : ¬ c.parseOnly = true := fun h ↦ absurd (of_decide_eq_true h) (by omega)
    rw [EsiIncludeToken.fetch, if_neg hparse, if_neg (by decide), if_neg (by decide)]
    exact .op (0 : ℤ) (.here () ⟨_, _, _, rfl⟩)
  have hsrc : evaluateExpression site (lit "http://a/") config = .ret (lit "http://a/") := rfl
  have halt : evaluateExpression site [] config = .ret [] := rfl
  simp only [fetchInclude, hsrc, halt, Prog.bind_eq, Prog.ret_bind]
  have hover : config.overrideConfig P { src := lit "http://a/" } = config := by
    rw [EsiParserConfig.overrideConfig, EsiParserConfig.overrideTimeout, if_pos rfl,
      EsiParserConfig.overrideMaxDepth, if_pos (.inl rfl)]
  have hc : 1 ≤ (config.forInclude P { src := lit "http://a/" } start 0).maxDepth := by
    rw [EsiParserConfig.forInclude, hover]
    exact hdepth
  refine .op (0 : ℤ) ?_
  rw [Prog.ret_bind]
  exact Prog.Asks.bind ((hfetch _ _ _ hc).bind _) _

theorem asks_processJob {F : Frame} {start : Time} {hd : config.maxDepth = d} {job : EsiJob}
    (hjob : job.token = { esiTagContent := plainInclude, esiTagType := some .include_ })
    (hinclude : P.xmlUnmarshal plainInclude = some { src := lit "http://a/" })
    (hdepth : 1 ≤ config.maxDepth) :
    (processJob P deeper F start config hd job).Asks IsSpawn := by
  rw [processJob, hjob, if_pos rfl, show parseInclude P _ = _ from hinclude]
  exact (asks_fetchInclude hdepth).bind _

/-- If the platform reads the element, the page starts a fetch. -/
theorem asks_mesiParse (hinclude : P.xmlUnmarshal plainInclude = some { src := lit "http://a/" })
    (hdepth : 1 ≤ config.maxDepth) :
    (mesiParse P .page .page plainInclude config).Asks IsSpawn := by
  have htokens : esiTokenizer (unescape plainInclude) =
      [{ esiTagContent := plainInclude, esiTagType := some .include_ }, {}] := by
    decide +kernel
  have hworkers : 0 < (config.forRender P Frame.page.render).maxWorkers :=
    EsiParserConfig.normalizeMaxWorkers_pos _ P
  rw [mesiParse, parseLevel]
  refine .op (0 : ℤ) ?_
  simp only [htokens]
  exact .job Nat.zero_lt_one (lt_min (by omega) Nat.zero_lt_one)
    (asks_processJob rfl hinclude (by simpa [EsiParserConfig.maxDepth_forRender] using hdepth))

end GoMesi
