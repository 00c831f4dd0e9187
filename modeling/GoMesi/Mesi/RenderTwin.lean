import GoMesi.Interleaving.Matching
import GoMesi.Mesi.Parser

/-!
# Two renders side by side

The parser is run twice on the same text, at two places and with two configurations, and does the
same both times. What "the same" is, a `RenderTwin` says: which operations correspond to each other
and which answers, how the two configurations are related, and which outputs. Its rules are about
single operations and about the evaluation of static text and of attributes.
`RenderTwin.matches_mesiParse` is the conclusion, by the induction over the parser that
`RenderLogic` makes for one render.

Which texts the rules are asked for can be restricted, since not every text is as harmless as every
other one: to the texts that are rendered, and the blocks, attributes and static parts of these.
-/

namespace GoMesi

open Strings Interleaving

/-- The same map, with the places moved. -/
def MapRef.rename (place : Path → Path) : MapRef → MapRef
  | .caller => .caller
  | .made render => .made (place render)

/-- The configurations have those fields in common that the parser branches on. -/
structure EsiParserConfig.Agrees (c c' : EsiParserConfig) : Prop where
  timeout : c'.timeout = c.timeout
  maxDepth : c'.maxDepth = c.maxDepth
  parseOnHeader : c'.parseOnHeader = c.parseOnHeader
  maxWorkers : c'.maxWorkers = c.maxWorkers
  includeErrorMarker : c'.includeErrorMarker = c.includeErrorMarker

/-- The frame of the second render. Which job it belongs to makes no difference. -/
structure Frame.Twin (place : Path → Path) (F F' : Frame) : Prop where
  render : F'.render = place F.render
  chain : F'.chain = F.chain

/-- What has to be known to follow two renders at once. -/
structure RenderTwin (P : Platform) where
  /-- Operations, answers, and the outputs of jobs. -/
  M : Matching renderSignature Bytes
  /-- Where a render or a token is on the other side. -/
  place : Path → Path
  /-- The configurations. -/
  Cfg : EsiParserConfig → EsiParserConfig → Prop
  /-- A text that `MESIParse` may be called with. -/
  Doc : Bytes → Prop
  /-- The body of an attempt. -/
  Attempt : Bytes → Prop
  /-- A block. -/
  Block : TagType → Bytes → Prop
  /-- The text of a static token. -/
  Static : Bytes → Prop
  /-- An attribute that is evaluated. -/
  Attr : Bytes → Prop
  place_append : ∀ p i, place (p ++ [i]) = place p ++ [i]
  agrees : ∀ {c c'}, Cfg c c' → c.Agrees c'
  vars : ∀ {c c'}, Cfg c c' → c'.vars = c.vars.map (·.rename place)
  cfg_forRender : ∀ {c c'} render, Cfg c c' →
    Cfg (c.forRender P render) (c'.forRender P (place render))
  cfg_limits : ∀ {c c' : EsiParserConfig} timeout maxDepth, Cfg c c' →
    Cfg { c with timeout, maxDepth } { c' with timeout, maxDepth }
  cfg_vars : ∀ {c c' : EsiParserConfig} (vars : Option MapRef), Cfg c c' →
    Cfg { c with vars } { c' with vars := vars.map (·.rename place) }
  doc : ∀ {s token}, Doc s → token ∈ esiTokenizer (unescape s) →
    (∀ t, token.esiTagType = some t → Block t token.esiTagContent) ∧ Static token.staticContent
  attempt : ∀ {s token}, Attempt s → token ∈ esiTokenizer s →
    (∀ t, token.esiTagType = some t → Block t token.esiTagContent) ∧ Static token.staticContent
  block_try : ∀ {raw}, Block .try_ raw →
    Attempt (extractTryBlocks raw).1 ∧ Doc (extractTryBlocks raw).2
  block_choose : ∀ {raw}, Block .choose raw →
    (∀ w ∈ (extractChooseBlocks raw).1, Attr (trimSpace w.test) ∧ Doc w.body) ∧
      Doc (extractChooseBlocks raw).2
  block_include : ∀ {raw token}, Block .include_ raw → parseInclude P raw = some token →
    Attr token.src ∧ Attr token.alt ∧ Doc token.content
  doc_nil : Doc []
  doc_marker : ∀ {c c'}, Cfg c c' → Doc c.includeErrorMarker
  static : ∀ {c c' s} site site', Cfg c c' → Static s →
    (evaluateExpression site s c).Matches M M.val (evaluateExpression site' s c')
  attr : ∀ {c c' s} site site', Cfg c c' → Attr s →
    (evaluateExpression site s c).Matches M Eq (evaluateExpression site' s c')
  out_refl : ∀ s, M.val s s
  out_append : ∀ {s s' t t'}, M.val s s' → M.val t t' → M.val (s ++ t) (s' ++ t')
  enter : ∀ {c c'} entry entry', Cfg c c' →
    M.op (.enter entry c.timeout c.vars) (.enter entry' c'.timeout c'.vars) ∧
      ∀ r r', M.res (.enter entry c.timeout c.vars) (.enter entry' c'.timeout c'.vars) r r' → r = r'
  now : ∀ t, M.op (.now t) (.now t) ∧ ∀ r r', M.res (.now t) (.now t) r r' → r = r'
  since : ∀ start budget attr, M.op (.since start budget attr) (.since start budget attr) ∧
    ∀ r r', M.res (.since start budget attr) (.since start budget attr) r r' → r = r'
  range : ∀ bindings, M.op (.range bindings) (.range bindings) ∧
    ∀ r r', M.res (.range bindings) (.range bindings) r r' → r = r'
  newMap : ∀ render i bindings,
    M.op (.newMap ⟨render, i⟩ bindings) (.newMap ⟨place render, i⟩ bindings)
  assign : ∀ job job' site site' m key value,
    M.op (.assign job site m key value) (.assign job' site' (m.rename place) key value)
  intn : ∀ element n, M.op (.intn element n) (.intn (place element) n) ∧
    ∀ r r', M.res (.intn element n) (.intn (place element) n) r r' → r = r'
  spawn : ∀ {c c'} element slot url chain t, Cfg c c' →
    M.op (.spawn ⟨element, slot⟩ ⟨url, c.toFetchConfig, chain⟩ t)
      (.spawn ⟨place element, slot⟩ ⟨url, c'.toFetchConfig, chain⟩ t)
  wait : ∀ element slot, M.op (.wait ⟨element, slot⟩) (.wait ⟨place element, slot⟩) ∧
    ∀ r r', M.res (.wait ⟨element, slot⟩) (.wait ⟨place element, slot⟩) r r' →
      r = r' ∧ ∀ data esi, r = .ok (data, esi) → Doc data
  select : ∀ element slots, M.op (.select element slots) (.select (place element) slots) ∧
    ∀ r r', M.res (.select element slots) (.select (place element) slots) r r' →
      r = r' ∧ ∀ slot data esi, r = .ok (slot, .ok (data, esi)) → Doc data
  collect : ∀ n, M.op (.collect n) (.collect n) ∧
    ∀ r r', M.res (.collect n) (.collect n) r r' → r = r'

namespace RenderTwin

variable {P : Platform} {T : RenderTwin P} {α β : Type}

theorem matches_ask_bind {M : Matching renderSignature Bytes} {Q : α → β → Prop} {o o' : RenderOp}
    {k : renderSignature.Res o → Render α} {k' : renderSignature.Res o' → Render β} (ho : M.op o o')
    (hk : ∀ r r', M.res o o' r r' → (k r).Matches M Q (k' r')) :
    ((ask o).bind k).Matches M Q ((ask o').bind k') :=
  .op ho hk

theorem matches_ask {M : Matching renderSignature Bytes} {o o' : RenderOp}
    {Q : renderSignature.Res o → renderSignature.Res o' → Prop} (ho : M.op o o')
    (hQ : ∀ r r', M.res o o' r r' → Q r r') : (ask o).Matches M Q (ask o') :=
  .op ho fun r r' hr ↦ .ret (hQ r r' hr)

/-! ## Fetching -/

variable (T) in
/-- The results of two fetches. -/
def Fetched (r r' : FetchResult) : Prop :=
  r = r' ∧ ∀ data esi, r = .ok (data, esi) → T.Doc data

theorem fetched_error (err : GoError) : T.Fetched (.error err) (.error err) :=
  ⟨rfl, by simp⟩

variable {c c' : EsiParserConfig} {path : Path} {chain : List ℕ} {t : Time}

theorem matches_fetchUrl (hc : T.Cfg c c') (slot : ℕ) (url : Bytes) :
    (fetchUrl ⟨path, chain⟩ slot url c t).Matches T.M T.Fetched
      (fetchUrl ⟨T.place path, chain⟩ slot url c' t) := by
  obtain ⟨hop, hres⟩ := T.wait path slot
  have hspawn := T.spawn path slot url (c.maxDepth :: chain) t hc
  rw [fetchUrl, fetchUrl, spawnFetch, spawnFetch, (T.agrees hc).maxDepth]
  exact matches_ask_bind hspawn fun _ _ _ ↦ matches_ask hop hres

theorem matches_selectUrl (ratio : ABRatio) (token : EsiIncludeToken) :
    (ratio.selectUrl token path).Matches T.M Eq (ratio.selectUrl token (T.place path)) := by
  rw [ABRatio.selectUrl, ABRatio.selectUrl]
  split_ifs
  · exact .ret rfl
  · exact .ret rfl
  · exact .ret rfl
  · obtain ⟨hop, hres⟩ := T.intn path (ratio.a + ratio.b)
    refine matches_ask_bind hop fun r r' hr ↦ ?_
    obtain rfl := hres r r' hr
    exact .ret rfl

theorem matches_fetchAB (token : EsiIncludeToken) (hc : T.Cfg c c') :
    (fetchAB P ⟨path, chain⟩ token c t).Matches T.M T.Fetched
      (fetchAB P ⟨T.place path, chain⟩ token c' t) := by
  rw [fetchAB, fetchAB]
  split
  · exact .ret (fetched_error _)
  · refine (matches_selectUrl _ token).bind ?_
    rintro url _ rfl
    exact matches_fetchUrl hc 0 url

theorem matches_fetchConcurrent (token : EsiIncludeToken) (hc : T.Cfg c c') :
    (fetchConcurrent ⟨path, chain⟩ token c t).Matches T.M T.Fetched
      (fetchConcurrent ⟨T.place path, chain⟩ token c' t) := by
  have hspawn (slot url) := T.spawn path slot url (c.maxDepth :: chain) t hc
  rw [fetchConcurrent, fetchConcurrent]
  split_ifs
  · exact matches_fetchUrl hc 0 token.src
  · rw [spawnFetch, spawnFetch, spawnFetch, spawnFetch, (T.agrees hc).maxDepth]
    refine matches_ask_bind (hspawn 0 token.src) fun _ _ _ ↦ matches_ask_bind (hspawn 1 token.alt) fun _ _ _ ↦ ?_
    obtain ⟨hop, hres⟩ := T.select path [0, 1]
    refine matches_ask_bind hop fun first _ hr ↦ ?_
    obtain ⟨rfl, hdoc⟩ := hres _ _ hr
    cases first with
    | error err => exact .ret (fetched_error err)
    | ok first =>
      obtain ⟨slot, result⟩ := first
      cases result with
      | ok data => exact .ret ⟨rfl, fun data esi heq ↦ hdoc slot data esi (by rw [heq])⟩
      | error err =>
        obtain ⟨hop, hres⟩ := T.select path ([0, 1].erase slot)
        refine matches_ask_bind hop fun second _ hr ↦ ?_
        obtain ⟨rfl, hdoc⟩ := hres _ _ hr
        cases second with
        | error _ => exact .ret (fetched_error err)
        | ok second =>
          exact .ret ⟨rfl, fun data esi heq ↦ hdoc second.1 data esi (by rw [← heq])⟩

theorem cfg_timeout (timeout : Duration) (hc : T.Cfg c c') :
    T.Cfg { c with timeout } { c' with timeout } := by
  have heq : ({ c' with timeout, maxDepth := c.maxDepth } : EsiParserConfig) =
      { c' with timeout } := by rw [← (T.agrees hc).maxDepth]
  exact heq ▸ T.cfg_limits timeout c.maxDepth hc

theorem cfg_maxDepth (maxDepth : ℕ) (hc : T.Cfg c c') :
    T.Cfg { c with maxDepth } { c' with maxDepth } := by
  have heq : ({ c' with timeout := c.timeout, maxDepth } : EsiParserConfig) =
      { c' with maxDepth } := by rw [← (T.agrees hc).timeout]
  exact heq ▸ T.cfg_limits c.timeout maxDepth hc

theorem cfg_withElapsedTime (hc : T.Cfg c c') (e : Duration) :
    T.Cfg (c.withElapsedTime e) (c'.withElapsedTime e) := by
  rw [EsiParserConfig.withElapsedTime, EsiParserConfig.withElapsedTime, (T.agrees hc).timeout]
  exact cfg_timeout _ hc

theorem cfg_decreaseMaxDepth (hc : T.Cfg c c') : T.Cfg c.decreaseMaxDepth c'.decreaseMaxDepth := by
  rw [EsiParserConfig.decreaseMaxDepth, EsiParserConfig.decreaseMaxDepth, (T.agrees hc).maxDepth]
  exact cfg_maxDepth _ hc

theorem cfg_overrideTimeout (token : EsiIncludeToken) (hc : T.Cfg c c') :
    T.Cfg (c.overrideTimeout P token) (c'.overrideTimeout P token) := by
  rw [EsiParserConfig.overrideTimeout, EsiParserConfig.overrideTimeout, (T.agrees hc).timeout]
  split_ifs
  · exact hc
  · split
    · split_ifs
      · exact cfg_timeout _ hc
      · exact hc
    · exact hc

theorem cfg_overrideMaxDepth (token : EsiIncludeToken) (hc : T.Cfg c c') :
    T.Cfg (c.overrideMaxDepth token) (c'.overrideMaxDepth token) := by
  rw [EsiParserConfig.overrideMaxDepth, EsiParserConfig.overrideMaxDepth, (T.agrees hc).maxDepth]
  split_ifs
  · exact hc
  · split
    · exact hc
    · split_ifs
      · exact cfg_maxDepth _ hc
      · exact hc

theorem cfg_forInclude (token : EsiIncludeToken) (start t : Time) (hc : T.Cfg c c') :
    T.Cfg (c.forInclude P token start t) (c'.forInclude P token start t) :=
  cfg_withElapsedTime (cfg_overrideMaxDepth token (cfg_overrideTimeout token hc)) _

theorem matches_fetchFallback (token : EsiIncludeToken) (hc : T.Cfg c c') :
    (fetchFallback ⟨path, chain⟩ token c t).Matches T.M T.Fetched
      (fetchFallback ⟨T.place path, chain⟩ token c' t) := by
  obtain ⟨hop, hres⟩ := T.now t
  rw [fetchFallback, fetchFallback]
  refine matches_ask_bind hop fun start _ hr ↦ ?_
  obtain rfl := hres _ _ hr
  refine (matches_fetchUrl hc 0 token.src).bind ?_
  rintro r _ ⟨rfl, hdoc⟩
  cases r with
  | ok data => exact .ret ⟨rfl, hdoc⟩
  | error err =>
    dsimp only
    rw [(T.agrees hc).timeout]
    split_ifs
    · obtain ⟨hop, hres⟩ := T.since start c.timeout token.timeout
      refine matches_ask_bind hop fun t' _ hr ↦ ?_
      obtain rfl := hres _ _ hr
      exact matches_fetchUrl (cfg_withElapsedTime hc _) 1 token.alt
    · exact .ret (fetched_error err)

theorem matches_fetch (token : EsiIncludeToken) (hc : T.Cfg c c') :
    (token.fetch P ⟨path, chain⟩ c t).Matches T.M T.Fetched
      (token.fetch P ⟨T.place path, chain⟩ c' t) := by
  rw [EsiIncludeToken.fetch, EsiIncludeToken.fetch, EsiParserConfig.parseOnly,
    EsiParserConfig.parseOnly, (T.agrees hc).maxDepth]
  split_ifs
  · exact .ret (fetched_error _)
  · exact matches_fetchAB token hc
  · exact matches_fetchConcurrent token hc
  · exact matches_fetchFallback token hc

/-! ## Includes -/

variable (T) in
/-- What is shown for two includes. -/
def Shown (inc inc' : Included) : Prop := inc = inc' ∧ T.Doc inc.data

theorem matches_toString {token : EsiIncludeToken} (hdoc : T.Doc token.content) (hc : T.Cfg c c') :
    (token.toString P ⟨path, chain⟩ c t).Matches T.M T.Shown
      (token.toString P ⟨T.place path, chain⟩ c' t) := by
  rw [EsiIncludeToken.toString, EsiIncludeToken.toString]
  refine (matches_fetch token hc).bind ?_
  rintro r _ ⟨rfl, hresult⟩
  refine .ret ⟨?_, ?_⟩
  · cases r with
    | ok data => rfl
    | error err => rw [EsiIncludeToken.shown, EsiIncludeToken.shown, (T.agrees hc).includeErrorMarker]
  · cases r with
    | ok data => exact hresult data.1 data.2 rfl
    | error err =>
      rw [EsiIncludeToken.shown]
      split_ifs
      · exact T.doc_nil
      · exact hdoc
      · exact T.doc_marker hc

variable {F F' : Frame} {start : Time}

/-- The results of fetching an include: the reading, and what is shown. -/
theorem matches_fetchInclude {token : EsiIncludeToken} (hF : F.Twin T.place F') (hc : T.Cfg c c')
    (htoken : T.Attr token.src ∧ T.Attr token.alt ∧ T.Doc token.content) (site site' : Site) :
    (fetchInclude P F site path c start token).Matches T.M
      (fun r r' ↦ r.1 = r'.1 ∧ T.Shown r.2 r'.2)
      (fetchInclude P F' site' (T.place path) c' start token) := by
  obtain ⟨hsrc, halt, hdoc⟩ := htoken
  rw [fetchInclude, fetchInclude, hF.chain]
  refine (T.attr site site' hc hsrc).bind ?_
  rintro src _ rfl
  refine (T.attr site site' hc halt).bind ?_
  rintro alt _ rfl
  have hover := T.agrees (cfg_overrideMaxDepth { token with src, alt }
    (cfg_overrideTimeout { token with src, alt } hc))
  dsimp only
  rw [show (c'.overrideConfig P { token with src, alt }).timeout =
    (c.overrideConfig P { token with src, alt }).timeout from hover.timeout]
  obtain ⟨hop, hres⟩ := T.since start (c.overrideConfig P { token with src, alt }).timeout
    token.timeout
  refine matches_ask_bind hop fun t _ hr ↦ ?_
  obtain rfl := hres _ _ hr
  have hdoc : T.Doc ({ token with src, alt } : EsiIncludeToken).content := hdoc
  refine (matches_toString hdoc (cfg_forInclude { token with src, alt } start t hc)).bind ?_
  exact fun inc inc' hinc ↦ .ret ⟨rfl, hinc⟩

/-! ## Functions that come back to the parser -/

variable (T) in
/-- The parser does the same for what lies deeper. -/
def DeeperTwin {d : ℕ} (deeper : Deeper d) : Prop :=
  ∀ F F' entry entry' input c c' h h', F.Twin T.place F' → T.Cfg c c' → T.Doc input →
    (deeper F entry input c h).Matches T.M T.M.val (deeper F' entry' input c' h')

variable {d : ℕ} {deeper : Deeper d}

theorem matches_parseIncluded (hdeeper : T.DeeperTwin deeper) (hF : F.Twin T.place F')
    (hc : T.Cfg c c') (hd : c.maxDepth = d) (hd' : c'.maxDepth = d) (token : EsiIncludeToken)
    {inc inc' : Included} (hinc : T.Shown inc inc') (site site' : Site) :
    (parseIncluded P deeper F site path start c hd token t inc).Matches T.M T.M.val
      (parseIncluded P deeper F' site' (T.place path) start c' hd' token t inc') := by
  obtain ⟨rfl, hdoc⟩ := hinc
  have h := T.agrees hc
  have hnew := T.agrees (cfg_forInclude token start t hc)
  rw [parseIncluded, parseIncluded, h.timeout]
  obtain ⟨hop, hres⟩ := T.since start c.timeout token.timeout
  refine matches_ask_bind hop fun t' _ hr ↦ ?_
  obtain rfl := hres _ _ hr
  have hcond : c'.canGoDeeper (elapsed start t') = c.canGoDeeper (elapsed start t') := by
    rw [EsiParserConfig.canGoDeeper, EsiParserConfig.canGoDeeper, h.maxDepth, h.timeout]
  by_cases hgo : c.canGoDeeper (elapsed start t') = true ∧ (inc.isEsiResponse = true ∨
      ¬ (c.forInclude P token start t).parseOnHeader = true)
  · have hgo' : c'.canGoDeeper (elapsed start t') = true ∧ (inc.isEsiResponse = true ∨
        ¬ (c'.forInclude P token start t).parseOnHeader = true) := by
      rwa [hcond, hnew.parseOnHeader]
    rw [dif_pos hgo, dif_pos hgo']
    obtain ⟨hop, hres⟩ := T.since start (c.forInclude P token start t).timeout token.timeout
    rw [hnew.timeout]
    refine matches_ask_bind hop fun t'' _ hr ↦ ?_
    obtain rfl := hres _ _ hr
    refine hdeeper _ _ _ _ _ _ _ _ _ ⟨rfl, ?_⟩ ?_ hdoc
    · rw [hnew.maxDepth, hF.chain]
    · exact cfg_withElapsedTime (cfg_decreaseMaxDepth (cfg_forInclude token start t hc)) _
  · have hgo' : ¬ (c'.canGoDeeper (elapsed start t') = true ∧ (inc.isEsiResponse = true ∨
        ¬ (c'.forInclude P token start t).parseOnHeader = true)) := by
      rwa [hcond, hnew.parseOnHeader]
    rw [dif_neg hgo, dif_neg hgo']
    exact .ret (T.out_refl _)

theorem matches_processJob (hdeeper : T.DeeperTwin deeper) (hF : F.Twin T.place F')
    (hc : T.Cfg c c') (hd : c.maxDepth = d) (hd' : c'.maxDepth = d) {job : EsiJob}
    (hjob : ∀ t, job.token.esiTagType = some t → T.Block t job.token.esiTagContent) :
    (processJob P deeper F start c hd job).Matches T.M T.M.val
      (processJob P deeper F' start c' hd' job) := by
  rw [processJob, processJob]
  split_ifs with hinclude
  · split
    · exact .ret (T.out_refl _)
    · rename_i token htoken
      have hblock := T.block_include (hjob _ hinclude) htoken
      have hpath : F'.render ++ [job.id] = T.place (F.render ++ [job.id]) := by
        rw [T.place_append, hF.render]
      dsimp only
      rw [hpath]
      refine (matches_fetchInclude hF hc hblock _ _).bind ?_
      rintro ⟨t, inc⟩ ⟨_, inc'⟩ ⟨rfl, hinc⟩
      refine matches_parseIncluded hdeeper ?_ hc hd hd' token hinc _ _
      exact ⟨hF.render, hF.chain⟩
  · exact .ret (T.out_refl _)

/-! ## The loops -/

theorem matches_chooseBranch {bound : ℕ}
    {parse parse' : (body : Bytes) → body.length < bound → Render Bytes} {otherwise : Bytes}
    {hotherwise : otherwise ≠ [] → otherwise.length < bound} {whens : List EsiWhenBlock}
    {hwhens : ∀ w ∈ whens, w.body.length < bound} (hc : T.Cfg c c')
    (hdocs : ∀ w ∈ whens, T.Attr (trimSpace w.test) ∧ T.Doc w.body) (hdoc : T.Doc otherwise)
    (hparse : ∀ body hbody, T.Doc body → (parse body hbody).Matches T.M T.M.val (parse' body hbody))
    (site site' : Site) :
    (chooseBranch site c parse otherwise hotherwise whens hwhens).Matches T.M T.M.val
      (chooseBranch site' c' parse' otherwise hotherwise whens hwhens) := by
  induction whens with
  | nil =>
    rw [chooseBranch, chooseBranch]
    split_ifs
    · exact hparse _ _ hdoc
    · exact .ret (T.out_refl _)
  | cons w whens ih =>
    obtain ⟨htest, hbody⟩ := hdocs w List.mem_cons_self
    have hcond : (evaluateTest site w.test c).Matches T.M Eq (evaluateTest site' w.test c') := by
      refine (T.attr site site' hc htest).bind ?_
      rintro expr _ rfl
      exact .ret rfl
    refine hcond.bind ?_
    rintro b _ rfl
    split_ifs
    · exact hparse _ _ hbody
    · exact ih fun w hw ↦ hdocs w (List.mem_cons_of_mem _ hw)

variable (T) in
/-- Two responses. -/
def Resp (x y : Response) : Prop := x.index = y.index ∧ T.M.val x.content y.content

variable (T) in
/-- The blocks, attributes and static parts of a token are among those the rules are about. -/
def TokenOk (token : EsiToken) : Prop :=
  (∀ t, token.esiTagType = some t → T.Block t token.esiTagContent) ∧ T.Static token.staticContent

variable (T) in
/-- The results of two attempts. -/
def Attempted (r r' : List Response × Bool) : Prop := List.Forall₂ T.Resp r.1 r'.1 ∧ r.2 = r'.2

theorem matches_attemptTokens {bound : ℕ} {site site' : Site}
    {tryBlock tryBlock' chooseBlock chooseBlock' :
      Path → (raw : Bytes) → raw.length ≤ bound → Render Bytes}
    {parse parse' : Path → EsiIncludeToken → Time → Included → Render Bytes}
    {tokens : List EsiToken} {hbound : ∀ t ∈ tokens, t.esiTagContent.length ≤ bound} {index : ℕ}
    (hF : F.Twin T.place F') (hc : T.Cfg c c') (htokens : ∀ token ∈ tokens, T.TokenOk token)
    (htry : ∀ path raw hraw, T.Block .try_ raw →
      (tryBlock path raw hraw).Matches T.M T.M.val (tryBlock' (T.place path) raw hraw))
    (hchoose : ∀ path raw hraw, T.Block .choose raw →
      (chooseBlock path raw hraw).Matches T.M T.M.val (chooseBlock' (T.place path) raw hraw))
    (hparse : ∀ path token t inc inc', T.Shown inc inc' →
      (parse path token t inc).Matches T.M T.M.val (parse' (T.place path) token t inc')) :
    (attemptTokens P F site path start c tryBlock chooseBlock parse tokens hbound index).Matches T.M
      T.Attempted
      (attemptTokens P F' site' (T.place path) start c' tryBlock' chooseBlock' parse' tokens hbound
        index) := by
  induction tokens generalizing index with
  | nil => exact .ret ⟨.nil, rfl⟩
  | cons token tokens ih =>
    obtain ⟨hblock, hstatic⟩ := htokens token List.mem_cons_self
    have ih (index) := @ih (fun t h ↦ hbound t (List.mem_cons_of_mem _ h)) index
      fun token h ↦ htokens token (List.mem_cons_of_mem _ h)
    -- the rest of the loop, after a token with the outputs `x` and `x'`
    have hrest : ∀ x x', T.M.val x x' →
        ((attemptTokens P F site path start c tryBlock chooseBlock parse tokens
          (fun t h ↦ hbound t (List.mem_cons_of_mem _ h)) (index + 1)).bind
            fun r ↦ .ret (⟨x, index⟩ :: r.1, r.2)).Matches T.M T.Attempted
        ((attemptTokens P F' site' (T.place path) start c' tryBlock' chooseBlock' parse' tokens
          (fun t h ↦ hbound t (List.mem_cons_of_mem _ h)) (index + 1)).bind
            fun r ↦ .ret (⟨x', index⟩ :: r.1, r.2)) := fun x x' hx ↦
      (ih (index + 1)).bind fun r r' hr ↦ .ret ⟨.cons ⟨rfl, hx⟩ hr.1, hr.2⟩
    rw [attemptTokens, attemptTokens]
    dsimp only
    rw [← T.place_append]
    split
    · rename_i htype
      split
      · exact .ret ⟨.nil, rfl⟩
      · rename_i include_ hinclude
        refine (matches_fetchInclude hF hc (T.block_include (hblock _ htype) hinclude) site
          site').bind ?_
        rintro ⟨t, inc⟩ ⟨_, inc'⟩ ⟨rfl, hinc⟩
        have hinc : T.Shown inc inc' := hinc
        have herr : inc'.err = inc.err := by rw [hinc.1]
        dsimp only
        rw [herr]
        split_ifs
        · exact .ret ⟨.nil, rfl⟩
        · exact (hparse _ _ _ _ _ hinc).bind hrest
    · rename_i htype
      exact (htry _ _ _ (hblock _ htype)).bind hrest
    · rename_i htype
      exact (hchoose _ _ _ (hblock _ htype)).bind hrest
    · exact hrest _ _ (T.out_refl _)
    · split_ifs
      · exact hrest _ _ (T.out_refl _)
      · exact (T.static site site' hc hstatic).bind hrest

theorem matches_assignAll (m : MapRef) (site site' : Site)
    (bindings : List (Sigma fun _ : Bytes ↦ Bytes)) :
    (assignAll F site m bindings).Matches T.M (fun _ _ ↦ True)
      (assignAll F' site' (m.rename T.place) bindings) := by
  induction bindings with
  | nil => exact .ret trivial
  | cons b bindings ih => exact matches_ask_bind (T.assign _ _ _ _ _ _ _) fun _ _ _ ↦ ih

theorem matches_processVars (hF : F.Twin T.place F') (i : ℕ) (raw : Bytes) (vars : Option MapRef) :
    (processVars F ⟨F.render, i⟩ raw vars).Matches T.M
      (fun v v' ↦ v' = v.map (·.rename T.place))
      (processVars F' ⟨F'.render, i⟩ raw (vars.map (·.rename T.place))) := by
  cases vars with
  | none =>
    rw [Option.map_none, processVars, processVars, hF.render]
    exact matches_ask_bind (T.newMap _ _ _) fun _ _ _ ↦ .ret rfl
  | some m =>
    rw [Option.map_some, processVars, processVars]
    obtain ⟨hop, hres⟩ := T.range (parseVarsBlock raw)
    refine matches_ask_bind hop fun order _ hr ↦ ?_
    obtain rfl := hres _ _ hr
    exact (matches_assignAll m _ _ order.1).bind fun _ _ _ ↦ .ret rfl

variable (T) in
/-- What the first passes of two renders leave. -/
structure ScannedTwin (s s' : Scanned) : Prop where
  vars : s'.vars = s.vars.map (·.rename T.place)
  results : List.Forall₂ T.Resp s.results s'.results
  jobs : s'.jobs = s.jobs
  job_ok : ∀ j ∈ s.jobs, T.TokenOk j.token

theorem matches_scanTokens {bound : ℕ}
    {tryBlock tryBlock' chooseBlock chooseBlock' : Site → Path → Option MapRef → (raw : Bytes) →
      raw.length ≤ bound → Render Bytes}
    {tokens : List EsiToken} {hbound : ∀ t ∈ tokens, t.esiTagContent.length ≤ bound} {index : ℕ}
    {vars : Option MapRef} (hF : F.Twin T.place F') (hc : T.Cfg c c')
    (htokens : ∀ token ∈ tokens, T.TokenOk token)
    (htry : ∀ site site' path vars raw hraw, T.Block .try_ raw →
      (tryBlock site path vars raw hraw).Matches T.M T.M.val
        (tryBlock' site' (T.place path) (vars.map (·.rename T.place)) raw hraw))
    (hchoose : ∀ site site' path vars raw hraw, T.Block .choose raw →
      (chooseBlock site path vars raw hraw).Matches T.M T.M.val
        (chooseBlock' site' (T.place path) (vars.map (·.rename T.place)) raw hraw)) :
    (scanTokens F c tryBlock chooseBlock tokens hbound index vars).Matches T.M T.ScannedTwin
      (scanTokens F' c' tryBlock' chooseBlock' tokens hbound index
        (vars.map (·.rename T.place))) := by
  induction tokens generalizing index vars with
  | nil => exact .ret ⟨rfl, .nil, rfl, by simp⟩
  | cons token tokens ih =>
    obtain ⟨hblock, hstatic⟩ := htokens token List.mem_cons_self
    have ih (index) (vars) := @ih (fun t h ↦ hbound t (List.mem_cons_of_mem _ h)) index vars
      fun token h ↦ htokens token (List.mem_cons_of_mem _ h)
    -- the rest of the loop, after a token with the outputs `x` and `x'`
    have hrest : ∀ vars x x', T.M.val x x' →
        ((scanTokens F c tryBlock chooseBlock tokens
          (fun t h ↦ hbound t (List.mem_cons_of_mem _ h)) (index + 1) vars).bind
            fun s ↦ .ret (s.addResult ⟨x, index⟩)).Matches T.M T.ScannedTwin
        ((scanTokens F' c' tryBlock' chooseBlock' tokens
          (fun t h ↦ hbound t (List.mem_cons_of_mem _ h)) (index + 1)
            (vars.map (·.rename T.place))).bind
            fun s ↦ .ret (s.addResult ⟨x', index⟩)) := fun vars x x' hx ↦
      (ih (index + 1) vars).bind fun s s' hs ↦
        .ret ⟨hs.vars, .cons ⟨rfl, hx⟩ hs.results, hs.jobs, hs.job_ok⟩
    have hpath : F'.render ++ [index] = T.place (F.render ++ [index]) := by
      rw [T.place_append, hF.render]
    rw [scanTokens, scanTokens, hpath]
    split
    · refine (matches_processVars hF index _ vars).bind ?_
      rintro vars' _ rfl
      exact hrest vars' _ _ (T.out_refl _)
    · rename_i htype
      exact (htry _ _ _ _ _ _ (hblock _ htype)).bind (hrest vars)
    · rename_i htype
      exact (hchoose _ _ _ _ _ _ (hblock _ htype)).bind (hrest vars)
    · exact hrest vars _ _ (T.out_refl _)
    · split_ifs
      · refine (ih (index + 1) vars).bind fun s s' hs ↦ .ret ⟨hs.vars, hs.results, ?_, ?_⟩
        · exact congrArg (⟨index, token⟩ :: ·) hs.jobs
        · intro j hj
          rcases List.mem_cons.mp hj with rfl | hj
          · exact ⟨hblock, hstatic⟩
          · exact hs.job_ok j hj
      · exact (T.static _ _ (T.cfg_vars vars hc) hstatic).bind (hrest vars)

/-! ## The recursions -/

theorem forall₂_orderedInsert {x y : Response} (hxy : T.Resp x y) {l l' : List Response}
    (h : List.Forall₂ T.Resp l l') :
    List.Forall₂ T.Resp (l.orderedInsert (fun a b ↦ a.index ≤ b.index) x)
      (l'.orderedInsert (fun a b ↦ a.index ≤ b.index) y) := by
  induction h with
  | nil => exact .cons hxy .nil
  | @cons a b l l' hab hl ih =>
    rw [List.orderedInsert, List.orderedInsert, hxy.1, hab.1]
    split_ifs
    · exact .cons hxy (.cons hab hl)
    · exact .cons hab ih

theorem val_contents {l l' : List Response} (h : List.Forall₂ T.Resp l l') :
    T.M.val (l.flatMap Response.content) (l'.flatMap Response.content) := by
  induction h with
  | nil => exact T.out_refl []
  | cons hab _ ih => exact T.out_append hab.2 ih

theorem val_assembleResults {l l' : List Response} (h : List.Forall₂ T.Resp l l') :
    T.M.val (assembleResults l) (assembleResults l') := by
  refine val_contents ?_
  induction h with
  | nil => exact .nil
  | cons hab _ ih => exact forall₂_orderedInsert hab ih

variable (T) in
/-- The parser does the same at this depth for texts shorter than `n`. -/
def LevelTwin {d : ℕ} (deeper : Deeper d) (n : ℕ) : Prop :=
  ∀ F F' entry entry' input c c' hd hd', input.length < n → F.Twin T.place F' → T.Cfg c c' →
    T.Doc input → (parseLevel P deeper F entry input c hd).Matches T.M T.M.val
      (parseLevel P deeper F' entry' input c' hd')

variable {n : ℕ}

theorem matches_processChooseBlock (hlevel : T.LevelTwin deeper n) (hF : F.Twin T.place F')
    (hc : T.Cfg c c') (hd : c.maxDepth = d) (hd' : c'.maxDepth = d) {raw : Bytes}
    (hraw : raw.length ≤ n) (hblock : T.Block .choose raw) (site site' : Site) :
    (processChooseBlock P deeper F site path c hd raw).Matches T.M T.M.val
      (processChooseBlock P deeper F' site' (T.place path) c' hd' raw) := by
  obtain ⟨hdocs, hdoc⟩ := T.block_choose hblock
  rw [processChooseBlock, processChooseBlock]
  refine matches_chooseBranch hc hdocs hdoc (fun body hbody hdoc ↦ ?_) site site'
  exact hlevel _ _ _ _ _ _ _ _ _ (hbody.trans_le hraw) ⟨rfl, hF.chain⟩ hc hdoc

theorem matches_processTryBlock (hdeeper : T.DeeperTwin deeper) (hlevel : T.LevelTwin deeper n)
    (hF : F.Twin T.place F') (hc : T.Cfg c c') (hd : c.maxDepth = d) (hd' : c'.maxDepth = d)
    {raw : Bytes} (hraw : raw.length ≤ n) (hblock : T.Block .try_ raw) (site site' : Site) :
    (processTryBlock P deeper F site path start c hd raw).Matches T.M T.M.val
      (processTryBlock P deeper F' site' (T.place path) start c' hd' raw) := by
  induction hlen : raw.length using Nat.strong_induction_on generalizing raw path with
  | _ len ih =>
    rw [processTryBlock, processTryBlock]
    by_cases hattempt : (extractTryBlocks raw).1 = []
    · rw [dif_pos hattempt, dif_pos hattempt]
      exact .ret (T.out_refl _)
    · rw [dif_neg hattempt, dif_neg hattempt]
      obtain ⟨hbody, hdoc⟩ := T.block_try hblock
      have hlt := length_lt_of_extractTryBlocks.1 hattempt
      rw [← T.place_append, ← T.place_append, processAttemptContent, processAttemptContent]
      refine Prog.Matches.bind (?_ : Prog.Matches T.M
        (fun r r' : Bytes × Bool ↦ T.M.val r.1 r'.1 ∧ r.2 = r'.2) _ _) ?_
      · refine (matches_attemptTokens hF hc (fun token h ↦ T.attempt hbody h)
          (fun path raw' hraw' hblock' ↦ ?_) (fun path raw' hraw' hblock' ↦ ?_)
          fun path token t inc inc' hinc ↦ ?_).bind fun r r' hr ↦ ?_
        · exact ih raw'.length (by omega) (by omega) hblock' rfl
        · exact matches_processChooseBlock hlevel hF hc hd hd' (by omega) hblock' site site'
        · exact matches_parseIncluded hdeeper hF hc hd hd' token hinc site site'
        · exact .ret ⟨val_assembleResults hr.1, hr.2⟩
      · rintro ⟨result, hasError⟩ ⟨result', _⟩ ⟨hresult, rfl⟩
        cases hasError with
        | false => exact .ret hresult
        | true =>
          simp only [if_true]
          split_ifs with hexcept
          · have hlt := length_lt_of_extractTryBlocks.2 hexcept
            exact hlevel _ _ _ _ _ _ _ _ _ (by omega) ⟨rfl, hF.chain⟩ hc hdoc
          · exact .ret (T.out_refl _)

theorem levelTwin (hdeeper : T.DeeperTwin deeper) (n : ℕ) : T.LevelTwin deeper n := by
  induction n with
  | zero => exact fun _ _ _ _ _ _ _ _ _ h ↦ absurd h (Nat.not_lt_zero _)
  | succ n ih =>
    intro F F' entry entry' input c c' hd hd' hn hF hc hdoc
    have hn := Nat.lt_succ_iff.mp hn
    have hcfg := T.cfg_forRender F.render hc
    rw [← hF.render] at hcfg
    have hvars := T.vars hcfg
    have hworkers := (T.agrees hcfg).maxWorkers
    obtain ⟨hop, hres⟩ := T.enter entry entry' hc
    rw [parseLevel, parseLevel]
    refine matches_ask_bind hop fun start _ hr ↦ ?_
    obtain rfl := hres _ _ hr
    dsimp only
    rw [hvars]
    refine (matches_scanTokens hF hcfg (fun token h ↦ T.doc hdoc h)
      (fun site site' path vars raw hraw hblock ↦ ?_)
      fun site site' path vars raw hraw hblock ↦ ?_).bind fun scanned scanned' hs ↦ ?_
    · exact matches_processTryBlock hdeeper ih hF (T.cfg_vars vars hcfg) _ _ (hraw.trans hn) hblock _ _
    · exact matches_processChooseBlock ih hF (T.cfg_vars vars hcfg) _ _ (hraw.trans hn) hblock _ _
    · obtain ⟨vars, results, jobs⟩ := scanned
      obtain ⟨vars', results', jobs'⟩ := scanned'
      obtain ⟨hvars, hresults, hjobs, hok⟩ := hs
      dsimp only at hvars hjobs hok
      subst hvars hjobs
      have hw : min (c'.forRender P F'.render).maxWorkers.toNat jobs'.length =
          min (c.forRender P F.render).maxWorkers.toNat jobs'.length := by rw [hworkers]
      dsimp only
      rw [hw]
      split_ifs
      · exact .ret (val_assembleResults hresults)
      · refine (Prog.Matches.fork fun i ↦ ?_).bind fun rs rs' hrs ↦ ?_
        · exact matches_processJob hdeeper hF (T.cfg_vars vars hcfg) _ _
            (hok _ (List.getElem_mem i.2)).1
        · obtain ⟨hop, hres⟩ := T.collect jobs'.length
          refine matches_ask_bind hop fun received _ hr ↦ ?_
          obtain rfl := hres _ _ hr
          refine .ret (val_assembleResults (List.rel_append hresults ?_))
          exact List.forall₂_map_left_iff.mpr (List.forall₂_map_right_iff.mpr
            (List.forall₂_same.mpr fun i _ ↦ ⟨rfl, hrs i⟩))

theorem mesiParse_eq {F : Frame} {entry : Entry} {input : Bytes} (hd : c.maxDepth = d) :
    mesiParse P F entry input c =
      parseLevel P (d := d) (fun F entry input c _ ↦ mesiParse P F entry input c) F entry input c
        hd := by
  subst hd
  rw [mesiParse]

/-- **The same render twice.** -/
theorem matches_mesiParse {F F' : Frame} {input : Bytes} {c c' : EsiParserConfig}
    (hF : F.Twin T.place F') (hc : T.Cfg c c') (hdoc : T.Doc input) (entry entry' : Entry) :
    (mesiParse P F entry input c).Matches T.M T.M.val (mesiParse P F' entry' input c') := by
  induction hdepth : c.maxDepth using Nat.strong_induction_on
    generalizing F F' entry entry' input c c' with
  | _ d ih =>
    rw [mesiParse_eq hdepth, mesiParse_eq ((T.agrees hc).maxDepth.trans hdepth)]
    refine levelTwin (fun F F' entry entry' input c c' h h' hF hc hdoc ↦ ?_) (input.length + 1) _ _
      _ _ _ _ _ _ _ (Nat.lt_succ_self _) hF hc hdoc
    exact ih c.maxDepth h hF hc hdoc entry entry' rfl

end RenderTwin

end GoMesi
