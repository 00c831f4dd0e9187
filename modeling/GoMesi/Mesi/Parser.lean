import GoMesi.Mesi.Blocks
import GoMesi.Mesi.Include

/-!
# The parser

`MESIParse` and the functions it is mutually recursive with. A render of a page first goes over the
tokens in order: static text is evaluated, vars blocks change the configuration, try and choose
blocks are rendered. Include elements wait until that is done and are then the jobs of a worker
pool.

A render comes back to `MESIParse` in four places. A branch of a choose block and an except body
keep the depth and are shorter than the text they are part of. The body of an include, in a job or
in an attempt, is new text of any length, but the depth is smaller. There are two recursions here
accordingly: one on the length, for a fixed depth `d` and a given way to render at smaller depths
(`Deeper d`), and around it one on the depth (`mesiParse`).

The loops over tokens and over when branches are recursions on lists. What they do with a block
comes to them as an argument, together with a bound on the length of the block.
-/

namespace GoMesi

open Strings Interleaving

/-! ## Results -/

/-- `Response` -/
structure Response where
  content : Bytes
  index : ℕ
  deriving DecidableEq, Repr

/-- `assembleResults`: the contents in the order of the indices. -/
def assembleResults (results : List Response) : Bytes :=
  (results.insertionSort fun x y ↦ x.index ≤ y.index).flatMap Response.content

/-- `esiJob` -/
structure EsiJob where
  id : ℕ
  token : EsiToken
  deriving DecidableEq, Repr

/-- What the first pass over the tokens of a render leaves: the `Variables` of its configuration,
the results so far, and the jobs. -/
structure Scanned where
  vars : Option MapRef
  results : List Response
  jobs : List EsiJob

def Scanned.addResult (s : Scanned) (r : Response) : Scanned := { s with results := r :: s.results }

def Scanned.addJob (s : Scanned) (j : EsiJob) : Scanned := { s with jobs := j :: s.jobs }

/-! ## The parts that do not come back to `MESIParse` -/

/-- Where a piece of text is rendered. -/
structure Frame where
  /-- The job of a worker it belongs to, by the path of the include element. -/
  job : Path
  /-- The render it is a part of. -/
  render : Path
  /-- The chain of fetches that led to it. -/
  chain : List ℕ
  deriving DecidableEq, Repr

/-- Where a page is rendered. -/
def Frame.page : Frame := ⟨[], [], []⟩

/-- The beginning of `MESIParse`: the semaphore of the render and the number of workers. -/
def EsiParserConfig.forRender (P : Platform) (config : EsiParserConfig) (render : Path) :
    EsiParserConfig :=
  let config :=
    if config.maxConcurrentRequests < 0 then { config with maxConcurrentRequests := 0 } else config
  let config :=
    if config.maxConcurrentRequests > 0 then
      { config with requestSemaphore := some ⟨render, config.maxConcurrentRequests.toNat⟩ }
    else config
  config.normalizeMaxWorkers P

/-- `parseInclude` -/
def parseInclude (P : Platform) (input : Bytes) : Option EsiIncludeToken := P.xmlUnmarshal input

/-- The configuration an include is fetched with, given the clock reading `t`. -/
def EsiParserConfig.forInclude (P : Platform) (config : EsiParserConfig) (token : EsiIncludeToken)
    (start t : Time) : EsiParserConfig :=
  (config.overrideConfig P token).withElapsedTime (elapsed start t)

/-- Set the bindings of a vars block one by one. -/
def assignAll (F : Frame) (site : Site) (vars : MapRef) :
    List (Sigma fun _ : Bytes ↦ Bytes) → Render Unit
  | [] => return ()
  | ⟨k, v⟩ :: rest => do
    ask (.assign F.job site vars k v)
    assignAll F site vars rest

/-- A vars block changes the `Variables` of the configuration: a nil map is replaced by the new
one, any other map is written to. -/
def processVars (F : Frame) (site : Site) (raw : Bytes) :
    Option MapRef → Render (Option MapRef)
  | none => do
    ask (.newMap site (parseVarsBlock raw))
    return some (.made F.render)
  | some m => do
    let order ← ask (.range (parseVarsBlock raw))
    assignAll F site m order.1
    return some m

/-- The beginning of what a worker and an attempt do with an include: evaluate the attributes and
fetch. The clock reading the fetch was made with comes along. -/
def fetchInclude (P : Platform) (F : Frame) (site : Site) (path : Path) (config : EsiParserConfig)
    (start : Time) (token : EsiIncludeToken) : Render (Time × Included) := do
  let src ← evaluateExpression site token.src config
  let alt ← evaluateExpression site token.alt config
  let token := { token with src, alt }
  let t ← ask (.since start (config.overrideConfig P token).timeout token.timeout)
  let inc ← token.toString P ⟨path, F.chain⟩ (config.forInclude P token start t) t
  return (t, inc)

/-- `evaluateTest` -/
def evaluateTest (site : Site) (expr : Bytes) (config : EsiParserConfig) : Render Bool := do
  let expr ← evaluateExpression site (trimSpace expr) config
  return decide (expr = lit "true" ∨ expr = lit "1")

/-! ## Depth and length -/

theorem EsiParserConfig.maxDepth_overrideTimeout (P : Platform) (c : EsiParserConfig)
    (token : EsiIncludeToken) : (c.overrideTimeout P token).maxDepth = c.maxDepth := by
  rw [overrideTimeout]
  split_ifs
  · rfl
  · split
    · split_ifs <;> rfl
    · rfl

/-- The attributes of an include override the timeout and the depth and nothing else. -/
theorem EsiParserConfig.overrideConfig_eq (P : Platform) (c : EsiParserConfig)
    (token : EsiIncludeToken) :
    ∃ timeout maxDepth, c.overrideConfig P token = { c with timeout, maxDepth } := by
  have htimeout : ∃ timeout, c.overrideTimeout P token = { c with timeout } := by
    rw [overrideTimeout]
    split_ifs
    · exact ⟨c.timeout, rfl⟩
    · split
      · split_ifs
        · exact ⟨_, rfl⟩
        · exact ⟨c.timeout, rfl⟩
      · exact ⟨c.timeout, rfl⟩
  obtain ⟨timeout, htimeout⟩ := htimeout
  rw [overrideConfig, htimeout, overrideMaxDepth]
  split_ifs
  · exact ⟨timeout, c.maxDepth, rfl⟩
  · split
    · exact ⟨timeout, c.maxDepth, rfl⟩
    · split_ifs
      · exact ⟨timeout, _, rfl⟩
      · exact ⟨timeout, c.maxDepth, rfl⟩

theorem EsiParserConfig.forInclude_eq (P : Platform) (c : EsiParserConfig)
    (token : EsiIncludeToken) (start t : Time) :
    ∃ timeout maxDepth, c.forInclude P token start t = { c with timeout, maxDepth } := by
  obtain ⟨timeout, maxDepth, h⟩ := c.overrideConfig_eq P token
  rw [forInclude, h, withElapsedTime]
  exact ⟨_, maxDepth, rfl⟩

/-- A `max-depth` attribute never widens the depth. -/
theorem EsiParserConfig.maxDepth_overrideConfig_le (P : Platform) (c : EsiParserConfig)
    (token : EsiIncludeToken) : (c.overrideConfig P token).maxDepth ≤ c.maxDepth := by
  rw [overrideConfig, overrideMaxDepth, ← c.maxDepth_overrideTimeout P token]
  split_ifs
  · exact le_rfl
  · split
    · exact le_rfl
    · split_ifs with h
      · exact h.le
      · exact le_rfl

theorem EsiParserConfig.maxDepth_forInclude_le (P : Platform) (c : EsiParserConfig)
    (token : EsiIncludeToken) (start t : Time) :
    (c.forInclude P token start t).maxDepth ≤ c.maxDepth :=
  c.maxDepth_overrideConfig_le P token

/-- The depth goes down from an include to its body. -/
theorem EsiParserConfig.maxDepth_decreased_lt (P : Platform) (c : EsiParserConfig)
    (token : EsiIncludeToken) (start t : Time) {e e' : Duration} (h : c.canGoDeeper e) :
    ((c.forInclude P token start t).decreaseMaxDepth.withElapsedTime e').maxDepth
      < c.maxDepth := by
  have hpos : 1 ≤ c.maxDepth := (of_decide_eq_true h).1
  have hle := c.maxDepth_forInclude_le P token start t
  show (c.forInclude P token start t).maxDepth - 1 < c.maxDepth
  omega

theorem EsiParserConfig.maxDepth_forRender (P : Platform) (c : EsiParserConfig) (render : Path) :
    (c.forRender P render).maxDepth = c.maxDepth := by
  simp only [forRender, normalizeMaxWorkers]
  split_ifs <;> rfl

/-- The body of an attempt or an except is shorter than its block. -/
theorem length_lt_of_extractTryBlocks {raw : Bytes} :
    ((extractTryBlocks raw).1 ≠ [] → (extractTryBlocks raw).1.length < raw.length) ∧
      ((extractTryBlocks raw).2 ≠ [] → (extractTryBlocks raw).2.length < raw.length) := by
  rcases eq_or_ne raw [] with rfl | hraw
  · exact ⟨fun h ↦ absurd (by decide) h, fun h ↦ absurd (by decide) h⟩
  · exact ⟨fun _ ↦ (length_extractTryBlocks_lt hraw).1, fun _ ↦ (length_extractTryBlocks_lt hraw).2⟩

/-- The branches of a choose block are shorter than the block. -/
theorem length_lt_of_extractChooseBlocks {raw : Bytes} :
    (∀ w ∈ (extractChooseBlocks raw).1, w.body.length < raw.length) ∧
      ((extractChooseBlocks raw).2 ≠ [] → (extractChooseBlocks raw).2.length < raw.length) := by
  rcases eq_or_ne raw [] with rfl | hraw
  · exact ⟨by decide, fun h ↦ absurd (by decide) h⟩
  · exact ⟨(length_extractChooseBlocks_lt hraw).1, fun _ ↦ (length_extractChooseBlocks_lt hraw).2⟩

theorem length_le_of_mem_tokens {input : Bytes} {token : EsiToken}
    (h : token ∈ esiTokenizer (unescape input)) : token.esiTagContent.length ≤ input.length :=
  (length_le_of_mem_esiTokenizer h).trans (length_unescape_le input)

/-- `MESIParse` for configurations of a depth below `d`. -/
abbrev Deeper (d : ℕ) : Type 1 :=
  Frame → Entry → Bytes → (config : EsiParserConfig) → config.maxDepth < d → Render Bytes

/-! ## Includes -/

section

variable (P : Platform) {d : ℕ} (deeper : Deeper d)

/-- The end of what a worker and an attempt do with an include: parse what it shows. -/
def parseIncluded (F : Frame) (site : Site) (path : Path) (start : Time) (config : EsiParserConfig)
    (hd : config.maxDepth = d) (token : EsiIncludeToken) (t : Time) (inc : Included) :
    Render Bytes := do
  let newConfig := config.forInclude P token start t
  let t' ← ask (.since start config.timeout token.timeout)
  if h : config.canGoDeeper (elapsed start t') ∧
      (inc.isEsiResponse ∨ ¬ newConfig.parseOnHeader) then
    let t'' ← ask (.since start newConfig.timeout token.timeout)
    deeper ⟨F.job, path, newConfig.maxDepth :: F.chain⟩ (.include_ site ⟨F.chain, start, t, t''⟩)
      inc.data (newConfig.decreaseMaxDepth.withElapsedTime (elapsed start t''))
      (hd ▸ config.maxDepth_decreased_lt P token start t h.1)
  else return inc.data

/-- The body of a worker's loop. -/
def processJob (F : Frame) (start : Time) (config : EsiParserConfig) (hd : config.maxDepth = d)
    (job : EsiJob) : Render Bytes :=
  if job.token.esiTagType = some .include_ then
    match parseInclude P job.token.esiTagContent with
    | none => return []
    | some token => do
      let path := F.render ++ [job.id]
      let site : Site := ⟨F.render, job.id⟩
      let (t, inc) ← fetchInclude P F site path config start token
      parseIncluded P deeper { F with job := path } site path start config hd token t inc
  else return []

end

/-! ## The loops -/

/-- The first loop of `MESIParse`, from the token number `index` on. It calls `tryBlock` and
`chooseBlock` with the place of the token, the `Variables` at that point, and the block. -/
def scanTokens (F : Frame) (config : EsiParserConfig) {bound : ℕ}
    (tryBlock chooseBlock : Site → Path → Option MapRef → (raw : Bytes) → raw.length ≤ bound →
      Render Bytes) :
    (tokens : List EsiToken) → (∀ t ∈ tokens, t.esiTagContent.length ≤ bound) → (index : ℕ) →
      (vars : Option MapRef) → Render Scanned
  | [], _, _, vars => return ⟨vars, [], []⟩
  | token :: tokens, hbound, index, vars => do
    have hraw : token.esiTagContent.length ≤ bound := hbound token (by simp)
    have hbound : ∀ t ∈ tokens, t.esiTagContent.length ≤ bound := fun t h ↦
      hbound t (List.mem_cons_of_mem _ h)
    let site : Site := ⟨F.render, index⟩
    let path := F.render ++ [index]
    let raw := token.esiTagContent
    match token.esiTagType with
    | some .vars =>
      let vars ← processVars F site raw vars
      let s ← scanTokens F config tryBlock chooseBlock tokens hbound (index + 1) vars
      return s.addResult ⟨[], index⟩
    | some .try_ =>
      let content ← tryBlock site path vars raw hraw
      let s ← scanTokens F config tryBlock chooseBlock tokens hbound (index + 1) vars
      return s.addResult ⟨content, index⟩
    | some .choose =>
      let content ← chooseBlock site path vars raw hraw
      let s ← scanTokens F config tryBlock chooseBlock tokens hbound (index + 1) vars
      return s.addResult ⟨content, index⟩
    | some .inline =>
      let s ← scanTokens F config tryBlock chooseBlock tokens hbound (index + 1) vars
      return s.addResult ⟨processInlineBlock raw, index⟩
    | _ =>
      if ¬ token.isEsi then
        let content ← evaluateExpression site token.staticContent { config with vars }
        let s ← scanTokens F config tryBlock chooseBlock tokens hbound (index + 1) vars
        return s.addResult ⟨content, index⟩
      else
        let s ← scanTokens F config tryBlock chooseBlock tokens hbound (index + 1) vars
        return s.addJob ⟨index, token⟩

/-- The loop of `processChooseBlock`: `parse` the first when branch whose test is true, and the
otherwise branch if there is none. -/
def chooseBranch (site : Site) (config : EsiParserConfig) {bound : ℕ}
    (parse : (body : Bytes) → body.length < bound → Render Bytes) (otherwise : Bytes)
    (hotherwise : otherwise ≠ [] → otherwise.length < bound) :
    (whens : List EsiWhenBlock) → (∀ w ∈ whens, w.body.length < bound) → Render Bytes
  | [], _ => if h : otherwise ≠ [] then parse otherwise (hotherwise h) else return []
  | w :: whens, hwhens => do
    if ← evaluateTest site w.test config then parse w.body (hwhens w (by simp))
    else
      chooseBranch site config parse otherwise hotherwise whens fun w h ↦
        hwhens w (List.mem_cons_of_mem _ h)

/-- The loop of `processAttemptContent`, from the token number `index` on: the results, and whether
an include has failed, which ends the loop. It calls `parse` with what an include shows. -/
def attemptTokens (P : Platform) (F : Frame) (site : Site) (path : Path) (start : Time)
    (config : EsiParserConfig) {bound : ℕ}
    (tryBlock chooseBlock : Path → (raw : Bytes) → raw.length ≤ bound → Render Bytes)
    (parse : Path → EsiIncludeToken → Time → Included → Render Bytes) :
    (tokens : List EsiToken) → (∀ t ∈ tokens, t.esiTagContent.length ≤ bound) → (index : ℕ) →
      Render (List Response × Bool)
  | [], _, _ => return ([], false)
  | token :: tokens, hbound, index => do
    have hraw : token.esiTagContent.length ≤ bound := hbound token (by simp)
    have hbound : ∀ t ∈ tokens, t.esiTagContent.length ≤ bound := fun t h ↦
      hbound t (List.mem_cons_of_mem _ h)
    let path' := path ++ [index]
    let raw := token.esiTagContent
    match token.esiTagType with
    | some .include_ =>
      match parseInclude P raw with
      | none => return ([], true)
      | some include_ =>
        let (t, inc) ← fetchInclude P F site path' config start include_
        if inc.err.isSome then return ([], true)
        else
          let data ← parse path' include_ t inc
          let (results, hasError) ← attemptTokens P F site path start config tryBlock chooseBlock
            parse tokens hbound (index + 1)
          return (⟨data, index⟩ :: results, hasError)
    | some .try_ =>
      let data ← tryBlock path' raw hraw
      let (results, hasError) ← attemptTokens P F site path start config tryBlock chooseBlock
        parse tokens hbound (index + 1)
      return (⟨data, index⟩ :: results, hasError)
    | some .choose =>
      let data ← chooseBlock path' raw hraw
      let (results, hasError) ← attemptTokens P F site path start config tryBlock chooseBlock
        parse tokens hbound (index + 1)
      return (⟨data, index⟩ :: results, hasError)
    | some .inline =>
      let (results, hasError) ← attemptTokens P F site path start config tryBlock chooseBlock
        parse tokens hbound (index + 1)
      return (⟨processInlineBlock raw, index⟩ :: results, hasError)
    | _ =>
      let content ←
        if ¬ token.isEsi then evaluateExpression site token.staticContent config else pure []
      let (results, hasError) ← attemptTokens P F site path start config tryBlock chooseBlock
        parse tokens hbound (index + 1)
      return (⟨content, index⟩ :: results, hasError)

/-! ## The recursion on the length -/

mutual

/-- `MESIParse` at the depth `d`. -/
def parseLevel (P : Platform) {d : ℕ} (deeper : Deeper d) (F : Frame) (entry : Entry)
    (input : Bytes) (config : EsiParserConfig) (hd : config.maxDepth = d) : Render Bytes := do
  let start ← ask (.enter entry config.timeout config.vars)
  let config' := config.forRender P F.render
  have hd' : config'.maxDepth = d := (config.maxDepth_forRender P F.render).trans hd
  let scanned ← scanTokens F config'
    (fun site path vars raw _ ↦
      processTryBlock P deeper F site path start { config' with vars } hd' raw)
    (fun site path vars raw _ ↦
      processChooseBlock P deeper F site path { config' with vars } hd' raw)
    (esiTokenizer (unescape input)) (fun _ h ↦ length_le_of_mem_tokens h) 0 config'.vars
  if scanned.jobs = [] then return assembleResults scanned.results
  else
    let rs ← Prog.fork (min config'.maxWorkers.toNat scanned.jobs.length)
      fun i : Fin scanned.jobs.length ↦
        processJob P deeper F start { config' with vars := scanned.vars } hd' scanned.jobs[i]
    let received ← ask (.collect scanned.jobs.length)
    return assembleResults
      (scanned.results ++ received.1.map fun i ↦ ⟨rs i, scanned.jobs[i].id⟩)
termination_by 4 * input.length + 3

/-- `processChooseBlock` -/
def processChooseBlock (P : Platform) {d : ℕ} (deeper : Deeper d) (F : Frame) (site : Site)
    (path : Path) (config : EsiParserConfig) (hd : config.maxDepth = d) (raw : Bytes) :
    Render Bytes :=
  chooseBranch site config
    (fun body _ ↦ parseLevel P deeper ⟨F.job, path, F.chain⟩ (.choose site) body config hd)
    (extractChooseBlocks raw).2 length_lt_of_extractChooseBlocks.2
    (extractChooseBlocks raw).1 length_lt_of_extractChooseBlocks.1
termination_by 4 * raw.length

/-- `processTryBlock` -/
def processTryBlock (P : Platform) {d : ℕ} (deeper : Deeper d) (F : Frame) (site : Site)
    (path : Path) (start : Time) (config : EsiParserConfig) (hd : config.maxDepth = d)
    (raw : Bytes) : Render Bytes :=
  if hattempt : (extractTryBlocks raw).1 = [] then return []
  else do
    have := length_lt_of_extractTryBlocks.1 hattempt
    let (result, hasError) ←
      processAttemptContent P deeper F site (path ++ [0]) start config hd (extractTryBlocks raw).1
    if hasError then
      if hexcept : (extractTryBlocks raw).2 ≠ [] then
        have := length_lt_of_extractTryBlocks.2 hexcept
        parseLevel P deeper ⟨F.job, path ++ [1], F.chain⟩ (.except_ site)
          (extractTryBlocks raw).2 config hd
      else return []
    else return result
termination_by 4 * raw.length + 1

/-- `processAttemptContent`: what the attempt renders to, and whether one of its includes has
failed. -/
def processAttemptContent (P : Platform) {d : ℕ} (deeper : Deeper d) (F : Frame) (site : Site)
    (path : Path) (start : Time) (config : EsiParserConfig) (hd : config.maxDepth = d)
    (content : Bytes) : Render (Bytes × Bool) := do
  let (results, hasError) ← attemptTokens P F site path start config
    (fun path raw _ ↦ processTryBlock P deeper F site path start config hd raw)
    (fun path raw _ ↦ processChooseBlock P deeper F site path config hd raw)
    (fun path token t inc ↦ parseIncluded P deeper F site path start config hd token t inc)
    (esiTokenizer content) (fun _ h ↦ length_le_of_mem_esiTokenizer h) 0
  return (assembleResults results, hasError)
termination_by 4 * content.length + 2

end

/-! ## The recursion on the depth -/

/-- `MESIParse` -/
def mesiParse (P : Platform) (F : Frame) (entry : Entry) (input : Bytes)
    (config : EsiParserConfig) : Render Bytes :=
  parseLevel P (fun F entry input config _ ↦ mesiParse P F entry input config) F entry input
    config rfl
termination_by config.maxDepth

/-- What a worker and an attempt show for the result of a fetch. -/
def showFetched (P : Platform) (F : Frame) (site : Site) (path : Path) (start : Time)
    (config : EsiParserConfig) (token : EsiIncludeToken) (t : Time) (result : FetchResult) :
    Render Bytes :=
  parseIncluded P (fun F entry input config _ ↦ mesiParse P F entry input config) F site path start
    config rfl token t (token.shown (config.forInclude P token start t) result)

end GoMesi
