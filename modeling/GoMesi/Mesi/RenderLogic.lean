import GoMesi.Interleaving.Ghost
import GoMesi.Mesi.Parser

/-!
# One induction over the parser

Every property of runs in this development says what a thread may ask for, depending on what it has
learned. Over the parser such a property is an induction over nine mutually recursive functions. It
is done once here. A `RenderLogic` is a ghost state with three predicates, for a render in its first
pass, for a token, and for a configuration to fetch with, and one rule for each operation and each
way back into `MESIParse`. `RenderLogic.safe_mesiParse` is the conclusion.

The ghost states are ordered by what is known in them. A thread only learns, so what holds of a
render still holds when a render inside of it has returned.
-/

namespace GoMesi

open Strings Interleaving

/-- A text that is being rendered: where, with which configuration, and since when. -/
structure RenderCtx where
  frame : Frame
  config : EsiParserConfig
  start : Time

/-- A token that is being rendered: the top-level token it belongs to, and its own place. -/
structure TokenCtx extends RenderCtx where
  site : Site
  path : Path

/-- `MESIParse` may be entered, and its first pass then starts as `Top` demands. -/
def Entering (P : Platform) {G : Type} (γ : Ghost renderSignature G) (Top : RenderCtx → G → Prop)
    (F : Frame) (entry : Entry) (config : EsiParserConfig) (g : G) : Prop :=
  γ.ok g (.enter entry config.timeout config.vars) ∧
    ∀ t g', γ.next g (.enter entry config.timeout config.vars) t g' →
      Top ⟨F, config.forRender P F.render, t⟩ g'

/-- The thread has started the fetch `id`. -/
def Spawned {G : Type} [Preorder G] (γ : Ghost renderSignature G) (id : FetchId) (g : G) : Prop :=
  ∃ request t g₀ r g₁, γ.next g₀ (.spawn id request t) r g₁ ∧ g₁ ≤ g

/-- An element that has been parsed, with its two URLs evaluated. -/
def Parsed (P : Platform) (token : EsiIncludeToken) : Prop :=
  ∃ raw src alt, parseInclude P raw = some { token with src, alt }

theorem Parsed.of_eq {P : Platform} {raw : Bytes} {token : EsiIncludeToken}
    (h : parseInclude P raw = some token) : Parsed P token :=
  ⟨raw, token.src, token.alt, h⟩

/-- What has to be known to reason about all the threads of a render. -/
structure RenderLogic (P : Platform) (G : Type) [Preorder G] where
  /-- The ghost state. -/
  γ : Ghost renderSignature G
  /-- A render in its first pass. -/
  Top : RenderCtx → G → Prop
  /-- A token. -/
  Inv : TokenCtx → G → Prop
  /-- A configuration to fetch with, made with a clock reading. -/
  Fit : TokenCtx → EsiParserConfig → Time → G → Prop
  next_le : ∀ {g o r g'}, γ.next g o r g' → g ≤ g'
  top_mono : ∀ {C g g'}, g ≤ g' → Top C g → Top C g'
  inv_mono : ∀ {C g g'}, g ≤ g' → Inv C g → Inv C g'
  fit_mono : ∀ {C c t g g'}, g ≤ g' → Fit C c t g → Fit C c t g'
  lookup : ∀ {C g key}, Inv C g → γ.ok g (.lookup C.site C.config.vars key)
  since : ∀ {C g budget attr}, Inv C g → γ.ok g (.since C.start budget attr)
  intn : ∀ {C g n}, Inv C g → 0 < n → γ.ok g (.intn C.path n)
  wait : ∀ {C g slot}, Inv C g → Spawned γ ⟨C.path, slot⟩ g → γ.ok g (.wait ⟨C.path, slot⟩)
  select : ∀ {C g slots}, Inv C g → slots ≠ [] → (∀ slot ∈ slots, Spawned γ ⟨C.path, slot⟩ g) →
    γ.ok g (.select C.path slots)
  /-- A reading makes the configuration of an include fit to fetch with. -/
  fit : ∀ {C g token t g'}, Inv C g → Parsed P token →
    γ.next g (.since C.start (C.config.overrideConfig P token).timeout token.timeout) t g' →
      Fit C (C.config.forInclude P token C.start t) t g'
  spawn : ∀ {C g c t slot url}, Inv C g → Fit C c t g → 1 ≤ c.maxDepth →
    γ.ok g (.spawn ⟨C.path, slot⟩ ⟨url, c.toFetchConfig, c.maxDepth :: C.frame.chain⟩ t)
  now : ∀ {C g c t}, Inv C g → Fit C c t g → γ.ok g (.now t)
  /-- A configuration stays fit when the time that a first fetch took is subtracted. -/
  refit : ∀ {C g c t s g₁ g₂ attr}, Inv C g → Fit C c t g → γ.next g (.now t) s g₁ → g₁ ≤ g₂ →
    γ.ok g₂ (.since s c.timeout attr) ∧ ∀ t' g₃, γ.next g₂ (.since s c.timeout attr) t' g₃ →
      Fit C (c.withElapsedTime (elapsed s t')) t' g₃
  /-- The body of an include. -/
  include_ : ∀ {C g token t e t' g'}, Inv C g → Parsed P token →
    Fit C (C.config.forInclude P token C.start t) t g → C.config.canGoDeeper e →
    γ.next g (.since C.start (C.config.forInclude P token C.start t).timeout token.timeout) t' g' →
      Entering P γ Top
        ⟨C.frame.job, C.path, (C.config.forInclude P token C.start t).maxDepth :: C.frame.chain⟩
        (.include_ C.site ⟨C.frame.chain, C.start, t, t'⟩)
        ((C.config.forInclude P token C.start t).decreaseMaxDepth.withElapsedTime
          (elapsed C.start t')) g'
  /-- A branch of a choose block. -/
  choose : ∀ {C g}, Inv C g →
    Entering P γ Top ⟨C.frame.job, C.path, C.frame.chain⟩ (.choose C.site) C.config g
  /-- An except body. -/
  except_ : ∀ {C g}, Inv C g →
    Entering P γ Top ⟨C.frame.job, C.path, C.frame.chain⟩ (.except_ C.site) C.config g
  /-- A token inside a token. -/
  sub : ∀ {C g} i, Inv C g → Inv { C with path := C.path ++ [i] } g
  /-- A token of a render. -/
  token : ∀ {C g} i, Top C g → Inv ⟨C, ⟨C.frame.render, i⟩, C.frame.render ++ [i]⟩ g
  newMap : ∀ {C g i bindings}, Top C g → C.config.vars = none →
    γ.ok g (.newMap ⟨C.frame.render, i⟩ bindings) ∧
      ∀ r g', γ.next g (.newMap ⟨C.frame.render, i⟩ bindings) r g' →
        Top { C with config := { C.config with vars := some (.made C.frame.render) } } g'
  range : ∀ {C g bindings}, Top C g → γ.ok g (.range bindings)
  assign : ∀ {C g i m k v}, Top C g → C.config.vars = some m →
    γ.ok g (.assign C.frame.job ⟨C.frame.render, i⟩ m k v)
  /-- The jobs of a render. -/
  fork : ∀ {C g n} (ids : Fin n → ℕ), Top C g → 0 < n → Function.Injective ids →
    ∃ gs : Fin n → G, γ.fork g (min C.config.maxWorkers.toNat n) gs ∧ ∀ i,
      Inv ⟨{ C with frame := { C.frame with job := C.frame.render ++ [ids i] } },
        ⟨C.frame.render, ids i⟩, C.frame.render ++ [ids i]⟩ (gs i)
  collect : ∀ {C g n}, Top C g → γ.ok g (.collect n)

namespace RenderLogic

variable {P : Platform} {G α β : Type} [Preorder G] (L : RenderLogic P G) {g : G}

/-- All that the program asks for is permitted. -/
def Safe (g : G) (p : Render α) : Prop := p.Walk L.γ g fun g' _ ↦ g ≤ g'

variable {L}

theorem Safe.ret {a : α} : L.Safe g (.ret a) := le_refl g

theorem Safe.op {o : RenderOp} {k : renderSignature.Res o → Render α} (hok : L.γ.ok g o)
    (hk : ∀ r g', L.γ.next g o r g' → L.Safe g' (k r)) : L.Safe g (.op o k) :=
  ⟨hok, fun r g' hg' ↦ (hk r g' hg').mono fun _ _ h ↦ (L.next_le hg').trans h⟩

theorem Safe.bind {p : Render α} {f : α → Render β} (hp : L.Safe g p)
    (hf : ∀ a g', g ≤ g' → L.Safe g' (f a)) : L.Safe g (p.bind f) :=
  Prog.walk_bind.mpr (hp.mono fun g' a hg' ↦ (hf a g' hg').mono fun _ _ h ↦ hg'.trans h)

theorem Safe.ask_bind {o : RenderOp} {k : renderSignature.Res o → Render α} (hok : L.γ.ok g o)
    (hk : ∀ r g', L.γ.next g o r g' → L.Safe g' (k r)) : L.Safe g ((ask o).bind k) :=
  Safe.op hok hk

theorem Safe.walk {p : Render α} (hp : L.Safe g p) : p.Walk L.γ g fun _ _ ↦ True :=
  hp.mono fun _ _ _ ↦ trivial

theorem Safe.ask {o : RenderOp} (hok : L.γ.ok g o) : L.Safe g (ask o) :=
  Safe.op hok fun _ _ _ ↦ Safe.ret

variable {C : TokenCtx}

/-! ## Expressions -/

theorem safe_resolveRef (inner : Bytes) (h : L.Inv C g) :
    L.Safe g (resolveRef C.site C.config inner) := by
  refine Safe.bind (Safe.ask (L.lookup h)) fun val g' hg' ↦ ?_
  cases val with
  | some val => exact Safe.ret
  | none =>
    dsimp only
    split
    · split_ifs
      · exact Safe.ret
      · exact Safe.bind (Safe.ask (L.lookup (L.inv_mono hg' h))) fun _ _ _ ↦ Safe.ret
    · split
      · exact Safe.ret
      · split <;> exact Safe.ret

theorem safe_evaluateExpression (expr : Bytes) (h : L.Inv C g) :
    L.Safe g (evaluateExpression C.site expr C.config) := by
  rw [evaluateExpression]
  induction segments expr generalizing g with
  | nil => exact Safe.ret
  | cons s rest ih =>
    cases s with
    | text c => exact Safe.bind (ih h) fun _ _ _ ↦ Safe.ret
    | ref inner =>
      refine Safe.bind (safe_resolveRef inner h) fun _ g' hg' ↦ ?_
      exact Safe.bind (ih (L.inv_mono hg' h)) fun _ _ _ ↦ Safe.ret

/-! ## Includes -/

variable {c : EsiParserConfig} {t : Time}

/-- The element of a token, as its fetches know it. -/
def element (C : TokenCtx) : Element := ⟨C.path, C.frame.chain⟩

theorem spawned_mono {id : FetchId} {g g' : G} (h : Spawned L.γ id g) (hle : g ≤ g') :
    Spawned L.γ id g' := by
  obtain ⟨request, t, g₀, r, g₁, hnext, h₁⟩ := h
  exact ⟨request, t, g₀, r, g₁, hnext, h₁.trans hle⟩

/-- Go on after a fetch has been started. -/
theorem safe_spawnFetch_bind (slot : ℕ) (url : Bytes) {k : Unit → Render α} (h : L.Inv C g)
    (hc : L.Fit C c t g) (hd : 1 ≤ c.maxDepth)
    (hk : ∀ g', g ≤ g' → Spawned L.γ ⟨C.path, slot⟩ g' → L.Safe g' (k ())) :
    L.Safe g ((spawnFetch (element C) slot url c t).bind k) :=
  Safe.ask_bind (L.spawn h hc hd) fun r g' hnext ↦
    hk g' (L.next_le hnext) ⟨_, _, _, r, _, hnext, le_rfl⟩

theorem safe_fetchUrl (slot : ℕ) (url : Bytes) (h : L.Inv C g) (hc : L.Fit C c t g)
    (hd : 1 ≤ c.maxDepth) : L.Safe g (fetchUrl (element C) slot url c t) :=
  safe_spawnFetch_bind slot url h hc hd fun _ hg' hspawned ↦
    Safe.ask (L.wait (L.inv_mono hg' h) hspawned)

theorem safe_selectUrl (ratio : ABRatio) (token : EsiIncludeToken) (h : L.Inv C g) :
    L.Safe g (ratio.selectUrl token C.path) := by
  rw [ABRatio.selectUrl]
  split_ifs
  · exact Safe.ret
  · exact Safe.ret
  · exact Safe.ret
  · exact Safe.bind (Safe.ask (L.intn h (by omega))) fun _ _ _ ↦ Safe.ret

theorem safe_fetchAB (token : EsiIncludeToken) (h : L.Inv C g) (hc : L.Fit C c t g)
    (hd : 1 ≤ c.maxDepth) : L.Safe g (fetchAB P (element C) token c t) := by
  rw [fetchAB]
  split
  · exact Safe.ret
  · refine Safe.bind (safe_selectUrl _ _ h) fun _ _ hg' ↦ ?_
    exact safe_fetchUrl _ _ (L.inv_mono hg' h) (L.fit_mono hg' hc) hd

theorem safe_fetchConcurrent (token : EsiIncludeToken) (h : L.Inv C g) (hc : L.Fit C c t g)
    (hd : 1 ≤ c.maxDepth) : L.Safe g (fetchConcurrent (element C) token c t) := by
  rw [fetchConcurrent]
  split_ifs
  · exact safe_fetchUrl _ _ h hc hd
  · refine safe_spawnFetch_bind 0 _ h hc hd fun g₁ h₁ hsrc ↦ ?_
    refine safe_spawnFetch_bind 1 _ (L.inv_mono h₁ h) (L.fit_mono h₁ hc) hd fun g₂ h₂ halt ↦ ?_
    have hinv := L.inv_mono (h₁.trans h₂) h
    have hspawned : ∀ slot ∈ [0, 1], Spawned L.γ ⟨C.path, slot⟩ g₂ := by
      intro slot hslot
      rcases List.mem_pair.mp hslot with rfl | rfl
      · exact spawned_mono hsrc h₂
      · exact halt
    refine Safe.bind (Safe.ask (L.select hinv (by simp) hspawned)) fun first g₃ h₃ ↦ ?_
    cases first with
    | error err => exact Safe.ret
    | ok first =>
      obtain ⟨slot, result⟩ := first
      cases result with
      | ok data => exact Safe.ret
      | error err =>
        have hne : [0, 1].erase slot ≠ [] := by
          rw [← List.length_pos_iff, List.length_erase]
          split_ifs <;> simp
        refine Safe.bind (Safe.ask (L.select (L.inv_mono h₃ hinv) hne fun i hi ↦
          spawned_mono (hspawned i (List.mem_of_mem_erase hi)) h₃)) fun second _ _ ↦ ?_
        cases second <;> exact Safe.ret

theorem safe_fetchFallback (token : EsiIncludeToken) (h : L.Inv C g) (hc : L.Fit C c t g)
    (hd : 1 ≤ c.maxDepth) : L.Safe g (fetchFallback (element C) token c t) := by
  refine Safe.ask_bind (L.now h hc) fun s g₁ hnow ↦ ?_
  have h₁ := L.next_le hnow
  refine Safe.bind (safe_fetchUrl 0 token.src (L.inv_mono h₁ h) (L.fit_mono h₁ hc) hd)
    fun r g₂ h₂ ↦ ?_
  cases r with
  | ok data => exact Safe.ret
  | error err =>
    dsimp only
    split_ifs
    · obtain ⟨hok, hfit⟩ := L.refit h hc hnow h₂
      refine Safe.ask_bind hok fun t' g₃ hnext ↦ ?_
      have h₃ := h₁.trans (h₂.trans (L.next_le hnext))
      exact safe_fetchUrl 1 token.alt (L.inv_mono h₃ h) (hfit t' g₃ hnext) hd
    · exact Safe.ret

theorem safe_fetch (token : EsiIncludeToken) (h : L.Inv C g) (hc : L.Fit C c t g) :
    L.Safe g (token.fetch P (element C) c t) := by
  rw [EsiIncludeToken.fetch]
  split_ifs with honly
  · exact Safe.ret
  · exact safe_fetchAB token h hc (c.one_le_maxDepth honly)
  · exact safe_fetchConcurrent token h hc (c.one_le_maxDepth honly)
  · exact safe_fetchFallback token h hc (c.one_le_maxDepth honly)

theorem safe_toString (token : EsiIncludeToken) (h : L.Inv C g) (hc : L.Fit C c t g) :
    L.Safe g (token.toString P (element C) c t) :=
  Safe.bind (safe_fetch token h hc) fun _ _ _ ↦ Safe.ret

/-- The reading that comes back with the result is the one the configuration was made with. -/
theorem walk_fetchInclude {token : EsiIncludeToken} (hparsed : Parsed P token) (h : L.Inv C g) :
    (fetchInclude P C.frame C.site C.path C.config C.start token).Walk L.γ g fun g' r ↦
      g ≤ g' ∧ L.Fit C (C.config.forInclude P token C.start r.1) r.1 g' := by
  refine Prog.walk_bind.mpr ((safe_evaluateExpression token.src h).mono fun g₁ src h₁ ↦ ?_)
  have hinv₁ := L.inv_mono h₁ h
  refine Prog.walk_bind.mpr ((safe_evaluateExpression token.alt hinv₁).mono fun g₂ alt h₂ ↦ ?_)
  have hinv₂ := L.inv_mono h₂ hinv₁
  refine Prog.walk_bind.mpr ⟨L.since hinv₂, fun t g₃ hnext ↦ ?_⟩
  have h₃ := L.next_le hnext
  obtain ⟨raw, src', alt', hraw⟩ := hparsed
  -- the override looks at neither of the evaluated attributes
  have hfit : L.Fit C (C.config.forInclude P { token with src, alt } C.start t) t g₃ :=
    L.fit hinv₂ ⟨raw, src', alt', hraw⟩ hnext
  refine Prog.walk_bind.mpr
    ((safe_toString (L := L) (C := C) { token with src, alt } (L.inv_mono h₃ hinv₂) hfit).mono
      fun g₄ inc h₄ ↦ ?_)
  exact ⟨h₁.trans (h₂.trans (h₃.trans h₄)), L.fit_mono h₄ hfit⟩

/-! ## Functions that come back to the parser

What is assumed of the parser at smaller depths is what is shown of it in the end. -/

/-- The parser is safe for what lies deeper. -/
def DeeperSafe (L : RenderLogic P G) {d : ℕ} (deeper : Deeper d) : Prop :=
  ∀ F entry input config h g, Entering P L.γ L.Top F entry config g →
    L.Safe g (deeper F entry input config h)

variable {d : ℕ} {deeper : Deeper d}

theorem safe_parseIncluded (hdeeper : L.DeeperSafe deeper) (hd : C.config.maxDepth = d)
    {token : EsiIncludeToken} (hparsed : Parsed P token) (inc : Included) (h : L.Inv C g)
    (hc : L.Fit C (C.config.forInclude P token C.start t) t g) :
    L.Safe g (parseIncluded P deeper C.frame C.site C.path C.start C.config hd token t inc) := by
  refine Safe.ask_bind (L.since h) fun t' g₁ hnext ↦ ?_
  have h₁ := L.next_le hnext
  dsimp only
  split_ifs with hdeep
  · refine Safe.ask_bind (L.since (L.inv_mono h₁ h)) fun t'' g₂ hnext' ↦ ?_
    exact hdeeper _ _ _ _ _ _
      (L.include_ (L.inv_mono h₁ h) hparsed (L.fit_mono h₁ hc) hdeep.1 hnext')
  · exact Safe.ret

theorem safe_processJob (hdeeper : L.DeeperSafe deeper) {R : RenderCtx}
    (hd : R.config.maxDepth = d) (job : EsiJob)
    (h : L.Inv ⟨{ R with frame := { R.frame with job := R.frame.render ++ [job.id] } },
      ⟨R.frame.render, job.id⟩, R.frame.render ++ [job.id]⟩ g) :
    L.Safe g (processJob P deeper R.frame R.start R.config hd job) := by
  rw [processJob]
  split_ifs
  · split
    · exact Safe.ret
    · rename_i token htoken
      have hparsed := Parsed.of_eq htoken
      refine Prog.walk_bind.mpr ((walk_fetchInclude hparsed h).mono ?_)
      rintro g' ⟨t, inc⟩ ⟨hg', hfit⟩
      exact (safe_parseIncluded hdeeper hd hparsed inc (L.inv_mono hg' h) hfit).mono
        fun _ _ hle ↦ hg'.trans hle
  · exact Safe.ret

theorem safe_chooseBranch {bound : ℕ} {parse : (body : Bytes) → body.length < bound → Render Bytes}
    {otherwise : Bytes} {hotherwise : otherwise ≠ [] → otherwise.length < bound}
    {whens : List EsiWhenBlock} {hwhens : ∀ w ∈ whens, w.body.length < bound} (h : L.Inv C g)
    (hparse : ∀ body hbody g', g ≤ g' → L.Safe g' (parse body hbody)) :
    L.Safe g (chooseBranch C.site C.config parse otherwise hotherwise whens hwhens) := by
  induction whens generalizing g with
  | nil =>
    rw [chooseBranch]
    split_ifs
    · exact hparse _ _ g le_rfl
    · exact Safe.ret
  | cons w whens ih =>
    refine Safe.bind (Safe.bind (safe_evaluateExpression _ h) fun _ _ _ ↦ Safe.ret)
      fun b g' hg' ↦ ?_
    split_ifs
    · exact hparse _ _ g' hg'
    · exact ih (L.inv_mono hg' h) fun body hbody g'' hg'' ↦ hparse body hbody g'' (hg'.trans hg'')

theorem safe_attemptTokens {bound : ℕ} {path : Path}
    {tryBlock chooseBlock : Path → (raw : Bytes) → raw.length ≤ bound → Render Bytes}
    {parse : Path → EsiIncludeToken → Time → Included → Render Bytes} {tokens : List EsiToken}
    {hbound : ∀ t ∈ tokens, t.esiTagContent.length ≤ bound} {index : ℕ}
    (h : L.Inv { C with path } g)
    (htry : ∀ i raw hraw g', L.Inv { C with path := path ++ [i] } g' →
      L.Safe g' (tryBlock (path ++ [i]) raw hraw))
    (hchoose : ∀ i raw hraw g', L.Inv { C with path := path ++ [i] } g' →
      L.Safe g' (chooseBlock (path ++ [i]) raw hraw))
    (hparse : ∀ i token t inc g', L.Inv { C with path := path ++ [i] } g' → Parsed P token →
      L.Fit { C with path := path ++ [i] } (C.config.forInclude P token C.start t) t g' →
        L.Safe g' (parse (path ++ [i]) token t inc)) :
    L.Safe g (attemptTokens P C.frame C.site path C.start C.config tryBlock chooseBlock parse
      tokens hbound index) := by
  induction tokens generalizing g index with
  | nil => exact Safe.ret
  | cons token tokens ih =>
    have hsub := L.sub index h
    have hrest : ∀ (x : Response) g', g ≤ g' →
        L.Safe g' ((attemptTokens P C.frame C.site path C.start C.config tryBlock chooseBlock parse
          tokens (fun t h ↦ hbound t (List.mem_cons_of_mem _ h)) (index + 1)).bind
            fun r ↦ .ret (x :: r.1, r.2)) := fun x g' hg' ↦
      Safe.bind (ih (L.inv_mono hg' h)) fun _ _ _ ↦ Safe.ret
    rw [attemptTokens]
    dsimp only
    split
    · split
      · exact Safe.ret
      · rename_i token htoken
        have hparsed := Parsed.of_eq htoken
        refine Prog.walk_bind.mpr ((walk_fetchInclude (C := { C with path := path ++ [index] })
          hparsed hsub).mono ?_)
        rintro g₁ ⟨t, inc⟩ ⟨h₁, hfit⟩
        dsimp only
        split_ifs
        · exact h₁
        · refine (Safe.bind (hparse index _ t inc g₁ (L.inv_mono h₁ hsub) hparsed hfit)
            fun data g₂ h₂ ↦ ?_).mono fun _ _ hle ↦ h₁.trans hle
          exact hrest _ g₂ (h₁.trans h₂)
    · exact Safe.bind (htry index _ _ g hsub) fun data g' hg' ↦ hrest _ g' hg'
    · exact Safe.bind (hchoose index _ _ g hsub) fun data g' hg' ↦ hrest _ g' hg'
    · exact hrest _ g le_rfl
    · split_ifs
      · exact hrest _ g le_rfl
      · exact Safe.bind (safe_evaluateExpression (C := { C with path }) _ h)
          fun _ g' hg' ↦ hrest _ g' hg'

/-! ## The first pass -/

/-- The same render with other `Variables`. -/
def withVars (R : RenderCtx) (vars : Option MapRef) : RenderCtx :=
  { R with config := { R.config with vars } }

variable {R : RenderCtx}

theorem safe_assignAll {m : MapRef} {i : ℕ} (h : L.Top R g) (hm : R.config.vars = some m)
    (bindings : List (Sigma fun _ : Bytes ↦ Bytes)) :
    L.Safe g (assignAll R.frame ⟨R.frame.render, i⟩ m bindings) := by
  induction bindings generalizing g with
  | nil => exact Safe.ret
  | cons b bindings ih =>
    exact Safe.bind (Safe.ask (L.assign h hm)) fun _ _ hg' ↦ ih (L.top_mono hg' h)

theorem walk_processVars {vars : Option MapRef} (i : ℕ) (raw : Bytes)
    (h : L.Top (withVars R vars) g) :
    (processVars R.frame ⟨R.frame.render, i⟩ raw vars).Walk L.γ g fun g' vars' ↦
      g ≤ g' ∧ L.Top (withVars R vars') g' := by
  cases vars with
  | none =>
    exact ⟨(L.newMap h rfl).1, fun r g' hg' ↦ ⟨L.next_le hg', (L.newMap h rfl).2 r g' hg'⟩⟩
  | some m =>
    refine Prog.walk_bind.mpr ⟨L.range h, fun order g₁ hg₁ ↦ ?_⟩
    have h₁ := L.next_le hg₁
    refine Prog.walk_bind.mpr
      ((safe_assignAll (R := withVars R (some m)) (L.top_mono h₁ h) rfl order.1).mono fun g₂ _ h₂ ↦ ?_)
    exact ⟨h₁.trans h₂, L.top_mono (h₁.trans h₂) h⟩

/-- After the first pass the render is as before, with the `Variables` it ended with, and the jobs
are those of different tokens. -/
theorem walk_scanTokens {bound : ℕ}
    {tryBlock chooseBlock : Site → Path → Option MapRef → (raw : Bytes) → raw.length ≤ bound →
      Render Bytes} {tokens : List EsiToken}
    {hbound : ∀ t ∈ tokens, t.esiTagContent.length ≤ bound} {index : ℕ} {vars : Option MapRef}
    (h : L.Top (withVars R vars) g)
    (htry : ∀ i vars raw hraw g',
      L.Inv ⟨withVars R vars, ⟨R.frame.render, i⟩, R.frame.render ++ [i]⟩ g' →
        L.Safe g' (tryBlock ⟨R.frame.render, i⟩ (R.frame.render ++ [i]) vars raw hraw))
    (hchoose : ∀ i vars raw hraw g',
      L.Inv ⟨withVars R vars, ⟨R.frame.render, i⟩, R.frame.render ++ [i]⟩ g' →
        L.Safe g' (chooseBlock ⟨R.frame.render, i⟩ (R.frame.render ++ [i]) vars raw hraw)) :
    (scanTokens R.frame R.config tryBlock chooseBlock tokens hbound index vars).Walk L.γ g
      fun g' s ↦ g ≤ g' ∧ L.Top (withVars R s.vars) g' ∧
        (s.jobs.map EsiJob.id).Pairwise (· < ·) ∧ ∀ j ∈ s.jobs, index ≤ j.id := by
  induction tokens generalizing g index vars with
  | nil => exact ⟨le_rfl, h, by simp, by simp⟩
  | cons token tokens ih =>
    have hinv := L.token index h
    -- the rest of the loop, after a token that was rendered on the spot
    have hrest : ∀ (x : Response) vars g', g ≤ g' → L.Top (withVars R vars) g' →
        ((scanTokens R.frame R.config tryBlock chooseBlock tokens
          (fun t h ↦ hbound t (List.mem_cons_of_mem _ h)) (index + 1) vars).bind
            fun s ↦ .ret (s.addResult x)).Walk L.γ g' fun g' s ↦ g ≤ g' ∧
              L.Top (withVars R s.vars) g' ∧ (s.jobs.map EsiJob.id).Pairwise (· < ·) ∧
                ∀ j ∈ s.jobs, index ≤ j.id := by
      refine fun x vars g' hg' htop ↦ Prog.walk_bind.mpr ((ih htop).mono fun g'' s hs ↦ ?_)
      exact ⟨hg'.trans hs.1, hs.2.1, hs.2.2.1, fun j hj ↦ (Nat.le_succ _).trans (hs.2.2.2 j hj)⟩
    rw [scanTokens]
    split
    · refine Prog.walk_bind.mpr ((walk_processVars index _ h).mono fun g' vars' hg' ↦ ?_)
      exact hrest _ vars' g' hg'.1 hg'.2
    · exact Prog.walk_bind.mpr ((htry index vars _ _ g hinv).mono fun g' _ hg' ↦
        hrest _ vars g' hg' (L.top_mono hg' h))
    · exact Prog.walk_bind.mpr ((hchoose index vars _ _ g hinv).mono fun g' _ hg' ↦
        hrest _ vars g' hg' (L.top_mono hg' h))
    · exact hrest _ vars g le_rfl h
    · split_ifs
      · refine Prog.walk_bind.mpr ((ih h).mono fun g'' s hs ↦ ⟨hs.1, hs.2.1, ?_, ?_⟩)
        · exact List.pairwise_cons.mpr ⟨fun i hi ↦ by
            obtain ⟨j, hj, rfl⟩ := List.mem_map.mp hi
            exact Nat.lt_of_succ_le (hs.2.2.2 j hj), hs.2.2.1⟩
        · intro j hj
          rcases List.mem_cons.mp hj with rfl | hj
          · exact le_rfl
          · exact (Nat.le_succ _).trans (hs.2.2.2 j hj)
      · exact Prog.walk_bind.mpr ((safe_evaluateExpression _ hinv).mono fun g' _ hg' ↦
          hrest _ vars g' hg' (L.top_mono hg' h))

/-! ## The recursions -/

/-- The parser is safe at this depth for texts shorter than `n`. -/
def LevelSafe (L : RenderLogic P G) {d : ℕ} (deeper : Deeper d) (n : ℕ) : Prop :=
  ∀ F entry input config hd g, input.length < n → Entering P L.γ L.Top F entry config g →
    L.Safe g (parseLevel P deeper F entry input config hd)

variable {n : ℕ}

theorem safe_processChooseBlock (hlevel : L.LevelSafe deeper n) (hd : C.config.maxDepth = d)
    (raw : Bytes) (hraw : raw.length ≤ n) (h : L.Inv C g) :
    L.Safe g (processChooseBlock P deeper C.frame C.site C.path C.config hd raw) := by
  rw [processChooseBlock]
  exact safe_chooseBranch h fun body hbody g' hg' ↦
    hlevel _ _ _ _ _ _ (hbody.trans_le hraw) (L.choose (L.inv_mono hg' h))

theorem safe_processTryBlock (hdeeper : L.DeeperSafe deeper) (hlevel : L.LevelSafe deeper n)
    (hd : C.config.maxDepth = d) (raw : Bytes) (hraw : raw.length ≤ n) (h : L.Inv C g) :
    L.Safe g (processTryBlock P deeper C.frame C.site C.path C.start C.config hd raw) := by
  induction hlen : raw.length using Nat.strong_induction_on generalizing raw C g with
  | _ len ih =>
    rw [processTryBlock]
    by_cases hattempt : (extractTryBlocks raw).1 = []
    · rw [dif_pos hattempt]
      exact Safe.ret
    · rw [dif_neg hattempt]
      have hlt := length_lt_of_extractTryBlocks.1 hattempt
      refine Safe.bind ?_ fun result g' hg' ↦ ?_
      · rw [processAttemptContent]
        refine Safe.bind ?_ fun _ _ _ ↦ Safe.ret
        refine safe_attemptTokens (L.sub 0 h) (fun i raw' hraw' g' hinv ↦ ?_)
          (fun i raw' hraw' g' hinv ↦ ?_) fun i token t inc g' hinv hparsed hfit ↦ ?_
        · exact ih raw'.length (by omega) (C := { C with path := C.path ++ [0] ++ [i] }) hd raw'
            (by omega) hinv rfl
        · exact safe_processChooseBlock (C := { C with path := C.path ++ [0] ++ [i] }) hlevel hd raw'
            (by omega) hinv
        · exact safe_parseIncluded (C := { C with path := C.path ++ [0] ++ [i] }) hdeeper hd hparsed
            inc hinv hfit
      · obtain ⟨result, hasError⟩ := result
        cases hasError with
        | false => exact Safe.ret
        | true =>
          simp only [if_true]
          split_ifs with hexcept
          · have hlt' := length_lt_of_extractTryBlocks.2 hexcept
            exact hlevel _ _ _ _ _ _ (by omega)
              (L.except_ (C := { C with path := C.path ++ [1] }) (L.sub 1 (L.inv_mono hg' h)))
          · exact Safe.ret

theorem safe_parseLevel (hdeeper : L.DeeperSafe deeper) (n : ℕ) : L.LevelSafe deeper n := by
  induction n with
  | zero => exact fun _ _ _ _ _ _ h ↦ absurd h (Nat.not_lt_zero _)
  | succ n ih =>
    intro F entry input config hd g hlen hentering
    have hlen := Nat.lt_succ_iff.mp hlen
    rw [parseLevel]
    refine Safe.ask_bind hentering.1 fun start g₁ hnext ↦ ?_
    have htop := hentering.2 start g₁ hnext
    refine Prog.walk_bind.mpr ((walk_scanTokens (L := L) (R := ⟨F, config.forRender P F.render, start⟩)
      htop (fun i vars raw hraw g' hinv ↦ ?_) fun i vars raw hraw g' hinv ↦ ?_).mono
        fun g₂ scanned hscan ↦ ?_)
    · exact safe_processTryBlock hdeeper ih _ raw (hraw.trans hlen) hinv
    · exact safe_processChooseBlock ih _ raw (hraw.trans hlen) hinv
    · obtain ⟨hle, htop₂, hids, -⟩ := hscan
      split_ifs with hjobs
      · exact hle
      · have hpos : 0 < scanned.jobs.length := List.length_pos_of_ne_nil hjobs
        have hinj : Function.Injective fun i : Fin scanned.jobs.length ↦ (scanned.jobs[i]).id := by
          intro i j hij
          have hnodup : (scanned.jobs.map EsiJob.id).Nodup := hids.imp fun h ↦ h.ne
          have hjob := List.inj_on_of_nodup_map hnodup (List.getElem_mem i.2) (List.getElem_mem j.2) hij
          exact Fin.ext ((List.Nodup.of_map _ hnodup).getElem_inj_iff.mp hjob)
        obtain ⟨gs, hfork, hinv⟩ := L.fork _ htop₂ hpos hinj
        refine ⟨gs, hfork, fun i ↦ ?_, fun rs ↦ ?_⟩
        · exact (safe_processJob hdeeper (R := withVars _ scanned.vars) _ _ (hinv i)).mono
            fun _ _ _ ↦ trivial
        · exact (Safe.ask_bind (L.collect htop₂) fun _ _ _ ↦ Safe.ret).mono
            fun _ _ hle' ↦ hle.trans hle'

/-- **The parser is safe.** Whatever the answers, a render that may be entered asks for nothing that
is not permitted. -/
theorem safe_mesiParse {F : Frame} {entry : Entry} {input : Bytes} {config : EsiParserConfig}
    (h : Entering P L.γ L.Top F entry config g) : L.Safe g (mesiParse P F entry input config) := by
  induction hdepth : config.maxDepth using Nat.strong_induction_on
    generalizing F entry input config g with
  | _ d ih =>
    rw [mesiParse]
    refine safe_parseLevel (fun F' entry' input' config' hlt g' h' ↦ ?_) (input.length + 1) _ _ _ _ _
      _ (Nat.lt_succ_self _) h
    exact ih config'.maxDepth (hdepth ▸ hlt) h' rfl

end RenderLogic

end GoMesi
