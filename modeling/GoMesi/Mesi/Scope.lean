import GoMesi.Mesi.Variables

/-!
# The scope of a vars block

A vars block is meant for what comes after it in the document. The scope of a token, so understood,
is a function of the text: the bindings the page was given, overridden by the blocks before the
token. Static text, choose blocks and try blocks are evaluated in the first pass, in the order of
the document. The attributes of include elements are not: they are evaluated when the first pass is
over, and so with the blocks that come after them, too.

What a token sees is its scope when the blocks after an include element, and those in the renders
inside of the page, change no binding of the page (`visible_eq_scope`). The proof follows the
bindings of the page through its first pass, with one thread and a ghost state that is the content
of the map, and keeps it from then on.
-/

namespace GoMesi

open Strings Interleaving

/-! ## Scopes -/

/-- Bindings overridden by those of a vars block. -/
def overridden (vars : Bytes → Option Bytes) (block : StringMap) : Bytes → Option Bytes :=
  fun key ↦ (block.lookup key).or (vars key)

/-- The bindings after a token, given those before it. -/
def scopeAfter (vars : Bytes → Option Bytes) (token : EsiToken) : Bytes → Option Bytes :=
  if token.esiTagType = some .vars then overridden vars (parseVarsBlock token.esiTagContent)
  else vars

/-- The bindings for the token number `i`: the initial ones, overridden by the vars blocks before
the token. -/
def scope (tokens : List EsiToken) (init : Bytes → Option Bytes) (i : ℕ) : Bytes → Option Bytes :=
  (tokens.take i).foldl scopeAfter init

/-- There is an include element before the token number `i`. -/
def includeBefore (tokens : List EsiToken) (i : ℕ) : Bool :=
  (tokens.take i).any fun t ↦ t.esiTagType = some .include_

section

variable {tokens : List EsiToken} {init : Bytes → Option Bytes} {i : ℕ} {token : EsiToken}

theorem scope_succ (h : tokens[i]? = some token) :
    scope tokens init (i + 1) = scopeAfter (scope tokens init i) token := by
  rw [scope, List.take_add_one, h, Option.toList_some, List.foldl_append, List.foldl_cons,
    List.foldl_nil, scope]

theorem scope_succ_of_ne (h : tokens[i]? = some token) (hne : token.esiTagType ≠ some .vars) :
    scope tokens init (i + 1) = scope tokens init i := by
  rw [scope_succ h, scopeAfter, if_neg hne]

theorem scope_succ_of_vars (h : tokens[i]? = some token) (hvars : token.esiTagType = some .vars) :
    scope tokens init (i + 1)
      = overridden (scope tokens init i) (parseVarsBlock token.esiTagContent) := by
  rw [scope_succ h, scopeAfter, if_pos hvars]

theorem includeBefore_of_lt {e : ℕ} (h : tokens[e]? = some token) (he : e < i)
    (hinclude : token.esiTagType = some .include_) : includeBefore tokens i = true := by
  refine List.any_eq_true.mpr ⟨token, List.mem_iff_getElem?.mpr ⟨e, ?_⟩, decide_eq_true hinclude⟩
  rw [List.getElem?_take_of_lt he, h]

end

/-- The bindings of a block, set one by one. -/
def assigned (vars : Bytes → Option Bytes) (bindings : List (Sigma fun _ : Bytes ↦ Bytes)) :
    Bytes → Option Bytes :=
  bindings.foldl (fun vars b ↦ Function.update vars b.1 (some b.2)) vars

theorem assigned_eq (vars : Bytes → Option Bytes) {bindings : List (Sigma fun _ : Bytes ↦ Bytes)}
    (h : bindings.NodupKeys) (key : Bytes) :
    assigned vars bindings key = (bindings.dlookup key).or (vars key) := by
  induction bindings generalizing vars with
  | nil => rfl
  | cons b bindings ih =>
    obtain ⟨hb, hbindings⟩ := List.nodupKeys_cons.mp h
    rw [show assigned vars (b :: bindings)
      = assigned (Function.update vars b.1 (some b.2)) bindings from rfl, ih _ hbindings]
    by_cases hkey : key = b.1
    · subst hkey
      rw [List.dlookup_eq_none.mpr hb, List.dlookup_cons_eq, Function.update_self]
      rfl
    · rw [Function.update_of_ne hkey, List.dlookup_cons_ne _ _ hkey]

/-- The order in which a map is gone over makes no difference. -/
theorem assigned_eq_overridden (vars : Bytes → Option Bytes) (block : StringMap)
    {order : List (Sigma fun _ : Bytes ↦ Bytes)} (h : order.Perm block.entries) :
    assigned vars order = overridden vars block := by
  have hnodup : order.NodupKeys := (List.perm_nodupKeys h).mpr block.nodupKeys
  funext key
  rw [assigned_eq vars hnodup, List.perm_dlookup key hnodup h]
  rfl

/-! ## What is known of the bindings of the page -/

/-- The `Variables` of the page, what they hold, and whether the first pass goes on. -/
structure PageVars where
  vars : Option MapRef
  bindings : Bytes → Option Bytes
  scanning : Bool

/-- Nothing is learned but what is written down. -/
instance : Preorder PageVars where
  le := Eq
  le_refl := Eq.refl
  le_trans _ _ _ := Eq.trans

/-- A token of the page is evaluated, or entered, with the bindings of its scope. -/
def InScope (sc : ℕ → Bytes → Option Bytes) (g : PageVars) : RenderOp → Prop
  | .lookup site vars _ => site.render = [] → vars = g.vars ∧ g.bindings = sc site.token
  | .enter (.choose site) _ vars => site.render = [] → vars = g.vars ∧ g.bindings = sc site.token
  | .enter (.except_ site) _ vars => site.render = [] → vars = g.vars ∧ g.bindings = sc site.token
  | _ => True

/-- Inside of its tokens the page has no vars blocks. -/
def insideGhost (sc : ℕ → Bytes → Option Bytes) : Ghost renderSignature PageVars where
  ok g o := InScope sc g o ∧
    match o with
    | .assign _ site _ _ _ => site.render ≠ []
    | .newMap site _ => site.render ≠ []
    | _ => True
  next g _ _ g' := g' = g
  fork g _ _ gs := ∀ i, gs i = { g with scanning := false }

/-- The vars blocks of the page change its bindings, in the first pass. After an include element
they change nothing. -/
def pageGhost (tokens : List EsiToken) (sc : ℕ → Bytes → Option Bytes) :
    Ghost renderSignature PageVars where
  ok g o := InScope sc g o ∧
    match o with
    | .assign _ site m _ _ => site.render = [] → g.scanning = true ∧ g.vars = some m
    | .newMap site _ => site.render = [] → g.scanning = true ∧ g.vars = none
    | _ => True
  next
    | g, .assign _ site _ key value, _, g' =>
      if site.render = [] then
        g' = { g with bindings := Function.update g.bindings key (some value) } ∧
          (includeBefore tokens site.token = true → g.bindings key = some value)
      else g' = g
    | g, .newMap site block, _, g' =>
      if site.render = [] then
        g' = { g with vars := some (.made []), bindings := overridden (fun _ ↦ none) block } ∧
          (includeBefore tokens site.token = true → block.entries = [])
      else g' = g
    | g, _, _, g' => g' = g
  fork g _ _ gs := ∀ i, gs i = { g with scanning := false }

theorem pageGhost_next_assign {tokens : List EsiToken} {sc : ℕ → Bytes → Option Bytes}
    {g g' : PageVars} {job : Path} {i : ℕ} {m : MapRef} {key value : Bytes} {r : Unit}
    (h : (pageGhost tokens sc).next g (.assign job ⟨[], i⟩ m key value) r g') :
    g' = { g with bindings := Function.update g.bindings key (some value) } ∧
      (includeBefore tokens i = true → g.bindings key = some value) := by
  simpa [pageGhost] using h

theorem pageGhost_next_newMap {tokens : List EsiToken} {sc : ℕ → Bytes → Option Bytes}
    {g g' : PageVars} {i : ℕ} {block : StringMap} {r : Unit}
    (h : (pageGhost tokens sc).next g (.newMap ⟨[], i⟩ block) r g') :
    g' = { g with vars := some (.made []), bindings := overridden (fun _ ↦ none) block } ∧
      (includeBefore tokens i = true → block.entries = []) := by
  simpa [pageGhost] using h

/-- A walk inside of a token is one of the page. -/
theorem walk_pageGhost {tokens : List EsiToken} {sc : ℕ → Bytes → Option Bytes} {α : Type}
    {p : Render α} {g : PageVars} {Q : PageVars → α → Prop} (hp : p.Walk (insideGhost sc) g Q) :
    p.Walk (pageGhost tokens sc) g Q := by
  refine hp.weaken ?_ ?_ ?_
  · intro g o hok
    refine ⟨hok.1, ?_⟩
    cases o with
    | assign | newMap => exact fun h ↦ absurd h hok.2
    | _ => trivial
  · intro g o r g' hok hnext
    cases o with
    | assign job site m key value =>
      exact (show g' = g by simpa [pageGhost, hok.2] using hnext)
    | newMap site block => exact (show g' = g by simpa [pageGhost, hok.2] using hnext)
    | _ => exact hnext
  · exact fun _ _ _ _ h ↦ h

/-- A token of the page, or one of a render inside of it. -/
structure ScopeInv (sc : ℕ → Bytes → Option Bytes) (C : TokenCtx) (g : PageVars) : Prop where
  path : C.path ≠ []
  render : C.site.render = C.frame.render
  page : C.frame.render = [] → C.config.vars = g.vars ∧ g.bindings = sc C.site.token

private theorem ScopeInv.inScope {sc : ℕ → Bytes → Option Bytes} {C : TokenCtx} {g : PageVars}
    (h : ScopeInv sc C g) (hsite : C.site.render = []) :
    C.config.vars = g.vars ∧ g.bindings = sc C.site.token :=
  h.page (h.render ▸ hsite)

/-- Inside of a token the bindings of the page are those of its scope. -/
def scopeLogic (P : Platform) (sc : ℕ → Bytes → Option Bytes) : RenderLogic P PageVars where
  γ := insideGhost sc
  Top C _ := C.frame.render ≠ []
  Inv := ScopeInv sc
  Fit _ _ _ _ := True
  next_le h := h.symm
  top_mono _ h := h
  inv_mono hle h := hle ▸ h
  fit_mono _ h := h
  lookup h := ⟨h.inScope, trivial⟩
  since _ := ⟨trivial, trivial⟩
  intn _ _ := ⟨trivial, trivial⟩
  wait _ _ := ⟨trivial, trivial⟩
  select _ _ _ := ⟨trivial, trivial⟩
  fit _ _ _ := trivial
  spawn _ _ _ := ⟨trivial, trivial⟩
  now _ _ := ⟨trivial, trivial⟩
  refit _ _ _ _ := ⟨⟨trivial, trivial⟩, fun _ _ _ ↦ trivial⟩
  include_ h _ _ _ _ := ⟨⟨trivial, trivial⟩, fun _ _ _ ↦ h.path⟩
  choose h := ⟨⟨h.inScope, trivial⟩, fun _ _ _ ↦ h.path⟩
  except_ h := ⟨⟨h.inScope, trivial⟩, fun _ _ _ ↦ h.path⟩
  sub i h := ⟨by simp, h.render, h.page⟩
  token i h := ⟨by simp, rfl, fun hnil ↦ absurd hnil h⟩
  newMap h _ := ⟨⟨trivial, h⟩, fun _ _ _ ↦ h⟩
  range _ := ⟨trivial, trivial⟩
  assign h _ := ⟨trivial, h⟩
  fork _ h _ _ :=
    ⟨fun _ ↦ _, fun _ ↦ rfl, fun _ ↦ ⟨by simp, rfl, fun hnil ↦ absurd hnil h⟩⟩
  collect _ := ⟨trivial, trivial⟩

/-! ## The first pass -/

section

variable {P : Platform} {tokens : List EsiToken} {init : Bytes → Option Bytes} {i : ℕ}
  {token : EsiToken} {g : PageVars}

/-- The first pass has come to the token number `i`. The include elements before it still have the
bindings of their scopes. -/
structure AtToken (tokens : List EsiToken) (init : Bytes → Option Bytes) (i : ℕ) (g : PageVars) :
    Prop where
  scanning : g.scanning = true
  bindings : g.bindings = scope tokens init i
  nil : g.vars = none → g.bindings = fun _ ↦ none
  includes : ∀ e < i, ∀ t, tokens[e]? = some t → t.esiTagType = some .include_ →
    scope tokens init e = scope tokens init i

theorem AtToken.succ (h : AtToken tokens init i g) (ht : tokens[i]? = some token)
    (hne : token.esiTagType ≠ some .vars) : AtToken tokens init (i + 1) g := by
  have hscope : scope tokens init (i + 1) = scope tokens init i := scope_succ_of_ne ht hne
  refine ⟨h.scanning, h.bindings.trans hscope.symm, h.nil, fun e he t hte hinclude ↦ ?_⟩
  rw [hscope]
  rcases Nat.lt_succ_iff_lt_or_eq.mp he with he | rfl
  · exact h.includes e he t hte hinclude
  · rfl

/-- After a vars block the page has the bindings of the next scope, which after an include element
are those it had. -/
theorem AtToken.succ_of_vars {g' : PageVars} (h : AtToken tokens init i g)
    (ht : tokens[i]? = some token) (hvars : token.esiTagType = some .vars)
    (hscanning : g'.scanning = true) (hnil : g'.vars ≠ none)
    (hbindings : g'.bindings = overridden g.bindings (parseVarsBlock token.esiTagContent))
    (hheld : includeBefore tokens i = true → g'.bindings = g.bindings) :
    AtToken tokens init (i + 1) g' := by
  have hscope : scope tokens init (i + 1) = _ := scope_succ_of_vars ht hvars
  have hnext : g'.bindings = scope tokens init (i + 1) := by rw [hbindings, h.bindings, hscope]
  refine ⟨hscanning, hnext, fun hnone ↦ absurd hnone hnil, fun e he t hte hinclude ↦ ?_⟩
  have hlt : e < i := by
    refine lt_of_le_of_ne (Nat.le_of_lt_succ he) fun heq ↦ ?_
    subst heq
    obtain rfl : token = t := Option.some.inj (ht.symm.trans hte)
    simp [hvars] at hinclude
  rw [← hnext, hheld (includeBefore_of_lt hte hlt hinclude), h.bindings]
  exact h.includes e hlt t hte hinclude

/-- The loop over the bindings of a vars block. -/
theorem walk_assignAll {m : MapRef} {sc : ℕ → Bytes → Option Bytes} (hm : g.vars = some m)
    (hscanning : g.scanning = true) (bindings : List (Sigma fun _ : Bytes ↦ Bytes)) :
    (assignAll .page ⟨[], i⟩ m bindings).Walk (pageGhost tokens sc) g fun g' _ ↦
      g' = { g with bindings := assigned g.bindings bindings } ∧
        (includeBefore tokens i = true → g'.bindings = g.bindings) := by
  induction bindings generalizing g with
  | nil => exact ⟨rfl, fun _ ↦ rfl⟩
  | cons b bindings ih =>
    refine ⟨⟨trivial, fun _ ↦ ⟨hscanning, hm⟩⟩, fun r g₁ hnext ↦ ?_⟩
    obtain ⟨rfl, hheld⟩ := pageGhost_next_assign hnext
    refine (ih (g := { g with bindings := Function.update g.bindings b.1 (some b.2) }) hm
      hscanning).mono fun g₂ _ h ↦ ⟨h.1, fun hinclude ↦ ?_⟩
    rw [h.2 hinclude]
    show Function.update g.bindings b.1 (some b.2) = g.bindings
    rw [← hheld hinclude, Function.update_eq_self]

theorem walk_processVars_page {sc : ℕ → Bytes → Option Bytes} (h : AtToken tokens init i g)
    (ht : tokens[i]? = some token) (hvars : token.esiTagType = some .vars) :
    (processVars .page ⟨[], i⟩ token.esiTagContent g.vars).Walk (pageGhost tokens sc) g
      fun g' vars ↦ AtToken tokens init (i + 1) g' ∧ g'.vars = vars := by
  obtain ⟨vars, bindings, scanning⟩ := g
  cases vars with
  | none =>
    have hnone : bindings = fun _ ↦ none := h.nil rfl
    refine ⟨⟨trivial, fun _ ↦ ⟨h.scanning, rfl⟩⟩, fun r g₁ hnext ↦ ?_⟩
    obtain ⟨rfl, hheld⟩ := pageGhost_next_newMap hnext
    refine ⟨h.succ_of_vars ht hvars h.scanning (by simp) (by rw [hnone]) fun hinclude ↦ ?_, rfl⟩
    funext key
    have hempty : (parseVarsBlock token.esiTagContent).lookup key = none := by
      rw [AList.lookup, hheld hinclude]
      rfl
    simp [overridden, hempty, hnone]
  | some m =>
    refine Prog.walk_bind.mpr ⟨⟨trivial, trivial⟩, fun order g₁ hnext ↦ ?_⟩
    obtain rfl : g₁ = _ := hnext
    refine Prog.walk_bind.mpr ((walk_assignAll (g := ⟨some m, bindings, scanning⟩) rfl h.scanning
      order.1).mono fun g₂ _ hg₂ ↦ ?_)
    obtain ⟨rfl, hheld⟩ := hg₂
    exact ⟨h.succ_of_vars ht hvars h.scanning (by simp)
      (assigned_eq_overridden bindings _ order.2) hheld, rfl⟩

/-- The first pass keeps to the scopes, given that try and choose blocks do. The jobs it leaves are
tokens of the page. -/
theorem walk_scanTokens_page {config : EsiParserConfig} (start : Time) {bound : ℕ}
    {tryBlock chooseBlock : Site → Path → Option MapRef → (raw : Bytes) → raw.length ≤ bound →
      Render Bytes} {rest : List EsiToken}
    {hbound : ∀ t ∈ rest, t.esiTagContent.length ≤ bound} (hrest : tokens.drop i = rest)
    (hi : i ≤ tokens.length) (h : AtToken tokens init i g)
    (htry : ∀ i vars raw hraw g',
      ScopeInv (scope tokens init) ⟨⟨.page, { config with vars }, start⟩, ⟨[], i⟩, [i]⟩ g' →
        (scopeLogic P (scope tokens init)).Safe g' (tryBlock ⟨[], i⟩ [i] vars raw hraw))
    (hchoose : ∀ i vars raw hraw g',
      ScopeInv (scope tokens init) ⟨⟨.page, { config with vars }, start⟩, ⟨[], i⟩, [i]⟩ g' →
        (scopeLogic P (scope tokens init)).Safe g' (chooseBlock ⟨[], i⟩ [i] vars raw hraw)) :
    (scanTokens .page config tryBlock chooseBlock rest hbound i g.vars).Walk
      (pageGhost tokens (scope tokens init)) g fun g' s ↦
        AtToken tokens init tokens.length g' ∧ g'.vars = s.vars ∧
          ∀ j ∈ s.jobs, tokens[j.id]? = some j.token := by
  induction rest generalizing g i with
  | nil =>
    obtain rfl : i = tokens.length := hi.antisymm (List.drop_eq_nil_iff.mp hrest)
    exact ⟨h, rfl, by simp⟩
  | cons token rest ih =>
    have ht : tokens[i]? = some token := by
      rw [← List.head?_drop, hrest]
      rfl
    have hi' : i + 1 ≤ tokens.length := (List.getElem?_eq_some_iff.mp ht).1
    have hrest' : tokens.drop (i + 1) = rest := by
      rw [← List.tail_drop, hrest]
      rfl
    have hinv : ScopeInv (scope tokens init) ⟨⟨.page, { config with vars := g.vars }, start⟩,
        ⟨[], i⟩, [i]⟩ g := ⟨by simp, rfl, fun _ ↦ ⟨rfl, h.bindings⟩⟩
    -- the rest of the loop, after a token that was rendered on the spot
    have hnext : ∀ (x : Response) g', AtToken tokens init (i + 1) g' →
        ((scanTokens .page config tryBlock chooseBlock rest
          (fun t h ↦ hbound t (List.mem_cons_of_mem _ h)) (i + 1) g'.vars).bind
            fun s ↦ .ret (s.addResult x)).Walk (pageGhost tokens (scope tokens init)) g'
              fun g' s ↦ AtToken tokens init tokens.length g' ∧ g'.vars = s.vars ∧
                ∀ j ∈ s.jobs, tokens[j.id]? = some j.token :=
      fun x g' h' ↦ Prog.walk_bind.mpr (ih hrest' hi' h')
    rw [scanTokens]
    split
    · rename_i htype
      refine Prog.walk_bind.mpr ((walk_processVars_page h ht htype).mono fun g' vars' hg' ↦ ?_)
      obtain ⟨h', rfl⟩ := hg'
      exact hnext _ g' h'
    · rename_i htype
      refine Prog.walk_bind.mpr ((walk_pageGhost (htry i _ _ _ g hinv)).mono fun g' _ hg' ↦ ?_)
      obtain rfl : g = g' := hg'
      exact hnext _ g (h.succ ht (by simp [htype]))
    · rename_i htype
      refine Prog.walk_bind.mpr ((walk_pageGhost (hchoose i _ _ _ g hinv)).mono fun g' _ hg' ↦ ?_)
      obtain rfl : g = g' := hg'
      exact hnext _ g (h.succ ht (by simp [htype]))
    · rename_i htype
      exact hnext _ g (h.succ ht (by simp [htype]))
    · rename_i hvars _ _ _
      split_ifs
      · refine Prog.walk_bind.mpr ((ih hrest' hi' (h.succ ht hvars)).mono fun g' s hs ↦
          ⟨hs.1, hs.2.1, fun j hj ↦ ?_⟩)
        rcases List.mem_cons.mp hj with rfl | hj
        · exact ht
        · exact hs.2.2 j hj
      · refine Prog.walk_bind.mpr ((walk_pageGhost (RenderLogic.safe_evaluateExpression
          (L := scopeLogic P (scope tokens init)) _ hinv)).mono fun g' _ hg' ↦ ?_)
        obtain rfl : g = g' := hg'
        exact hnext _ g (h.succ ht hvars)

end

/-! ## The page -/

section

variable {P : Platform} {input : Bytes} {config : EsiParserConfig}

/-- The tokens of a page. -/
def pageTokens (input : Bytes) : List EsiToken := esiTokenizer (unescape input)

theorem walk_mesiParse_page {init : Bytes → Option Bytes}
    (hinit : config.vars = none → init = fun _ ↦ none) :
    (mesiParse P .page .page input config).Walk
      (pageGhost (pageTokens input) (scope (pageTokens input) init))
        ⟨(config.forRender P []).vars, init, true⟩ fun _ _ ↦ True := by
  have hdeeper : (scopeLogic P (scope (pageTokens input) init)).DeeperSafe (d := config.maxDepth)
      fun F entry input config _ ↦ mesiParse P F entry input config :=
    fun _ _ _ _ _ _ h ↦ RenderLogic.safe_mesiParse h
  have hlevel := RenderLogic.safe_parseLevel hdeeper
  have hvars := config.vars_forRender P []
  have hdepth := config.maxDepth_forRender P []
  rw [mesiParse, parseLevel]
  refine Prog.walk_bind.mpr ⟨⟨trivial, trivial⟩, fun start g₁ hnext ↦ ?_⟩
  obtain rfl : g₁ = ⟨(config.forRender P []).vars, init, true⟩ := hnext
  have hstart : AtToken (pageTokens input) init 0 ⟨(config.forRender P []).vars, init, true⟩ :=
    ⟨rfl, rfl, fun hnone ↦ hinit (hvars.symm.trans hnone), fun e he ↦ absurd he (Nat.not_lt_zero e)⟩
  refine Prog.walk_bind.mpr ((walk_scanTokens_page (P := P) start rfl (Nat.zero_le _) hstart
    (fun i vars raw hraw g' hinv ↦ ?_) fun i vars raw hraw g' hinv ↦ ?_).mono
      fun g₂ scanned hscan ↦ ?_)
  · exact RenderLogic.safe_processTryBlock hdeeper (hlevel raw.length) hdepth raw le_rfl hinv
  · exact RenderLogic.safe_processChooseBlock (hlevel raw.length) hdepth raw le_rfl hinv
  · obtain ⟨hdone, hsame, htoken⟩ := hscan
    split_ifs
    · trivial
    · refine ⟨fun _ ↦ { g₂ with scanning := false }, fun _ ↦ rfl, fun i ↦ ?_, fun rs ↦ ?_⟩
      · dsimp only
        have ht := htoken scanned.jobs[i] (List.getElem_mem _)
        by_cases hinclude : scanned.jobs[i].token.esiTagType = some .include_
        · have hlt := (List.getElem?_eq_some_iff.mp ht).1
          have hinv : ScopeInv (scope (pageTokens input) init)
              ⟨⟨{ Frame.page with job := [scanned.jobs[i].id] },
                { config.forRender P [] with vars := scanned.vars }, start⟩,
                  ⟨[], scanned.jobs[i].id⟩, [scanned.jobs[i].id]⟩ { g₂ with scanning := false } :=
            ⟨by simp, rfl, fun _ ↦ ⟨hsame.symm,
              hdone.bindings.trans (hdone.includes _ hlt _ ht hinclude).symm⟩⟩
          exact (walk_pageGhost (RenderLogic.safe_processJob hdeeper
            (R := ⟨.page, { config.forRender P [] with vars := scanned.vars }, start⟩) hdepth
              scanned.jobs[i] hinv)).mono fun _ _ _ ↦ trivial
        · rw [processJob, if_neg hinclude]
          trivial
      · exact ⟨⟨trivial, trivial⟩, fun _ _ _ ↦ trivial⟩

/-- The map of the page: the one of the caller, or the one that its first vars block makes. -/
def EsiParserConfig.pageMap (config : EsiParserConfig) : MapRef := config.vars.getD (.made [])

/-- What the vars blocks of a page with the map `m` are asked for. Those after an include element
define nothing, or what is there already, and those in the renders inside of the page write to its
map only what is there already. -/
def InOrder (tokens : List EsiToken) (m : MapRef) (s : World) : RenderOp → Prop
  | .assign _ site m' key value =>
    m' = m → site.render ≠ [] ∨ includeBefore tokens site.token = true → s.maps m key = some value
  | .newMap site block =>
    site.render = [] → includeBefore tokens site.token = true → block.entries = []
  | _ => True

instance (tokens : List EsiToken) (m : MapRef) (s : World) (o : RenderOp) :
    Decidable (InOrder tokens m s o) :=
  match o with
  | .assign _ site m' key value =>
    inferInstanceAs (Decidable (m' = m → site.render ≠ [] ∨
      includeBefore tokens site.token = true → s.maps m key = some value))
  | .newMap site block =>
    inferInstanceAs (Decidable (site.render = [] → includeBefore tokens site.token = true →
      block.entries = []))
  | .enter _ _ _ | .now _ | .since _ _ _ | .lookup _ _ _ | .range _ | .intn _ _ | .spawn _ _ _
  | .wait _ | .select _ _ | .collect _ => inferInstanceAs (Decidable True)

/-- The ghost state tells the truth about the map of the page. -/
def PageVars.Holds (config : EsiParserConfig) (g : PageVars) (s : World) : Prop :=
  s.visible g.vars = g.bindings ∧
    (g.vars = some config.pageMap ∨ g.vars = none ∧ config.vars = none)

theorem PageVars.Holds.of_maps_eq {g : PageVars} {s s' : World} (h : g.Holds config s)
    (hmaps : s'.maps config.pageMap = s.maps config.pageMap) : g.Holds config s' := by
  refine ⟨?_, h.2⟩
  rw [← h.1]
  rcases h.2 with hvars | ⟨hvars, -⟩
  · rw [hvars]
    exact hmaps
  · rw [hvars]
    rfl

variable {U : Unicode} {L : NetLib} {A : (o : FetchOp) → fetchSignature.Res o → Prop}

/-- An operation that is not a vars block of the page leaves its map as it is. -/
theorem World.Sem.maps_pageMap_eq {tokens : List EsiToken} {o : RenderOp} {s s' : World}
    {r : renderSignature.Res o} (h : Sem o s r s')
    (hmade : ∀ render, config.pageMap = .made render → render = [])
    (ho : match o with
      | .assign _ site _ _ _ => site.render ≠ []
      | .newMap site _ => site.render ≠ []
      | _ => True)
    (horder : InOrder tokens config.pageMap s o) :
    s'.maps config.pageMap = s.maps config.pageMap := by
  cases o with
  | assign job site m key value =>
    rw [show s' = _ from h]
    by_cases heq : m = config.pageMap
    · subst heq
      rw [assign_of_eq (horder rfl (.inl ho))]
    · rw [maps_assign, Function.update_of_ne (Ne.symm heq)]
  | newMap site block =>
    have hne : config.pageMap ≠ .made site.render := fun heq ↦ ho (hmade _ heq)
    rw [show s' = _ from h, maps_setMap, Function.update_of_ne hne]
  | spawn id request readAt => exact (show s' = _ from h) ▸ rfl
  | range vars => exact (show s' = s from h) ▸ rfl
  | _ => exact h.2 ▸ rfl

/-- What the ghost state of the page says stays true. -/
theorem tracks_pageGhost {tokens : List EsiToken} {sc : ℕ → Bytes → Option Bytes}
    (hmade : ∀ render, config.pageMap = .made render → render = []) :
    Tracks (pageGhost tokens sc)
      (fun o s r s' ↦ World.Sem o s r s' ∧ InOrder tokens config.pageMap s o) (World.Env U L A)
      (PageVars.Holds config) fun g ↦ g.scanning = false where
  own {g o s r s'} hg hok h := by
    obtain ⟨hsem, horder⟩ := h
    have hsame := (hsem.maps_pageMap_eq hmade · horder)
    cases o with
    | assign job site m key value =>
      by_cases hsite : site.render = []
      · obtain ⟨hvisible, hvars⟩ := hg
        have hm : g.vars = some m := (hok.2 hsite).2
        obtain rfl : m = config.pageMap := by
          rcases hvars with hvars | ⟨hvars, -⟩
          · exact Option.some.inj (hm.symm.trans hvars)
          · simp [hm] at hvars
        rw [hm] at hvisible
        have hvisible' : s.maps config.pageMap = g.bindings := hvisible
        refine ⟨{ g with bindings := Function.update g.bindings key (some value) },
          (if_pos hsite).mpr ⟨rfl, fun hinclude ↦ ?_⟩, ⟨?_, .inl hm⟩, id⟩
        · rw [← hvisible']
          exact horder rfl (.inr hinclude)
        · rw [show s' = _ from hsem, hm]
          show Function.update s.maps _ _ _ = _
          rw [Function.update_self, hvisible']
      · exact ⟨g, (if_neg hsite).mpr rfl, hg.of_maps_eq (hsame hsite), id⟩
    | newMap site block =>
      by_cases hsite : site.render = []
      · have hnone : g.vars = none := (hok.2 hsite).2
        have hpage : config.pageMap = .made [] := by
          rcases hg.2 with hvars | ⟨-, hvars⟩
          · simp [hnone] at hvars
          · rw [EsiParserConfig.pageMap, hvars, Option.getD_none]
        refine ⟨{ g with vars := some (.made []), bindings := overridden (fun _ ↦ none) block },
          (if_pos hsite).mpr ⟨rfl, horder hsite⟩, ⟨?_, .inl (by rw [hpage])⟩, id⟩
        rw [show s' = _ from hsem, hsite]
        show (s.setMap (.made []) fun key ↦ block.lookup key).maps (.made []) = _
        rw [World.maps_setMap, Function.update_self]
        exact funext fun key ↦ Option.or_none.symm
      · exact ⟨g, (if_neg hsite).mpr rfl, hg.of_maps_eq (hsame hsite), id⟩
    | _ => exact ⟨g, rfl, hg.of_maps_eq (hsame trivial), id⟩
  stable {g o s r s'} hsh _ hok h g₁ hg₁ := by
    refine hg₁.of_maps_eq (h.1.maps_pageMap_eq hmade ?_ h.2)
    cases o with
    | assign | newMap => exact fun hsite ↦ absurd (hok.2 hsite).1 (by simp [hsh])
    | _ => trivial
  env h _ hg := hg.of_maps_eq (by rw [h.maps_eq])
  fork hg h i := by
    rw [h i]
    exact ⟨hg, rfl⟩

/-- **The scope of a token.** In a run of a page whose vars blocks keep to the order of the
document, every reference in a token of the page is looked up in the bindings of its scope, and with
these its choose branches and except bodies are entered. -/
theorem visible_eq_scope (hvars : ∀ m, config.vars = some m → m = .caller) {s t : World}
    {tr : List (Event renderSignature World)} {q : Render Bytes}
    (h : Run World.Sem (World.Env U L A) (mesiParse P .page .page input config) s tr q t)
    (horder : ∀ ev ∈ tr, InOrder (pageTokens input) config.pageMap ev.pre ev.op) :
    ∀ ev ∈ tr, ∀ i,
      (∀ vars key, ev.op = .lookup ⟨[], i⟩ vars key →
        ev.pre.visible vars = scope (pageTokens input) (s.visible config.vars) i) ∧
      ∀ timeout vars, ev.op = .enter (.choose ⟨[], i⟩) timeout vars ∨
          ev.op = .enter (.except_ ⟨[], i⟩) timeout vars →
        ev.pre.visible vars = scope (pageTokens input) (s.visible config.vars) i := by
  have hmade : ∀ render, config.pageMap = .made render → render = [] := by
    intro render heq
    rw [EsiParserConfig.pageMap] at heq
    cases hm : config.vars with
    | none => simpa [hm] using heq.symm
    | some m => simp [hm, hvars m hm] at heq
  have hinit : config.vars = none → s.visible config.vars = fun _ ↦ none := fun hnone ↦ by
    rw [hnone]
    rfl
  have hsame := config.vars_forRender P []
  have hholds : PageVars.Holds config
      ⟨(config.forRender P []).vars, s.visible config.vars, true⟩ s := by
    refine ⟨by rw [hsame], ?_⟩
    rw [hsame]
    cases hm : config.vars with
    | none => exact .inr ⟨rfl, rfl⟩
    | some m => exact .inl (by rw [EsiParserConfig.pageMap, hm, Option.getD_some])
  have hrun := h.restrict (C := fun ev : Event renderSignature World ↦
    InOrder (pageTokens input) config.pageMap ev.pre ev.op) horder
  have T : Tracks (pageGhost (pageTokens input) (scope (pageTokens input) (s.visible config.vars)))
      _ (World.Env U L A) _ _ := tracks_pageGhost hmade
  intro ev hev i
  obtain ⟨g, ⟨hvisible, -⟩, hscope, -⟩ := (hrun.ghost T ((walk_mesiParse_page hinit).live T hholds (by simp))).2 ev hev
  have hsees : ∀ vars, vars = g.vars ∧ g.bindings
      = scope (pageTokens input) (s.visible config.vars) i →
        ev.pre.visible vars = scope (pageTokens input) (s.visible config.vars) i := by
    rintro vars ⟨rfl, heq⟩
    rw [hvisible, heq]
  refine ⟨fun vars key hop ↦ ?_, fun timeout vars hop ↦ ?_⟩
  · rw [hop] at hscope
    exact hsees vars (hscope rfl)
  · rcases hop with hop | hop
    · rw [hop] at hscope
      exact hsees vars (hscope rfl)
    · rw [hop] at hscope
      exact hsees vars (hscope rfl)

end

/-! ## A page with a vars block after an include -/

def includeText : Bytes := lit "<esi:include src=\"http://a/$(NAME)\"/>"

/-- A page with an include element that refers to the variable `NAME`, and a vars block after it
that sets the variable. -/
def latePage (value : Bytes) : Page where
  elements := [(includeText, { src := lit "http://a/$(NAME)" })]
  upstream := []
  input := includeText ++ lit "<esi:vars><esi:variable name=\"NAME\" value=\"" ++ value ++
    lit "\"/></esi:vars>"
  config := { maxDepth := 1, timeout := 1000, vars := some .caller }

/-- The first pass, and the first steps of the include element. -/
def lateSchedule : List (Move World.EnvMove) :=
  List.replicate 3 (.job []) ++ List.replicate 2 (.job [0])

/-- The variable is set to the value it has. -/
theorem visible_eq_scope_latePage :
    ((latePage (lit "1")).run lateSchedule (.initial (onlyName (lit "1")))).trace.length = 4 ∧
    ∀ ev ∈ ((latePage (lit "1")).run lateSchedule (.initial (onlyName (lit "1")))).trace,
      ∀ i vars key, ev.op = .lookup ⟨[], i⟩ vars key →
        ev.pre.visible vars = scope (pageTokens (latePage (lit "1")).input) (onlyName (lit "1")) i :=
  ⟨by decide +kernel, fun ev hev i vars key hop ↦
    (visible_eq_scope (fun _ (h : (latePage (lit "1")).config.vars = _) ↦ (Option.some.inj h).symm)
      ((latePage (lit "1")).run_run lateSchedule (.initial (onlyName (lit "1"))))
        (by decide +kernel) ev hev i).1 vars key hop⟩

/-- A lookup in a token of the page that does not see the binding of its scope. -/
private def outOfScope (sc : ℕ → Bytes → Option Bytes) (ev : Event renderSignature World) : Bool :=
  match ev.op with
  | .lookup ⟨[], i⟩ vars key => decide (ev.pre.visible vars key ≠ sc i key)
  | _ => false

private theorem outOfScope_latePage :
    ((latePage (lit "2")).run lateSchedule (.initial (onlyName (lit "1")))).trace.any
      (outOfScope (scope (pageTokens (latePage (lit "2")).input) (onlyName (lit "1")))) = true := by
  decide +kernel

/-- **A block that comes too late.** The include element sees the value that a vars block after it
sets. -/
theorem not_visible_eq_scope :
    ¬ ∀ tr q t, Run World.Sem (World.Env .ascii .simple (answersOf (latePage (lit "2")).upstream))
        (latePage (lit "2")).prog (.initial (onlyName (lit "1"))) tr q t →
      ∀ ev ∈ tr, ∀ i vars key, ev.op = .lookup ⟨[], i⟩ vars key →
        ev.pre.visible vars
          = scope (pageTokens (latePage (lit "2")).input) (onlyName (lit "1")) i := by
  intro h
  have hrun := h _ _ _ ((latePage (lit "2")).run_run lateSchedule (.initial (onlyName (lit "1"))))
  obtain ⟨ev, hev, hout⟩ := List.any_eq_true.mp outOfScope_latePage
  rw [outOfScope] at hout
  split at hout
  · rename_i i vars key hop
    exact of_decide_eq_true hout (congrFun (hrun ev hev i vars key hop) key)
  · simp at hout

end GoMesi
