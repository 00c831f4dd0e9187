import GoMesi.Mesi.Budget
import GoMesi.Mesi.ChooseBlock
import GoMesi.Mesi.Markup
import GoMesi.Mesi.Relocation
import GoMesi.Mesi.Variables

/-!
# A page inside choose blocks

The branch of a choose block is rendered by a call of `MESIParse` of its own: it is unescaped and
tokenized once more, its vars blocks make other maps, and its fetches wait for another semaphore.
None of this can be seen from outside but that the text is unescaped twice. A page put into `n`
choose blocks, one around the other, has the outputs of the page unescaped `n` times
(`outputs_iterate_chooseWrap`).

The render around the branch does nothing but start (`mesiParse_chooseWrap`), and the branch does at
its place what the page does at the root (`Relocation.under`).
-/

namespace GoMesi

open Strings Interleaving

/-! ## What a render depends on -/

section

variable {P : Platform} {F : Frame} {entry : Entry} {input : Bytes}

/-- The loop over the tokens does not depend on the bound that comes with it. -/
theorem scanTokens_of_le {config : EsiParserConfig} {bound bound' : ℕ} (hle : bound ≤ bound')
    (tryBlock chooseBlock : Site → Path → Option MapRef → Bytes → Render Bytes)
    {tokens : List EsiToken} (hbound : ∀ t ∈ tokens, t.esiTagContent.length ≤ bound) (index : ℕ)
    (vars : Option MapRef) :
    scanTokens F config (fun site path vars raw _ ↦ tryBlock site path vars raw)
        (fun site path vars raw _ ↦ chooseBlock site path vars raw) tokens hbound index vars =
      scanTokens F config (fun site path vars raw _ ↦ tryBlock site path vars raw)
        (fun site path vars raw _ ↦ chooseBlock site path vars raw) tokens
        (fun t h ↦ (hbound t h).trans hle) index vars := by
  induction tokens generalizing index vars with
  | nil => rw [scanTokens, scanTokens]
  | cons token tokens ih =>
    -- The blocks are given without their bounds, so the steps differ in proofs only.
    rw [scanTokens, scanTokens]
    simp only [ih]

/-- A text in which nothing is left to unescape is rendered as the text it came from. -/
theorem mesiParse_unescape (hinput : unescape (unescape input) = unescape input)
    (config : EsiParserConfig) :
    mesiParse P F entry (unescape input) config = mesiParse P F entry input config := by
  rw [mesiParse, mesiParse, parseLevel, parseLevel]
  simp only [scanTokens_of_le (length_unescape_le input), hinput]

/-- A configuration that a render has prepared is prepared by another one as before. -/
theorem EsiParserConfig.forRender_forRender (c : EsiParserConfig) (render render' : Path) :
    (c.forRender P render).forRender P render' = c.forRender P render' := by
  -- The default is no value that would be replaced by the default again.
  have hcpu : ¬ (P.numCPU : ℤ) * 4 ≤ 0 := by
    have := P.numCPU_pos
    omega
  rw [c.forRender_eq P render, c.forRender_eq P render', forRender_eq]
  by_cases hmax : c.maxConcurrentRequests > 0
  · have hmax' : max 0 c.maxConcurrentRequests = c.maxConcurrentRequests := max_eq_right hmax.le
    simp only [hmax', if_pos hmax]
    split_ifs <;> simp_all
  · have hmax' : max 0 c.maxConcurrentRequests = 0 := max_eq_left (not_lt.mp hmax)
    simp only [hmax', if_neg hmax]
    split_ifs <;> simp_all

/-- Configurations of which a render makes the same are rendered alike. -/
theorem parseLevel_congr {d : ℕ} {deeper : Deeper d} {c c' : EsiParserConfig}
    (hd : c.maxDepth = d) (hd' : c'.maxDepth = d) (htimeout : c.timeout = c'.timeout)
    (hvars : c.vars = c'.vars) (hrender : c.forRender P F.render = c'.forRender P F.render) :
    parseLevel P deeper F entry input c hd = parseLevel P deeper F entry input c' hd' := by
  rw [parseLevel, parseLevel]
  simp only [hrender]
  -- the type of an answer depends on the operation
  generalize c.timeout = timeout at htimeout ⊢
  generalize c.vars = vars at hvars ⊢
  subst htimeout hvars
  rfl

theorem mesiParse_forRender (c : EsiParserConfig) (render : Path) :
    mesiParse P F entry input (c.forRender P render) = mesiParse P F entry input c := by
  rw [RenderTwin.mesiParse_eq (c.maxDepth_forRender P render), mesiParse]
  exact parseLevel_congr _ _ (c.timeout_forRender P render) (c.vars_forRender P render)
    (c.forRender_forRender render F.render)

end

/-! ## The render around the branch -/

section

variable {P : Platform} {F : Frame} {entry : Entry} {config : EsiParserConfig} {s : Bytes}

/-- The first loop on a page of one choose block and nothing after it. -/
theorem scanTokens_choose {bound : ℕ} {tryBlock chooseBlock} {raw : Bytes}
    (hbound : ∀ t ∈ [({ esiTagContent := raw, esiTagType := some .choose } : EsiToken), {}],
      t.esiTagContent.length ≤ bound) (vars : Option MapRef) :
    scanTokens F config tryBlock chooseBlock
        [{ esiTagContent := raw, esiTagType := some .choose }, {}] hbound 0 vars =
      (chooseBlock ⟨F.render, 0⟩ (F.render ++ [0]) vars raw (hbound _ List.mem_cons_self)).bind
        fun content ↦ .ret ⟨vars, [⟨content, 0⟩, ⟨[], 1⟩], []⟩ := by
  rw [scanTokens, scanTokens, scanTokens]
  rfl

theorem evaluateTest_true (site : Site) (config : EsiParserConfig) :
    evaluateTest site (lit "true") config = .ret true := by
  have htrim : trimSpace (lit "true") = lit "true" := by decide +kernel
  have hfree : MarkupFree (lit "true") :=
    ⟨by decide +kernel, by decide +kernel, by decide +kernel⟩
  rw [evaluateTest, htrim, evaluateExpression_of_markupFree hfree]
  rfl

theorem processChooseBlock_chooseWrap {d : ℕ} {deeper : Deeper d} {site : Site} {path : Path}
    (hs : Nested whenNames s) (hd : config.maxDepth = d) :
    processChooseBlock P deeper F site path config hd (chooseWrap s) =
      parseLevel P deeper ⟨F.job, path, F.chain⟩ (.choose site) s config hd := by
  rw [processChooseBlock]
  simp only [extractChooseBlocks_chooseWrap hs]
  rw [chooseBranch, evaluateTest_true]
  rfl

/-- **The render around the branch** starts, and renders the branch. -/
theorem mesiParse_chooseWrap (hs : Nested whenNames (unescape s)) :
    mesiParse P F entry (chooseWrap s) config =
      .op (.enter entry config.timeout config.vars) fun _ ↦
        mesiParse P ⟨F.job, F.render ++ [0], F.chain⟩ (.choose ⟨F.render, 0⟩) (unescape s)
          config := by
  have htokens : esiTokenizer (unescape (chooseWrap s)) =
      [{ esiTagContent := chooseWrap (unescape s), esiTagType := some .choose }, {}] := by
    rw [unescape_chooseWrap, esiTokenizer_chooseWrap hs]
  have hresults (content : Bytes) : assembleResults [⟨content, 0⟩, ⟨[], 1⟩] = content := by
    simp [assembleResults]
  rw [mesiParse, parseLevel]
  simp only [htokens, scanTokens_choose, processChooseBlock_chooseWrap hs]
  change Prog.op _ _ = _
  congr 1
  funext start
  simp only [Prog.bind_eq, Prog.bind_assoc, Prog.ret_bind, if_true, Prog.pure_eq, hresults]
  rw [Prog.bind_ret]
  -- The branch is called with the configuration that the render around it has prepared.
  exact (RenderTwin.mesiParse_eq (config.maxDepth_forRender P F.render)).symm.trans
    (mesiParse_forRender config F.render)

end

/-! ## A render at another place -/

section

variable {U : Unicode} {L : NetLib} {A : (o : FetchOp) → fetchSignature.Res o → Prop}
  {c : FetchConfig}

/-- A fetch can end, once it is admitted, as it can without a semaphore, if a slot can always be
given back. -/
theorem ends_withSemaphore_admitted (hA : ∀ s, A (.releaseSemaphore s) ()) (fetch : Fetch FetchResult)
    (result : FetchResult) :
    (withSemaphore c fetch).Ends (World.admitted A) result ↔
      fetch.Ends (World.admitted A) result := by
  rw [withSemaphore]
  cases c.requestSemaphore with
  | none => exact Iff.rfl
  | some s =>
    have hsplit : Prog.Ends (World.admitted A) (fetch.bind fun result ↦
        (Fetch.ask (.releaseSemaphore s)).bind fun _ ↦ .ret result) result ↔
        fetch.Ends (World.admitted A) result := by
      rw [Prog.ends_bind]
      constructor
      · rintro ⟨result', hfetch, u, -, rfl⟩
        exact hfetch
      · intro hfetch
        exact ⟨result, hfetch, (), hA s, rfl⟩
    -- Admitted, the fetch has its slot.
    refine Iff.trans ⟨?_, ?_⟩ hsplit
    · rintro ⟨r, hr, hend⟩
      obtain rfl : r = none := hr
      exact hend
    · intro hend
      exact ⟨none, rfl, hend⟩

/-- What a fetch that is turned away ends with does not depend on the semaphore it has waited for. -/
theorem ends_withSemaphore_refused {c c' : FetchConfig} {s s' : Semaphore}
    (hc : c.requestSemaphore = some s) (hc' : c'.requestSemaphore = some s')
    (fetch : Fetch FetchResult) (result : FetchResult)
    (h : (withSemaphore c fetch).Ends World.refused result) :
    (withSemaphore c' fetch).Ends World.refused result := by
  rw [withSemaphore, hc] at h
  rw [withSemaphore, hc']
  -- The wait ends with an error, before anything is fetched.
  obtain ⟨_, ⟨err, rfl⟩, hend⟩ := h
  exact ⟨some err, ⟨err, rfl⟩, hend⟩

theorem fetchAdmitted_semaphore (s : Option Semaphore) (url : Bytes) :
    fetchAdmitted U L url { c with requestSemaphore := s } = fetchAdmitted U L url c := by
  have hhops (left : ℕ) (url : Bytes) : fetchHops U L { c with requestSemaphore := s } left url =
      fetchHops U L c left url := by
    refine fetchHops_eq (fun url address ↦ ?_) (fun _ ↦ ?_) left url
    · simp only [fetchClientForURL]
      cases c.httpClient with
      | some client => rfl
      | none =>
        cases L.parse url with
        | error err => rfl
        | ok parsed =>
          have hhosts : hostInAllowedHosts U (L.hostname parsed)
              { c with httpClient := none, requestSemaphore := s } =
                hostInAllowedHosts U (L.hostname parsed) c := rfl
          dsimp only
          rw [hhosts]
          split_ifs <;> rfl
    · rfl
  rw [fetchAdmitted, fetchAdmitted,
    show urlToFetch U L url { c with requestSemaphore := s } = urlToFetch U L url c from rfl]
  cases urlToFetch U L url c with
  | error err => rfl
  | ok url =>
    dsimp only
    rw [show fullCacheKey { c with requestSemaphore := s } url = fullCacheKey c url from rfl]
    simp only [fetchUpstream, hhops]
    rfl

/-- What a fetch ends with does not depend on which semaphore it takes a slot of. -/
theorem singleFetch_rename (hA : ∀ s, A (.releaseSemaphore s) ()) (f : Semaphore → Semaphore)
    (url : Bytes) (result : FetchResult) :
    ((singleFetchUrlWithContext U L url
        { c with requestSemaphore := c.requestSemaphore.map f }).Ends (World.admitted A) result ↔
      (singleFetchUrlWithContext U L url c).Ends (World.admitted A) result) ∧
    ((singleFetchUrlWithContext U L url
        { c with requestSemaphore := c.requestSemaphore.map f }).Ends World.refused result ↔
      (singleFetchUrlWithContext U L url c).Ends World.refused result) := by
  rw [singleFetchUrlWithContext, singleFetchUrlWithContext]
  dsimp only
  by_cases htimeout : c.timeout ≤ 0
  · rw [if_pos htimeout, if_pos htimeout]
    exact ⟨Iff.rfl, Iff.rfl⟩
  rw [if_neg htimeout, if_neg htimeout]
  cases validateMaxResponseSize c.maxResponseSize with
  | error err => exact ⟨Iff.rfl, Iff.rfl⟩
  | ok u =>
    dsimp only
    rw [fetchAdmitted_semaphore]
    refine ⟨by rw [ends_withSemaphore_admitted hA, ends_withSemaphore_admitted hA], ?_⟩
    rcases Option.eq_none_or_eq_some c.requestSemaphore with hc | ⟨s, hc⟩
    · rw [withSemaphore, withSemaphore]
      dsimp only
      rw [hc]
      exact Iff.rfl
    · have hmap : ({ c with requestSemaphore := c.requestSemaphore.map f } :
          FetchConfig).requestSemaphore = some (f s) := congrArg (Option.map f) hc
      exact ⟨ends_withSemaphore_refused hmap hc _ _, ends_withSemaphore_refused hc hmap _ _⟩

/-- The renders at places under `root`, with the semaphores that are made there. -/
def Relocation.under (U : Unicode) (L : NetLib) (hA : ∀ s, A (.releaseSemaphore s) ())
    (root : Path) : Relocation U L A where
  place p := root ++ p
  config c := { c with requestSemaphore := c.requestSemaphore.map (·.rename (root ++ ·)) }
  Kept _ := True
  place_append p i := (List.append_assoc root p [i]).symm
  place_injective := List.append_right_injective root
  timeout _ _ := rfl
  semaphore _ _ := rfl
  config_timeout _ := rfl
  config_maxResponseSize _ := rfl
  config_semaphore _ := rfl
  kept_timeout _ _ := trivial
  kept_semaphore _ _ := trivial
  finish url result _ := (singleFetch_rename hA _ url result).1
  refuse url result _ := (singleFetch_rename hA _ url result).2

end

/-! ## The page and the branch -/

/-- A configuration as a caller of `MESIParse` has it: there is no semaphore yet, and the `Variables`
are its own, if there are any. -/
structure EsiParserConfig.FromCaller (config : EsiParserConfig) : Prop where
  semaphore : config.requestSemaphore = none
  vars : ∀ r, config.vars ≠ some (.made r)

/-- What a render can return. -/
def Outputs (U : Unicode) (L : NetLib) (A : (o : FetchOp) → fetchSignature.Res o → Prop)
    (vars : Bytes → Option Bytes) (render : Render Bytes) : Set Bytes :=
  {output | ∃ tr t, Run World.Sem (World.Env U L A) render (.initial vars) tr (.ret output) t}

section

variable {P : Platform} {L : NetLib} {A : (o : FetchOp) → fetchSignature.Res o → Prop}
  {config : EsiParserConfig} {vars : Bytes → Option Bytes} {s : Bytes}

theorem EsiParserConfig.FromCaller.moved (h : config.FromCaller)
    (hA : ∀ s, A (.releaseSemaphore s) ()) (U : Unicode) (root : Path) :
    (Relocation.under U L hA root).parserConfig config = config := by
  have hvars : config.vars.map (·.rename (root ++ ·)) = config.vars := by
    cases hconfig : config.vars with
    | none => rfl
    | some m =>
      cases m with
      | caller => rfl
      | made r => exact absurd hconfig (h.vars r)
  have hsemaphore : config.requestSemaphore.map (·.rename (root ++ ·)) =
      config.requestSemaphore := by
    rw [h.semaphore]
    rfl
  rw [Relocation.parserConfig]
  dsimp only [Relocation.under]
  rw [hvars, hsemaphore]

/-- The start of a render is not seen. -/
theorem outputs_enter (U : Unicode) (entry : Entry) (timeout : Duration) (m : Option MapRef)
    (render : Render Bytes) :
    Outputs U L A vars (.op (.enter entry timeout m) fun _ ↦ render) = Outputs U L A vars render :=
  Set.ext fun _ ↦ Run.op_const_iff (fun s ↦ ⟨s.clock, rfl, rfl⟩) fun _ _ _ h ↦ h.2

/-- A render has the same outputs wherever it stands. -/
theorem outputs_under (hA : ∀ s, A (.releaseSemaphore s) ()) (hconfig : config.FromCaller)
    (root : Path) (entry entry' : Entry) (input : Bytes) :
    Outputs P.unicode L A vars (mesiParse P ⟨[], root, []⟩ entry' input config) =
      Outputs P.unicode L A vars (mesiParse P .page entry input config) := by
  ext output
  have hplace : Frame.Twin (Relocation.under P.unicode L hA root).place .page ⟨[], root, []⟩ :=
    ⟨(List.append_nil root).symm, rfl⟩
  have hmoved : output ∈ Outputs P.unicode L A vars (mesiParse P ⟨[], root, []⟩ entry' input
        ((Relocation.under P.unicode L hA root).parserConfig config)) ↔
      output ∈ Outputs P.unicode L A vars (mesiParse P .page entry input config) :=
    (Relocation.under P.unicode L hA root).output_iff hplace trivial entry entry' input vars output
  rwa [hconfig.moved] at hmoved

/-- **One block.** A page in a choose block has the outputs of the page unescaped once more. -/
theorem outputs_chooseWrap (hA : ∀ s, A (.releaseSemaphore s) ()) (hconfig : config.FromCaller)
    (hs : Nested whenNames (unescape s)) :
    Outputs P.unicode L A vars (mesiParse P .page .page (chooseWrap s) config) =
      Outputs P.unicode L A vars (mesiParse P .page .page (unescape s) config) := by
  rw [mesiParse_chooseWrap hs, outputs_enter]
  exact outputs_under hA hconfig [0] .page (.choose ⟨[], 0⟩) (unescape s)

/-- Where the second unescaping finds nothing, the block is not seen. -/
theorem outputs_chooseWrap_self (hA : ∀ s, A (.releaseSemaphore s) ()) (hconfig : config.FromCaller)
    (hs : Nested whenNames (unescape s)) (hfixed : unescape (unescape s) = unescape s) :
    Outputs P.unicode L A vars (mesiParse P .page .page (chooseWrap s) config) =
      Outputs P.unicode L A vars (mesiParse P .page .page s config) := by
  rw [outputs_chooseWrap hA hconfig hs, mesiParse_unescape hfixed]

theorem nested_chooseWrap (hs : Nested whenNames s) : Nested whenNames (chooseWrap s) := by
  have hattrs : Free whenNames ([] ++ lit ">") := by decide +kernel
  have h := Nested.element_append (by decide : ElementName.choose ∈ whenNames) hattrs
    (nested_when hs) (.text (s := []) (by decide +kernel))
  rwa [List.append_nil, ← chooseWrap_eq] at h

theorem iterate_unescape_chooseWrap (n : ℕ) (s : Bytes) :
    unescape^[n] (chooseWrap s) = chooseWrap (unescape^[n] s) :=
  have hswap : Function.Commute unescape chooseWrap := unescape_chooseWrap
  hswap.iterate_left n s

/-- **Main result.** A page in `n` choose blocks, one around the other, has the outputs of the page
unescaped `n` times, if its when and choose tags are balanced each time. -/
theorem outputs_iterate_chooseWrap (P : Platform) (L : NetLib)
    (A : (o : FetchOp) → fetchSignature.Res o → Prop) (hA : ∀ s, A (.releaseSemaphore s) ())
    (config : EsiParserConfig) (hconfig : config.FromCaller) (vars : Bytes → Option Bytes) (n : ℕ)
    (s : Bytes) (hs : ∀ k < n, Nested whenNames (unescape^[k + 1] s)) :
    Outputs P.unicode L A vars (mesiParse P .page .page (chooseWrap^[n] s) config) =
      Outputs P.unicode L A vars (mesiParse P .page .page (unescape^[n] s) config) := by
  induction n generalizing s with
  | zero => rfl
  | succ n ih =>
    -- The innermost block becomes a part of the page, and is left when the others are gone.
    have hinner : ∀ k < n, Nested whenNames (unescape^[k + 1] (chooseWrap s)) := by
      intro k hk
      rw [iterate_unescape_chooseWrap]
      exact nested_chooseWrap (hs k (Nat.lt_succ_of_lt hk))
    have hlast : Nested whenNames (unescape (unescape^[n] s)) :=
      Function.iterate_succ_apply' unescape n s ▸ hs n (Nat.lt_succ_self n)
    calc Outputs P.unicode L A vars (mesiParse P .page .page (chooseWrap^[n + 1] s) config)
        = Outputs P.unicode L A vars
            (mesiParse P .page .page (unescape^[n] (chooseWrap s)) config) := ih (chooseWrap s) hinner
      _ = Outputs P.unicode L A vars
            (mesiParse P .page .page (chooseWrap (unescape^[n] s)) config) := by
          rw [iterate_unescape_chooseWrap]
      _ = Outputs P.unicode L A vars
            (mesiParse P .page .page (unescape (unescape^[n] s)) config) :=
          outputs_chooseWrap hA hconfig hlast
      _ = Outputs P.unicode L A vars (mesiParse P .page .page (unescape^[n + 1] s) config) := by
          rw [Function.iterate_succ_apply']

/-- A comment that leaves the beginning of another one. -/
def gluedComment : Bytes := lit "<!--<!--esi-->esi b-->"

theorem unescape_gluedComment : unescape gluedComment = lit "<!--esi b-->" := by
  have hstart : index gluedComment (lit "<!--esi") = some 4 := by decide +kernel
  have hend : index (gluedComment.drop (4 + (lit "<!--esi").length)) (lit "-->") = some 0 := by
    decide +kernel
  rw [unescape_of_comment hstart hend, unescape_of_none (by decide +kernel)]
  decide +kernel

theorem unescape_unescape_gluedComment : unescape (unescape gluedComment) = lit " b" := by
  have hstart : index (lit "<!--esi b-->") (lit "<!--esi") = some 0 := by decide +kernel
  have hend : index ((lit "<!--esi b-->").drop (0 + (lit "<!--esi").length)) (lit "-->") =
      some 2 := by
    decide +kernel
  rw [unescape_gluedComment, unescape_of_comment hstart hend, unescape_of_none (by decide +kernel)]
  decide +kernel

theorem outputs_iterate_chooseWrap_gluedComment :
    Outputs .ascii .simple (answersOf []) (fun _ ↦ none)
        (mesiParse (.ofElements []) .page .page (chooseWrap (chooseWrap gluedComment))
          { maxDepth := 1, timeout := 1000 }) =
      Outputs .ascii .simple (answersOf []) (fun _ ↦ none)
        (mesiParse (.ofElements []) .page .page (lit " b") { maxDepth := 1, timeout := 1000 }) := by
  rw [← unescape_unescape_gluedComment]
  refine outputs_iterate_chooseWrap (.ofElements []) .simple (answersOf []) (fun _ ↦ rfl)
    { maxDepth := 1, timeout := 1000 } ⟨rfl, by simp⟩ (fun _ ↦ none) 2 gluedComment ?_
  intro k hk
  interval_cases k
  · rw [Function.iterate_one, unescape_gluedComment]
    exact .text (by decide +kernel)
  · rw [Function.iterate_succ_apply, Function.iterate_one, unescape_unescape_gluedComment]
    exact .text (by decide +kernel)

end

end GoMesi
