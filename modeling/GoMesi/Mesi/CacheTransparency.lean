import GoMesi.Mesi.Simulate

/-!
# What the cache forgets

The cache keeps the body of a response and not its header. So a fetch that is answered from the
cache says that the response is not an ESI response, whatever the response said that the body came
with. Where the configuration asks for that, with `ParseOnHeader`, the body of the include is then
shown as it is, although it would have been parsed after a fetch from the upstream.
-/

namespace GoMesi

open Interleaving

/-! ## Where a body comes from -/

variable {U : Unicode} {L : NetLib} {config : FetchConfig}
  {C : (o : FetchOp) → fetchSignature.Res o → Prop}

theorem request_of_do_ends {client : Client} {url : Bytes} {content : HttpResponse}
    (h : (client.do_ L url).Ends C (.ok content)) : C (.request url) (.ok content) := by
  obtain ⟨addresses, -, h⟩ := Prog.ends_bind.mp h
  obtain ⟨err, -, h⟩ := Prog.ends_bind.mp h
  cases err with
  | some err => cases h
  | none =>
    obtain ⟨r, hr, hret⟩ := h
    obtain rfl : Except.ok content = r := hret
    exact hr

theorem request_of_fetchHops_ends {left : ℕ} {hopURL : Bytes} {content : HttpResponse}
    (h : (fetchHops U L config left hopURL).Ends C (.ok content)) :
    ∃ url, C (.request url) (.ok content) := by
  induction left generalizing hopURL with
  | zero =>
    rw [fetchHops] at h
    split at h
    · cases h
    · obtain ⟨r, hr, h⟩ := Prog.ends_bind.mp h
      split at h
      · cases h
      · dsimp only at h
        split_ifs at h
        · cases h
          exact ⟨_, request_of_do_ends hr⟩
        · cases h
  | succ left ih =>
    rw [fetchHops] at h
    split at h
    · cases h
    · obtain ⟨r, hr, h⟩ := Prog.ends_bind.mp h
      split at h
      · cases h
      · dsimp only at h
        split_ifs at h
        · cases h
          exact ⟨_, request_of_do_ends hr⟩
        · split at h
          · cases h
          · split at h
            · cases h
            · exact ih h

/-- The result of a fetch that has found a value in the cache. -/
def FromCache (C : (o : FetchOp) → fetchSignature.Res o → Prop) (body : Bytes) (esi : Bool) : Prop :=
  ∃ key hit, C (.cacheGet key) hit ∧ hit.ok = true ∧ body = hit.val ∧ esi = false

/-- The result of a fetch that has got a response. -/
def FromUpstream (U : Unicode) (config : FetchConfig)
    (C : (o : FetchOp) → fetchSignature.Res o → Prop) (body : Bytes) (esi : Bool) : Prop :=
  ∃ url content, C (.request url) (.ok content) ∧ content.data config = .ok body ∧
    esi = isEsiResponse U content

theorem fromUpstream_of_ends {url : Bytes} {cacheKey : Option Bytes} {body : Bytes} {esi : Bool}
    (h : (fetchUpstream U L config url cacheKey).Ends C (.ok (body, esi))) :
    FromUpstream U config C body esi := by
  obtain ⟨r, hr, h⟩ := Prog.ends_bind.mp h
  cases r with
  | error err => cases h
  | ok content =>
    obtain ⟨url, hrequest⟩ := request_of_fetchHops_ends hr
    cases hdata : content.data config with
    | error err =>
      simp only [hdata] at h
      cases h
    | ok data =>
      simp only [hdata] at h
      have hret : (.ok (body, esi) : FetchResult) = .ok (data, isEsiResponse U content) := by
        cases cacheKey with
        | none => exact h
        | some key =>
          obtain ⟨_, -, h⟩ := h
          exact h
      cases hret
      exact ⟨url, content, hrequest, hdata, rfl⟩

theorem ends_of_withSemaphore_ends {fetch : Fetch FetchResult} {r : Bytes × Bool}
    (h : (withSemaphore config fetch).Ends C (.ok r)) : fetch.Ends C (.ok r) := by
  rw [withSemaphore] at h
  split at h
  · exact h
  · obtain ⟨err, -, h⟩ := h
    cases err with
    | some err => cases h
    | none =>
      change Prog.Ends (S := fetchSignature) C (fetch.bind _) _ at h
      obtain ⟨r', hr', _, -, hret⟩ := Prog.ends_bind.mp h
      obtain rfl : Except.ok r = r' := hret
      exact hr'

theorem fromCache_or_ends {key : Bytes} {fetch : Fetch FetchResult} {body : Bytes} {esi : Bool}
    (h : (withInflightLock key fetch).Ends C (.ok (body, esi))) :
    FromCache C body esi ∨ fetch.Ends C (.ok (body, esi)) := by
  obtain ⟨lock, -, err, -, h⟩ := h
  cases err with
  | some err =>
    obtain ⟨_, -, h⟩ := h
    cases h
  | none =>
    obtain ⟨err, -, h⟩ := h
    cases err with
    | some err =>
      obtain ⟨_, -, _, -, h⟩ := h
      cases h
    | none =>
      obtain ⟨hit, hhit, h⟩ := h
      change Prog.Ends (S := fetchSignature) C (if hit.ok then _ else _) _ at h
      split_ifs at h with hok
      · obtain ⟨_, -, _, -, h⟩ := h
        cases h
        exact .inl ⟨key, hit, hhit, hok, rfl, rfl⟩
      · obtain ⟨r, hr, _, -, _, -, hret⟩ := Prog.ends_bind.mp h
        obtain rfl : Except.ok (body, esi) = r := hret
        exact .inr hr

/-- A single fetch succeeds with a value from the cache, or with what a response has brought. -/
theorem fromCache_or_fromUpstream {requestedURL : Bytes} {body : Bytes} {esi : Bool}
    (h : (singleFetchUrlWithContext U L requestedURL config).Ends C (.ok (body, esi))) :
    FromCache C body esi ∨ FromUpstream U config C body esi := by
  rw [singleFetchUrlWithContext] at h
  split_ifs at h
  · cases h
  · split at h
    · cases h
    · have hadmitted := ends_of_withSemaphore_ends h
      rw [fetchAdmitted] at hadmitted
      split at hadmitted
      · cases hadmitted
      · split at hadmitted
        · exact .inr (fromUpstream_of_ends hadmitted)
        · obtain ⟨hit, hhit, hrest⟩ := hadmitted
          change Prog.Ends (S := fetchSignature) C (if hit.ok && !hit.err then _ else _) _ at hrest
          split_ifs at hrest with hok
          · cases hrest
            exact .inl ⟨_, hit, hhit, (Bool.and_eq_true_iff.mp hok).1, rfl, rfl⟩
          · exact (fromCache_or_ends hrest).imp id fromUpstream_of_ends

/-! ## What is shown -/

/-- The clock does not go back. -/
def ClockForward (C : (o : RenderOp) → renderSignature.Res o → Prop) : Prop :=
  ∀ start budget attr t, C (.since start budget attr) t → start ≤ t

/-- Whatever the body is, it makes no difference whether it comes with the response or, later, out of
the cache. -/
def CacheTransparent (P : Platform) (F : Frame) (site : Site) (path : Path) (start : Time)
    (config : EsiParserConfig) (token : EsiIncludeToken) (t : Time) (content : HttpResponse) :
    Prop :=
  ∀ (body : Bytes) (C : (o : RenderOp) → renderSignature.Res o → Prop), ClockForward C →
    ∀ output,
      (showFetched P F site path start config token t
        (.ok (body, isEsiResponse P.unicode content))).Ends C output ↔
      (showFetched P F site path start config token t (.ok (body, false))).Ends C output

section

variable {P : Platform} {F : Frame} {site : Site} {path : Path} {start t : Time}
  {config : EsiParserConfig} {token : EsiIncludeToken} {body output : Bytes}
  {C : (o : RenderOp) → renderSignature.Res o → Prop}

theorem forInclude_parseOnHeader :
    (config.forInclude P token start t).parseOnHeader = config.parseOnHeader := by
  obtain ⟨timeout, maxDepth, h⟩ := config.forInclude_eq P token start t
  rw [h]

/-- A fetched body is parsed if the render may go deeper and the response is an ESI response or need
not be one, and shown as it is otherwise. -/
theorem showFetched_ends {esi : Bool} :
    (showFetched P F site path start config token t (.ok (body, esi))).Ends C output ↔
      ∃ t', C (.since start config.timeout token.timeout) t' ∧
        if config.canGoDeeper (elapsed start t') ∧ (esi = true ∨ config.parseOnHeader = false) then
          ∃ t'', C (.since start (config.forInclude P token start t).timeout token.timeout) t'' ∧
            (mesiParse P ⟨F.job, path, (config.forInclude P token start t).maxDepth :: F.chain⟩
              (.include_ site ⟨F.chain, start, t, t''⟩) body ((config.forInclude P token start t).decreaseMaxDepth
                |>.withElapsedTime (elapsed start t''))).Ends C output
        else output = body := by
  rw [showFetched, parseIncluded]
  refine exists_congr fun t' ↦ and_congr_right fun _ ↦ ?_
  change Prog.Ends (S := renderSignature) C (if h : _ then _ else _) _ ↔ _
  have hcond : (config.canGoDeeper (elapsed start t') = true ∧
      ((token.shown (config.forInclude P token start t) (.ok (body, esi))).isEsiResponse = true ∨
        ¬ (config.forInclude P token start t).parseOnHeader = true)) ↔
      config.canGoDeeper (elapsed start t') = true ∧ (esi = true ∨ config.parseOnHeader = false) := by
    rw [forInclude_parseOnHeader, Bool.not_eq_true]
    rfl
  by_cases h : config.canGoDeeper (elapsed start t') = true ∧
      (esi = true ∨ config.parseOnHeader = false)
  · rw [if_pos h, dif_pos (hcond.mpr h)]
    rfl
  · rw [if_neg h, dif_neg fun hc ↦ h (hcond.mp hc)]
    rfl

/-- The render of an inline block. -/
theorem mesiParse_inline_ends (hC : ∀ entry timeout vars, ∃ t, C (.enter entry timeout vars) t)
    (entry : Entry) :
    (mesiParse P F entry (lit "<esi:inline>x</esi:inline>") config).Ends C (lit "x") := by
  have htokens : esiTokenizer (unescape (lit "<esi:inline>x</esi:inline>")) =
      [{ esiTagContent := lit "<esi:inline>x</esi:inline>", esiTagType := some .inline }, {}] := by
    decide +kernel
  rw [mesiParse, parseLevel]
  obtain ⟨t, ht⟩ := hC entry config.timeout config.vars
  refine ⟨t, ht, ?_⟩
  simp only [htokens]
  exact (by decide : lit "x" = assembleResults
    [⟨processInlineBlock (lit "<esi:inline>x</esi:inline>"), 0⟩, ⟨[], 1⟩])

end

/-- Whether the body of an include is parsed can depend on the flag that the cache forgets. -/
def CacheHides (config : EsiParserConfig) (U : Unicode) (content : HttpResponse) : Prop :=
  isEsiResponse U content = true ∧ config.parseOnHeader = true ∧
    1 ≤ config.maxDepth ∧ 0 < config.timeout

theorem elapsed_nonneg {start t : ℤ} (h : start ≤ t) : 0 ≤ elapsed start t := by
  change (0 : ℤ) ≤ max (-2 ^ 63 : ℤ) (min (t - start) (2 ^ 63 - 1))
  omega

section

variable {P : Platform} {F : Frame} {site : Site} {path : Path} {start t : Time}
  {config : EsiParserConfig} {token : EsiIncludeToken} {content : HttpResponse}

theorem cacheTransparent_of_not (h : ¬ CacheHides config P.unicode content) :
    CacheTransparent P F site path start config token t content := by
  intro body C hclock output
  rw [showFetched_ends, showFetched_ends]
  refine exists_congr fun t' ↦ and_congr_right fun ht' ↦ ?_
  have hiff : (config.canGoDeeper (elapsed start t') = true ∧
      (isEsiResponse P.unicode content = true ∨ config.parseOnHeader = false)) ↔
      config.canGoDeeper (elapsed start t') = true ∧
        (false = true ∨ config.parseOnHeader = false) := by
    refine and_congr_right fun hdeeper ↦ ⟨fun hor ↦ .inr ?_, fun hor ↦ .inr ?_⟩
    · refine hor.elim (fun hesi ↦ Bool.eq_false_iff.mpr fun hheader ↦ h ?_) id
      obtain ⟨hdepth, htime⟩ := of_decide_eq_true hdeeper
      exact ⟨hesi, hheader, hdepth, (elapsed_nonneg (hclock _ _ _ _ ht')).trans_lt htime⟩
    · exact hor.resolve_left (by decide)
  simp only [hiff]

/-- The body that is told apart: its text is not what it renders to. -/
theorem not_cacheTransparent_of (h : CacheHides config P.unicode content) :
    ¬ CacheTransparent P F site path start config token t content := by
  obtain ⟨hesi, hheader, hdepth, htime⟩ := h
  intro htransparent
  let C (o : RenderOp) (r : renderSignature.Res o) : Prop :=
    match o, r with
    | .since start _ _, t => t = start
    | _, _ => True
  have hclock : ClockForward C := fun start budget attr t (ht : t = start) ↦ ht.ge
  have hdeeper : config.canGoDeeper (elapsed start start) = true := by
    refine decide_eq_true ⟨hdepth, ?_⟩
    rwa [elapsed_eq le_rfl (by rw [sub_self]; decide), sub_self]
  have hfresh : (showFetched P F site path start config token t
      (.ok (lit "<esi:inline>x</esi:inline>", isEsiResponse P.unicode content))).Ends C
        (lit "x") := by
    refine showFetched_ends.mpr ⟨start, rfl, ?_⟩
    rw [if_pos ⟨hdeeper, .inl hesi⟩]
    exact ⟨start, rfl, mesiParse_inline_ends (fun _ _ _ ↦ ⟨start, trivial⟩) _⟩
  obtain ⟨t', -, h⟩ := showFetched_ends.mp ((htransparent _ C hclock _).mp hfresh)
  rw [if_neg (by rintro ⟨-, hesi | hoff⟩ <;> simp_all)] at h
  exact absurd h (by decide)

/-- **Cache transparency.** A fetch is answered by the cache, and then without the ESI flag, or by a
response, and then with the flag of its header. It makes no difference to what is shown if and only if
the body need not come with the flag to be parsed. -/
theorem cacheTransparent_iff :
    (∀ (L : NetLib) (requestedURL : Bytes) (fetchConfig : FetchConfig)
      (A : (o : FetchOp) → fetchSignature.Res o → Prop) (body : Bytes) (esi : Bool),
      (singleFetchUrlWithContext P.unicode L requestedURL fetchConfig).Ends A (.ok (body, esi)) →
        FromCache A body esi ∨ FromUpstream P.unicode fetchConfig A body esi) ∧
      (CacheTransparent P F site path start config token t content ↔
        ¬ CacheHides config P.unicode content) :=
  ⟨fun _ _ _ _ _ _ h ↦ fromCache_or_fromUpstream h,
    fun h hhides ↦ not_cacheTransparent_of hhides h, cacheTransparent_of_not⟩

end

/-- A response with the ESI flag. -/
def flaggedResponse : HttpResponse :=
  { HttpResponse.ofBody (lit "<esi:inline>x</esi:inline>") with
    header := AList.singleton (lit "Edge-Control") [lit "dca=esi"] }

/-- **The flag is lost.** The body `<esi:inline>x</esi:inline>` of a response with the flag is shown as
`x` at first, and as it is once it comes out of the cache. -/
theorem not_cacheTransparent :
    ¬ CacheTransparent (.ofElements []) .page ⟨[], 0⟩ [0] 0
      { cache := true, parseOnHeader := true, maxDepth := 1, timeout := 1000 }
      { src := lit "http://a/" } 0 flaggedResponse :=
  not_cacheTransparent_of ⟨by decide +kernel, rfl, le_rfl, by decide⟩

end GoMesi
