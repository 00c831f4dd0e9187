import GoMesi.Mesi.Budget

/-!
# The time budget of a fragment

What has passed since the page was entered is subtracted from the timeout when an include of the page
is fetched, and once more, from the rest, when the body that has been fetched is rendered. The time
until the fetch is counted twice, and the includes of the fragment have less than what is left of the
budget of the page (`remaining_le_timeout` and `not_remaining_le_timeout`).
-/

namespace GoMesi

open Strings Interleaving

/-! ## Durations -/

theorem wrap64_lt (x : ℤ) : wrap64 x < 2 ^ 63 := by
  have h := Int.bmod_lt (x := x) (m := 2 ^ 64) (by decide)
  rw [wrap64]
  omega

theorem le_wrap64 {x : ℤ} (h : x < 2 ^ 63) : x ≤ wrap64 x := by
  by_cases hlo : -2 ^ 63 ≤ x
  · exact (wrap64_of_mem hlo h).ge
  · have hmod := Int.le_bmod (x := x) (m := 2 ^ 64) (by decide)
    rw [wrap64]
    omega

/-- From the time `t` on, the timeout ends no earlier than `bound`. -/
structure Lasts (bound t timeout : ℤ) : Prop where
  lt : timeout < 2 ^ 63
  le : bound ≤ timeout + t

theorem Lasts.mono {bound bound' t t' timeout : ℤ} (h : Lasts bound t timeout)
    (hle : bound' + t ≤ bound + t') : Lasts bound' t' timeout :=
  ⟨h.lt, by have := h.le; omega⟩

/-- What is left after the time from `start` to `t` ends no earlier. -/
theorem Lasts.sub {bound start t timeout e : ℤ} (h : Lasts bound start timeout) (hle : start ≤ t)
    (he : e = max (-2 ^ 63) (min (t - start) (2 ^ 63 - 1))) : Lasts bound t (timeout - e) := by
  obtain ⟨hlt, hbound⟩ := h
  exact ⟨by omega, by omega⟩

theorem Lasts.withElapsedTime {bound : ℤ} {c : EsiParserConfig} {start t : ℤ}
    (h : Lasts bound start c.timeout) (hle : start ≤ t) :
    Lasts bound t (c.withElapsedTime (elapsed start t)).timeout := by
  have hsub : Lasts bound t (c.timeout - elapsed start t) := h.sub hle rfl
  have hwrap := le_wrap64 hsub.lt
  have hrest : Lasts bound t (wrap64 (c.timeout - elapsed start t)) :=
    ⟨wrap64_lt _, hsub.le.trans (Int.add_le_add_right hwrap t)⟩
  rw [EsiParserConfig.withElapsedTime]
  split_ifs with hpos
  · exact hrest
  · exact ⟨show (0 : ℤ) < 2 ^ 63 by decide,
      hrest.le.trans (Int.add_le_add_right (not_lt.mp hpos) t)⟩

/-- What was left at the time `t` of a budget that began with the render at `start`, less what has
passed since the render started once more. -/
theorem Lasts.withElapsedTime_twice {budget pageStart start t t' clock : ℤ} {c : EsiParserConfig}
    (h : Lasts (budget + start) t c.timeout) (hle : start ≤ t')
    (htime : t - start ≤ (start - pageStart) + (clock - t')) :
    Lasts (budget + pageStart) clock (c.withElapsedTime (elapsed start t')).timeout := by
  -- the time until `t` has been subtracted already
  have hagain : Lasts (budget + start - (t - start)) start c.timeout := h.mono (by omega)
  exact (hagain.withElapsedTime hle).mono (by omega)

theorem Lasts.later {bound t t' timeout : ℤ} (h : Lasts bound t timeout) (hle : t ≤ t') :
    Lasts bound t' timeout :=
  h.mono (by omega)

theorem EsiParserConfig.timeout_overrideConfig (P : Platform) (c : EsiParserConfig)
    {token : EsiIncludeToken} (h : token.timeout = []) :
    (c.overrideConfig P token).timeout = c.timeout := by
  rw [overrideConfig, overrideTimeout, if_pos h, overrideMaxDepth]
  split_ifs
  · rfl
  · split
    · rfl
    · split_ifs <;> rfl

/-! ## What a thread knows -/

variable {P : Platform}

/-- A clock reading is made for an include without a `timeout` attribute. -/
def WithoutTimeout : RenderOp → Prop
  | .since _ _ attr => attr = []
  | _ => True

instance : DecidablePred WithoutTimeout := fun
  | .since _ _ attr => inferInstanceAs (Decidable (attr = []))
  | .enter _ _ _ | .now _ | .lookup _ _ _ | .range _ | .newMap _ _ | .assign _ _ _ _ _ | .intn _ _
  | .spawn _ _ _ | .wait _ | .select _ _ | .collect _ => isTrue trivial

/-- The body of an include of the page is entered in time: until the include was fetched there has
passed no more since the render around it started than has passed between that start and the start of
the page, and between the last reading and now. -/
def EnteredInTime (start clock : ℤ) : RenderOp → Prop
  | .enter (.include_ _ inc) _ _ =>
    inc.chain = [] → inc.fetchedAt - inc.start ≤ (inc.start - start) + (clock - inc.readAt)
  | _ => True

instance (start clock : ℤ) (o : RenderOp) : Decidable (EnteredInTime start clock o) :=
  match o with
  | .enter (.include_ _ _) _ _ => inferInstanceAs (Decidable (_ → _))
  | .enter .page _ _ => .isTrue trivial
  | .enter (.choose _) _ _ => .isTrue trivial
  | .enter (.except_ _) _ _ => .isTrue trivial
  | .now _ => .isTrue trivial
  | .since _ _ _ => .isTrue trivial
  | .lookup _ _ _ => .isTrue trivial
  | .range _ => .isTrue trivial
  | .newMap _ _ => .isTrue trivial
  | .assign _ _ _ _ _ => .isTrue trivial
  | .intn _ _ => .isTrue trivial
  | .spawn _ _ _ => .isTrue trivial
  | .wait _ => .isTrue trivial
  | .select _ _ => .isTrue trivial
  | .collect _ => .isTrue trivial

/-- A thread remembers its last clock reading. The page with the budget `budget` is entered at the
time `start`. -/
def fragmentGhost (budget start : ℤ) : Ghost renderSignature ℤ where
  ok g
    | .spawn _ request readAt =>
      request.chain.length = 2 → readAt ≤ g ∧ Lasts (budget + start) readAt request.config.timeout
    | _ => True
  next
    | g, .enter entry timeout vars, r, g' =>
      g ≤ g' ∧ r = g' ∧ EnteredInTime start g' (.enter entry timeout vars) ∧
        PageEnteredAt start g' (.enter entry timeout vars)
    | g, .now _, r, g' => g ≤ g' ∧ r = g'
    | g, .since from_ timeout attr, r, g' =>
      g ≤ g' ∧ r = g' ∧ WithoutTimeout (.since from_ timeout attr)
    | g, _, _, g' => g' = g
  fork g _ _ gs := ∀ i, gs i = g

/-- The timeout of the renders of the page, and of the renders of a fragment. -/
structure LongEnough (budget start : ℤ) (C : RenderCtx) (g : ℤ) : Prop where
  page : C.frame.chain.length = 0 →
    C.config.timeout = budget ∧ C.config.timeout < 2 ^ 63 ∧ start ≤ C.start
  fragment : C.frame.chain.length = 1 → Lasts (budget + start) C.start C.config.timeout
  start_le : C.start ≤ g

/-- The timeout of a configuration that has been made with the reading `t`. -/
structure FetchLongEnough (budget start : ℤ) (C : TokenCtx) (c : EsiParserConfig) (t g : ℤ) :
    Prop where
  page : C.frame.chain.length = 0 → Lasts (budget + C.start) t c.timeout
  fragment : C.frame.chain.length = 1 → Lasts (budget + start) t c.timeout
  start_le : C.start ≤ t
  le : t ≤ g

private theorem fragment_next_le {budget start g g' : ℤ} {o : RenderOp} {r : renderSignature.Res o}
    (h : (fragmentGhost budget start).next g o r g') : g ≤ g' := by
  cases o with
  | enter | now | since => exact h.1
  | _ => exact ge_of_eq h

/-- The timeouts are long enough, up to the second subtraction. -/
def fragmentLogic (P : Platform) (budget start : ℤ) : RenderLogic P ℤ where
  γ := fragmentGhost budget start
  Top C g := LongEnough budget start C g
  Inv C g := LongEnough budget start C.toRenderCtx g
  Fit C c t g := FetchLongEnough budget start C c t g
  next_le := fragment_next_le
  top_mono hle h := ⟨h.page, h.fragment, h.start_le.trans hle⟩
  inv_mono hle h := ⟨h.page, h.fragment, h.start_le.trans hle⟩
  fit_mono hle h := ⟨h.page, h.fragment, h.start_le, h.le.trans hle⟩
  lookup _ := trivial
  since _ := trivial
  intn _ _ := trivial
  wait _ _ := trivial
  select _ _ _ := trivial
  fit {C} g token t g' h _ hnext := by
    obtain ⟨hle, rfl, hattr⟩ := hnext
    have hstart := h.start_le.trans hle
    have hkeep : (C.config.overrideConfig P token).timeout = C.config.timeout :=
      C.config.timeout_overrideConfig P hattr
    refine ⟨fun hchain ↦ ?_, fun hchain ↦ ?_, hstart, le_rfl⟩
    · obtain ⟨htimeout, hlt, -⟩ := h.page hchain
      have hlasts : Lasts (budget + C.start) C.start (C.config.overrideConfig P token).timeout :=
        ⟨hkeep ▸ hlt, by rw [hkeep, htimeout]⟩
      exact hlasts.withElapsedTime hstart
    · have hlasts := h.fragment hchain
      rw [← hkeep] at hlasts
      exact hlasts.withElapsedTime hstart
  spawn {C} g c t slot url h hfit _ hlength :=
    ⟨hfit.le, hfit.fragment (Nat.succ_injective hlength)⟩
  now _ _ := trivial
  refit {C} g c t s g₁ g₂ attr h hfit hnow hle := by
    obtain ⟨hle₁, rfl⟩ := hnow
    refine ⟨trivial, fun t' g₃ hnext ↦ ?_⟩
    obtain ⟨hle', rfl, -⟩ := hnext
    have hs := hfit.le.trans hle₁
    have ht' := hle.trans hle'
    exact ⟨fun hchain ↦ ((hfit.page hchain).mono (by omega)).withElapsedTime ht',
      fun hchain ↦ ((hfit.fragment hchain).mono (by omega)).withElapsedTime ht',
      hfit.start_le.trans (hs.trans ht'), le_rfl⟩
  include_ {C} g token t e t' g' h _ hfit _ hnext := by
    obtain ⟨hle, rfl, -⟩ := hnext
    refine ⟨trivial, fun t₁ g₁ hnext₁ ↦ ?_⟩
    obtain ⟨hle₁, rfl, htime, -⟩ := hnext₁
    refine ⟨fun hchain ↦ absurd hchain (Nat.succ_ne_zero _), fun hchain ↦ ?_, le_rfl⟩
    have hchain : C.frame.chain = [] := List.length_eq_zero_iff.mp (Nat.succ_injective hchain)
    have htime : t - C.start ≤ (C.start - start) + (t₁ - t') := htime hchain
    have hlasts := hfit.page (List.length_eq_zero_iff.mpr hchain)
    have hrest := hlasts.withElapsedTime_twice (h.start_le.trans hle) htime
    change Lasts (budget + start) t₁ (EsiParserConfig.forRender P _ C.path).timeout
    rw [EsiParserConfig.timeout_forRender]
    exact hrest
  choose {C} g h := by
    refine ⟨trivial, fun t g' hnext ↦ ?_⟩
    obtain ⟨hle, rfl, -, -⟩ := hnext
    have hstart := h.start_le.trans hle
    have hkeep := C.config.timeout_forRender P C.path
    refine ⟨fun hchain ↦ ?_, fun hchain ↦ ?_, le_rfl⟩
    · obtain ⟨htimeout, hlt, hpage⟩ := h.page hchain
      exact ⟨hkeep.trans htimeout, hkeep ▸ hlt, hpage.trans hstart⟩
    · change Lasts (budget + start) t (C.config.forRender P C.path).timeout
      rw [hkeep]
      exact (h.fragment hchain).later hstart
  except_ {C} g h := by
    refine ⟨trivial, fun t g' hnext ↦ ?_⟩
    obtain ⟨hle, rfl, -, -⟩ := hnext
    have hstart := h.start_le.trans hle
    have hkeep := C.config.timeout_forRender P C.path
    refine ⟨fun hchain ↦ ?_, fun hchain ↦ ?_, le_rfl⟩
    · obtain ⟨htimeout, hlt, hpage⟩ := h.page hchain
      exact ⟨hkeep.trans htimeout, hkeep ▸ hlt, hpage.trans hstart⟩
    · change Lasts (budget + start) t (C.config.forRender P C.path).timeout
      rw [hkeep]
      exact (h.fragment hchain).later hstart
  sub _ h := h
  token _ h := h
  newMap h _ := ⟨trivial, fun _ _ hnext ↦ hnext ▸ ⟨h.page, h.fragment, h.start_le⟩⟩
  range _ := trivial
  assign _ _ := trivial
  fork _ h _ _ := ⟨fun _ ↦ _, fun _ ↦ rfl, fun _ ↦ ⟨h.page, h.fragment, h.start_le⟩⟩
  collect _ := trivial

/-! ## The whole page -/

variable {U : Unicode} {L : NetLib} {A : (o : FetchOp) → fetchSignature.Res o → Prop}

/-- The semantics of the runs in question. -/
private theorem tracks_fragmentGhost (budget start : ℤ) :
    Tracks (fragmentGhost budget start)
      (fun o s r s' ↦ World.Sem o s r s' ∧
        (PageEnteredAt start s.clock o ∧ WithoutTimeout o ∧ EnteredInTime start s.clock o))
      (World.Env U L A) (fun g s ↦ g ≤ s.clock) fun _ ↦ True where
  own {g o s r s'} hg _ h := by
    obtain ⟨hsem, hstart, hattr, hentered⟩ := h
    have hclock := hsem.clock_eq
    cases o with
    | enter entry timeout vars =>
      exact ⟨s.clock, ⟨hg, hsem.1, hentered, hstart⟩, hclock.ge, fun _ ↦ trivial⟩
    | now readAt => exact ⟨s.clock, ⟨hg, hsem.1⟩, hclock.ge, fun _ ↦ trivial⟩
    | since from_ timeout attr =>
      exact ⟨s.clock, ⟨hg, hsem.1, hattr⟩, hclock.ge, fun _ ↦ trivial⟩
    | _ => exact ⟨g, rfl, hclock ▸ hg, fun _ ↦ trivial⟩
  stable _ _ _ h g hg := h.1.clock_eq ▸ hg
  env h g hg := hg.trans h.clock_le
  fork hg h i := ⟨h i ▸ hg, trivial⟩

/-- **The budget of a fragment.** In a run of a page without timeout attributes, in which the bodies
of its includes are entered in time, an include of a fragment of the page has at least what is left of
the budget of the page when its fetch is started. -/
theorem remaining_le_timeout {input : Bytes} {config : EsiParserConfig}
    (hT : config.timeout < 2 ^ 63) {s t : World} {tr : List (Event renderSignature World)}
    {q : Render Bytes} {start : Time}
    (h : Run World.Sem (World.Env U L A) (mesiParse P .page .page input config) s tr q t)
    (hstart : ∀ ev ∈ tr, PageEnteredAt start ev.pre.clock ev.op)
    (hattr : ∀ ev ∈ tr, WithoutTimeout ev.op)
    (hentered : ∀ ev ∈ tr, EnteredInTime start ev.pre.clock ev.op) :
    ∀ ev ∈ tr, ∀ id request readAt, ev.op = .spawn id request readAt → request.chain.length = 2 →
      config.timeout - (ev.pre.clock - start) ≤ request.config.timeout := by
  have hrun := h.restrict (C := fun ev : Event renderSignature World ↦
    PageEnteredAt start ev.pre.clock ev.op ∧ WithoutTimeout ev.op ∧
      EnteredInTime start ev.pre.clock ev.op)
    fun ev hev ↦ ⟨hstart ev hev, hattr ev hev, hentered ev hev⟩
  have T := tracks_fragmentGhost (U := U) (L := L) (A := A) config.timeout start
  have hsafe : (fragmentLogic P config.timeout start).Safe s.clock
      (mesiParse P .page .page input config) := by
    refine RenderLogic.safe_mesiParse ⟨trivial, fun t g' hnext ↦ ?_⟩
    obtain ⟨-, rfl, -, hpage⟩ := hnext
    have hkeep := config.timeout_forRender P []
    exact ⟨fun _ ↦ ⟨hkeep, hkeep ▸ hT, (show t = start from hpage).ge⟩,
      fun hchain ↦ absurd hchain (Nat.zero_ne_add_one 0), le_rfl⟩
  intro ev hev id request readAt hop hlength
  obtain ⟨g, hg, hok⟩ :=
    (hrun.ghost T (hsafe.walk.live T (le_refl s.clock) fun _ ↦ trivial)).2 ev hev
  rw [hop] at hok
  obtain ⟨hread, hlasts⟩ := hok hlength
  have hle := (hlasts.later (hread.trans hg)).le
  exact (by omega : ∀ a b c d : ℤ, a + b ≤ d + c → a - (c - b) ≤ d) _ _ _ _ hle

/-! ## A page that fetches late -/

/-- A page with a fragment that has an include of its own, and a budget of 1000. -/
def latePageInclude : Page where
  elements := [(lit "<esi:include src=\"http://a/x\"/>", { src := lit "http://a/x" }),
    (lit "<esi:include src=\"http://a/y\"/>", { src := lit "http://a/y" })]
  upstream := [(lit "http://a/x", .ofBody (lit "<esi:include src=\"http://a/y\"/>"))]
  input := lit "<esi:include src=\"http://a/x\"/>"
  config := { maxDepth := 2, timeout := 1000 }

/-- The include of the page is fetched after a time, and then the one of the fragment at once. -/
def fragmentSchedule (time : Time) : List (Move World.EnvMove) :=
  .job [] :: .world (.tick time) :: List.replicate 4 (.job [0]) ++
    [.world (.start ⟨[0], 0⟩), .world (.finish ⟨[0], 0⟩)] ++ List.replicate 4 (.job [0]) ++
      List.replicate 4 (.job [0, 0])

/-- No time passes before the include of the page is fetched. -/
theorem remaining_le_timeout_latePageInclude :
    (latePageInclude.run (fragmentSchedule 0) (.initial fun _ ↦ none)).state.fetches.length = 2 ∧
    ∀ ev ∈ (latePageInclude.run (fragmentSchedule 0) (.initial fun _ ↦ none)).trace,
      ∀ id request readAt, ev.op = .spawn id request readAt → request.chain.length = 2 →
        latePageInclude.config.timeout - (ev.pre.clock - 0) ≤ request.config.timeout :=
  ⟨by decide +kernel,
    remaining_le_timeout (by decide)
      (latePageInclude.run_run (fragmentSchedule 0) (.initial fun _ ↦ none))
      (by decide +kernel) (by decide +kernel) (by decide +kernel)⟩

/-- A fetch of a fragment with less than the rest of a budget that began at zero. -/
private def underBudget (budget : ℤ) (ev : Event renderSignature World) : Bool :=
  match ev.op with
  | .spawn _ request _ =>
    decide (request.chain.length = 2 ∧ request.config.timeout < budget - (ev.pre.clock - 0))
  | _ => false

private theorem underBudget_latePageInclude :
    (latePageInclude.run (fragmentSchedule 400) (.initial fun _ ↦ none)).trace.any
      (underBudget 1000) = true := by
  decide +kernel

/-- **Time counted twice.** The include of the page is fetched after 400 of a budget of 1000, and the
one of the fragment at the same moment, with a timeout of 200. -/
theorem not_remaining_le_timeout :
    ¬ ∀ tr q t, Run World.Sem (World.Env .ascii .simple (answersOf latePageInclude.upstream))
        latePageInclude.prog (.initial fun _ ↦ none) tr q t →
      (∀ ev ∈ tr, PageEnteredAt 0 ev.pre.clock ev.op) → (∀ ev ∈ tr, WithoutTimeout ev.op) →
        ∀ ev ∈ tr, ∀ id request readAt, ev.op = .spawn id request readAt →
          request.chain.length = 2 →
            latePageInclude.config.timeout - (ev.pre.clock - 0) ≤ request.config.timeout := by
  intro h
  have hrun := h _ _ _ (latePageInclude.run_run (fragmentSchedule 400) (.initial fun _ ↦ none))
    (by decide +kernel) (by decide +kernel)
  obtain ⟨ev, hev, hunder⟩ := List.any_eq_true.mp underBudget_latePageInclude
  rw [underBudget] at hunder
  split at hunder
  · rename_i id request readAt hop
    obtain ⟨hlength, hlt⟩ := of_decide_eq_true hunder
    exact absurd (hrun ev hev id request readAt hop hlength) (not_le.mpr hlt)
  · simp at hunder

end GoMesi
