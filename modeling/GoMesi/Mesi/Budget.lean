import GoMesi.Mesi.RenderLogic
import GoMesi.Mesi.Simulate

/-!
# The time budget of a page

A render reads the clock when it starts, and whenever it makes a configuration to fetch with, or to
render the body of an include with, it reads the clock again and subtracts what has passed. So the
timeout of a fetch is at most what is left of the budget of the page, provided that what the timeout
is counted from is the start of the page, and not something later.

A branch of a choose block and an except body are rendered with the timeout of the render around
them, which has been running for a while, and their clock starts anew
(`timeout_le_remaining` and `not_timeout_le_remaining`).
-/

namespace GoMesi

open Strings Interleaving

/-! ## Durations -/

variable {P : Platform}

/-- An attribute never lengthens the timeout. -/
theorem EsiParserConfig.timeout_overrideConfig_le (P : Platform) (c : EsiParserConfig)
    (token : EsiIncludeToken) : (c.overrideConfig P token).timeout ≤ c.timeout := by
  have hdepth : ∀ c : EsiParserConfig, (c.overrideMaxDepth token).timeout = c.timeout := by
    intro c
    rw [overrideMaxDepth]
    split_ifs
    · rfl
    · split
      · rfl
      · split_ifs <;> rfl
  rw [overrideConfig, hdepth, overrideTimeout]
  split_ifs
  · exact le_rfl
  · split
    · split_ifs with h
      · exact h.2.le
      · exact le_rfl
    · exact le_rfl

/-- From the time `t` on, the timeout ends by `bound`. A timeout that is not positive has ended. -/
structure Fits (bound t timeout : ℤ) : Prop where
  lt : timeout < 2 ^ 63
  le : 0 < timeout → timeout + t ≤ bound

theorem Fits.mono {bound t t' timeout timeout' : ℤ} (h : Fits bound t timeout) (ht : t' ≤ t)
    (hle : timeout' ≤ timeout) : Fits bound t' timeout' :=
  ⟨hle.trans_lt h.lt, fun hpos ↦ by have := h.le (hpos.trans_le hle); omega⟩

/-- What is left after the time from `start` to `t` ends no later. -/
theorem Fits.sub {bound start t timeout e : ℤ} (h : Fits bound start timeout) (hle : start ≤ t)
    (he : e = max (-2 ^ 63) (min (t - start) (2 ^ 63 - 1))) : Fits bound t (timeout - e) := by
  obtain ⟨hlt, hle'⟩ := h
  exact ⟨by omega, fun hpos ↦ by have := hle' (by omega); omega⟩

theorem Fits.withElapsedTime {bound : ℤ} {c : EsiParserConfig} {start t : ℤ}
    (h : Fits bound start c.timeout) (hle : start ≤ t)
    (hlo : -2 ^ 63 ≤ c.timeout - elapsed start t) :
    Fits bound t (c.withElapsedTime (elapsed start t)).timeout := by
  have hsub : Fits bound t (c.timeout - elapsed start t) := h.sub hle rfl
  rw [EsiParserConfig.withElapsedTime, wrap64_of_mem hlo hsub.lt]
  split_ifs
  · exact hsub
  · exact ⟨show (0 : ℤ) < 2 ^ 63 by decide, fun h ↦ absurd h (lt_irrefl 0)⟩

/-! ## What a thread knows -/

/-- What is asked of the timing of an operation at the time `clock`. A branch of a choose block and
an except body are entered with no more than what is left until `bound`. No time passes between a
clock reading and what it was made for, and no subtraction of durations goes below 64 bits. -/
def Timely (bound clock : ℤ) : RenderOp → Prop
  | .enter .page _ _ => True
  | .enter (.include_ _ inc) _ _ => inc.readAt = clock
  | .enter (.choose _) timeout _ => 0 < timeout → timeout + clock ≤ bound
  | .enter (.except_ _) timeout _ => 0 < timeout → timeout + clock ≤ bound
  | .now readAt => readAt = clock
  | .since start budget _ => -2 ^ 63 ≤ budget - elapsed start clock
  | .spawn _ _ readAt => readAt = clock
  | _ => True

instance (bound clock : ℤ) (o : RenderOp) : Decidable (Timely bound clock o) := by
  unfold Timely
  split <;> infer_instance

/-- An operation at the time `clock` that enters the page does so at the time `start`. -/
def PageEnteredAt (start clock : ℤ) : RenderOp → Prop
  | .enter .page _ _ => clock = start
  | _ => True

instance (start clock : ℤ) (o : RenderOp) : Decidable (PageEnteredAt start clock o) := by
  unfold PageEnteredAt
  split <;> infer_instance

/-- A thread remembers its last clock reading. The page is entered at the time `start`. -/
def budgetGhost (bound start : ℤ) : Ghost renderSignature ℤ where
  ok _
    | .spawn _ request readAt => Fits bound readAt request.config.timeout
    | _ => True
  next
    | g, .enter entry timeout vars, r, g' =>
      g ≤ g' ∧ r = g' ∧ Timely bound g' (.enter entry timeout vars) ∧
        PageEnteredAt start g' (.enter entry timeout vars)
    | g, .now readAt, r, g' => g ≤ g' ∧ r = g' ∧ Timely bound g' (.now readAt)
    | g, .since from_ budget attr, r, g' =>
      g ≤ g' ∧ r = g' ∧ Timely bound g' (.since from_ budget attr)
    | g, _, _, g' => g' = g
  fork g _ _ gs := ∀ i, gs i = g

/-- A render that started at a reading that has been made has a timeout that ends by `bound`. -/
structure OnTime (bound : ℤ) (C : RenderCtx) (g : ℤ) : Prop where
  fits : Fits bound C.start C.config.timeout
  start_le : C.start ≤ g

/-- A configuration made with the reading `t` has a timeout that ends by `bound`. -/
structure FetchOnTime (bound : ℤ) (C : TokenCtx) (c : EsiParserConfig) (t g : ℤ) : Prop where
  fits : Fits bound t c.timeout
  start_le : C.start ≤ t
  le : t ≤ g

theorem EsiParserConfig.timeout_forRender (P : Platform) (c : EsiParserConfig) (render : Path) :
    (c.forRender P render).timeout = c.timeout := by
  simp only [forRender, normalizeMaxWorkers]
  split_ifs <;> rfl

/-- A render may be entered when its timeout ends by `bound`, counted from then on. -/
theorem OnTime.of_entered {bound : ℤ} {F : Frame} {config : EsiParserConfig} {t : ℤ}
    (h : Fits bound t config.timeout) :
    OnTime bound ⟨F, config.forRender P F.render, t⟩ t :=
  ⟨(config.timeout_forRender P F.render).symm ▸ h, le_rfl⟩

private theorem budget_next_le {bound start g g' : ℤ} {o : RenderOp} {r : renderSignature.Res o}
    (h : (budgetGhost bound start).next g o r g') : g ≤ g' := by
  cases o with
  | enter | now | since => exact h.1
  | _ => exact ge_of_eq h

/-- Timeouts end by `bound`. -/
def budgetLogic (P : Platform) (bound start : ℤ) : RenderLogic P ℤ where
  γ := budgetGhost bound start
  Top C g := OnTime bound C g
  Inv C g := OnTime bound C.toRenderCtx g
  Fit C c t g := FetchOnTime bound C c t g
  next_le := budget_next_le
  top_mono hle h := ⟨h.fits, h.start_le.trans hle⟩
  inv_mono hle h := ⟨h.fits, h.start_le.trans hle⟩
  fit_mono hle h := ⟨h.fits, h.start_le, h.le.trans hle⟩
  lookup _ := trivial
  since _ := trivial
  intn _ _ := trivial
  wait _ _ := trivial
  select _ _ _ := trivial
  fit {C} g token t g' h _ hnext := by
    obtain ⟨hle, rfl, htimely⟩ := hnext
    have hstart := h.start_le.trans hle
    have hfits := h.fits.mono le_rfl (C.config.timeout_overrideConfig_le P token)
    exact ⟨hfits.withElapsedTime hstart htimely, hstart, le_rfl⟩
  spawn _ h _ := h.fits
  now _ _ := trivial
  refit {C} g c t s g₁ g₂ attr _ h hnow hle := by
    obtain ⟨-, rfl, rfl⟩ := hnow
    refine ⟨trivial, fun t' g₃ hnext ↦ ?_⟩
    obtain ⟨hle', rfl, htimely⟩ := hnext
    exact ⟨h.fits.withElapsedTime (hle.trans hle') htimely,
      h.start_le.trans (hle.trans hle'), le_rfl⟩
  include_ {C} g token t e t' g' h _ hfit _ hnext := by
    obtain ⟨hle, rfl, htimely⟩ := hnext
    refine ⟨trivial, fun t₁ g₁ hnext₁ ↦ ?_⟩
    obtain ⟨-, rfl, rfl, -⟩ := hnext₁
    exact .of_entered ((hfit.fits.mono hfit.start_le le_rfl).withElapsedTime
      (h.start_le.trans hle) htimely)
  choose h := by
    refine ⟨trivial, fun t g' hnext ↦ ?_⟩
    obtain ⟨-, rfl, htimely, -⟩ := hnext
    exact .of_entered ⟨h.fits.lt, htimely⟩
  except_ h := by
    refine ⟨trivial, fun t g' hnext ↦ ?_⟩
    obtain ⟨-, rfl, htimely, -⟩ := hnext
    exact .of_entered ⟨h.fits.lt, htimely⟩
  sub _ h := h
  token _ h := h
  newMap h _ := ⟨trivial, fun _ _ hnext ↦ hnext ▸ ⟨h.fits, h.start_le⟩⟩
  range _ := trivial
  assign _ _ := trivial
  fork _ h _ _ := ⟨fun _ ↦ _, fun _ ↦ rfl, fun _ ↦ ⟨h.fits, h.start_le⟩⟩
  collect _ := trivial

/-! ## The whole page -/

variable {U : Unicode} {L : NetLib} {A : (o : FetchOp) → fetchSignature.Res o → Prop}

/-- The semantics of the runs in question. -/
private theorem tracks_budgetGhost (bound start : ℤ) :
    Tracks (budgetGhost bound start)
      (fun o s r s' ↦ World.Sem o s r s' ∧ (Timely bound s.clock o ∧ PageEnteredAt start s.clock o))
      (World.Env U L A) (fun g s ↦ g ≤ s.clock) fun _ ↦ True where
  own {g o s r s'} hg _ h := by
    obtain ⟨hsem, htimely, hstart⟩ := h
    have hclock := hsem.clock_eq
    cases o with
    | enter entry timeout vars =>
      exact ⟨s.clock, ⟨hg, hsem.1, htimely, hstart⟩, hclock.ge, fun _ ↦ trivial⟩
    | now readAt => exact ⟨s.clock, ⟨hg, hsem.1, htimely⟩, hclock.ge, fun _ ↦ trivial⟩
    | since from_ budget attr =>
      exact ⟨s.clock, ⟨hg, hsem.1, htimely⟩, hclock.ge, fun _ ↦ trivial⟩
    | _ => exact ⟨g, rfl, hclock ▸ hg, fun _ ↦ trivial⟩
  stable _ _ _ h g hg := h.1.clock_eq ▸ hg
  env h g hg := hg.trans h.clock_le
  fork hg h i := ⟨h i ▸ hg, trivial⟩

/-- **The budget of a page.** In a run of a page whose operations are timely, a fetch that is started
at all has a timeout of at most what is left of the budget at that time. -/
theorem timeout_le_remaining {input : Bytes} {config : EsiParserConfig}
    (hT : config.timeout < 2 ^ 63) {s t : World} {tr : List (Event renderSignature World)}
    {q : Render Bytes} {start : Time}
    (h : Run World.Sem (World.Env U L A) (mesiParse P .page .page input config) s tr q t)
    (hstart : ∀ ev ∈ tr, PageEnteredAt start ev.pre.clock ev.op)
    (htimely : ∀ ev ∈ tr, Timely (config.timeout + start) ev.pre.clock ev.op) :
    ∀ ev ∈ tr, ∀ id request readAt, ev.op = .spawn id request readAt → 0 < request.config.timeout →
      request.config.timeout ≤ config.timeout - (ev.pre.clock - start) := by
  have hrun := h.restrict (C := fun ev : Event renderSignature World ↦
    Timely (config.timeout + start) ev.pre.clock ev.op ∧ PageEnteredAt start ev.pre.clock ev.op)
      fun ev hev ↦ ⟨htimely ev hev, hstart ev hev⟩
  have T := tracks_budgetGhost (U := U) (L := L) (A := A) (config.timeout + start) start
  have hsafe : (budgetLogic P (config.timeout + start) start).Safe s.clock
      (mesiParse P .page .page input config) :=
    RenderLogic.safe_mesiParse ⟨trivial, fun t g' hnext ↦ by
      obtain ⟨-, rfl, -, hpage⟩ := hnext
      have hentered : t = start := hpage
      exact .of_entered ⟨hT, fun _ ↦ by rw [hentered]⟩⟩
  intro ev hev id request readAt hop hpos
  obtain ⟨g, -, hok⟩ := (hrun.ghost T (hsafe.walk.live T (le_refl s.clock) fun _ ↦ trivial)).2 ev hev
  have hat := htimely ev hev
  rw [hop] at hok hat
  have hfits : Fits (config.timeout + start) ev.pre.clock request.config.timeout :=
    (show readAt = ev.pre.clock from hat) ▸ hok
  have hle := hfits.le hpos
  exact (by omega : ∀ a b c d : ℤ, a + b ≤ c + d → a ≤ c - (b - d)) _ _ _ _ hle

/-! ## A page with a slow attempt -/

def attemptText : Bytes := lit "<esi:include src=\"http://a/slow\"/>"

def exceptText : Bytes := lit "<esi:include src=\"http://a/fallback\"/>"

/-- A page with an attempt that fails, and another include for this case, and a budget of 1000. -/
def slowPage : Page where
  elements := [(attemptText, { src := lit "http://a/slow" }),
    (exceptText, { src := lit "http://a/fallback" })]
  upstream := []
  input := lit "<esi:try><esi:attempt>" ++ attemptText ++ lit "</esi:attempt><esi:except>" ++
    exceptText ++ lit "</esi:except></esi:try>"
  config := { maxDepth := 1, timeout := 1000 }

/-- The fetch of the attempt fails after a time, and then the except body is rendered. -/
def slowSchedule (time : Time) : List (Move World.EnvMove) :=
  List.replicate 4 (.job []) ++ [.world (.start ⟨[0, 0, 0], 0⟩), .world (.tick time),
    .world (.finish ⟨[0, 0, 0], 0⟩)] ++ List.replicate 2 (.job []) ++ List.replicate 4 (.job [0])

/-- No time passes while the attempt fails. -/
theorem timeout_le_remaining_slowPage :
    (slowPage.run (slowSchedule 0) (.initial fun _ ↦ none)).state.fetches.length = 2 ∧
    ∀ ev ∈ (slowPage.run (slowSchedule 0) (.initial fun _ ↦ none)).trace, ∀ id request readAt,
      ev.op = .spawn id request readAt → 0 < request.config.timeout →
        request.config.timeout ≤ slowPage.config.timeout - (ev.pre.clock - 0) :=
  ⟨by decide +kernel,
    timeout_le_remaining (by decide) (slowPage.run_run (slowSchedule 0) (.initial fun _ ↦ none))
      (by decide +kernel) (by decide +kernel)⟩

/-- A fetch with more than the rest of a budget that began at zero. -/
private def overBudget (budget : ℤ) (ev : Event renderSignature World) : Bool :=
  match ev.op with
  | .spawn _ request _ =>
    decide (0 < request.config.timeout ∧ budget - (ev.pre.clock - 0) < request.config.timeout)
  | _ => false

private theorem overBudget_slowPage :
    (slowPage.run (slowSchedule 600) (.initial fun _ ↦ none)).trace.any (overBudget 1000) = true := by
  decide +kernel

/-- **A clock that starts anew.** After an attempt that took 600 of a budget of 1000, the include in
the except body is fetched with a timeout of 1000. -/
theorem not_timeout_le_remaining :
    ¬ ∀ tr q t, Run World.Sem (World.Env .ascii .simple (answersOf slowPage.upstream))
        slowPage.prog (.initial fun _ ↦ none) tr q t →
      (∀ ev ∈ tr, PageEnteredAt 0 ev.pre.clock ev.op) →
        ∀ ev ∈ tr, ∀ id request readAt, ev.op = .spawn id request readAt →
          0 < request.config.timeout →
            request.config.timeout ≤ slowPage.config.timeout - (ev.pre.clock - 0) := by
  intro h
  have hrun := h _ _ _ (slowPage.run_run (slowSchedule 600) (.initial fun _ ↦ none))
    (by decide +kernel)
  obtain ⟨ev, hev, hover⟩ := List.any_eq_true.mp overBudget_slowPage
  rw [overBudget] at hover
  split at hover
  · rename_i id request readAt hop
    obtain ⟨hpos, hlt⟩ := of_decide_eq_true hover
    exact absurd (hrun ev hev id request readAt hop hpos) (not_le.mpr hlt)
  · simp at hover

end GoMesi
