import GoMesi.Mesi.RenderLogic
import GoMesi.Mesi.Simulate

/-!
# Who writes to a `Variables` map

A configuration is passed on by value, and its `Variables` map by reference. A vars block of a
render without `Variables` makes a new map that nobody else refers to, but every other vars block
writes to the map it was given: the caller's, or that of the page around it. So a render leaves the
map as it was when its vars blocks, and those of the renders inside of it, write to it nothing but
what is there already (`maps_eq_of_writesHeld`), and otherwise it does not (`not_maps_eq`).
-/

namespace GoMesi

open Strings Interleaving

/-! ## The maps of a render -/

/-- Writes go to the map `vars`, or to a map that was made by the render at `root` or inside of it,
and only there are maps made. -/
def WritesWithin (root : Path) (vars : Option MapRef) : RenderOp → Prop
  | .assign _ _ m _ _ => vars = some m ∨ ∃ r, m = .made r ∧ root <+: r
  | .newMap site _ => root <+: site.render
  | _ => True

/-- A render at `root` or inside of it has the map `vars` or one that was made there. -/
structure VarsWithin (root : Path) (vars : Option MapRef) (render : Path) (config : EsiParserConfig) :
    Prop where
  render : root <+: render
  vars : config.vars = vars ∨ ∃ r, config.vars = some (.made r) ∧ root <+: r

/-- The `Variables` of a configuration are those of every configuration made from it. -/
theorem EsiParserConfig.vars_forRender (P : Platform) (c : EsiParserConfig) (render : Path) :
    (c.forRender P render).vars = c.vars := by
  simp only [forRender, normalizeMaxWorkers]
  split_ifs <;> rfl

theorem EsiParserConfig.vars_forInclude (P : Platform) (c : EsiParserConfig)
    (token : EsiIncludeToken) (start t : Time) : (c.forInclude P token start t).vars = c.vars := by
  obtain ⟨timeout, maxDepth, h⟩ := c.forInclude_eq P token start t
  rw [h]

theorem EsiParserConfig.vars_decreased (c : EsiParserConfig) (e : Duration) :
    (c.decreaseMaxDepth.withElapsedTime e).vars = c.vars := rfl

theorem VarsWithin.of_vars_eq {root render : Path} {vars : Option MapRef}
    {c c' : EsiParserConfig} (h : VarsWithin root vars render c) (hc : c'.vars = c.vars) :
    VarsWithin root vars render c' :=
  ⟨h.render, hc ▸ h.vars⟩

private theorem entering_vars {P : Platform} {root : Path} {vars : Option MapRef} {F : Frame}
    {entry : Entry} {config : EsiParserConfig} (h : VarsWithin root vars F.render config) :
    Entering P (Ghost.only (WritesWithin root vars))
      (fun C _ ↦ VarsWithin root vars C.frame.render C.config) F entry config () :=
  ⟨trivial, fun _ _ _ ↦ h.of_vars_eq (config.vars_forRender P F.render)⟩

/-- Renders share the map they were given with the renders inside of them. -/
def varsLogic (P : Platform) (root : Path) (vars : Option MapRef) : RenderLogic P Unit where
  γ := .only (WritesWithin root vars)
  Top C _ := VarsWithin root vars C.frame.render C.config
  Inv C _ := VarsWithin root vars C.path C.config
  Fit _ _ _ _ := True
  next_le _ := le_rfl
  top_mono _ h := h
  inv_mono _ h := h
  fit_mono _ h := h
  lookup _ := trivial
  since _ := trivial
  intn _ _ := trivial
  wait _ _ := trivial
  select _ _ _ := trivial
  fit _ _ _ := trivial
  spawn _ _ _ := trivial
  now _ _ := trivial
  refit _ _ _ _ := ⟨trivial, fun _ _ _ ↦ trivial⟩
  include_ {C} g token t e t' g' h _ _ _ _ := entering_vars (h.of_vars_eq
    ((EsiParserConfig.vars_decreased _ _).trans (C.config.vars_forInclude P token C.start t)))
  choose h := entering_vars h
  except_ h := entering_vars h
  sub i h := ⟨h.render.trans (List.prefix_append _ _), h.vars⟩
  token i h := ⟨h.render.trans (List.prefix_append _ _), h.vars⟩
  newMap h _ := ⟨h.render, fun _ _ _ ↦ ⟨h.render, .inr ⟨_, rfl, h.render⟩⟩⟩
  range _ := trivial
  assign h hm := by
    rcases h.vars with hvars | ⟨r, hvars, hr⟩
    · exact .inl (hvars.symm.trans hm)
    · exact .inr ⟨r, Option.some.inj (hm.symm.trans hvars), hr⟩
  fork _ h _ _ :=
    ⟨fun _ ↦ (), trivial, fun _ ↦ ⟨h.render.trans (List.prefix_append _ _), h.vars⟩⟩
  collect _ := trivial

/-! ## Writes that change nothing -/

/-- A write to the map `m` finds the value it writes. -/
def WritesHeld (m : MapRef) (s : World) : RenderOp → Prop
  | .assign _ _ m' key value => m' = m → s.maps m key = some value
  | _ => True

instance (m : MapRef) (s : World) (o : RenderOp) : Decidable (WritesHeld m s o) := by
  unfold WritesHeld
  split <;> infer_instance

/-- The map `m` was not made by the render at `root` or inside of it. -/
def Foreign (root : Path) (m : MapRef) : Prop := ∀ r, m = .made r → ¬ root <+: r

/-- A map from outside keeps its content unless it is the map a render was given, and then too if
what is written to it is there already. -/
theorem World.Sem.maps_eq {root : Path} {vars : Option MapRef} {m : MapRef} {o : RenderOp}
    {s s' : World} {r : renderSignature.Res o} (h : Sem o s r s') (hm : Foreign root m)
    (ho : WritesWithin root vars o) (hheld : vars = some m → WritesHeld m s o) :
    s'.maps m = s.maps m := by
  cases o with
  | assign job site m' key value =>
    rw [show s' = _ from h]
    by_cases heq : m' = m
    · subst heq
      rcases ho with hvars | ⟨r, hr, hpre⟩
      · rw [assign_of_eq (hheld hvars rfl)]
      · exact absurd hpre (hm r hr)
    · rw [maps_assign, Function.update_of_ne (Ne.symm heq)]
  | newMap site bindings =>
    have hne : m ≠ .made site.render := fun heq ↦ hm _ heq ho
    rw [show s' = _ from h, maps_setMap, Function.update_of_ne hne]
  | spawn id request readAt => exact (show s' = _ from h) ▸ rfl
  | range vars => exact (show s' = s from h) ▸ rfl
  | _ => exact h.2 ▸ rfl

variable {P : Platform} {m : MapRef} {config : EsiParserConfig} {env : World → World → Prop}

/-- **The map of the caller.** A render, be it a page, the body of an include, a branch of a choose
block or an except body, leaves every map from outside as it was, provided nobody else writes to it.
For the map the render was given itself the condition is that what is written to it is there
already. -/
theorem maps_eq_of_writesHeld {F : Frame} {entry : Entry} {input : Bytes} (hm : Foreign F.render m)
    (henv : ∀ s s', env s s' → s'.maps m = s.maps m) {s t : World}
    {tr : List (Event renderSignature World)} {q : Render Bytes}
    (h : Run World.Sem env (mesiParse P F entry input config) s tr q t)
    (hheld : config.vars = some m → ∀ ev ∈ tr, WritesHeld m ev.pre ev.op) :
    t.maps m = s.maps m := by
  have hall : (mesiParse P F entry input config).All (WritesWithin F.render config.vars) :=
    ((varsLogic P F.render config.vars).safe_mesiParse
      (entering_vars ⟨List.prefix_rfl, .inl rfl⟩)).walk
  have hrun := h.restrict
    (C := fun ev : Event renderSignature World ↦ config.vars = some m → WritesHeld m ev.pre ev.op)
      fun ev hev hvars ↦ hheld hvars ev hev
  exact (Run.all (I := fun u ↦ u.maps m = s.maps m)
    (fun _ _ _ _ hsem ho hu ↦ (hsem.1.maps_eq hm ho hsem.2).trans hu)
    (fun _ _ he hu ↦ (henv _ _ he).trans hu) hrun hall rfl).1

theorem World.Env.maps_eq {U : Unicode} {L : NetLib}
    {A : (o : FetchOp) → fetchSignature.Res o → Prop} {s s' : World} (h : Env U L A s s') :
    s'.maps = s.maps := by
  cases h <;> rfl

/-! ## A page with a vars block -/

/-- The bindings `NAME ↦ value` and no other. -/
def onlyName (value : Bytes) : Bytes → Option Bytes :=
  fun key ↦ if key = lit "NAME" then some value else none

/-- A page that sets the variable `NAME`. -/
def varsPage (value : Bytes) : Page where
  elements := []
  upstream := []
  input := lit "<esi:vars><esi:variable name=\"NAME\" value=\"" ++ value ++ lit "\"/></esi:vars>"
  config := { maxDepth := 1, timeout := 1000, vars := some .caller }

/-- A page that sets the variable to the value it has. -/
theorem maps_eq_of_writesHeld_varsPage :
    ((varsPage (lit "1")).run (List.replicate 3 (.job [])) (.initial (onlyName (lit "1")))).state.maps
      .caller = onlyName (lit "1") :=
  maps_eq_of_writesHeld (P := .ofElements []) (F := .page) (fun _ h ↦ by simp at h)
    (fun _ _ h ↦ congrFun h.maps_eq .caller)
    ((varsPage (lit "1")).run_run (List.replicate 3 (.job [])) (.initial (onlyName (lit "1"))))
    fun _ ↦ by decide +kernel

private theorem value?_varsPage :
    ((varsPage (lit "2")).run (List.replicate 3 (.job []))
      (.initial (onlyName (lit "1")))).prog.value? = some [] := by
  decide +kernel

private theorem maps_varsPage :
    ((varsPage (lit "2")).run (List.replicate 3 (.job []))
      (.initial (onlyName (lit "1")))).state.maps .caller (lit "NAME") = some (lit "2") := by
  decide +kernel

/-- **A map that is not the caller's alone.** A page that sets the variable to another value has
changed the map of its caller when it is done. -/
theorem not_maps_eq :
    ¬ ∀ tr output t, Run World.Sem (World.Env .ascii .simple (answersOf (varsPage (lit "2")).upstream))
        (varsPage (lit "2")).prog (.initial (onlyName (lit "1"))) tr (.ret output) t →
          t.maps .caller = onlyName (lit "1") := by
  intro h
  have heq := congrFun (h _ _ _ ((varsPage (lit "2")).run_of_value? value?_varsPage)) (lit "NAME")
  rw [maps_varsPage] at heq
  exact absurd heq (by decide +kernel)

end GoMesi
