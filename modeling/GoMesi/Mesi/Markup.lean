import GoMesi.Mesi.Parser
import GoMesi.Interleaving.Ghost

/-!
# Pages without markup

A page in which neither an ESI tag nor an escaped comment nor a reference to a variable starts is one
static token. `MESIParse` reads the clock and returns it.
-/

namespace GoMesi

open Strings Interleaving

/-! ## What does not occur -/

theorem index_eq_none_iff {s sub : Bytes} : index s sub = none ↔ ¬ sub <:+: s := by
  induction s with
  | nil =>
    rw [index, hasPrefix, List.infix_nil]
    cases sub <;> simp
  | cons c s ih =>
    rw [index, List.infix_cons_iff, not_or, hasPrefix, ← List.isPrefixOf_iff_prefix]
    split_ifs with hpre
    · exact iff_of_false (by simp) fun h ↦ h.1 hpre
    · rw [Option.map_eq_none_iff, ih]
      exact (and_iff_right hpre).symm

theorem contains_eq_false_iff {s sub : Bytes} : contains s sub = false ↔ ¬ sub <:+: s := by
  rw [contains, ← index_eq_none_iff, Option.isSome_eq_false_iff, Option.isNone_iff_eq_none]

/-- No ESI tag, no escaped comment and no reference to a variable. -/
structure MarkupFree (s : Bytes) : Prop where
  tag : contains s (lit "<esi:") = false
  comment : contains s (lit "<!--esi") = false
  ref : contains s (lit "$(") = false

theorem MarkupFree.of_isInfix {s t : Bytes} (h : MarkupFree t) (hst : s <:+: t) : MarkupFree s := by
  have hfree {sub : Bytes} (hsub : contains t sub = false) : contains s sub = false := by
    rw [contains_eq_false_iff] at hsub ⊢
    exact fun hinf ↦ hsub (hinf.trans hst)
  exact ⟨hfree h.tag, hfree h.comment, hfree h.ref⟩

/-! ## The passes -/

theorem unescape_of_markupFree {s : Bytes} (h : MarkupFree s) : unescape s = s := by
  have hindex : index s (lit "<!--esi") = none :=
    index_eq_none_iff.mpr (contains_eq_false_iff.mp h.comment)
  rw [unescape]
  split
  · rfl
  · simp_all

/-- Every ESI tag starts with `<esi:`. -/
theorem firstTag_of_markupFree {s : Bytes} (h : MarkupFree s) : firstTag s = none := by
  cases hfirst : firstTag s with
  | none => rfl
  | some found =>
    obtain ⟨pre, post, hs, -⟩ := index_spec (firstTag_spec (n := found.1) (t := found.2) hfirst)
    refine absurd ?_ (contains_eq_false_iff.mp h.tag)
    exact ⟨pre, found.2.name ++ post, by rw [hs, TagType.openTag]; simp⟩

theorem esiTokenizer_of_markupFree {s : Bytes} (h : MarkupFree s) :
    esiTokenizer s = [{ staticContent := s }] := by
  have hfirst := firstTag_of_markupFree h
  rw [esiTokenizer]
  split
  · rfl
  · simp_all

theorem segmentsAux_of_markupFree {s : Bytes} (h : ¬ lit "$(" <:+: s) :
    segmentsAux 0 s = s.map .text := by
  induction s with
  | nil => rfl
  | cons c s ih =>
    rw [List.infix_cons_iff, not_or] at h
    have hmatch : matchRef (c :: s) = none := by
      rw [matchRef]
      rintro rest heq
      exact h.1 ⟨rest, heq.symm⟩
    rw [segmentsAux, hmatch, ih h.2]
    rfl

theorem evaluateSegments_text (site : Site) (config : EsiParserConfig) (s : Bytes) :
    evaluateSegments site config (s.map .text) = .ret s := by
  induction s with
  | nil => rfl
  | cons c s ih => rw [List.map_cons, evaluateSegments, ih]; rfl

theorem evaluateExpression_of_markupFree {s : Bytes} (h : MarkupFree s) (site : Site)
    (config : EsiParserConfig) : evaluateExpression site s config = .ret s := by
  rw [evaluateExpression, segments, segmentsAux_of_markupFree (contains_eq_false_iff.mp h.ref),
    evaluateSegments_text]

/-! ## The render -/

variable {P : Platform} {F : Frame} {entry : Entry} {input : Bytes} {config : EsiParserConfig}

/-- The first loop on a page of one static token. -/
theorem scanTokens_static (h : MarkupFree input) {bound : ℕ} {tryBlock chooseBlock}
    (hbound : ∀ t ∈ [({ staticContent := input } : EsiToken)], t.esiTagContent.length ≤ bound)
    (vars : Option MapRef) :
    scanTokens F config tryBlock chooseBlock [{ staticContent := input }] hbound 0 vars =
      .ret ⟨vars, [⟨input, 0⟩], []⟩ := by
  rw [scanTokens]
  simp [EsiToken.isEsi, evaluateExpression_of_markupFree h, scanTokens, Scanned.addResult]

theorem mesiParse_of_markupFree (h : MarkupFree input) :
    mesiParse P F entry input config =
      .op (.enter entry config.timeout config.vars) fun _ ↦ .ret input := by
  rw [mesiParse, parseLevel]
  simp only [unescape_of_markupFree h, esiTokenizer_of_markupFree h, scanTokens_static h]
  change Prog.op _ _ = _
  simp [assembleResults]

/-- `MESIParse` returns `output` in some world. -/
def Returns (P : Platform) (input : Bytes) (config : EsiParserConfig) (output : Bytes) : Prop :=
  ∃ (σ : Type) (sem : (o : RenderOp) → σ → renderSignature.Res o → σ → Prop) (env : σ → σ → Prop)
    (s t : σ) (tr : List (Event renderSignature σ)),
    Run sem env (mesiParse P .page .page input config) s tr (.ret output) t

theorem returns_iff (h : MarkupFree input) {output : Bytes} :
    Returns P input config output ↔ output = input := by
  rw [Returns]
  constructor
  · rintro ⟨σ, sem, env, s, t, tr, hrun⟩
    rw [mesiParse_of_markupFree h] at hrun
    exact hrun.value (Q := (· = input)) ⟨trivial, fun _ _ _ ↦ rfl⟩
  · rintro rfl
    refine ⟨Unit, fun _ _ _ _ ↦ True, fun _ _ ↦ False, (), (), ?_⟩
    rw [mesiParse_of_markupFree h]
    exact ⟨_, .step (.op (r := (0 : Time)) trivial) .refl⟩

end GoMesi
