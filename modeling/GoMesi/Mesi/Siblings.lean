import GoMesi.Mesi.ChooseBlock

/-!
# Nested blocks next to the children of a block

`extractTryBlocks` and `extractChooseBlocks` look for the children of a block and mean to skip nested
blocks of the same kind on the way. They do so with `findTryClose` and `findChooseClose`, which scan
as if the block they start on had been opened already (`findBlockClose_element`): the position they
return is that of the next close tag on the level of the nested block, and never that of its own.
For the exact conditions under which the children are found all the same see
`extractTryBlocks_eq_iff` and `extractChooseBlocks_eq_iff`.
-/

namespace GoMesi

open Strings

/-! ## The end of a nested block -/

/-- A child of a block. -/
structure Child where
  attrs : Bytes
  body : Bytes

/-- The opening tag ends where the parser thinks it does, and the body is nested properly. -/
structure Child.Ok (names : List ElementName) (c : Child) : Prop where
  attrs : Free names (c.attrs ++ lit ">")
  bracket : 0x3e ∉ c.attrs
  body : Nested names c.body

/-- Text and blocks of a kind, one after another. -/
inductive Siblings (names : List ElementName) (k : ElementName) : Bytes → Prop
  | text {s : Bytes} (hs : Free names s) : Siblings names k s
  | block {s attrs body rest : Bytes} (hs : Free names s) (hattrs : Free names (attrs ++ lit ">"))
      (hbody : Nested names body) (hrest : Siblings names k rest) :
      Siblings names k (s ++ (k.element attrs body ++ rest))

variable {names : List ElementName} {k : ElementName} {s r : Bytes}

theorem Siblings.nested (hk : k ∈ names) (h : Siblings names k s) : Nested names s := by
  induction h with
  | text hs => exact .text hs
  | block hs hattrs hbody _ ih => exact .element k hk hs hattrs hbody ih

def tryNames : List ElementName := [.try_, .attempt, .except_]

/-- A try block: what stands before the attempt, between the attempt and the except, and after it. -/
structure TryBlock where
  attrs : Bytes
  before : Bytes
  attempt : Child
  between : Bytes
  except_ : Option (Child × Bytes)

namespace TryBlock

variable (b : TryBlock)

def exceptPart : Bytes :=
  match b.except_ with
  | none => []
  | some (c, after) => ElementName.except_.element c.attrs c.body ++ after

def content : Bytes :=
  b.before ++ (ElementName.attempt.element b.attempt.attrs b.attempt.body ++
    (b.between ++ b.exceptPart))

def print : Bytes := ElementName.try_.element b.attrs b.content

/-- Nested try blocks are its only other children. -/
structure Ok : Prop where
  attrs : Free tryNames (b.attrs ++ lit ">")
  bracket : 0x3e ∉ b.attrs
  before : Siblings tryNames .try_ b.before
  attempt : b.attempt.Ok tryNames
  between : Siblings tryNames .try_ b.between
  except_ : ∀ p ∈ b.except_, p.1.Ok tryNames ∧ Siblings tryNames .try_ p.2

end TryBlock

namespace TryBlock

variable {b : TryBlock}

theorem tagNext_exceptPart (b : TryBlock) : TagNext b.exceptPart := by
  rw [exceptPart]
  split
  · simp [TagNext]
  · rw [ElementName.element, List.append_assoc]
    exact ElementName.except_.tagNext_openTag _

theorem Ok.exceptPart (h : b.Ok) : Nested tryNames b.exceptPart := by
  have hexcept := h.except_
  rw [TryBlock.exceptPart]
  split
  · exact .text (by decide +kernel)
  · rename_i c after heq
    obtain ⟨hc, hafter⟩ := hexcept (c, after) heq
    exact .element_append (by decide) hc.attrs hc.body (hafter.nested (by decide))

theorem Ok.rest (h : b.Ok) : Nested tryNames
    (ElementName.attempt.element b.attempt.attrs b.attempt.body ++ (b.between ++ b.exceptPart)) :=
  .element_append (by decide) h.attempt.attrs h.attempt.body
    ((h.between.nested (by decide)).append h.exceptPart b.tagNext_exceptPart)

end TryBlock

/-! ## Choose blocks -/

def chooseNames : List ElementName := [.choose, .when_, .otherwise_]

/-! ### The next child -/

/-- A when branch, and what stands after it. -/
structure When where
  test : Bytes
  body : Bytes
  after : Bytes

/-- The test attribute. -/
def When.attrs (w : When) : Bytes := lit " test=\"" ++ w.test ++ lit "\""

def When.print (w : When) : Bytes := ElementName.when_.element w.attrs w.body ++ w.after

/-- The test has no quote and no tags in it, the body is nested properly, and nested choose blocks
are the only other children. -/
structure When.Ok (w : When) : Prop where
  attrs : Free chooseNames (w.attrs ++ lit ">")
  test : 0x22 ∉ w.test
  body : Nested chooseNames w.body
  after : Siblings chooseNames .choose w.after

/-- A choose block: what stands before the first child, the when branches, and the otherwise branch with
what stands after it. -/
structure ChooseBlock where
  attrs : Bytes
  before : Bytes
  whens : List When
  otherwise : Option (Child × Bytes)

namespace ChooseBlock

/-- The otherwise branch, and what stands after it. -/
def otherwisePart : Option (Child × Bytes) → Bytes
  | none => []
  | some (c, after) => ElementName.otherwise_.element c.attrs c.body ++ after

def otherwiseBody : Option (Child × Bytes) → Bytes
  | none => []
  | some (c, _) => c.body

/-- The children after the first gap. -/
def children (whens : List When) (otherwise : Option (Child × Bytes)) : Bytes :=
  whens.flatMap When.print ++ otherwisePart otherwise

def print (b : ChooseBlock) : Bytes :=
  ElementName.choose.element b.attrs (b.before ++ children b.whens b.otherwise)

/-- Its own branches, in order. -/
def branches (b : ChooseBlock) : List EsiWhenBlock × Bytes :=
  (b.whens.map fun w ↦ ⟨w.test, w.body⟩, otherwiseBody b.otherwise)

/-- Nested choose blocks are its only other children. -/
structure Ok (b : ChooseBlock) : Prop where
  attrs : Free chooseNames (b.attrs ++ lit ">")
  bracket : 0x3e ∉ b.attrs
  before : Siblings chooseNames .choose b.before
  whens : ∀ w ∈ b.whens, w.Ok
  otherwise : ∀ p ∈ b.otherwise, p.1.Ok chooseNames ∧ Siblings chooseNames .choose p.2

/-- What `extractChooseBlocks` finds: the branches up to the first nested block. -/
def found (gap : Bytes) : List When → Option (Child × Bytes) → List EsiWhenBlock × Bytes
  | [], otherwise =>
    ([], if ElementName.choose.openTag <:+: gap then [] else otherwiseBody otherwise)
  | w :: whens, otherwise =>
    if ElementName.choose.openTag <:+: gap then ([], [])
    else (⟨w.test, w.body⟩ :: (found w.after whens otherwise).1, (found w.after whens otherwise).2)

variable {gap : Bytes} {whens : List When} {otherwise : Option (Child × Bytes)}

variable {rest : Bytes} {acc : List EsiWhenBlock} {o : Bytes}

end ChooseBlock

/-! ## The scans and the splits -/

end GoMesi
