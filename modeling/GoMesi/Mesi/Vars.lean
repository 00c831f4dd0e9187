import GoMesi.Mesi.Operations
import GoMesi.Mesi.Tokenizer

/-!
# Variables

`vars.go`. Both regular expressions of the file are matched byte by byte: each of their parts ends
at a byte the part itself does not match, so there is nothing to backtrack over, and what they match
starts with an ASCII character and so at the start of a rune.
-/

namespace GoMesi

open Strings Interleaving

/-! ## References -/

/-- A part of an expression: text, or a reference with what is between its parentheses. -/
inductive Segment
  | text (c : UInt8)
  | ref (inner : Bytes)
  deriving DecidableEq, Repr

/-- The inner part of the match of `\$\(([^)]+)\)` at the start of the string. -/
def matchRef : Bytes → Option Bytes
  | 0x24 :: 0x28 :: rest =>
    match index rest (lit ")") with
    | none => none
    | some n => if n = 0 then none else some (rest.take n)
  | _ => none

/-- The bytes between matches and the matches, from left to right. `skip` is the number of bytes
left of the last match. -/
def segmentsAux : ℕ → Bytes → List Segment
  | _, [] => []
  | skip + 1, _ :: rest => segmentsAux skip rest
  | 0, c :: rest =>
    match matchRef (c :: rest) with
    | some inner => .ref inner :: segmentsAux (inner.length + 2) rest
    | none => .text c :: segmentsAux 0 rest

def segments (expr : Bytes) : List Segment := segmentsAux 0 expr

/-- `HTTP_HEADER{name}` and the like: the name, if `inner` is of this form. -/
def refName (kind inner : Bytes) : Option Bytes :=
  if hasPrefix inner (kind ++ lit "\x7b") && hasSuffix inner (lit "\x7d") then
    some (slice inner (kind.length + 1) (inner.length - 1))
  else none

/-- The function `evaluateExpression` hands to `ReplaceAllStringFunc`. -/
def resolveRef (site : Site) (config : EsiParserConfig) (inner : Bytes) : Render Bytes := do
  match ← ask (.lookup site config.vars inner) with
  | some val => return val
  | none =>
    match refName (lit "HTTP_HEADER") inner with
    | some key =>
      let val := (config.requestHeaders.map (Header.get · key)).getD []
      if val ≠ [] then return val
      else
        let val ← ask (.lookup site config.vars (lit "$(" ++ inner ++ lit ")"))
        return val.getD []
    | none =>
      match refName (lit "HTTP_COOKIE") inner with
      | some key => return (config.requestCookies.bind (AList.lookup key)).getD []
      | none =>
        match refName (lit "QUERY_STRING") inner with
        | some key => return (config.requestQuery.bind (AList.lookup key)).getD []
        | none => return []

/-- `ReplaceAllStringFunc` on the parts of an expression. -/
def evaluateSegments (site : Site) (config : EsiParserConfig) : List Segment → Render Bytes
  | [] => return []
  | .text c :: rest => return c :: (← evaluateSegments site config rest)
  | .ref inner :: rest => do
    let val ← resolveRef site config inner
    return val ++ (← evaluateSegments site config rest)

/-- `evaluateExpression` -/
def evaluateExpression (site : Site) (expr : Bytes) (config : EsiParserConfig) : Render Bytes :=
  evaluateSegments site config (segments expr)

/-! ## Definitions -/

/-- `\s` -/
def isRegexpSpace (b : UInt8) : Bool :=
  b = 0x09 || b = 0x0a || b = 0x0c || b = 0x0d || b = 0x20

/-- `\s+key="([^"]*)"` at the start of the string: the group and what is left. -/
def matchAttribute (key s : Bytes) : Option (Bytes × Bytes) :=
  let rest := s.dropWhile isRegexpSpace
  if rest.length = s.length then none
  else if hasPrefix rest (key ++ lit "=\"") then
    let rest := rest.drop (key.length + 2)
    match index rest (lit "\"") with
    | none => none
    | some n => some (rest.take n, rest.drop (n + 1))
  else none

/-- `varDefPattern` at the start of the string: its two groups and what is left. -/
def matchVarDef (s : Bytes) : Option ((Bytes × Bytes) × Bytes) :=
  if hasPrefix s (lit "<esi:variable") then
    match matchAttribute (lit "name") (s.drop (lit "<esi:variable").length) with
    | none => none
    | some (name, rest) =>
      match matchAttribute (lit "value") rest with
      | none => none
      | some (value, rest) =>
        let rest := rest.dropWhile isRegexpSpace
        if hasPrefix rest (lit "/>") then some ((name, value), rest.drop 2) else none
  else none

/-- `varDefPattern.FindAllStringSubmatch`. `skip` is the number of bytes left of the last match. -/
def varDefsAux : ℕ → Bytes → List (Bytes × Bytes)
  | _, [] => []
  | skip + 1, _ :: rest => varDefsAux skip rest
  | 0, c :: rest =>
    match matchVarDef (c :: rest) with
    | some (def_, rest') => def_ :: varDefsAux (rest.length - rest'.length) rest
    | none => varDefsAux 0 rest

def varDefs (s : Bytes) : List (Bytes × Bytes) := varDefsAux 0 s

/-- `parseVarsBlock`. An empty name defines nothing, and of two definitions of one name the later
counts. -/
def parseVarsBlock (rawContent : Bytes) : StringMap :=
  match index rawContent (lit ">"), lastIndex rawContent (lit "</") with
  | some start, some end_ =>
    if end_ ≤ start then ∅
    else
      (varDefs (slice rawContent (start + 1) end_)).foldl
        (fun vars d ↦ if d.1 ≠ [] then vars.insert d.1 d.2 else vars) ∅
  | _, _ => ∅

example : (parseVarsBlock (lit
    "<esi:vars><esi:variable name=\"A\" value=\"1\" /><esi:variable name=\"A\" value=\"2\"/></esi:vars>")).entries
      = [⟨lit "A", lit "2"⟩] := by decide +kernel

end GoMesi
