import PduCompiler.Text.Blank
import PduCompiler.Text.Category

/-!
Build constraints. A comment restricts where its file is compiled, in one of two forms: as an
expression over tags after `go:build`, or as clauses of tags after `+build`.
-/

namespace PduCompiler.GoSource

open Text

inductive BuildExpr where
  | tag (s : String)
  | not (x : BuildExpr)
  | and (x y : BuildExpr)
  | or (x y : BuildExpr)
  deriving DecidableEq, Repr

namespace BuildExpr

def isOr : BuildExpr → Bool
  | or _ _ => true
  | _ => false

def isAnd : BuildExpr → Bool
  | and _ _ => true
  | _ => false

private def parenthesized (needed : Bool) (s : String) : String := if needed then s!"({s})" else s

def text : BuildExpr → String
  | tag s => s
  | not x => "!" ++ parenthesized (x.isAnd || x.isOr) x.text
  | and x y => parenthesized x.isOr x.text ++ " && " ++ parenthesized y.isOr y.text
  | or x y => parenthesized x.isAnd x.text ++ " || " ++ parenthesized y.isAnd y.text

def conjuncts : BuildExpr → List BuildExpr
  | and x y => x.conjuncts ++ y.conjuncts
  | e => [e]

def disjuncts : BuildExpr → List BuildExpr
  | or x y => x.disjuncts ++ y.disjuncts
  | e => [e]

def size : BuildExpr → Nat
  | and x y => x.size + y.size + 1
  | or x y => x.size + y.size + 1
  | _ => 0

def pushNot (negated : Bool) : BuildExpr → BuildExpr
  | tag s => if negated then not (tag s) else tag s
  | not x => x.pushNot (!negated)
  | and x y => if negated then or (x.pushNot true) (y.pushNot true)
    else and (x.pushNot false) (y.pushNot false)
  | or x y => if negated then and (x.pushNot true) (y.pushNot true)
    else or (x.pushNot false) (y.pushNot false)

def isTagPart (c : Char) : Bool := isLetter c || isDigit c || c = '_' || c = '.'

def isTag (s : List Char) : Bool := !s.isEmpty && s.all isTagPart

/-- A word that is no tag stands for one that is never set. -/
def ofWord (s : List Char) : BuildExpr :=
  let known (s : List Char) : BuildExpr := tag (if isTag s then String.ofList s else "ignore")
  match s with
  | ['!'] => tag "ignore"
  | '!' :: '!' :: _ => tag "ignore"
  | '!' :: s => not (known s)
  | s => known s

def join (f : BuildExpr → BuildExpr → BuildExpr) : List BuildExpr → Option BuildExpr
  | [] => none
  | e :: rest => some (rest.foldl f e)

def clause (s : List Char) : Option BuildExpr := join and ((s.splitOn ',').map ofWord)

/-- The constraint of a line in the old form: one of its clauses has to hold, and all tags of that
clause. A line with more than a hundred joins has none. -/
def ofLine? (s : List Char) : Option BuildExpr :=
  let e := (join or ((words s).filterMap clause)).getD (tag "ignore")
  if e.size ≤ 100 then some e else none

/-- The lines in the old form that say the same: one if there are no alternatives. An expression
whose alternatives have alternatives below conjunctions has none. -/
def lines? (e : BuildExpr) : Option (List String) :=
  let split := (e.pushNot false).conjuncts.map fun alternatives =>
    alternatives.disjuncts.map conjuncts
  if split.any (·.any (·.any isOr)) then none
  else
    let split := if split.all (·.length ≤ 1) then [[split.flatten.flatten]] else split
    some (split.map fun clauses =>
      clauses.foldl (fun line tags => line ++ " " ++ ",".intercalate (tags.map text)) "// +build")

inductive Symbol where
  | tag (s : String)
  | and
  | or
  | not
  | opening
  | closing
  deriving DecidableEq, Repr

def symbols? : (fuel : Nat) → List Char → Option (List Symbol)
  | 0, _ => some []
  | fuel + 1, s =>
    match s.dropWhile fun c => c = ' ' || c = '\t' with
    | [] => some []
    | '(' :: rest => (symbols? fuel rest).map (.opening :: ·)
    | ')' :: rest => (symbols? fuel rest).map (.closing :: ·)
    | '!' :: rest => (symbols? fuel rest).map (.not :: ·)
    | '&' :: '&' :: rest => (symbols? fuel rest).map (.and :: ·)
    | '|' :: '|' :: rest => (symbols? fuel rest).map (.or :: ·)
    | s =>
      let word := s.takeWhile isTagPart
      if word.isEmpty then none
      else (symbols? fuel (s.dropWhile isTagPart)).map (.tag (String.ofList word) :: ·)

inductive Join where
  | or
  | and

mutual

def operand? : (fuel : Nat) → List Symbol → Option (BuildExpr × List Symbol)
  | 0, _ => none
  | fuel + 1, s =>
    match s with
    | .not :: .not :: _ => none
    | .not :: rest => (operand? fuel rest).map fun (x, rest) => (BuildExpr.not x, rest)
    | .tag t :: rest => some (BuildExpr.tag t, rest)
    | .opening :: rest =>
      match chain? fuel .or none rest with
      | some (x, .closing :: rest) => some (x, rest)
      | _ => none
    | _ => none

def chain? : (fuel : Nat) → Join → Option BuildExpr → List Symbol → Option (BuildExpr × List Symbol)
  | 0, _, _, _ => none
  | fuel + 1, .and, before, s => do
    let (x, rest) ← operand? fuel s
    let x := (before.map (BuildExpr.and · x)).getD x
    match rest with
    | .and :: rest => chain? fuel .and (some x) rest
    | _ => return (x, rest)
  | fuel + 1, .or, before, s => do
    let (x, rest) ← chain? fuel .and none s
    let x := (before.map (BuildExpr.or · x)).getD x
    match rest with
    | .or :: rest => chain? fuel .or (some x) rest
    | _ => return (x, rest)

end

/-- The constraint of a line in the new form. It has at most a thousand operands, groups counted. -/
def ofText? (s : List Char) : Option BuildExpr := do
  let symbols ← symbols? (s.length + 1) s
  let operands := symbols.countP fun x =>
    match x with
    | .tag _ | .opening => true
    | _ => false
  let (x, rest) ← chain? (4 * symbols.length + 4) .or none symbols
  if rest.isEmpty && operands ≤ 1000 then some x else none

end BuildExpr

private def afterWord? (word s : List Char) : Option (List Char) :=
  if word.isPrefixOf s then
    let rest := s.drop word.length
    let inner := trimChars rest
    if inner.length == rest.length && !rest.isEmpty then none else some inner
  else none

def newConstraint? (comment : String) : Option (List Char) :=
  let s := comment.toList
  if "//go:build".toList.isPrefixOf s then afterWord? "//go:build".toList (trimChars s) else none

def oldConstraint? (comment : String) : Option (List Char) :=
  match comment.toList with
  | '/' :: '/' :: s => afterWord? "+build".toList (trimChars s)
  | _ => none

def BuildExpr.ofComment? (comment : String) : Option BuildExpr :=
  match newConstraint? comment with
  | some s => BuildExpr.ofText? s
  | none => (oldConstraint? comment).bind BuildExpr.ofLine?

end PduCompiler.GoSource
