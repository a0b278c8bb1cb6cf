import PduCompiler.Text.Category

/-! The spellings of a name that generated code needs. -/

namespace PduCompiler.Text

def capitalized (s : String) : String :=
  match s.toList with
  | [] => ""
  | c :: rest => String.ofList (toUpper c :: rest)

def uncapitalized (s : String) : String :=
  match s.toList with
  | [] => ""
  | c :: rest => String.ofList (toLower c :: rest)

/-- An underscore goes before a capital that follows a small letter, and before the last capital of
a run that a small letter follows. -/
def snakeFrom (before : Option Char) : List Char → List Char
  | [] => []
  | c :: rest =>
    let tail := snakeFrom (some c) rest
    if isUpper c then
      let afterLower := before.any isLower
      let lastOfRun := rest.head?.any isLower && before.any isUpper
      if afterLower || lastOfRun then '_' :: toLower c :: tail else toLower c :: tail
    else c :: tail

/-- The name in small letters with underscores between its words: `EntityStatePdu` gives
`entity_state_pdu`. -/
def snakeCase (s : String) : String := String.ofList (snakeFrom none s.toList)

def padded (width : Nat) (s : String) : String :=
  s ++ String.ofList (List.replicate (width - s.length) ' ')

end PduCompiler.Text
