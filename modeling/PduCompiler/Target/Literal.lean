import PduCompiler.Literal

/-!
Constructor literals in the target languages. A description writes `#` for hexadecimal and a leading
zero for octal, and floating point numbers may have a suffix.
-/

namespace PduCompiler.Target

open Text

def withoutSuffix (s : String) : String := trimEndOf TypeName.floatSuffixes s

def withHexSign (s : String) : String :=
  match s.toList with
  | '#' :: digits => "0x" ++ String.ofList digits
  | '-' :: '#' :: digits => "-0x" ++ String.ofList digits
  | _ => s

def goLiteral (type : TypeName) (literal : String) : String :=
  let s := trim literal
  if type.isFloat then withoutSuffix s else withHexSign s

/-- The literal in C, where a single precision number has a point or exponent and a suffix. -/
def cLiteral (type : TypeName) (literal : String) : String :=
  let s := trim literal
  if type == Scalar.float32.name then
    let s := withoutSuffix s
    let s := if s.toList.any fun c => c = '.' || c = 'e' || c = 'E' then s else s ++ ".0"
    s ++ "f"
  else if type.isFloat then withoutSuffix s
  else withHexSign s

/-- An unsigned integer literal in Python, where octal numbers begin with `0o`. -/
def pythonDigits (s : List Char) : List Char :=
  match s with
  | '#' :: digits => '0' :: 'x' :: digits
  | '0' :: c :: rest => if c = 'x' || c = 'X' then s else '0' :: 'o' :: c :: rest
  | _ => s

def pythonLiteral (type : TypeName) (literal : String) : String :=
  let s := trim literal
  if type.isFloat then withoutSuffix s
  else
    match s.toList with
    | '-' :: digits => String.ofList ('-' :: pythonDigits digits)
    | digits => String.ofList (pythonDigits digits)

end PduCompiler.Target
