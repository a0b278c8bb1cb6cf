import PduCompiler.Text.Quoted

/-! Values of TOML documents. -/

namespace PduCompiler.Toml

/-- A value. What a floating point number or a date says does not matter here, only that it is
one. -/
inductive Value where
  | string (s : String)
  | integer (n : Int)
  | float
  | boolean (b : Bool)
  | dateTime
  | array (items : List Value)
  | table (entries : List (String × Value))
  | tables (items : List (List (String × Value)))

abbrev Entries := List (String × Value)

abbrev Key := List String

def Entries.get? (es : Entries) (name : String) : Option Value :=
  (es.find? (·.1 == name)).map (·.2)

def Entries.set : Entries → String → Value → Entries
  | [], name, value => [(name, value)]
  | (n, v) :: rest, name, value =>
    if n == name then (n, value) :: rest else (n, v) :: Entries.set rest name value

def isBareChar (c : Char) : Bool := c.isAlphanum || c = '_' || c = '-'

def quotedChar (c : Char) : String :=
  match c with
  | '"' => "\\\""
  | '\\' => "\\\\"
  | '\t' => "\\t"
  | '\n' => "\\n"
  | '\r' => "\\r"
  | c =>
    if c.toNat == 0x08 then "\\b"
    else if c.toNat == 0x0c then "\\f"
    else if c.toNat < 0x20 || c.toNat == 0x7f then "\\u" ++ String.ofList (Text.hexDigits 4 c.toNat)
    else c.toString

def partText (part : String) : String :=
  if part != "" && part.toList.all isBareChar then part
  else "\"" ++ String.join (part.toList.map quotedChar) ++ "\""

def Key.text (k : Key) : String := ".".intercalate (k.map partText)

end PduCompiler.Toml
