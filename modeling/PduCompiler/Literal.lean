import PduCompiler.Number.FloatLiteral
import PduCompiler.Schema.Scalar
import PduCompiler.Text.Quoted

/-! The raw bits of the literals that give fields their values. -/

namespace PduCompiler

open Text

structure LiteralError where
  type : TypeName
  literal : String
  deriving DecidableEq, Repr

def LiteralError.message (e : LiteralError) : String :=
  s!"invalid {e.type} literal {quote e.literal}"

namespace TypeName

/-- The value cut to the width of a type. A name that is no type cuts nothing. -/
def truncate (t : TypeName) (w : Word) : Word :=
  match t.scalar? with
  | some s => w.truncate s.bits
  | none => w

def floatSuffixes : List Char := ['f', 'F', 'd', 'D']

/-- Reads a literal of a type. A float is read with 64 bits and then narrowed. -/
def readLiteral (t : TypeName) (literal : String) : Except LiteralError Word :=
  let literal := trim literal
  if t.isFloat then
    let text := dropEndWhile (floatSuffixes.contains ·) literal.toList
    match (FloatLiteral.parse? text).bind FloatLiteral.Value.toBinary64? with
    | none => .error ⟨t, literal⟩
    | some bits =>
      if t.scalar? = some .float32 then
        .ok (BitVec.ofNat 64 (BinaryFormat.binary64.convert BinaryFormat.binary32 bits))
      else .ok (BitVec.ofNat 64 bits)
  else match IntLiteral.decode? literal with
    | none => .error ⟨t, literal⟩
    | some w => .ok (t.truncate w)

end TypeName

end PduCompiler
