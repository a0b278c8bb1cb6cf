import PduCompiler.Target.Literal
import PduCompiler.Target.SourceFile
import PduCompiler.Text.Name

/-!
Classes in Python, one module each. The generated methods take streams that offer a reading and a
writing method for every scalar type.
-/

namespace PduCompiler.Target.Python

open Text

def streamName (t : TypeName) : String :=
  match t.scalar? with
  | some .uint8 => "unsigned_byte"
  | some .int8 => "byte"
  | some .uint16 => "unsigned_short"
  | some .int16 => "short"
  | some .uint32 => "unsigned_int"
  | some .int32 => "int"
  | some .uint64 => "unsigned_long"
  | some .int64 => "long"
  | some .float32 => "float"
  | some .float64 => "double"
  | none => ""

def header : List String := "#" :: notice.map (fun line => s!"# {line}") ++ ["#", ""]

/-- Keeps a comment from closing its docstring. -/
def docChars : List Char → List Char
  | '"' :: '"' :: '"' :: rest => '\'' :: '\'' :: '\'' :: docChars rest
  | c :: rest => c :: docChars rest
  | [] => []

def docText (s : String) : String := String.ofList (docChars s.toList)

def docLine (indent text : String) : String := s!"{indent}\"\"\"{text}\"\"\""

def commentOf (c : ClassDescription) (name : String) : String :=
  ((c.attributes.reverse.find? (·.name == name)).map (·.comment)).getD ""

def initStep (c : ClassDescription) (a : Action) : Option (List String) :=
  let documented (line : String) : List String :=
    let comment := commentOf c a.attr
    if comment == "" then [line] else [line, docLine "        " (docText comment)]
  match a.op with
  | .super => some [s!"        super({c.name}, self).__init__()"]
  | .initValue => some (documented s!"        self.{a.attr} = {pythonLiteral a.type a.value}")
  | .assign => some [s!"        self.{a.attr} = {pythonLiteral a.type a.value}",
      docLine "        " s!"initialize value inherited from {a.owner}"]
  | .initObject => some (documented s!"        self.{a.attr} = {a.className}()")
  | .initArray =>
    let zero := if a.type.isFloat then "0.0" else "0"
    some (documented s!"        self.{a.attr} = [{zero}] * {a.length}")
  | .initObjectArray =>
    some (documented s!"        self.{a.attr} = [{a.className}() for _ in range(0, {a.length})]")
  | .initList => some (documented s!"        self.{a.attr} = []")
  | _ => none

def marshalStep (c : ClassDescription) (a : Action) : Option (List String) :=
  let stream := streamName a.type
  match a.op with
  | .super => some [s!"        super({c.name}, self).serialize(outputStream)"]
  | .write => some [s!"        outputStream.write_{stream}(self.{a.attr})"]
  | .writeLength => some [s!"        outputStream.write_{stream}(len(self.{a.list}))"]
  | .marshal => some [s!"        self.{a.attr}.serialize(outputStream)"]
  | .writeArray | .writeList => some [
      s!"        for element in self.{a.attr}:",
      s!"            outputStream.write_{stream}(element)"]
  | .marshalArray | .marshalList => some [
      s!"        for anObj in self.{a.attr}:",
      "            anObj.serialize(outputStream)"]
  | _ => none

def unmarshalStep (c : ClassDescription) (a : Action) : Option (List String) :=
  let stream := streamName a.type
  match a.op with
  | .super => some [s!"        super({c.name}, self).parse(inputStream)"]
  | .read => some [s!"        self.{a.attr} = inputStream.read_{stream}()"]
  | .unmarshal => some [s!"        self.{a.attr}.parse(inputStream)"]
  | .readArray => some [
      s!"        for idx in range(0, {a.length}):",
      s!"            self.{a.attr}[idx] = inputStream.read_{stream}()"]
  | .unmarshalArray => some [
      s!"        for anObj in self.{a.attr}:",
      "            anObj.parse(inputStream)"]
  | .readList => some [
      s!"        self.{a.attr} = []",
      s!"        for idx in range(0, self.{a.count}):",
      s!"            self.{a.attr}.append(inputStream.read_{stream}())"]
  | .unmarshalList => some [
      s!"        self.{a.attr} = []",
      s!"        for idx in range(0, self.{a.count}):",
      s!"            element = {a.className}()",
      "            element.parse(inputStream)",
      s!"            self.{a.attr}.append(element)"]
  | _ => none

def sizeStep (c : ClassDescription) (a : Action) : Option (List String) :=
  match a.op with
  | .super => some [s!"        marshalSize += super({c.name}, self).get_marshalled_size()"]
  | .sizeConst => some [s!"        marshalSize += {a.bytes}  # {a.attr}"]
  | .sizeObject => some [s!"        marshalSize += self.{a.attr}.get_marshalled_size()"]
  | .sizeArray | .sizeListObjects => some [
      s!"        for anObj in self.{a.attr}:",
      "            marshalSize += anObj.get_marshalled_size()"]
  | .sizeList => some [s!"        marshalSize += len(self.{a.attr}) * {a.bytes}"]
  | _ => none

def accessorLines (b : BitAccessor) : List String :=
  let mask := hexLiteral b.narrowMask
  let name := capitalized b.name
  let doc := if b.description == "" then [] else [docLine "        " (docText b.description)]
  s!"    def get{name}(self):" :: doc ++ [
    s!"        return (self.{b.field} & {mask}) >> {b.shift}",
    "",
    s!"    def set{name}(self, val):",
    s!"        self.{b.field} = (self.{b.field} & ~{mask}) | (val << {b.shift})",
    ""]

def importLine (name : String) : String := s!"from .{name} import {name}"

def classHeader (p : ClassPlan) : List String :=
  let c := p.description
  let imports := (references p).map importLine
  let parent := if c.hasParent then c.parent else "object"
  header ++ imports ++ (if imports.isEmpty then [] else [""]) ++
    ["", s!"class {c.name}({parent}):"] ++
    (if c.comment == "" then [] else [docLine "    " (docText c.comment), ""])

def classFile (p : ClassPlan) : Except RenderError SourceFile := do
  let c := p.description
  let init ← linesOf p .init p.init (initStep c)
  let marshal ← linesOf p .marshal p.marshal (marshalStep c)
  let unmarshal ← linesOf p .unmarshal p.unmarshal (unmarshalStep c)
  let size ← linesOf p .size p.size (sizeStep c)
  if let some e := floatBitField? p then throw e
  let content := unlines <|
    classHeader p ++
    ["    def __init__(self):", docLine "        " s!"Initializer for {c.name}"] ++ init ++
    ["", "    def serialize(self, outputStream):", docLine "        " "serialize the class"] ++
    marshal ++
    ["", "    def parse(self, inputStream):",
      docLine "        " "Parse a message. This may recursively call embedded objects."] ++
    unmarshal ++
    ["", "    def get_marshalled_size(self):", "        marshalSize = 0"] ++ size ++
    ["        return marshalSize", ""] ++
    p.bitFields.flatMap accessorLines
  return { name := s!"{c.name}.py", content }

def moduleFile (p : Program) : SourceFile where
  name := "__init__.py"
  content := unlines (header ++ p.plans.map fun q => importLine q.name)

end PduCompiler.Target.Python
