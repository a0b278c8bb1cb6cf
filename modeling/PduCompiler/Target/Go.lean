import PduCompiler.GoSource.Format
import PduCompiler.Target.Literal
import PduCompiler.Target.SourceFile
import PduCompiler.Text.Name

/-!
Classes in Go, one file each. A class holds its parent by value, lists of objects hold pointers. The
text is written first and then brought into standard form, which fails if it is not well formed.
-/

namespace PduCompiler.Target.Go

open Text

def defaultPackage : String := "pdu"

def fieldName (name : String) : String := capitalized name

def scalarType (t : TypeName) : String := (t.scalar?.map Scalar.name).getD ""

def elementType (e : Element) (pointer : Bool) : String :=
  if e.isObject then (if pointer then "*" ++ e.className else e.className) else scalarType e.type

def unsignedType (t : TypeName) : String := s!"uint{t.bits}"

def appendExpr (t : Scalar) (value : String) : String :=
  let bits := t.bits
  if t.width == 1 then
    if t.isSigned then s!"append(buf, byte({value}))" else s!"append(buf, {value})"
  else
    let converted :=
      if t.isFloat then s!"math.Float{bits}bits({value})"
      else if t.isSigned then s!"uint{bits}({value})"
      else value
    s!"binary.BigEndian.AppendUint{bits}(buf, {converted})"

def takeExpr (t : Scalar) (source : String) : String :=
  let bits := t.bits
  if t.width == 1 then
    if t.isSigned then s!"int8({source}[0])" else s!"{source}[0]"
  else
    let raw := s!"binary.BigEndian.Uint{bits}({source})"
    if t.isFloat then s!"math.Float{bits}frombits({raw})"
    else if t.isSigned then s!"{t.name}({raw})"
    else raw

def fieldType? (a : Attribute) : Option String :=
  match a.kind with
  | some (.primitive p) => some (scalarType p.type)
  | some (.object name) => some name
  | some (.fixedList n e) => some s!"[{n}]{elementType e false}"
  | some (.dynamicList _ e) => some s!"[]{elementType e true}"
  | none => none

def fieldLine (p : ClassPlan) (a : Attribute) : Except RenderError String :=
  match fieldType? a with
  | none => .error (withoutKind p a)
  | some type =>
    let comment := if a.transient then trim (a.comment ++ " (not serialized)") else a.comment
    let field := s!"\t{fieldName a.name} {type}"
    .ok (if comment == "" then field else s!"{field} // {comment}")

def structLines (p : ClassPlan) : Except RenderError (List String) := do
  let c := p.description
  let fields ← c.attributes.mapM (fieldLine p)
  return (if c.comment == "" then [] else [s!"// {c.name} {c.comment}"]) ++
    [s!"type {c.name} struct \x7b"] ++
    (if c.hasParent then ["\t" ++ c.parent, ""] else []) ++ fields ++ ["\x7d", ""]

def initStep (a : Action) : Option (List String) :=
  let f := fieldName a.attr
  let value := goLiteral a.type a.value
  match a.op with
  | .super => some [s!"\tp.{a.className} = *New{a.className}()"]
  | .initValue => some [s!"\tp.{f} = {value}"]
  | .assign => some [s!"\tp.{f} = {value} // inherited from {a.owner}"]
  | .initObject => some [s!"\tp.{f} = *New{a.className}()"]
  | .initArray => some []
  | .initObjectArray => some [
      s!"\tfor i := range p.{f} \x7b",
      s!"\t\tp.{f}[i] = *New{a.className}()",
      "\t\x7d"]
  | .initList =>
    let type := elementType ⟨a.type, a.className⟩ true
    some [s!"\tp.{f} = []{type}\x7b\x7d"]
  | _ => none

def typedLines (p : ClassPlan) (method : Method) (actions : List Action)
    (isScalar : Op → Bool) (step : Scalar → Action → Option (List String)) :
    Except RenderError (List String) :=
  List.flatten <$> actions.mapM fun a =>
    match a.type.scalar? with
    | none =>
      if isScalar a.op then .error (.untyped p.name a.type)
      else (step .uint8 a).elim (.error (.unexpected p.name method a.op)) .ok
    | some t => (step t a).elim (.error (.unexpected p.name method a.op)) .ok

def marshalStep (t : Scalar) (a : Action) : Option (List String) :=
  let f := fieldName a.attr
  match a.op with
  | .super => some [s!"\tbuf = p.{a.className}.MarshalTo(buf)"]
  | .write =>
    let expr := appendExpr t ("p." ++ f)
    some [s!"\tbuf = {expr}"]
  | .writeLength =>
    let expr := appendExpr t s!"{t.name}(len(p.{fieldName a.list}))"
    some [s!"\tbuf = {expr} // {a.attr}"]
  | .marshal => some [s!"\tbuf = p.{f}.MarshalTo(buf)"]
  | .writeArray | .writeList =>
    let expr := appendExpr t "v"
    some [s!"\tfor _, v := range p.{f} \x7b", s!"\t\tbuf = {expr}", "\t\x7d"]
  | .marshalArray => some [
      s!"\tfor i := range p.{f} \x7b",
      s!"\t\tbuf = p.{f}[i].MarshalTo(buf)",
      "\t\x7d"]
  | .marshalList => some [
      s!"\tfor _, e := range p.{f} \x7b",
      "\t\tbuf = e.MarshalTo(buf)",
      "\t\x7d"]
  | _ => none

def shortLines (className attr : String) (need : Int) : List String := [
  s!"\tif len(buf) < {need} \x7b",
  s!"\t\treturn nil, fmt.Errorf(\"{className}.{attr}: %w\", io.ErrUnexpectedEOF)",
  "\t\x7d"]

def delegateLines (indent target : String) : List String := [
  s!"{indent}if buf, err = {target}.UnmarshalFrom(buf); err != nil \x7b",
  s!"{indent}\treturn nil, err",
  s!"{indent}\x7d"]

def unmarshalStep (name : String) (t : Scalar) (a : Action) : Option (List String) :=
  let f := fieldName a.attr
  let width := t.width
  match a.op with
  | .super => some (delegateLines "\t" s!"p.{a.className}")
  | .read =>
    let expr := takeExpr t "buf"
    some (shortLines name a.attr width ++ [s!"\tp.{f} = {expr}", s!"\tbuf = buf[{width}:]"])
  | .unmarshal => some (delegateLines "\t" s!"p.{f}")
  | .readArray =>
    let expr := takeExpr t s!"buf[i*{width}:]"
    let need := wrap (a.length * width)
    some (shortLines name a.attr need ++ [
      s!"\tfor i := range p.{f} \x7b",
      s!"\t\tp.{f}[i] = {expr}",
      "\t\x7d",
      s!"\tbuf = buf[{need}:]"])
  | .unmarshalArray => some ([s!"\tfor i := range p.{f} \x7b"] ++
      delegateLines "\t\t" s!"p.{f}[i]" ++ ["\t\x7d"])
  | .readList =>
    let expr := takeExpr t "buf"
    some [
      s!"\tp.{f} = p.{f}[:0]",
      s!"\tfor i := 0; i < int(p.{fieldName a.count}); i++ \x7b",
      s!"\t\tif len(buf) < {width} \x7b",
      s!"\t\t\treturn nil, fmt.Errorf(\"{name}.{a.attr}[%d]: %w\", i, io.ErrUnexpectedEOF)",
      "\t\t\x7d",
      s!"\t\tp.{f} = append(p.{f}, {expr})",
      s!"\t\tbuf = buf[{width}:]",
      "\t\x7d"]
  | .unmarshalList => some ([
      s!"\tp.{f} = p.{f}[:0]",
      s!"\tfor i := 0; i < int(p.{fieldName a.count}); i++ \x7b",
      s!"\t\te := New{a.className}()"] ++ delegateLines "\t\t" "e" ++ [
      s!"\t\tp.{f} = append(p.{f}, e)",
      "\t\x7d"])
  | _ => none

def sizeStep (a : Action) : Option (List String) :=
  let f := fieldName a.attr
  match a.op with
  | .super => some [s!"\tsize += p.{a.className}.MarshalledSize()"]
  | .sizeConst => some [s!"\tsize += {a.bytes} // {a.attr}"]
  | .sizeObject => some [s!"\tsize += p.{f}.MarshalledSize()"]
  | .sizeArray => some [
      s!"\tfor i := range p.{f} \x7b",
      s!"\t\tsize += p.{f}[i].MarshalledSize()",
      "\t\x7d"]
  | .sizeList => some [s!"\tsize += len(p.{f}) * {a.bytes}"]
  | .sizeListObjects => some [
      s!"\tfor _, e := range p.{f} \x7b",
      "\t\tsize += e.MarshalledSize()",
      "\t\x7d"]
  | _ => none

def accessorLines (className : String) (b : BitAccessor) : List String :=
  let type := scalarType b.type
  let unsigned := unsignedType b.type
  let f := fieldName b.field
  let mask := hexLiteral b.narrowMask
  let name := capitalized b.name
  let got :=
    if b.type.isSigned then s!"{type}(({unsigned}(p.{f}) & {mask}) >> {b.shift})"
    else s!"(p.{f} & {mask}) >> {b.shift}"
  let stored :=
    if b.type.isSigned then
      s!"{type}(({unsigned}(p.{f}) &^ {mask}) | ({unsigned}(v) << {b.shift}))"
    else s!"(p.{f} &^ {mask}) | (v << {b.shift})"
  let doc := if b.description == "" then s!"bits {mask} of {f}" else b.description
  [s!"// Get{name} returns {doc}",
    s!"func (p *{className}) Get{name}() {type} \x7b",
    s!"\treturn {got}",
    "\x7d", "",
    s!"// Set{name} stores v at bits {mask} of {f}. v is not masked.",
    s!"func (p *{className}) Set{name}(v {type}) \x7b",
    s!"\tp.{f} = {stored}",
    "\x7d", ""]

def occursIn (part : List Char) : List Char → Bool
  | [] => part.isEmpty
  | c :: rest => part.isPrefixOf (c :: rest) || occursIn part rest

def occurs (part text : String) : Bool := occursIn part.toList text.toList

def body (p : ClassPlan) : Except RenderError String := do
  let name := p.name
  let struct ← structLines p
  let init ← linesOf p .init p.init initStep
  let marshal ← typedLines p .marshal p.marshal
    ([Op.write, .writeLength, .writeArray, .writeList].contains ·) marshalStep
  let unmarshal ← typedLines p .unmarshal p.unmarshal
    ([Op.read, .readArray, .readList].contains ·) (unmarshalStep name)
  let size ← linesOf p .size p.size sizeStep
  if let some e := floatBitField? p then throw e
  return unlines <| struct ++
    [s!"// New{name} returns a {name} with its default values",
      s!"func New{name}() *{name} \x7b",
      s!"\tp := &{name}\x7b\x7d"] ++ init ++
    ["\treturn p", "\x7d", "",
      "// MarshalTo appends the wire encoding to buf",
      s!"func (p *{name}) MarshalTo(buf []byte) []byte \x7b"] ++ marshal ++
    ["\treturn buf", "\x7d", "",
      "// UnmarshalFrom decodes the wire encoding at the start of buf and",
      "// returns the remaining bytes. Lists are cleared before they are read.",
      s!"func (p *{name}) UnmarshalFrom(buf []byte) ([]byte, error) \x7b"] ++
    (if occurs "err = " (unlines unmarshal) then ["\tvar err error"] else []) ++ unmarshal ++
    ["\treturn buf, nil", "\x7d", "",
      "// MarshalledSize returns the number of bytes MarshalTo appends",
      s!"func (p *{name}) MarshalledSize() int \x7b",
      "\tsize := 0"] ++ size ++
    ["\treturn size", "\x7d", ""] ++
    p.bitFields.flatMap (accessorLines name)

/-- The packages that generated code may use, with the text that shows its use. -/
def packages : List (String × String) :=
  [("encoding/binary", "binary.BigEndian."), ("fmt", "fmt.Errorf("), ("io", "io.ErrUnexpectedEOF"),
    ("math", "math.Float")]

def importLines (body : String) : List String :=
  let used := packages.filter fun (_, use) => occurs use body
  if used.isEmpty then []
  else ["import ("] ++ used.map (fun (path, _) => s!"\t\"{path}\"") ++ [")", ""]

def header : List String := ["// Code generated by pdugen. DO NOT EDIT.", ""]

def classText (package : String) (p : ClassPlan) : Except RenderError String := do
  let body ← body p
  return unlines (header ++ [s!"package {package}", ""] ++ importLines body) ++ body

def classFile (package : String) (p : ClassPlan) : Except RenderError SourceFile := do
  let text ← classText package p
  match GoSource.format? text with
  | some content => return { name := snakeCase p.name ++ ".go", content }
  | none => throw (.malformed p.name)

def moduleText (package : String) (p : Program) : String :=
  unlines <| header ++ [
    s!"// Package {package} holds {p.plans.length} generated PDU types.",
    "//",
    "// Every type has a New constructor, MarshalTo, UnmarshalFrom and",
    "// MarshalledSize. Fields are encoded big-endian in declaration order,",
    "// parent fields first.",
    s!"package {package}"]

def moduleFile (package : String) (p : Program) : Except RenderError SourceFile :=
  match GoSource.format? (moduleText package p) with
  | some content => .ok { name := "doc.go", content }
  | none => .error (.malformed "doc.go")

end PduCompiler.Target.Go
