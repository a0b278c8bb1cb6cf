import PduCompiler.Files.Disk
import PduCompiler.Number.Word
import PduCompiler.Registry
import PduCompiler.Text.Blank
import PduCompiler.Xml.Element

/-!
Descriptions in XML. Every class element that reads without a problem is registered; all problems
are reported, in document order. A file holds one such document.
-/

namespace PduCompiler

open Files Text

inductive AttributeError where
  | kinds (count : Nat)
  | unknownType (type : String)
  | bitField
  | unnamedClass
  | mixedElement
  | elementBits
  | noElement
  | lengthAndCount
  | badLength (length : String)
  | noLength
  deriving DecidableEq, Repr

def AttributeError.message : AttributeError → String
  | kinds n => s!"expected one of primitive, classRef, primitivelist, objectlist; got {n}"
  | unknownType t => s!"unknown primitive type {quote t}"
  | bitField => "bitfield requires name and mask"
  | unnamedClass => "classRef without name"
  | mixedElement => "list element is both primitive and classRef"
  | elementBits => "bit fields on list elements are not supported"
  | noElement => "list without element type"
  | lengthAndCount => "list has both length and countFieldName"
  | badLength n => s!"invalid list length: {n}"
  | noLength => "list needs length or countFieldName"

inductive DescriptionError where
  | unnamedClass
  | badAttribute (className attr : String) (cause : AttributeError)
  | notAdded (error : AddError)
  deriving DecidableEq, Repr

def DescriptionError.message : DescriptionError → String
  | unnamedClass => "class without name"
  | badAttribute c a cause => s!"{c}.{a}: {cause.message}"
  | notAdded e => e.message

namespace Schema

def flagOf (default : Bool) (s : String) : Bool := (truthValue? (trim s)).getD default

def decimal? (s : String) : Option Int :=
  let unsigned (digits : List Char) : Option Nat :=
    if digits.isEmpty || digits.any (!·.isDigit) then none
    else some (digits.foldl (fun n c => n * 10 + (c.toNat - '0'.toNat)) 0)
  let n := match s.toList with
    | '-' :: digits => (unsigned digits).map fun n => -(n : Int)
    | '+' :: digits => (unsigned digits).map Int.ofNat
    | digits => (unsigned digits).map Int.ofNat
  n.filter fun n => wrap n == n

def bitFieldOf (e : Xml.Element) : Except AttributeError BitField :=
  let name := trim (e.value "name")
  let mask := trim (e.value "mask")
  if name == "" || mask == "" then .error .bitField
  else .ok { name, mask, description := cleanComment (e.value "description") }

def primitiveOf (e : Xml.Element) : Except AttributeError Primitive :=
  match Scalar.parse? (e.value "type") with
  | none => .error (.unknownType (e.value "type"))
  | some t => do
    let bitFields ← (e.childrenNamed "bitfield").mapM bitFieldOf
    return { type := t.name, default := trim (e.value "defaultValue"), bitFields }

def classNameOf (e : Xml.Element) : Except AttributeError String :=
  let name := trim (e.value "name")
  if name == "" then .error .unnamedClass else .ok name

def elementOf (e : Xml.Element) : Except AttributeError Element :=
  match e.merged? "primitive", e.merged? "classRef" with
  | some _, some _ => .error .mixedElement
  | some p, none => do
    let p ← primitiveOf p
    if p.bitFields.isEmpty then .ok { type := p.type } else .error .elementBits
  | none, some c => return { className := ← classNameOf c }
  | none, none => .error .noElement

def listOf (e : Xml.Element) : Except AttributeError Kind := do
  let elem ← elementOf e
  let countField := trim (e.value "countFieldName")
  let length := trim (e.value "length")
  if countField != "" && length != "" then .error .lengthAndCount
  else if countField != "" then .ok (.dynamicList countField elem)
  else if length != "" then
    match decimal? length with
    | some n => .ok (.fixedList n elem)
    | none => .error (.badLength length)
  else .error .noLength

/-- The kind that the children of an attribute element give. A child of one name counts once. -/
def kindOf (e : Xml.Element) : Except AttributeError Kind :=
  let primitive := (e.merged? "primitive").toList.map fun p => Kind.primitive <$> primitiveOf p
  let object := (e.merged? "classRef").toList.map fun c => Kind.object <$> classNameOf c
  let lists := ((e.merged? "primitivelist").toList ++ (e.merged? "objectlist").toList).map listOf
  match primitive ++ object ++ lists with
  | [kind] => kind
  | kinds => .error (.kinds kinds.length)

def attributeOf (e : Xml.Element) : Except AttributeError Attribute := do
  let kind ← kindOf e
  return {
    name := trim (e.value "name")
    comment := cleanComment (e.value "comment")
    kind := some kind
    transient := !flagOf true (e.value "serialize") }

def classOf (e : Xml.Element) : Except (List DescriptionError) ClassDescription :=
  let name := trim (e.value "name")
  if name == "" then .error [.unnamedClass]
  else
    let results := (e.childrenNamed "attribute").map fun a =>
      (attributeOf a).mapError (DescriptionError.badAttribute name (a.value "name"))
    let bad := results.filterMap fun r =>
      match r with
      | .error e => some e
      | .ok _ => none
    if !bad.isEmpty then .error bad
    else .ok {
      name
      parent := trim (e.value "inheritsFrom")
      comment := cleanComment (e.value "comment")
      attributes := results.filterMap Except.toOption
      initialValues := (e.childrenNamed "initialValue").map fun v =>
        { attr := trim (v.value "name"), value := trim (v.value "value") }
      isAbstract := flagOf false (e.value "abstract")
      xmlRoot := flagOf false (e.value "xmlRootElement")
      aliasFor := trim (e.value "aliasFor")
      specialCase := trim (e.value "specialCase")
      interfaces := trim (e.value "implements") }

def addElement (acc : Registry × List DescriptionError) (e : Xml.Element) :
    Registry × List DescriptionError :=
  match classOf e with
  | .error bad => (acc.1, acc.2 ++ bad)
  | .ok c =>
    match acc.1.add c with
    | .error e => (acc.1, acc.2 ++ [.notAdded e])
    | .ok r => (r, acc.2)

end Schema

def Registry.ofDocument (text : String) :
    Except Xml.ReadError (Registry × List DescriptionError) := do
  let root ← Xml.readDocument "classes" text
  return (root.childrenNamed "class").foldl Schema.addElement ({}, [])

inductive SchemaFileError where
  | notOpened (error : FileError)
  | notRead (path : String) (error : FileError)
  | malformed (path : String) (error : Xml.ReadError)
  | invalid (path : String) (errors : List DescriptionError)
  deriving DecidableEq, Repr

def SchemaFileError.message : SchemaFileError → String
  | notOpened e => s!"parse error: {e.message}"
  | notRead path e => s!"{path}: parse error: {e.message}"
  | malformed path e => s!"{path}: {e.message}"
  | invalid path errors =>
    let all := "; ".intercalate (errors.map DescriptionError.message)
    s!"{path}: {all}"

def Registry.ofFile (d : Disk) (path : String) : Except SchemaFileError Registry :=
  match d.readFile path with
  | .error e => .error (if e.cause = .isDirectory then .notRead path e else .notOpened e)
  | .ok text =>
    match Registry.ofDocument text with
    | .error e => .error (.malformed path e)
    | .ok (r, []) => .ok r
    | .ok (_, errors) => .error (.invalid path errors)

end PduCompiler
