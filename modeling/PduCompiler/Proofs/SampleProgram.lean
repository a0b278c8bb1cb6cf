import PduCompiler.Machine.Construct
import PduCompiler.Proofs.Planning
import PduCompiler.Sample.Schema

/-! The program of the sample classes, read off their document. Any document gives a registry that
classes were added to one by one. -/

namespace PduCompiler

theorem Schema.addElement_built {acc : Registry × List DescriptionError} (h : acc.1.Built)
    (e : Xml.Element) : (Schema.addElement acc e).1.Built := by
  unfold addElement
  split
  · exact h
  · split
    · exact h
    · next hc => exact h.add hc

theorem Registry.ofDocument_of_read {text : String} {root : Xml.Element}
    (h : (Xml.readDocument "classes" text).toOption = some root) : Registry.ofDocument text =
      .ok ((root.childrenNamed "class").foldl Schema.addElement ({}, [])) := by
  rw [ofDocument, eq_ok_of_toOption h]
  rfl

theorem Registry.ofDocument_built {text : String} {r : Registry} {bad : List DescriptionError}
    (h : Registry.ofDocument text = .ok (r, bad)) : r.Built := by
  unfold ofDocument at h
  cases hd : Xml.readDocument "classes" text with
  | error e => simp [hd, bind, Except.bind] at h
  | ok root =>
    simp only [hd, bind, Except.bind, pure, Except.pure, Except.ok.injEq] at h
    have hfold : ∀ (l : List Xml.Element) (acc : Registry × List DescriptionError),
        acc.1.Built → (l.foldl Schema.addElement acc).1.Built := by
      intro l
      induction l with
      | nil => exact fun _ h => h
      | cons e l ih =>
        intro acc h
        rw [List.foldl_cons]
        exact ih (Schema.addElement acc e) (Schema.addElement_built h e)
    have hbuilt := hfold (root.childrenNamed "class") ({}, []) .empty
    rwa [h] at hbuilt

namespace Xml

mutual

def Element.decEq : (a b : Element) → Decidable (a = b)
  | .mk n as cs, .mk n' as' cs' =>
    match instDecidableEqString n n', (inferInstance : Decidable (as = as')),
        Element.decEqs cs cs' with
    | isTrue hn, isTrue ha, isTrue hc => isTrue (by rw [hn, ha, hc])
    | isFalse h, _, _ => isFalse fun e => h (Element.mk.inj e).1
    | _, isFalse h, _ => isFalse fun e => h (Element.mk.inj e).2.1
    | _, _, isFalse h => isFalse fun e => h (Element.mk.inj e).2.2

def Element.decEqs : (a b : List Element) → Decidable (a = b)
  | [], [] => isTrue rfl
  | [], _ :: _ => isFalse nofun
  | _ :: _, [] => isFalse nofun
  | a :: as, b :: bs =>
    match Element.decEq a b, Element.decEqs as bs with
    | isTrue h, isTrue hs => isTrue (by rw [h, hs])
    | isFalse h, _ => isFalse fun e => h (List.cons.inj e).1
    | _, isFalse h => isFalse fun e => h (List.cons.inj e).2

end

instance : DecidableEq Element := Element.decEq

end Xml

namespace Sample

def attributeElement (name : String) (kind : Xml.Element) : Xml.Element :=
  .mk "attribute" [("name", name)] [kind]

def primitiveElement (type : String) : Xml.Element := .mk "primitive" [("type", type)] []

def classElement (name parent comment : String) (children : List Xml.Element) : Xml.Element :=
  .mk "class" [("name", name), ("inheritsFrom", parent), ("comment", comment)] children

def root : Xml.Element := .mk "classes" [] [
  classElement "Record" "root" "One keyed entry" [
    attributeElement "key" (primitiveElement "uint32"),
    attributeElement "flags" (.mk "primitive" [("type", "uint8")] [
      .mk "bitfield" [("name", "active"), ("mask", "0x01")] [],
      .mk "bitfield" [("name", "priority"), ("mask", "0x0E"), ("description", "0 is lowest")] []])],
  classElement "Message" "root" "A versioned batch of records" [
    attributeElement "version" (.mk "primitive" [("type", "uint8"), ("defaultValue", "2")] []),
    attributeElement "numRecords" (primitiveElement "uint16"),
    attributeElement "records" (.mk "objectlist" [("countFieldName", "numRecords")]
      [.mk "classRef" [("name", "Record")] []])],
  classElement "Point" "root" "A grid position" [
    attributeElement "x" (primitiveElement "int16"),
    attributeElement "y" (primitiveElement "int16")],
  classElement "Route" "Message" "A batch of records along a fixed path" [
    attributeElement "corners" (.mk "objectlist" [("length", "2")]
      [.mk "classRef" [("name", "Point")] []]),
    .mk "initialValue" [("name", "version"), ("value", "3")] []]]

theorem readDocument_document : (Xml.readDocument "classes" document).toOption = some root := by
  -- the text is spelled out as characters, which the kernel reads faster than it joins strings
  rewrite [Xml.readDocument, document, String.toList_intercalate]
  simp only [List.map, String.toList_append]
  repeat rewrite [String.toList_ofList]
  decide +kernel

def keyField : Attribute := { name := "key", kind := some (.primitive { type := "uint32" }) }

def flagsField (owner : String) : Attribute := {
  name := "flags"
  kind := some (.primitive { type := "uint8", bitFields := [
    { name := "active", mask := "0x01", owner },
    { name := "priority", mask := "0x0E", description := "0 is lowest", owner }] }) }

def versionField : Attribute := {
  name := "version"
  kind := some (.primitive { type := "uint8", default := "2" }) }

def numRecordsField (countFor : String) : Attribute := {
  name := "numRecords"
  kind := some (.primitive { type := "uint16", countFor }) }

def recordsField : Attribute := {
  name := "records"
  kind := some (.dynamicList "numRecords" { className := "Record" }) }

def xField : Attribute := { name := "x", kind := some (.primitive { type := "int16" }) }

def yField : Attribute := { name := "y", kind := some (.primitive { type := "int16" }) }

def cornersField : Attribute := {
  name := "corners"
  kind := some (.fixedList 2 { className := "Point" }) }

def recordClass (owner : String) : ClassDescription := {
  name := "Record", parent := "root", comment := "One keyed entry"
  attributes := [keyField, flagsField owner] }

def messageClass (countFor : String) : ClassDescription := {
  name := "Message", parent := "root", comment := "A versioned batch of records"
  attributes := [versionField, numRecordsField countFor, recordsField] }

def pointClass : ClassDescription := {
  name := "Point", parent := "root", comment := "A grid position"
  attributes := [xField, yField] }

def routeClass : ClassDescription := {
  name := "Route", parent := "Message", comment := "A batch of records along a fixed path"
  attributes := [cornersField]
  initialValues := [{ attr := "version", value := "3" }] }

def source : Registry := { classes := [messageClass "", pointClass, recordClass "", routeClass] }

theorem ofDocument_document : Registry.ofDocument document = .ok (source, []) := by
  have hfold : (root.childrenNamed "class").foldl Schema.addElement ({}, []) = (source, []) := by
    decide +kernel
  rw [Registry.ofDocument_of_read readDocument_document, hfold]

def program : Program := (Program.compile? source {}).get (by decide +kernel)

theorem program_evaluated : program.registry = {
    classes := [messageClass "records", pointClass, recordClass "flags", routeClass]
    isSealed := true } ∧ program.registry.NoRedeclaration ∧ program.plans.length = 4 := by
  decide +kernel

theorem program_registry : program.registry = {
    classes := [messageClass "records", pointClass, recordClass "flags", routeClass]
    isSealed := true } := program_evaluated.1

theorem program_noRedeclaration : program.registry.NoRedeclaration := program_evaluated.2.1

theorem length_plans : program.plans.length = 4 := program_evaluated.2.2

theorem compile?_source : Program.compile? source {} = some program := (Option.some_get _).symm

theorem program_compiled : program.Compiled source {} :=
  Program.compiled_of_compile? (Registry.ofDocument_built ofDocument_document) compile?_source

theorem planned?_of_ofDocument {text : String} {r : Registry}
    (h : Registry.ofDocument text = .ok (r, [])) : planned? text = Program.compile? r {} := by
  unfold planned? Program.compile?
  cases hs : r.toSealed <;> simp only [h, hs] <;> rfl

theorem program?_eq : program? = some program := by
  rw [program?, planned?_of_ofDocument ofDocument_document, compile?_source]

theorem program_planned : program.Planned := program_compiled.toPlanned

theorem record_mem : recordClass "flags" ∈ program.registry.classes := by
  simp [program_registry]

theorem message_mem : messageClass "records" ∈ program.registry.classes := by
  simp [program_registry]

theorem point_mem : pointClass ∈ program.registry.classes := by
  simp [program_registry]

theorem route_mem : routeClass ∈ program.registry.classes := by
  simp [program_registry]

theorem isRoot_message : isRoot "Message" = false := by
  have hlower : "Message".map Char.toLower = "message" := by
    rw [← String.toList_inj, String.toList_map]
    rfl
  simp [isRoot, hlower, rootName]

theorem record_rootless (owner : String) : (recordClass owner).hasParent = false := by
  have hroot : isRoot (recordClass owner).parent = true := isRoot_rootName
  simp [ClassDescription.hasParent, hroot]

theorem message_rootless (countFor : String) : (messageClass countFor).hasParent = false := by
  have hroot : isRoot (messageClass countFor).parent = true := isRoot_rootName
  simp [ClassDescription.hasParent, hroot]

theorem point_rootless : pointClass.hasParent = false := by
  have hroot : isRoot pointClass.parent = true := isRoot_rootName
  simp [ClassDescription.hasParent, hroot]

theorem route_hasParent : routeClass.hasParent = true := by
  simp [ClassDescription.hasParent, routeClass, isRoot_message]

theorem serialised_message : program.registry.serialised "Message" =
    [versionField, numRecordsField "records", recordsField] := by
  have heq := program_planned.serialised_eq message_mem
  rw [Plan.inherited, message_rootless] at heq
  exact heq

theorem recordsField_mem : recordsField ∈ program.registry.serialised "Message" := by
  simp [serialised_message]

theorem serialised_point : program.registry.serialised "Point" = [xField, yField] := by
  have heq := program_planned.serialised_eq point_mem
  rw [Plan.inherited, point_rootless] at heq
  exact heq

def newRecord : Instance := {
  className := "Record"
  types := [("key", "uint32"), ("flags", "uint8")]
  prims := [("key", 0), ("flags", 0)] }

def newMessage : Instance := {
  className := "Message"
  types := [("version", "uint8"), ("numRecords", "uint16")]
  prims := [("version", 2), ("numRecords", 0)]
  lists := [("records", [])] }

def newPoint : Instance := {
  className := "Point"
  types := [("x", "int16"), ("y", "int16")]
  prims := [("x", 0), ("y", 0)] }

def newRoute : Instance := {
  className := "Route"
  types := [("version", "uint8"), ("numRecords", "uint16")]
  prims := [("version", 3), ("numRecords", 0)]
  objectArrays := [("corners", [0, 1])]
  lists := [("records", [])] }

theorem builds :
    (program.build 0 "Record").toOption = some (#[newRecord], 0) ∧
    (program.build 0 "Message").toOption = some (#[newMessage], 0) ∧
    (program.build 0 "Point").toOption = some (#[newPoint], 0) ∧
    (program.build 0 "Route").toOption = some (#[newPoint, newPoint, newRoute], 2) := by
  decide +kernel

theorem build_record : (program.build 0 "Record").toOption = some (#[newRecord], 0) := builds.1

theorem build_message : (program.build 0 "Message").toOption = some (#[newMessage], 0) :=
  builds.2.1

theorem build_point : (program.build 0 "Point").toOption = some (#[newPoint], 0) := builds.2.2.1

theorem build_route :
    (program.build 0 "Route").toOption = some (#[newPoint, newPoint, newRoute], 2) :=
  builds.2.2.2

end Sample

end PduCompiler
