import PduCompiler.Plan
import PduCompiler.Registry.Seal
import PduCompiler.Schema.Document

/-! The description of the sample classes, and their plans. -/

namespace PduCompiler.Sample

def document : String := "\n".intercalate [
  "<?xml version=\"1.0\" encoding=\"UTF-8\"?>",
  "<classes>",
  "  <class name=\"Record\" inheritsFrom=\"root\" comment=\"One keyed entry\">",
  "    <attribute name=\"key\"><primitive type=\"uint32\"/></attribute>",
  "    <attribute name=\"flags\">",
  "      <primitive type=\"uint8\">",
  "        <bitfield name=\"active\" mask=\"0x01\"/>",
  "        <bitfield name=\"priority\" mask=\"0x0E\" description=\"0 is lowest\"/>",
  "      </primitive>",
  "    </attribute>",
  "  </class>",
  "",
  "  <class name=\"Message\" inheritsFrom=\"root\" comment=\"A versioned batch of records\">",
  "    <attribute name=\"version\"><primitive type=\"uint8\" defaultValue=\"2\"/></attribute>",
  "    <attribute name=\"numRecords\"><primitive type=\"uint16\"/></attribute>",
  "    <attribute name=\"records\"><objectlist countFieldName=\"numRecords\">" ++
    "<classRef name=\"Record\"/></objectlist></attribute>",
  "  </class>",
  "",
  "  <class name=\"Point\" inheritsFrom=\"root\" comment=\"A grid position\">",
  "    <attribute name=\"x\"><primitive type=\"int16\"/></attribute>",
  "    <attribute name=\"y\"><primitive type=\"int16\"/></attribute>",
  "  </class>",
  "",
  "  <class name=\"Route\" inheritsFrom=\"Message\" " ++
    "comment=\"A batch of records along a fixed path\">",
  "    <attribute name=\"corners\"><objectlist length=\"2\">" ++
    "<classRef name=\"Point\"/></objectlist></attribute>",
  "    <initialValue name=\"version\" value=\"3\"/>",
  "  </class>",
  "</classes>",
  ""]

def planned? (text : String) : Option Program :=
  match Registry.ofDocument text with
  | .ok (r, []) =>
    match r.toSealed with
    | .ok r => (r.planAll {}).2.toOption
    | .error _ => none
  | _ => none

def program? : Option Program := planned? document

end PduCompiler.Sample
