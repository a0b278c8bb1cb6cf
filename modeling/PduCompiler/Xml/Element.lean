import PduCompiler.Xml.Token

/-!
The elements of a document. Reading stops at the end of the first element, so what follows it need
not be well formed.
-/

namespace PduCompiler.Xml

inductive Element where
  | mk (name : String) (attributes : List (String × String)) (children : List Element)

namespace Element

def name : Element → String
  | mk n _ _ => n

def attributes : Element → List (String × String)
  | mk _ a _ => a

def children : Element → List Element
  | mk _ _ c => c

/-- The value of an attribute, empty if there is none. Of several with one name the last counts. -/
def value (e : Element) (name : String) : String :=
  ((e.attributes.reverse.find? (·.1 == name)).map (·.2)).getD ""

def childrenNamed (e : Element) (name : String) : List Element := e.children.filter (·.name == name)

/-- All children of a name read as one element: a later attribute replaces an earlier one, and the
children of all count. -/
def merged? (e : Element) (name : String) : Option Element :=
  match e.childrenNamed name with
  | [] => none
  | all => some (mk name (all.flatMap attributes) (all.flatMap children))

end Element

inductive ReadError where
  | empty
  | wrongRoot (expected found : String)
  | malformed
  deriving DecidableEq, Repr

def ReadError.message : ReadError → String
  | empty => "parse error: EOF"
  | wrongRoot expected found =>
    s!"parse error: expected element type <{expected}> but have <{found}>"
  | malformed => "parse error"

structure OpenElement where
  name : QName
  attributes : List (QName × String)
  children : List Element := []

def OpenElement.close (e : OpenElement) : Element :=
  .mk e.name.base (e.attributes.map fun (n, v) => (n.base, v)) e.children.reverse

def leave (resume : List OpenElement → Except ReadError Element) (e : Element) :
    List OpenElement → Except ReadError Element
  | [] => .ok e
  | top :: below => resume ({ top with children := e :: top.children } :: below)

def readElement (root : String) : List OpenElement → List (Option Token) →
    Except ReadError Element
  | stack, [] => .error (if stack.isEmpty then .empty else .malformed)
  | _, none :: _ => .error .malformed
  | stack, some .skipped :: rest => readElement root stack rest
  | stack, some (.openTag name attributes isEmpty) :: rest =>
    if stack.isEmpty && name.base != root then .error (.wrongRoot root name.base)
    else if isEmpty then
      leave (readElement root · rest) (OpenElement.close { name, attributes }) stack
    else readElement root ({ name, attributes } :: stack) rest
  | [], some (.closeTag _) :: _ => .error .malformed
  | top :: below, some (.closeTag name) :: rest =>
    if top.name = name then leave (readElement root · rest) top.close below
    else .error .malformed

def readDocument (root : String) (text : String) : Except ReadError Element :=
  readElement root [] (tokens text.toList)

end PduCompiler.Xml
