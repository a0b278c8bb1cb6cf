import PduCompiler.Machine.Instance
import PduCompiler.Registry

/-! Objects written out: every declared attribute of the chain with what the object holds for it. -/

namespace PduCompiler

inductive View where
  | word (w : Word)
  | missing
  | list (items : List View)
  | object (className : String) (fields : List (String × View))

def Instance.viewField (i : Instance) (objectView : Ref → View) (a : Attribute) : View :=
  match a.kind with
  | none => .missing
  | some (.primitive _) => .word (i.uint a.name)
  | some (.object _) => (i.object? a.name).elim .missing objectView
  | some (.fixedList _ e) =>
    if e.isObject then .list ((i.objectArray a.name).map objectView)
    else .list ((i.array a.name).map .word)
  | some (.dynamicList _ e) =>
    if e.isObject then .list ((i.list a.name).map objectView)
    else .list ((i.primList a.name).map .word)

/-- An object with everything inside it, down to a depth. The attributes of the root-most class come
first; a name declared twice comes twice. -/
def Store.viewTo (r : Registry) (s : Store) : (depth : Nat) → Ref → View
  | 0, _ => .missing
  | depth + 1, ref =>
    match s.get? ref with
    | none => .missing
    | some i =>
      let attributes := (r.chain i.className).reverse.flatMap (·.attributes)
      .object i.className
        (attributes.map fun a => (a.name, i.viewField (s.viewTo r depth) a))

def Store.view (r : Registry) (s : Store) (ref : Ref) : View := s.viewTo r (s.size + 1) ref

end PduCompiler
