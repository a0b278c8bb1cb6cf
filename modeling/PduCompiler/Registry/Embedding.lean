import PduCompiler.Registry

/-!
Which classes an object holds inside from its construction on: those of its object attributes and
fixed lists, inherited ones too. A class that holds itself could never be constructed. Dynamic lists
start empty and do not count.
-/

namespace PduCompiler.Registry

def embedded? (a : Attribute) : Option String :=
  match a.kind with
  | some (.object className) => some className
  | some (.fixedList _ elem) => if elem.isObject then some elem.className else none
  | _ => none

/-- The classes an object of a class holds, in the order of the chain and of declaration. -/
def embeds (r : Registry) (name : String) : List String :=
  (r.chain name).flatMap fun c => c.attributes.filterMap embedded?

/-- Searches the classes below `name`, depth first, for one that is already on `path`. Returns the
classes settled so far and the path that closed a cycle. A class on a failed path counts as settled,
so a later search does not report the cycle again. Every call goes to a class not yet on the path,
so `fuel` need not exceed the number of classes by more than one. -/
def searchCycle (r : Registry) : (fuel : Nat) → (settled path : List String) → (name : String) →
    List String × Option (List String)
  | 0, settled, _, _ => (settled, none)
  | fuel + 1, settled, path, name =>
    if path.contains name then (settled, some (path ++ [name]))
    else if settled.contains name then (settled, none)
    else
      let (settled, cycle) := (r.embeds name).foldl
        (fun acc child =>
          match acc.2 with
          | some cycle => (acc.1, some cycle)
          | none => r.searchCycle fuel acc.1 (path ++ [name]) child)
        (settled, none)
      (name :: settled, cycle)

def embeddingCycles (r : Registry) : List (List String) :=
  (r.names.foldl
    (fun acc name =>
      let (settled, cycle) := r.searchCycle (r.classes.length + 1) acc.1 [] name
      (settled, acc.2 ++ cycle.toList))
    (([], []) : List String × List (List String))).2

end PduCompiler.Registry
