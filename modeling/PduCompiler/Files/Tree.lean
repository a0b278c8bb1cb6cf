/-!
Files and directories as a value. A place is the list of names that lead to it from the root.
-/

namespace PduCompiler.Files

abbrev Place := List String

inductive Entry where
  | file (content : String)
  | directory
  deriving DecidableEq, Repr

/-- What there is below the root. The root itself is always a directory. -/
structure FileTree where
  entries : List (Place × Entry) := []
  deriving DecidableEq, Repr

namespace FileTree

def get? (t : FileTree) (p : Place) : Option Entry :=
  if p = [] then some .directory else (t.entries.find? (·.1 == p)).map (·.2)

def erase (t : FileTree) (p : Place) : FileTree := ⟨t.entries.filter (·.1 != p)⟩

def set (t : FileTree) (p : Place) (e : Entry) : FileTree := ⟨(p, e) :: (t.erase p).entries⟩

def names (t : FileTree) (p : Place) : List String :=
  let below := t.entries.filterMap fun (q, _) =>
    match q.reverse with
    | name :: above => if above.reverse = p then some name else none
    | [] => none
  below.mergeSort (· ≤ ·)

def below (t : FileTree) (p : Place) : List (Place × Entry) :=
  t.entries.filterMap fun (q, e) =>
    if p.isPrefixOf q && q.length != p.length then some (q.drop p.length, e) else none

theorem get?_set (t : FileTree) (p q : Place) (e : Entry) (h : q ≠ []) :
    (t.set p e).get? q = if q = p then some e else t.get? q := by
  by_cases hq : q = p
  · subst hq
    simp [get?, set, h]
  · have hp : (p == q) = false := by simpa using Ne.symm hq
    simp only [get?, set, h, hq, if_false, List.find?_cons, hp, erase]
    congr 1
    induction t.entries with
    | nil => rfl
    | cons entry rest ih =>
      by_cases he : entry.1 = p
      · simp [he, hp, ih]
      · by_cases heq : entry.1 = q
        · simp [heq, hq]
        · simp [he, heq, ih]

end FileTree

end PduCompiler.Files
