/-!
Small tables keyed by name. A name has at most one entry as long as entries are made by `set`, and
entries stay in the order in which their names first came.
-/

namespace PduCompiler

abbrev Table (α : Type) := List (String × α)

namespace Table

variable {α : Type}

def get? (t : Table α) (name : String) : Option α := (t.find? (·.1 == name)).map (·.2)

def contains (t : Table α) (name : String) : Bool := (t.get? name).isSome

def set : Table α → String → α → Table α
  | [], name, value => [(name, value)]
  | (n, v) :: rest, name, value =>
    if n == name then (n, value) :: rest else (n, v) :: set rest name value

theorem get?_set (t : Table α) (name other : String) (value : α) :
    (t.set name value).get? other = if other = name then some value else t.get? other := by
  induction t with
  | nil =>
    by_cases h : other = name
    · simp [set, get?, h]
    · simp [set, get?, h, Ne.symm h]
  | cons entry rest ih =>
    obtain ⟨n, v⟩ := entry
    by_cases hn : n = name
    · by_cases h : other = name
      · simp [set, get?, hn, h]
      · simp [set, get?, hn, h, Ne.symm h]
    · by_cases h : n = other
      · subst h
        simp [set, get?, hn]
      · have := ih
        simp only [get?] at this ⊢
        simp [set, hn, h, this]

end Table

end PduCompiler
