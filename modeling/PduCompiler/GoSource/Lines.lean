/-!
Lines of a source. A place in a source is the number of bytes before it; a table of the places where
lines begin tells the line and the column of each.
-/

namespace PduCompiler.GoSource

def extent (s : List Char) : Nat := s.foldl (fun n c => n + c.utf8Size) 0

structure LineTable where
  starts : Array Nat

structure Place where
  offset : Nat
  line : Nat
  column : Nat
  deriving DecidableEq, Repr, Inhabited

namespace LineTable

def ofSource (s : List Char) : LineTable :=
  ⟨(s.foldl (fun (n, starts) c =>
    (n + c.utf8Size, if c = '\n' then starts.push (n + 1) else starts)) (0, #[0])).2⟩

/-- How many of the entries from `low` up to `high` are at most `n`, counted with those before
`low`. The interval is halved at every step. -/
private def countUpTo (starts : Array Nat) (n : Nat) : (fuel low high : Nat) → Nat
  | 0, low, _ => low
  | fuel + 1, low, high =>
    if high ≤ low then low
    else
      let middle := (low + high) / 2
      if starts.getD middle 0 ≤ n then countUpTo starts n fuel (middle + 1) high
      else countUpTo starts n fuel low middle

def lineAt (t : LineTable) (offset : Nat) : Nat :=
  countUpTo t.starts offset t.starts.size 0 t.starts.size

def startOf (t : LineTable) (line : Nat) : Nat := t.starts.getD (line - 1) 0

def place (t : LineTable) (offset : Nat) : Place :=
  let line := t.lineAt offset
  ⟨offset, line, offset - t.startOf line + 1⟩

def merge (t : LineTable) (line : Nat) : LineTable :=
  ⟨(t.starts.toList.eraseIdx line).toArray⟩

end LineTable

end PduCompiler.GoSource
