import PduCompiler.Toml.Syntax

/-!
TOML documents. Tables that keys only imply may still be opened once by their own header, and a key
may turn an array into a table by going through it; every other name is given once.
-/

namespace PduCompiler.Toml

structure Document where
  root : Entries := []
  implied : List Key := []
  arrays : List Key := []
  /-- All keys in the order of the document: tables before their keys. -/
  keys : List Key := []

/-- Changes the entries of a table. Of tables opened one after the other the last is meant. -/
def changeAt (f : Entries → Option Entries) : Key → Entries → Option Entries
  | [], es => f es
  | name :: rest, es =>
    match es.get? name with
    | some (.table inner) => do
      let inner ← changeAt f rest inner
      return es.set name (.table inner)
    | some (.tables items) =>
      match items.reverse with
      | [] => none
      | last :: before => do
        let last ← changeAt f rest last
        return es.set name (.tables (before.reverse ++ [last]))
    | _ => none

def entriesAt? : Key → Entries → Option Entries
  | [], es => some es
  | name :: rest, es =>
    match es.get? name with
    | some (.table inner) => entriesAt? rest inner
    | some (.tables items) => items.getLast?.bind (entriesAt? rest)
    | _ => none

namespace Document

def isImplied (d : Document) (k : Key) : Bool := d.implied.contains k

def imply (d : Document) (k : Key) : Document := { d with implied := k :: d.implied }

def confirm (d : Document) (k : Key) : Document := { d with implied := d.implied.filter (· ≠ k) }

def isArray (d : Document) (k : Key) : Bool := d.arrays.contains k

def noteKind (d : Document) (k : Key) (isArray : Bool) : Document :=
  let others := d.arrays.filter (· ≠ k)
  { d with arrays := if isArray then k :: others else others }

/-- The key under which the kind of a name in a table is noted; an empty name stands for its
table. -/
def kindKey (table : Key) (name : String) : Key :=
  if name ≠ "" then table ++ [name] else if table.isEmpty then [""] else table

/-- Gives a name in a table its value. What was only implied keeps the value it has, unless it has
been given an array: that is replaced. -/
def define (d : Document) (table : Key) (name : String) (v : Value) : Option Document := do
  let es ← entriesAt? table d.root
  let here := table ++ [name]
  if (es.get? name).isSome && !(d.isImplied here && d.isArray here) then
    if d.isImplied here then some (d.confirm here) else none
  else
    let root ← changeAt (fun es => some (es.set name v)) table d.root
    let d := if (es.get? name).isSome then d.confirm here else d
    return { d with root }

def establish (d : Document) (above : Key) : Key → Option Document
  | [] => some d
  | name :: rest => do
    let es ← entriesAt? above d.root
    let here := above ++ [name]
    match es.get? name with
    | none =>
      let root ← changeAt (fun es => some (es.set name (.table []))) above d.root
      establish (imply { d with root } here) here rest
    | some (.table _) => establish d here rest
    | some (.tables _) => establish d here rest
    | some _ => none

def openTable (d : Document) (key : Key) : Option Document :=
  match key.reverse with
  | [] => none
  | name :: above => do
    let d ← d.establish [] above.reverse
    d.define above.reverse name (.table [])

def openArrayTable (d : Document) (key : Key) : Option Document :=
  match key.reverse with
  | [] => none
  | name :: above => do
    let table := above.reverse
    let d ← d.establish [] table
    let es ← entriesAt? table d.root
    let items ← match es.get? name with
      | none => some []
      | some (.tables items) => some items
      | some _ => none
    let root ← changeAt (fun es => some (es.set name (.tables (items ++ [[]])))) table d.root
    return { d with root }

def openImplied (d : Document) (table : Key) : Key → Option (Document × Key)
  | [] => some (d, table)
  | name :: rest => do
    let here := table ++ [name]
    let d ← (d.imply here).openTable here
    openImplied d here rest

/-- Opens what a key in a table goes through and notes the key. Gives the table that its last part
is in. -/
def enter (d : Document) (table : Key) (key : Key) : Option (Document × Key × String) :=
  match key.reverse with
  | [] => none
  | name :: above => do
    let (d, table) ← d.openImplied table above.reverse
    return ({ d with keys := d.keys ++ [table ++ [name]] }, table, name)

/-- Puts a value into a table below others; what is on the way has to be a table or new. -/
def insertAt? (name : String) (v : Value) : Key → Entries → Option Entries
  | [], es => some (es.set name v)
  | part :: rest, es =>
    match (es.get? part).getD (.table []) with
    | .table inner => (insertAt? name v rest inner).map fun inner => es.set part (.table inner)
    | _ => none

def isArrayValue : Written → Bool
  | .array _ => true
  | _ => false

mutual

/-- The value of what is written under a name. The keys of an inline table are taken in on the
way. -/
def evaluate (d : Document) (table : Key) (name : String) (inArray : Bool) :
    Written → Option (Document × Value)
  | .scalar v => some (d, v)
  | .array items => do
    let (d, values) ← evaluateAll (d.noteKind (kindKey table name) true) table name items
    return (d, .array values)
  | .inline pairs => do
    let here := table ++ [name]
    let d := d.imply here
    let d ← if inArray then d.openArrayTable here else d.openTable here
    let (d, es) ← assignAll d here [] pairs
    return (d, .table es)

def evaluateAll (d : Document) (table : Key) (name : String) :
    List Written → Option (Document × List Value)
  | [] => some (d, [])
  | w :: rest => do
    let (d, v) ← evaluate d table name true w
    let (d, vs) ← evaluateAll d table name rest
    return (d, v :: vs)

def assignAll (d : Document) (table : Key) (es : Entries) :
    List (Key × Written) → Option (Document × Entries)
  | [] => some (d, es)
  | (key, w) :: rest => do
    let (d, inner, name) ← d.enter table key
    let (d, v) ← evaluate d inner name false w
    let d ← d.define inner name v
    let d := d.noteKind (kindKey inner name) (isArrayValue w)
    assignAll d table (← insertAt? name v key.dropLast es) rest

end

def takeLines (d : Document) (table : Key) : List Line → Option Document
  | [] => some d
  | .table key :: rest => do
    let d := (← d.openTable key).noteKind key false
    takeLines { d with keys := d.keys ++ [key] } key rest
  | .arrayTable key :: rest => do
    let d := (← d.openArrayTable key).noteKind key false
    takeLines { d with keys := d.keys ++ [key] } key rest
  | .pair key w :: rest => do
    let (d, _) ← d.assignAll table [] [(key, w)]
    takeLines d table rest

def ofText? (text : String) : Option Document := do takeLines {} [] (← lines? text)

end Document

end PduCompiler.Toml
