import PduCompiler.Literal
import PduCompiler.Table

/-!
Objects of planned classes. An object holds the fields of its class and of all ancestors by name, in
one table for each kind of storage. Objects lie in a store and hold each other by reference, so two
lists may share an element.
-/

namespace PduCompiler

open Text

abbrev Ref := Nat

structure Instance where
  className : String
  types : Table TypeName := []
  prims : Table Word := []
  objects : Table Ref := []
  arrays : Table (List Word) := []
  objectArrays : Table (List Ref) := []
  lists : Table (List Ref) := []
  primLists : Table (List Word) := []
  deriving DecidableEq, Repr

inductive FieldError where
  | noPrimitive (className field : String)
  | noObjectList (className field : String)
  | noPrimitiveList (className field : String)
  | noBitField (className name : String)
  deriving DecidableEq, Repr

def FieldError.message : FieldError → String
  | noPrimitive c f => s!"{c} has no primitive field {quote f}"
  | noObjectList c f => s!"{c} has no object list {quote f}"
  | noPrimitiveList c f => s!"{c} has no primitive list {quote f}"
  | noBitField c f => s!"{c} has no bit field {quote f}"

namespace Instance

/-- The raw bits of a field, 0 if there is none. -/
def uint (i : Instance) (field : String) : Word := (i.prims.get? field).getD 0

def typeOf (i : Instance) (field : String) : TypeName := (i.types.get? field).getD ""

/-- A field read in two's complement of its width. -/
def int (i : Instance) (field : String) : Int :=
  (i.uint field).toSigned (((i.typeOf field).scalar?).elim 64 Scalar.bits)

def float (i : Instance) (field : String) : Nat :=
  let bits := (i.uint field).toNat
  if i.typeOf field == Scalar.float32.name then
    BinaryFormat.binary32.convert BinaryFormat.binary64 (bits % Nat.pow 2 32)
  else bits

def setPrim (i : Instance) (field : String) (w : Word) : Instance :=
  { i with prims := i.prims.set field w }

def setUint (i : Instance) (field : String) (w : Word) : Except FieldError Instance :=
  match i.types.get? field with
  | none => .error (.noPrimitive i.className field)
  | some t => .ok (i.setPrim field (t.truncate w))

def setInt (i : Instance) (field : String) (v : Int) : Except FieldError Instance :=
  i.setUint field (BitVec.ofInt 64 v)

/-- Stores a float given by its 64 bits, narrowed only if the field is a 32-bit float. -/
def setFloat (i : Instance) (field : String) (bits : Nat) : Except FieldError Instance :=
  match i.types.get? field with
  | none => .error (.noPrimitive i.className field)
  | some t =>
    let bits := if t == Scalar.float32.name then
      BinaryFormat.binary64.convert BinaryFormat.binary32 bits else bits
    .ok (i.setPrim field (BitVec.ofNat 64 bits))

def object? (i : Instance) (field : String) : Option Ref := i.objects.get? field

def array (i : Instance) (field : String) : List Word := (i.arrays.get? field).getD []

def objectArray (i : Instance) (field : String) : List Ref := (i.objectArrays.get? field).getD []

def list (i : Instance) (field : String) : List Ref := (i.lists.get? field).getD []

def primList (i : Instance) (field : String) : List Word := (i.primLists.get? field).getD []

def listLength (i : Instance) (field : String) : Nat :=
  match i.primLists.get? field with
  | some words => words.length
  | none => (i.list field).length

def append (i : Instance) (field : String) (elem : Ref) : Except FieldError Instance :=
  match i.lists.get? field with
  | none => .error (.noObjectList i.className field)
  | some elems => .ok { i with lists := i.lists.set field (elems ++ [elem]) }

/-- Adds an element to a list of scalars as it is, without a cut. -/
def appendUint (i : Instance) (field : String) (w : Word) : Except FieldError Instance :=
  match i.primLists.get? field with
  | none => .error (.noPrimitiveList i.className field)
  | some words => .ok { i with primLists := i.primLists.set field (words ++ [w]) }

/-- Overwrites an element of a fixed list of scalars, without a cut; nothing if there is none. -/
def setArray? (i : Instance) (field : String) (index : Nat) (w : Word) : Option Instance :=
  let words := i.array field
  if index < words.length then some { i with arrays := i.arrays.set field (words.set index w) }
  else none

end Instance

structure Store where
  objects : Array Instance := #[]
  deriving DecidableEq, Repr

namespace Store

def get? (s : Store) (ref : Ref) : Option Instance := s.objects[ref]?

def size (s : Store) : Nat := s.objects.size

def append (s : Store) (objects : Array Instance) : Store := ⟨s.objects ++ objects⟩

def set (s : Store) (ref : Ref) (i : Instance) : Store := ⟨s.objects.setIfInBounds ref i⟩

def modify (s : Store) (ref : Ref) (change : Instance → Instance) : Store :=
  match s.get? ref with
  | none => s
  | some i => s.set ref (change i)

end Store

def Table.related {α : Type} (rel : α → Option α → Bool) (a b : Table α) : Bool :=
  a.length == b.length && a.all fun (name, v) => rel v (b.get? name)

namespace Instance

/-- Whether two objects, either of which may be missing, have the same class and equal fields
throughout, down to a depth. -/
def equalTo (s : Store) : (depth : Nat) → Option Instance → Option Instance → Bool
  | 0, _, _ => false
  | _, none, none => true
  | _, none, some _ => false
  | _, some _, none => false
  | depth + 1, some a, some b =>
    let sameObject (x : Ref) (y : Option Ref) : Bool :=
      equalTo s depth (s.get? x) (y.bind s.get?)
    let sameObjects (xs : List Ref) (ys : Option (List Ref)) : Bool :=
      match ys with
      | none => false
      | some ys => xs.length == ys.length &&
          (xs.zip ys).all fun (x, y) => equalTo s depth (s.get? x) (s.get? y)
    a.className == b.className &&
      Table.related (fun w v => v == some w) a.prims b.prims &&
      Table.related sameObject a.objects b.objects &&
      Table.related (fun ws v => v == some ws) a.arrays b.arrays &&
      Table.related (fun ws v => v == some ws) a.primLists b.primLists &&
      Table.related sameObjects a.objectArrays b.objectArrays &&
      Table.related sameObjects a.lists b.lists

end Instance

/-- Whether two references lead to equal objects; two missing ones are equal. No chain of objects is
longer than the store unless objects lie inside each other. -/
def Store.equal (s : Store) (a b : Option Ref) : Bool :=
  Instance.equalTo s (s.size + 1) (a.bind s.get?) (b.bind s.get?)

end PduCompiler
