import PduCompiler.Machine.Construct

/-!
Decoding into an object. What was read before an error stays in the object, and a value that could
not be read is left as 0. Lists are read anew, all other storage is filled in place.
-/

namespace PduCompiler

structure Decoding where
  store : Store
  rest : List UInt8
  offset : Nat := 0

abbrev Decode := EStateM MachineError Decoding

namespace Decode

def instance? (ref : Ref) : Decode (Option Instance) := do return (← get).store.get? ref

def modifyInstance (ref : Ref) (change : Instance → Instance) : Decode Unit :=
  modify fun d => { d with store := d.store.modify ref change }

def scalar (t : TypeName) : Decode Word := fun d =>
  match t.scalar? with
  | none => .error .outOfBounds d
  | some s =>
    let bytes := d.rest.take s.width
    if bytes.length < s.width then
      .error (.shortBuffer s.width d.offset d.rest.length) d
    else
      .ok (BitVec.ofNat 64 (ofBigEndian bytes))
        { d with rest := d.rest.drop s.width, offset := d.offset + s.width }

/-- Runs a step for its result and its error, either of which leaves the state it came to. -/
def outcome {α : Type} (x : Decode α) : Decode (Except MachineError α) := fun d =>
  match x d with
  | .ok a d => .ok (.ok a) d
  | .error e d => .ok (.error e) d

def failWith : Option MachineError → Decode Unit
  | none => pure ()
  | some e => throw e

/-- Reads up to `n` scalars. One that cannot be read ends the list as a 0. -/
def scalars (t : TypeName) : Nat → Decode (List Word × Option MachineError)
  | 0 => return ([], none)
  | n + 1 => do
    match ← outcome (scalar t) with
    | .error e => return ([0], some e)
    | .ok w =>
      let (rest, error) ← scalars t n
      return (w :: rest, error)

/-- Makes and decodes up to `n` elements. One that cannot be decoded ends the list, as far as it
came; one that cannot be made is not part of it. -/
def elements (make : Decode Ref) (fill : Ref → Decode Unit) :
    Nat → Decode (List Ref × Option MachineError)
  | 0 => return ([], none)
  | n + 1 => do
    match ← outcome make with
    | .error e => return ([], some e)
    | .ok ref =>
      match ← outcome (fill ref) with
      | .error e => return ([ref], some e)
      | .ok () =>
        let (rest, error) ← elements make fill n
        return (ref :: rest, error)

def count (i : Instance) (field : String) : Decode Nat :=
  let n := (i.uint field).toNat
  if maxListCount < n then throw (.countTooLarge field n) else pure n

end Decode

namespace Program

open Decode

def make (p : Program) (className : String) : Decode Ref := fun d =>
  match p.build d.store.size className with
  | .error e => .error e d
  | .ok (objects, ref) => .ok ref { d with store := d.store.append objects }

/-- Carries one unmarshal action out on the object at a reference. `below` decodes into an object by
the plan of a class. -/
def decodeAction (p : Program) (below : Ref → String → Decode Unit) (ref : Ref) (i : Instance)
    (act : Action) : Decode Unit :=
  let object (ref : Option Ref) : Decode Unit := do
    let some ref := ref | throw .noObject
    let some obj ← instance? ref | throw .noObject
    below ref obj.className
  match act.op with
  | .super => below ref act.className
  | .read => do
    match ← outcome (scalar act.type) with
    | .ok w => modifyInstance ref (·.setPrim act.attr w)
    | .error e =>
      modifyInstance ref (·.setPrim act.attr 0)
      throw e
  | .unmarshal => object (i.object? act.attr)
  | .readArray => do
    let (words, error) ← scalars act.type act.length.toNat
    let old := i.array act.attr
    if old.length < words.length then throw .outOfBounds
    if act.length.toNat ≠ 0 then
      modifyInstance ref fun i =>
        { i with arrays := i.arrays.set act.attr (words ++ old.drop words.length) }
    failWith error
  | .unmarshalArray => (i.objectArray act.attr).forM fun ref => object (some ref)
  | .readList => do
    let n ← count i act.count
    let (words, error) ← scalars act.type n
    modifyInstance ref fun i => { i with primLists := i.primLists.set act.attr words }
    failWith error
  | .unmarshalList => do
    let n ← count i act.count
    let (refs, error) ← elements (p.make act.className) (below · act.className) n
    modifyInstance ref fun i => { i with lists := i.lists.set act.attr refs }
    failWith error
  | op => throw (.unexpected .unmarshal op)

def decodeInto (p : Program) : (depth : Nat) → Ref → String → Decode Unit
  | 0, _, _ => throw .endless
  | depth + 1, ref, className => do
    let some plan := p.plan? className | throw (.unknownClass className)
    plan.unmarshal.forM fun act => do
      let some i ← instance? ref | throw .noObject
      match ← outcome (p.decodeAction (p.decodeInto depth) ref i act) with
      | .ok () => pure ()
      | .error e => throw (.within className act.attr e)

/-- How deep plans can nest while decoding: a chain of objects that are there, then a chain of new
elements. Between an element and one inside it a byte of a count is read and at most every class is
passed once; for each object there is a chain of parents. -/
def decodeDepth (p : Program) (s : Store) (bytes : List UInt8) : Nat :=
  let n := p.plans.length + 1
  (s.size + (bytes.length + 1) * n + 1) * n

/-- Decodes bytes into an object. Gives the store afterwards, how many bytes were read, and the
error if there was one. -/
def unmarshal (p : Program) (s : Store) (ref : Ref) (bytes : List UInt8) :
    Store × Nat × Option MachineError :=
  match s.get? ref with
  | none => (s, 0, some .noObject)
  | some i =>
    match p.decodeInto (p.decodeDepth s bytes) ref i.className { store := s, rest := bytes } with
    | .ok () d => (d.store, d.offset, none)
    | .error e d => (d.store, d.offset, some e)

def decode (p : Program) (s : Store) (className : String) (bytes : List UInt8) :
    Except MachineError (Store × Ref) := do
  let (s, ref) ← p.new s className
  match p.unmarshal s ref bytes with
  | (s, _, none) => .ok (s, ref)
  | (_, _, some e) => .error e

end Program

end PduCompiler
