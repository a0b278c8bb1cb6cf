import PduCompiler.Schema.Class

/-!
The steps of a planned method. An action carries every field a step may need; which of them count
depends on its operation.
-/

namespace PduCompiler

inductive Op where
  | super
  | write
  | writeLength
  | marshal
  | writeArray
  | marshalArray
  | writeList
  | marshalList
  | read
  | unmarshal
  | readArray
  | unmarshalArray
  | readList
  | unmarshalList
  | sizeConst
  | sizeObject
  | sizeArray
  | sizeList
  | sizeListObjects
  | initValue
  | initObject
  | initArray
  | initObjectArray
  | initList
  | assign
  | unknown (number : Int)
  deriving DecidableEq, Repr

namespace Op

def all : List Op :=
  [super, write, writeLength, marshal, writeArray, marshalArray, writeList, marshalList, read,
    unmarshal, readArray, unmarshalArray, readList, unmarshalList, sizeConst, sizeObject, sizeArray,
    sizeList, sizeListObjects, initValue, initObject, initArray, initObjectArray, initList, assign]

def name : Op → String
  | super => "super"
  | write => "write"
  | writeLength => "write-length"
  | marshal => "marshal"
  | writeArray => "write-array"
  | marshalArray => "marshal-array"
  | writeList => "write-list"
  | marshalList => "marshal-list"
  | read => "read"
  | unmarshal => "unmarshal"
  | readArray => "read-array"
  | unmarshalArray => "unmarshal-array"
  | readList => "read-list"
  | unmarshalList => "unmarshal-list"
  | sizeConst => "size-const"
  | sizeObject => "size-object"
  | sizeArray => "size-array"
  | sizeList => "size-list"
  | sizeListObjects => "size-list-objects"
  | initValue => "init-value"
  | initObject => "init-object"
  | initArray => "init-array"
  | initObjectArray => "init-object-array"
  | initList => "init-list"
  | assign => "assign"
  | unknown n => s!"op({n})"

def ofName? (s : String) : Option Op := all.find? (·.name == s)

def ofNumber (n : Int) : Op :=
  if n < 0 then unknown n else (all[n.toNat]?).getD (unknown n)

end Op

structure Action where
  op : Op
  attr : String := ""
  type : TypeName := ""
  className : String := ""
  length : Int := 0
  list : String := ""
  count : String := ""
  bytes : Int := 0
  value : String := ""
  owner : String := ""
  deriving DecidableEq, Repr

end PduCompiler
