import PduCompiler.Number.Word

/-!
Sample classes as code of their own: fields of fixed width, a list behind its count, and a class on
top of another. An object is read in place: where the input ends too early it keeps what was read up
to there.
-/

namespace PduCompiler.Sample

structure ShortInput where
  className : String
  attr : String
  deriving DecidableEq, Repr

def ShortInput.message (e : ShortInput) : String := s!"{e.className}.{e.attr}: unexpected EOF"

/-- What reading comes to: the object as it is then, and what follows it in the input. -/
structure Reading (α : Type) where
  object : α
  rest : Except ShortInput (List UInt8)

def number? (width : Nat) (bytes : List UInt8) : Option (Nat × List UInt8) :=
  if bytes.length < width then none
  else some (ofBigEndian (bytes.take width), bytes.drop width)

/-- A grid position. -/
structure Point where
  x : Int16 := 0
  y : Int16 := 0
  deriving DecidableEq, Repr

namespace Point

def encode (p : Point) : List UInt8 :=
  bigEndian 2 p.x.toUInt16.toNat ++ bigEndian 2 p.y.toUInt16.toNat

def appendTo (buf : List UInt8) (p : Point) : List UInt8 :=
  (buf ++ bigEndian 2 p.x.toUInt16.toNat) ++ bigEndian 2 p.y.toUInt16.toNat

def size (_ : Point) : Nat := 2 + 2

def coordinate (n : Nat) : Int16 := (UInt16.ofNat n).toInt16

def read (p : Point) (bytes : List UInt8) : Reading Point :=
  match number? 2 bytes with
  | none => ⟨p, .error ⟨"Point", "x"⟩⟩
  | some (x, bytes) =>
    let p := { p with x := coordinate x }
    match number? 2 bytes with
    | none => ⟨p, .error ⟨"Point", "y"⟩⟩
    | some (y, rest) => ⟨{ p with y := coordinate y }, .ok rest⟩

@[simp] theorem length_encode (p : Point) : p.encode.length = p.size := by
  simp [encode, size]

theorem appendTo_eq (buf : List UInt8) (p : Point) : p.appendTo buf = buf ++ p.encode := by
  simp [appendTo, encode]

end Point

/-- One keyed entry. -/
structure Record where
  key : UInt32 := 0
  /-- Bit 0 tells whether the entry is active, bits 1 to 3 hold its priority. -/
  flags : UInt8 := 0
  deriving DecidableEq, Repr

namespace Record

def encode (r : Record) : List UInt8 := bigEndian 4 r.key.toNat ++ [r.flags]

def appendTo (buf : List UInt8) (r : Record) : List UInt8 :=
  (buf ++ bigEndian 4 r.key.toNat) ++ [r.flags]

def size (_ : Record) : Nat := 4 + 1

def read (r : Record) (bytes : List UInt8) : Reading Record :=
  match number? 4 bytes with
  | none => ⟨r, .error ⟨"Record", "key"⟩⟩
  | some (key, bytes) =>
    let r := { r with key := UInt32.ofNat key }
    match bytes with
    | [] => ⟨r, .error ⟨"Record", "flags"⟩⟩
    | flags :: rest => ⟨{ r with flags }, .ok rest⟩

@[simp] theorem length_encode (r : Record) : r.encode.length = r.size := by
  simp [encode, size]

theorem appendTo_eq (buf : List UInt8) (r : Record) : r.appendTo buf = buf ++ r.encode := by
  simp [appendTo, encode]

def active (r : Record) : UInt8 := r.flags &&& 0x1

/-- Stores the bits of a value as they are, also those that do not fit. -/
def setActive (r : Record) (v : UInt8) : Record :=
  { r with flags := (r.flags &&& ~~~(0x1 : UInt8)) ||| v }

def priority (r : Record) : UInt8 := (r.flags &&& 0xe) >>> 1

def setPriority (r : Record) (v : UInt8) : Record :=
  { r with flags := (r.flags &&& ~~~(0xe : UInt8)) ||| (v <<< 1) }

end Record

/-- A versioned batch of records. -/
structure Message where
  version : UInt8 := 2
  /-- The number that was read last; what is written is the length of the list. -/
  numRecords : UInt16 := 0
  records : List Record := []
  deriving DecidableEq, Repr

namespace Message

def encode (m : Message) : List UInt8 :=
  m.version :: bigEndian 2 m.records.length ++ m.records.flatMap Record.encode

def appendTo (buf : List UInt8) (m : Message) : List UInt8 :=
  m.records.foldl Record.appendTo ((buf ++ [m.version]) ++ bigEndian 2 m.records.length)

def size (m : Message) : Nat := 1 + 2 + m.records.foldr (fun r n => r.size + n) 0

def readRecords (m : Message) : (count : Nat) → List UInt8 → Reading Message
  | 0, bytes => ⟨m, .ok bytes⟩
  | count + 1, bytes =>
    match Record.read {} bytes with
    | ⟨_, .error e⟩ => ⟨m, .error e⟩
    | ⟨r, .ok rest⟩ => readRecords { m with records := m.records ++ [r] } count rest

/-- Reads a message. Its records are cleared once their number is known. -/
def read (m : Message) (bytes : List UInt8) : Reading Message :=
  match bytes with
  | [] => ⟨m, .error ⟨"Message", "version"⟩⟩
  | version :: bytes =>
    let m := { m with version }
    match number? 2 bytes with
    | none => ⟨m, .error ⟨"Message", "numRecords"⟩⟩
    | some (count, rest) =>
      readRecords { m with numRecords := UInt16.ofNat count, records := [] } count rest

@[simp] theorem length_encode (m : Message) : m.encode.length = m.size := by
  have h (rs : List Record) :
      (rs.flatMap Record.encode).length = rs.foldr (fun r n => r.size + n) 0 := by
    induction rs with
    | nil => rfl
    | cons r rs ih => simp [ih]
  simp [encode, size, h]
  omega

theorem appendTo_eq (buf : List UInt8) (m : Message) : m.appendTo buf = buf ++ m.encode := by
  have h (rs : List Record) (buf : List UInt8) :
      rs.foldl Record.appendTo buf = buf ++ rs.flatMap Record.encode := by
    induction rs generalizing buf with
    | nil => simp
    | cons r rs ih => simp [ih, Record.appendTo_eq]
  simp [appendTo, encode, h]

end Message

/-- A batch of records along a fixed path. -/
structure Route where
  message : Message := { version := 3 }
  corners : Point × Point := ({}, {})
  deriving DecidableEq, Repr

namespace Route

def encode (r : Route) : List UInt8 :=
  r.message.encode ++ r.corners.1.encode ++ r.corners.2.encode

def appendTo (buf : List UInt8) (r : Route) : List UInt8 :=
  Point.appendTo (Point.appendTo (r.message.appendTo buf) r.corners.1) r.corners.2

def size (r : Route) : Nat := r.message.size + r.corners.1.size + r.corners.2.size

def read (r : Route) (bytes : List UInt8) : Reading Route :=
  match r.message.read bytes with
  | ⟨message, .error e⟩ => ⟨{ r with message }, .error e⟩
  | ⟨message, .ok bytes⟩ =>
    match r.corners.1.read bytes with
    | ⟨first, .error e⟩ => ⟨⟨message, first, r.corners.2⟩, .error e⟩
    | ⟨first, .ok bytes⟩ =>
      match r.corners.2.read bytes with
      | ⟨second, rest⟩ => ⟨⟨message, first, second⟩, rest⟩

@[simp] theorem length_encode (r : Route) : r.encode.length = r.size := by
  simp [encode, size]
  omega

theorem appendTo_eq (buf : List UInt8) (r : Route) : r.appendTo buf = buf ++ r.encode := by
  simp [appendTo, encode, Message.appendTo_eq, Point.appendTo_eq]

end Route

end PduCompiler.Sample
