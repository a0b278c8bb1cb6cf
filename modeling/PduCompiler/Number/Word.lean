/-!
The two kinds of machine number here. A `Word` holds the raw bits of a field. Sizes and offsets are
signed and wrap around at 64 bits; `wrap` gives the value that such a number has after arithmetic.
-/

namespace PduCompiler

abbrev Word := BitVec 64

def wrap (n : Int) : Int := n.bmod (Nat.pow 2 64)

namespace Word

def truncate (bits : Nat) (w : Word) : Word := BitVec.ofNat 64 (w.toNat % Nat.pow 2 bits)

def toSigned (bits : Nat) (w : Word) : Int := (w.toNat : Int).bmod (Nat.pow 2 bits)

end Word

def bigEndian : Nat → Nat → List UInt8
  | 0, _ => []
  | width + 1, n => bigEndian width (n / 256) ++ [UInt8.ofNat n]

def ofBigEndian (bytes : List UInt8) : Nat := bytes.foldl (fun n b => n * 256 + b.toNat) 0

@[simp] theorem length_bigEndian (width n : Nat) : (bigEndian width n).length = width := by
  induction width generalizing n with
  | zero => rfl
  | succ width ih => simp [bigEndian, ih]

theorem ofBigEndian_append (a : List UInt8) (b : UInt8) :
    ofBigEndian (a ++ [b]) = ofBigEndian a * 256 + b.toNat := by
  simp [ofBigEndian]

theorem ofBigEndian_bigEndian (width n : Nat) :
    ofBigEndian (bigEndian width n) = n % Nat.pow 256 width := by
  induction width generalizing n with
  | zero => simp [bigEndian, ofBigEndian, Nat.mod_one]
  | succ width ih =>
    have h : n % (256 * Nat.pow 256 width) = n % 256 + 256 * (n / 256 % Nat.pow 256 width) :=
      Nat.mod_mul
    have hp : Nat.pow 256 (width + 1) = 256 * Nat.pow 256 width := Nat.mul_comm _ _
    rw [bigEndian, ofBigEndian_append, ih, hp, h,
      UInt8.toNat_ofNat']
    omega

end PduCompiler
