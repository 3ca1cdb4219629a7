namespace JitFrames

inductive Endian where
  | little
  | big
  deriving DecidableEq, Repr

/-- The number that bytes write, the least significant first. -/
def littleEndian : List UInt8 → Nat
  | [] => 0
  | b :: bs => b.toNat + 256 * littleEndian bs

/-- The number that bytes write in a byte order. -/
def Endian.number (e : Endian) (bytes : List UInt8) : Nat :=
  match e with
  | .little => littleEndian bytes
  | .big => littleEndian bytes.reverse

/-- The pointer widths that a machine may have. -/
inductive PointerWidth where
  | four
  | eight
  deriving DecidableEq, Repr

def PointerWidth.bytes : PointerWidth → Nat
  | .four => 4
  | .eight => 8

/-- Pointer width and byte order. -/
structure Machine where
  pointerWidth : PointerWidth
  endian : Endian
  deriving DecidableEq, Repr

end JitFrames
