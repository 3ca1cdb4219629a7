import JitFrames.Memory.Target

namespace JitFrames

/-- The name of compiled methods. -/
def compiledMethodName : String := "nmethod"

/-- What a blob holds. -/
inductive BlobKind where
  | compiledMethod
  /-- Stubs, adapters and buffers, by name. -/
  | other (name : String)
  deriving DecidableEq, Repr

/-- The header of a blob that ends inside the address space. -/
structure CodeBlob where
  address : Address
  size : Nat
  instructionsOffset : Nat
  name : String
  fits : address.toNat + size < UInt64.size

namespace CodeBlob

/-- A number that is not negative. -/
def natural? (n : Int32) : Option Nat := if 0 ≤ n.toInt then some n.toInt.toNat else none

/-- Reads a field that must not be negative. -/
def naturalField (t : Target) (base : Address) (offset : UInt64) (what : Defect) :
    Answer Nat := do
  match natural? (← t.i32Field base offset) with
  | some n => return n
  | none => throw (.malformed what base)

/-- The text at a pointer; null stands for the empty one. -/
def nameAt (t : Target) (pointer : Address) : Answer String :=
  match pointer.nonNull? with
  | some a => t.readCString a
  | none => .ok ""

def read (t : Target) (a : Address) : Answer CodeBlob := do
  let size ← naturalField t a t.layout.blob.size .blobSize
  let instructionsOffset ← naturalField t a t.layout.blob.instructionsOffset .instructionsOffset
  if fits : a.toNat + size < UInt64.size then
    let name ← nameAt t (← t.pointerField a t.layout.blob.name)
    return ⟨a, size, instructionsOffset, name, fits⟩
  else
    throw (.malformed .blobSize a)

/-- One past the last byte. -/
def stop (b : CodeBlob) : Address := UInt64.ofNat (b.address.toNat + b.size)

/-- Where the machine code begins, at most the last address there is. -/
def instructionsBegin (b : CodeBlob) : Address :=
  UInt64.ofNat (min (b.address.toNat + b.instructionsOffset) (UInt64.size - 1))

def range (b : CodeBlob) : AddressRange := ⟨b.address, b.stop⟩

def contains (b : CodeBlob) (a : Address) : Bool := b.range.contains a

def isCompiledMethod (b : CodeBlob) : Bool := b.name == compiledMethodName

def kind (b : CodeBlob) : BlobKind :=
  if b.isCompiledMethod then .compiledMethod else .other b.name

end CodeBlob

end JitFrames
