import JitFrames.Layout.Basic
import JitFrames.Memory.Reader
import JitFrames.Text.Utf8

namespace JitFrames

/-- Memory and layout of the target. -/
structure Target where
  memory : Memory
  layout : Layout

namespace Target

/-- A C string that goes on for so many bytes is malformed. -/
def maxCString : Nat := 256

def pointerBytes (t : Target) : Nat := t.layout.machine.pointerWidth.bytes

/-- The address of the field at `offset` in the structure at `base`. -/
def fieldAddress (_ : Target) (base : Address) (offset : Nat) : Answer Address :=
  match base.add? offset with
  | some a => .ok a
  | none => .error (.malformed .fieldAddress base)

/-- The number in the `length` bytes at `a`. -/
def readNumber (t : Target) (a : Address) (length : Nat) : Answer Nat := do
  return t.layout.machine.endian.number (← t.memory.read a length).toList

def readU8 (t : Target) (a : Address) : Answer UInt8 := t.memory.readByte a

def readU16 (t : Target) (a : Address) : Answer UInt16 := do
  return UInt16.ofNat (← t.readNumber a 2)

def readU32 (t : Target) (a : Address) : Answer UInt32 := do
  return UInt32.ofNat (← t.readNumber a 4)

def readI32 (t : Target) (a : Address) : Answer Int32 := do
  return (UInt32.ofNat (← t.readNumber a 4)).toInt32

def readPointer (t : Target) (a : Address) : Answer Address := do
  return UInt64.ofNat (← t.readNumber a t.pointerBytes)

/-- The bytes from `a + passed` up to a zero byte, of which at most `room` are looked at. -/
def readToNul (t : Target) (a : Address) : (room passed : Nat) → Answer (List UInt8)
  | 0, _ => .error (.malformed .cString a)
  | room + 1, passed => do
    let b ← t.readU8 (← t.fieldAddress a passed)
    if b = 0 then return []
    return b :: (← readToNul t a room (passed + 1))

/-- The text up to the zero byte. -/
def readCString (t : Target) (a : Address) : Answer String := do
  return Utf8.decodeLossy (← t.readToNul a maxCString 0)

/-- The text of a symbol; its length is the upper half of a word that it shares with the
reference count. -/
def readSymbol (t : Target) (a : Address) : Answer String := do
  let word ← t.readU32 (← t.fieldAddress a t.layout.symbol.lengthAndRefcount.toNat)
  let body ← t.fieldAddress a t.layout.symbol.body.toNat
  return Utf8.decodeLossy (← t.memory.read body (word.toNat / UInt16.size)).toList

/-- Reads of a field, by the offset that the layout gives. -/
def pointerField (t : Target) (base : Address) (offset : UInt64) : Answer Address := do
  t.readPointer (← t.fieldAddress base offset.toNat)

def i32Field (t : Target) (base : Address) (offset : UInt64) : Answer Int32 := do
  t.readI32 (← t.fieldAddress base offset.toNat)

def u16Field (t : Target) (base : Address) (offset : UInt64) : Answer UInt16 := do
  t.readU16 (← t.fieldAddress base offset.toNat)

end Target

end JitFrames
