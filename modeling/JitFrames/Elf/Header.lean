import JitFrames.Memory.Machine
import JitFrames.Memory.Reader

namespace JitFrames.Elf

/-- The number in `length` bytes of a file. -/
def number (m : Machine) (file : Bytes) (offset length : Nat) : Nat :=
  m.endian.number (file.extract offset (offset + length)).toList

/-- Whether `length` bytes from `offset` on are in a file. -/
def holds (file : Bytes) (offset length : Nat) : Bool := offset + length ≤ file.size

/-- Where the entries of a table begin, if the whole table is in the file. -/
def tableEntries? (m : Machine) (file : Bytes) (offset count entrySize : Nat) :
    Option (List Nat) :=
  if holds file offset (count * entrySize) && offset % m.pointerWidth.bytes == 0 then
    some ((List.range count).map fun i => offset + i * entrySize)
  else none

def fileHeaderSize (m : Machine) : Nat := 40 + 3 * m.pointerWidth.bytes

def segmentHeaderSize (m : Machine) : Nat :=
  match m.pointerWidth with
  | .four => 32
  | .eight => 56

def sectionHeaderSize (m : Machine) : Nat := 16 + 6 * m.pointerWidth.bytes

/-- The machine that the first bytes of a file announce. -/
def machine? (file : Bytes) : Option Machine := do
  match (file.extract 0 16).toList with
  | 0x7F :: 0x45 :: 0x4C :: 0x46 :: width :: order :: 1 :: _ =>
    let pointerWidth ← match width with
      | 1 => some PointerWidth.four
      | 2 => some .eight
      | _ => none
    let endian ← match order with
      | 1 => some Endian.little
      | 2 => some .big
      | _ => none
    some ⟨pointerWidth, endian⟩
  | _ => none

/-- A table as the file header describes it. -/
structure TableInfo where
  /-- Zero if there is no table. -/
  offset : Nat
  entrySize : Nat
  count : Nat
  deriving DecidableEq, Repr

structure Header where
  machine : Machine
  segments : TableInfo
  sections : TableInfo
  /-- The section that holds the names of the sections. -/
  nameSection : Nat
  deriving DecidableEq, Repr

def Header.parse? (file : Bytes) : Option Header := do
  let m ← machine? file
  if !holds file 0 (fileHeaderSize m) then
    none
  let word := m.pointerWidth.bytes
  let half (offset : Nat) : Nat := number m file (offset + 3 * word) 2
  some {
    machine := m
    segments := ⟨number m file (24 + word) word, half 30, half 32⟩
    sections := ⟨number m file (24 + 2 * word) word, half 34, half 36⟩
    nameSection := half 38 }

end JitFrames.Elf
