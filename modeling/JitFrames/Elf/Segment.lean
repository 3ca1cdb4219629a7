import JitFrames.Elf.Section
import JitFrames.Snapshot.Core

namespace JitFrames.Elf

/-- The kind of loadable segments. -/
def loadable : Nat := 1

/-- The segment whose header is at `start`, if it is loadable. -/
def segment? (m : Machine) (file : Bytes) (start : Nat) : Option CoreFile.Segment :=
  let word := m.pointerWidth.bytes
  let offset := number m file (start + word) word
  let size := number m file (start + 4 * word) word
  if number m file start 4 = loadable then
    some {
      address := UInt64.ofNat (number m file (start + 2 * word) word)
      bytes? := if holds file offset size then some (file.extract offset (offset + size)) else none }
  else none

namespace Header

def segmentCount? (h : Header) (file : Bytes) : Option Nat :=
  h.extended? file h.segments.count 0xFFFF Section.info

/-- Where the headers of the segments are; a file without a table has none. -/
def segmentHeaders? (h : Header) (file : Bytes) : Option (List Nat) := do
  if h.segments.offset = 0 then
    return []
  let count ← h.segmentCount? file
  if count = 0 then
    return []
  if h.segments.entrySize ≠ segmentHeaderSize h.machine then
    none
  tableEntries? h.machine file h.segments.offset count (segmentHeaderSize h.machine)

end Header

/-- The loadable segments of a file in the order of their headers; nothing if it is no ELF file
or not a consistent one. -/
def segments? : CoreFile.Reader := fun file => do
  let h ← Header.parse? file
  let headers ← h.segmentHeaders? file
  if sectionsFit h file (← h.sections? file) then
    some (headers.filterMap (segment? h.machine file))
  else none

end JitFrames.Elf
