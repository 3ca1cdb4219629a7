import JitFrames.Code.Blob

namespace JitFrames

/-- The header of a block of the heap. -/
structure HeapBlock where
  address : Address
  used : Bool
  deriving DecidableEq, Repr

namespace HeapBlock

def read (t : Target) (a : Address) : Answer HeapBlock := do
  let used ← t.readU8 (← t.fieldAddress a t.layout.heapBlock.used.toNat)
  return ⟨a, used != 0⟩

/-- Where the contents of the block begin. -/
def allocatedSpace (b : HeapBlock) (t : Target) : Answer Address :=
  t.fieldAddress b.address t.layout.heapBlock.size.toNat

end HeapBlock

/-- Memory cut into segments of one size, with a map of one byte for each: 0 at the first segment of
a block, otherwise a distance back towards it. -/
structure CodeHeap where
  address : Address
  memory : AddressRange
  segmentMap : AddressRange
  log2SegmentSize : Nat
  deriving DecidableEq, Repr

namespace CodeHeap

/-- The map byte of a segment that belongs to no block. -/
def freeMark : UInt8 := 0xFF

/-- Reads the bounds of a virtual space that lies inside a structure. -/
def readSpace (t : Target) (base : Address) (offset : UInt64) : Answer AddressRange := do
  let space ← t.fieldAddress base offset.toNat
  let low ← t.pointerField space t.layout.virtualSpace.low
  let high ← t.pointerField space t.layout.virtualSpace.high
  if high < low then
    throw (.malformed .virtualSpace space)
  return ⟨low, high⟩

def read (t : Target) (a : Address) : Answer CodeHeap := do
  let memory ← readSpace t a t.layout.codeHeap.memory
  let segmentMap ← readSpace t a t.layout.codeHeap.segmentMap
  match CodeBlob.natural? (← t.i32Field a t.layout.codeHeap.log2SegmentSize) with
  | some log2 =>
    if log2 < 64 then return ⟨a, memory, segmentMap, log2⟩
    throw (.malformed .segmentSize a)
  | none => throw (.malformed .segmentSize a)

def contains (h : CodeHeap) (p : Address) : Bool := h.memory.contains p

/-- The segment of an address inside the heap. -/
def segmentOf? (h : CodeHeap) (p : Address) : Option Nat :=
  if h.contains p then some ((p.toNat - h.memory.start.toNat) >>> h.log2SegmentSize) else none

/-- The map byte of a segment. -/
def mapByte (h : CodeHeap) (t : Target) (segment : Nat) : Answer UInt8 :=
  if h.segmentMap.size ≤ segment then
    .error (.malformed .segmentMapIndex h.segmentMap.start)
  else t.readU8 (h.segmentMap.start + UInt64.ofNat segment)

/-- The block that begins at a segment. Of the segment's offset the lowest 64 bits count. -/
def blockAt (h : CodeHeap) (t : Target) (segment : Nat) : Answer HeapBlock :=
  match h.memory.start.add? ((segment <<< h.log2SegmentSize) % UInt64.size) with
  | some a => HeapBlock.read t a
  | none => .error (.malformed .segmentIndex h.address)

/-- Follows the distances back to the first segment of a block, given the byte of the segment
that the walk has come to. -/
def firstSegment (h : CodeHeap) (t : Target) (segment : Nat) (distance : UInt8) : Answer Nat :=
  if _h0 : distance = 0 then .ok segment
  else if _h : segment < distance.toNat then
    .error (.malformed .segmentMapChain h.segmentMap.start)
  else
    match h.mapByte t (segment - distance.toNat) with
    | .ok next => firstSegment h t (segment - distance.toNat) next
    | .error e => .error e
termination_by segment
decreasing_by
  have : distance.toNat ≠ 0 := fun h0 => _h0 (UInt8.toNat_inj.mp (by simpa using h0))
  omega

/-- Where the contents of the used block around `p` begin. There is none outside the heap, in a
segment of no block and in a free block. -/
def findStart (h : CodeHeap) (t : Target) (p : Address) : Answer (Option Address) := do
  match h.segmentOf? p with
  | none => return none
  | some segment =>
    let distance ← h.mapByte t segment
    if distance = freeMark then
      return none
    let block ← h.blockAt t (← h.firstSegment t segment distance)
    if !block.used then
      return none
    return some (← block.allocatedSpace t)

/-- The blob around `p`, from its header to its end. -/
def findBlob (h : CodeHeap) (t : Target) (p : Address) : Answer (Option CodeBlob) := do
  match ← h.findStart t p with
  | none => return none
  | some start =>
    let blob ← CodeBlob.read t start
    return if blob.contains p then some blob else none

end CodeHeap

end JitFrames
