import JitFrames.Memory.Reader

namespace JitFrames

/-- A captured run of bytes. -/
structure Region where
  base : Address
  bytes : Bytes
  deriving DecidableEq, Repr

namespace Region

/-- One past the last byte. -/
def stop (r : Region) : Nat := r.base.toNat + r.bytes.size

def contains (r : Region) (a : Address) : Bool := r.base ≤ a && a.toNat < r.stop

def range (r : Region) : AddressRange := ⟨r.base, UInt64.ofNat r.stop⟩

/-- The bytes at `a`, if the region holds all of them. -/
def bytes? (r : Region) (a : Address) (length : Nat) : Option Bytes :=
  if r.contains a && a.toNat + length ≤ r.stop then
    let start := a.toNat - r.base.toNat
    some (r.bytes.extract start (start + length))
  else none

end Region

/-- Captured regions in ascending order. -/
structure Image where
  regions : List Region
  deriving DecidableEq, Repr

namespace Image

def empty : Image := ⟨[]⟩

/-- The regions that begin before `a`. -/
def before (image : Image) (a : Address) : List Region :=
  image.regions.takeWhile (·.base < a)

/-- The regions that begin at or after `a`. -/
def after (image : Image) (a : Address) : List Region :=
  image.regions.dropWhile (·.base < a)

/-- Whether a region fits between its two neighbours and ends inside the address space. -/
def admits (image : Image) (r : Region) : Bool :=
  decide (r.stop < UInt64.size)
    && (image.before r.base).getLast?.all (fun prev => prev.stop ≤ r.base.toNat)
    && (image.after r.base).head?.all (fun next => r.stop ≤ next.base.toNat)

/-- The image with one more region, or nothing if the region overlaps or does not fit. A region
without bytes changes nothing. -/
def add? (image : Image) (r : Region) : Option Image :=
  if r.bytes.isEmpty then some image
  else if image.admits r then some ⟨image.before r.base ++ r :: image.after r.base⟩
  else none

/-- The region that holds the byte at `a`: the last one that begins at or before it, if that
one reaches so far. -/
def regionAt? (image : Image) (a : Address) : Option Region :=
  (image.regions.takeWhile (·.base ≤ a)).getLast?.filter (·.contains a)

/-- The image as a memory; a read stays inside one region. -/
def memory (image : Image) : Memory where
  bytes? a length := do (← image.regionAt? a).bytes? a length

def ranges (image : Image) : List AddressRange := image.regions.map Region.range

def regionCount (image : Image) : Nat := image.regions.length

/-- How many bytes were captured. -/
def totalBytes (image : Image) : Nat := image.regions.foldl (fun n r => n + r.bytes.size) 0

end Image

end JitFrames
