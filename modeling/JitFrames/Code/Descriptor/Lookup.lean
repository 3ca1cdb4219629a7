import JitFrames.Code.Descriptor.Bracket
import JitFrames.Code.Descriptor.Table

namespace JitFrames

/-- Which descriptors answer for an instruction: the one at the instruction itself, or the first one
at or after it, provided that another one stands before that. -/
inductive Precision where
  | exact
  | approximate
  deriving DecidableEq, Repr

/-- The descriptors used last: the latest one, and some older ones. -/
structure DescriptorCache where
  recent : Option Address
  slots : List (Option Address)
  deriving DecidableEq, Repr

namespace DescriptorCache

/-- The number of older ones. -/
def slotCount : Nat := 4

/-- Reads slot after slot; the offset of a slot is a sum of words. -/
def read (t : Target) (a : Address) : Answer DescriptorCache := do
  let recent ← t.pointerField a t.layout.descriptorCache.recent
  let slots ← (List.range slotCount).mapM fun i =>
    t.pointerField a (t.layout.descriptorCache.slots + UInt64.ofNat (i * t.pointerBytes))
  return ⟨recent.nonNull?, slots.map Address.nonNull?⟩

end DescriptorCache

namespace DescriptorTable

/-- Whether a descriptor answers for an instruction offset. The closing entry never does; an
approximate answer is an entry of the table, with one before it that lies below the offset. -/
def answers (d : DescriptorTable) (t : Target) (desc : Descriptor) (offset : Nat)
    (precision : Precision) : Answer Bool := do
  let index := d.indexOf? desc.address
  if index = some d.sentinel then
    return false
  match precision, index with
  | .exact, _ => return desc.pcOffset.toInt == offset
  | .approximate, none => return false
  | .approximate, some 0 => return false
  | .approximate, some (i + 1) =>
    let prev ← d.entry t i
    return prev.pcOffset.toInt < offset && offset ≤ desc.pcOffset.toInt

/-- Whether the entry at an index lies below an instruction offset. -/
def below (d : DescriptorTable) (t : Target) (offset : Nat) (index : Nat) : Answer Bool := do
  return (← d.entry t index).pcOffset.toInt < offset

/-- The bracket to start from: all entries, less those that the entry at `pivot` decides. -/
def startBracket (d : DescriptorTable) (t : Target) (offset : Nat) (pivot : Option Address) :
    Answer Bracket := do
  let all : Bracket := ⟨0, d.sentinel⟩
  match pivot.bind d.indexOf? with
  | none => return all
  | some p =>
    if p < d.sentinel then return all.probed p (← d.below t offset p)
    return all

/-- Searches the table. -/
def search (d : DescriptorTable) (t : Target) (offset : Nat) (precision : Precision)
    (pivot : Option Address) : Answer (Option Descriptor) := do
  if d.isEmpty then
    return none
  let bracket ← (← d.startBracket t offset pivot).close (d.below t offset)
  if bracket.ceiling = d.sentinel then
    return none
  let desc ← d.entry t bracket.ceiling
  return if ← d.answers t desc offset precision then some desc else none

/-- Tries older descriptors up to an empty slot or one with a negative instruction offset. -/
def findInSlots (d : DescriptorTable) (t : Target) (offset : Nat) (precision : Precision) :
    List (Option Address) → Answer (Option Descriptor)
  | [] => .ok none
  | none :: _ => .ok none
  | some a :: slots => do
    let desc ← Descriptor.read t a
    if desc.pcOffset < 0 then
      return none
    if ← d.answers t desc offset precision then
      return some desc
    findInSlots d t offset precision slots

/-- Tries the descriptors used last. Without a latest one the cache is empty. -/
def findCached (d : DescriptorTable) (t : Target) (cache : DescriptorCache) (offset : Nat)
    (precision : Precision) : Answer (Option Descriptor) := do
  match cache.recent with
  | none => return none
  | some a =>
    let desc ← Descriptor.read t a
    if ← d.answers t desc offset precision then
      return some desc
    d.findInSlots t offset precision cache.slots

end DescriptorTable

namespace CompiledMethod

/-- Instruction offsets from here on belong to no method. -/
def offsetLimit : Nat := 0x7FFFFFFF

/-- The offset of an instruction from the first one of the method. -/
def instructionOffset? (m : CompiledMethod) (pc : Address) : Option Nat :=
  (pc.distance? m.blob.instructionsBegin).filter (· < offsetLimit)

def cache (m : CompiledMethod) (t : Target) : Answer DescriptorCache :=
  DescriptorCache.read t m.descriptorCache

/-- The descriptor that answers for the instruction at `pc`. The table is searched from the one used
last on, after those in the cache have been tried. -/
def findDescriptor (m : CompiledMethod) (t : Target) (pc : Address) (precision : Precision) :
    Answer (Option Descriptor) := do
  match m.instructionOffset? pc with
  | none => return none
  | some offset =>
    let table ← m.descriptorTable t
    let cache ← m.cache t
    match ← table.findCached t cache offset precision with
    | some desc => return some desc
    | none => table.search t offset precision cache.recent

/-- The descriptor at `pc` itself, or else the approximate one. -/
def descriptorAt (m : CompiledMethod) (t : Target) (pc : Address) :
    Answer (Option Descriptor) := do
  match ← m.findDescriptor t pc .exact with
  | some desc => return some desc
  | none => m.findDescriptor t pc .approximate

end CompiledMethod

end JitFrames
