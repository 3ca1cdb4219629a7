import JitFrames.Code.Blob

namespace JitFrames

/-- A blob of machine code for a method, and where its metadata lies. -/
structure CompiledMethod where
  blob : CodeBlob
  /-- The method that was compiled. -/
  method : Address
  descriptorsBegin : Address
  descriptorsEnd : Address
  scopesData : Address
  /-- The first entry of the reference table. -/
  oops : Address
  descriptorCache : Address

namespace CompiledMethod

/-- Reads an offset in the header as the address that it means. -/
def sectionAt (t : Target) (base : Address) (offset : UInt64) (what : Defect) :
    Answer Address := do
  match (CodeBlob.natural? (← t.i32Field base offset)).bind base.add? with
  | some a => return a
  | none => throw (.malformed what base)

def read (t : Target) (blob : CodeBlob) : Answer CompiledMethod := do
  let base := blob.address
  unless blob.isCompiledMethod do
    throw (.notCompiledMethod base)
  let layout := t.layout.compiled
  let descriptorsBegin ← sectionAt t base layout.scopesPcsOffset .scopesPcsOffset
  let descriptorsEnd ← sectionAt t base layout.dependenciesOffset .dependenciesOffset
  let scopesData ← sectionAt t base layout.scopesDataOffset .scopesDataOffset
  let oops ← sectionAt t base layout.oopsOffset .oopsOffset
  let method ← t.pointerField base layout.method
  let descriptorCache ← t.fieldAddress base layout.descriptorCache.toNat
  return { blob, method, descriptorsBegin, descriptorsEnd, scopesData, oops, descriptorCache }

/-- The reference that a one-based index names; index zero and a null entry name none. -/
def oopAt (m : CompiledMethod) (t : Target) (index : UInt32) : Answer (Option Address) := do
  if index = 0 then
    return none
  match m.oops.add? ((index.toNat - 1) * t.pointerBytes) with
  | some slot => return (← t.readPointer slot).nonNull?
  | none => throw (.malformed .referenceIndex m.oops)

end CompiledMethod

/-- The compiled method that a blob is, if it is one. -/
def CodeBlob.compiledMethod? (b : CodeBlob) (t : Target) : Answer (Option CompiledMethod) := do
  if b.isCompiledMethod then
    return some (← CompiledMethod.read t b)
  return none

end JitFrames
