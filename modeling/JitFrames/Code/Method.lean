import JitFrames.Codec.LineTable
import JitFrames.Memory.Target

namespace JitFrames

/-- The immutable part of a method. -/
structure ConstMethod where
  address : Address
  /-- The constant pool. -/
  constants : Address
  codeSize : UInt16
  flags : UInt16
  nameIndex : UInt16
  signatureIndex : UInt16
  deriving DecidableEq, Repr

namespace ConstMethod

/-- Stands for the holder of a method that has no named one. -/
def anonymousHolder : String := "special klass"

def read (t : Target) (a : Address) : Answer ConstMethod := do
  let layout := t.layout.constMethod
  let constants ← t.pointerField a layout.constants
  let codeSize ← t.u16Field a layout.codeSize
  let flags ← t.u16Field a layout.flags
  let nameIndex ← t.u16Field a layout.nameIndex
  let signatureIndex ← t.u16Field a layout.signatureIndex
  return ⟨a, constants, codeSize, flags, nameIndex, signatureIndex⟩

/-- The lowest flag says that there is a line table. -/
def hasLineTable (c : ConstMethod) : Bool := c.flags.toNat % 2 == 1

/-- Where the line table begins, behind the bytecodes. The offset is a sum of words. -/
def lineTable (c : ConstMethod) (t : Target) : Answer (Option Address) := do
  if c.hasLineTable then
    let offset := t.layout.constMethod.size + c.codeSize.toUInt64
    return some (← t.fieldAddress c.address offset.toNat)
  return none

/-- The symbol in a slot of the constant pool. The slot's offset is a sum of words. -/
def symbolAt (c : ConstMethod) (t : Target) (index : UInt16) : Answer String := do
  let offset := t.layout.constantPool.size + index.toUInt64 * UInt64.ofNat t.pointerBytes
  match (← t.pointerField c.constants offset).nonNull? with
  | some symbol => t.readSymbol symbol
  | none => throw (.malformed .poolSymbol c.constants)

/-- The name of the class that declares the method. -/
def holderName (c : ConstMethod) (t : Target) : Answer (Option String) := do
  match (← t.pointerField c.constants t.layout.constantPool.holder).nonNull? with
  | none => return none
  | some klass =>
    match (← t.pointerField klass t.layout.klassName).nonNull? with
    | none => return none
    | some name => return some (← t.readSymbol name)

end ConstMethod

/-- A method that compiled code refers to. -/
structure Method where
  address : Address
  constMethod : ConstMethod
  deriving DecidableEq, Repr

namespace Method

def read (t : Target) (a : Address) : Answer Method := do
  let constMethod ← t.pointerField a t.layout.methodConst
  return ⟨a, ← ConstMethod.read t constMethod⟩

/-- The source line of a bytecode index. -/
def lineAt (m : Method) (t : Target) (bci : Bci) : Answer SourceLine := do
  LineTable.lineAt t.memory (← m.constMethod.lineTable t) bci

def name (m : Method) (t : Target) : Answer String :=
  m.constMethod.symbolAt t m.constMethod.nameIndex

def signature (m : Method) (t : Target) : Answer String :=
  m.constMethod.symbolAt t m.constMethod.signatureIndex

/-- Holder, name and signature, as in `java/lang/String.hashCode()I`. -/
def qualifiedName (m : Method) (t : Target) : Answer String := do
  let holder ← m.constMethod.holderName t
  let name ← m.name t
  let signature ← m.signature t
  return holder.getD ConstMethod.anonymousHolder ++ "." ++ name ++ signature

end Method

end JitFrames
