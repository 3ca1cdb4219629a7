import JitFrames.Code.CompiledMethod

namespace JitFrames

/-- What the debug metadata says about one instruction of a compiled method. -/
structure Descriptor where
  address : Address
  /-- The instruction, as an offset from the first one of the method. -/
  pcOffset : Int32
  /-- The innermost scope record, as an offset into the scopes data; 0 for none. -/
  scopeOffset : Int32
  deriving DecidableEq, Repr

namespace Descriptor

def read (t : Target) (a : Address) : Answer Descriptor := do
  let pcOffset ← t.i32Field a t.layout.descriptor.pcOffset
  let scopeOffset ← t.i32Field a t.layout.descriptor.scopeOffset
  return ⟨a, pcOffset, scopeOffset⟩

/-- The address of the instruction. -/
def pc (d : Descriptor) (m : CompiledMethod) : Address :=
  UInt64.ofInt (m.blob.instructionsBegin.toNat + d.pcOffset.toInt)

end Descriptor

/-- Where the descriptors of a method stand: `length` entries that end inside the address space, the
last of which only closes the table. -/
structure DescriptorTable where
  start : Address
  stride : Nat
  length : Nat
  stride_pos : 0 < stride
  fits : start.toNat + length * stride < UInt64.size

namespace DescriptorTable

/-- The table between two addresses, which must hold a whole number of entries. -/
def ofBounds (start stop : Address) (stride : UInt64) : Answer DescriptorTable :=
  match _h : stop.distance? start with
  | none => .error (.malformed .descriptorTable start)
  | some size =>
    if h : 0 < stride.toNat ∧ size % stride.toNat = 0 then
      .ok {
        start
        stride := stride.toNat
        length := size / stride.toNat
        stride_pos := h.1
        fits := by
          have hs := Address.distance?_eq_some_iff.mp _h
          have hm := Nat.div_mul_cancel (Nat.dvd_of_mod_eq_zero h.2)
          have := stop.toNat_lt_size
          omega }
    else .error (.malformed .descriptorTable start)

/-- Whether the table holds no entry but the closing one. -/
def isEmpty (d : DescriptorTable) : Bool := d.length ≤ 1

/-- The index of the closing entry. -/
def sentinel (d : DescriptorTable) : Nat := d.length - 1

def addressOf (d : DescriptorTable) (index : Nat) : Address :=
  UInt64.ofNat (d.start.toNat + index * d.stride)

/-- The index of the entry that begins at `a`. -/
def indexOf? (d : DescriptorTable) (a : Address) : Option Nat := do
  let offset ← a.distance? d.start
  if offset % d.stride = 0 ∧ offset / d.stride < d.length then some (offset / d.stride) else none

def entry (d : DescriptorTable) (t : Target) (index : Nat) : Answer Descriptor :=
  Descriptor.read t (d.addressOf index)

end DescriptorTable

namespace CompiledMethod

def descriptorTable (m : CompiledMethod) (t : Target) : Answer DescriptorTable :=
  DescriptorTable.ofBounds m.descriptorsBegin m.descriptorsEnd t.layout.descriptor.size

end CompiledMethod

end JitFrames
