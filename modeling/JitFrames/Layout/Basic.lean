import JitFrames.Fault
import JitFrames.Layout.Table

namespace JitFrames

/-- A source of field offsets and structure sizes. -/
structure LayoutSource where
  fieldOffset? : String → String → Option UInt64
  typeSize? : String → Option UInt64

def LayoutTable.source (t : LayoutTable) : LayoutSource := ⟨t.fieldOffset?, t.typeSize?⟩

structure BlobLayout where
  name : UInt64
  size : UInt64
  instructionsOffset : UInt64
  deriving DecidableEq, Repr

/-- The fields that a compiled method has beyond those of a blob. -/
structure CompiledLayout where
  method : UInt64
  scopesPcsOffset : UInt64
  dependenciesOffset : UInt64
  scopesDataOffset : UInt64
  oopsOffset : UInt64
  descriptorCache : UInt64
  deriving DecidableEq, Repr

structure DescriptorCacheLayout where
  recent : UInt64
  /-- The first of the slots, which are pointers. -/
  slots : UInt64
  deriving DecidableEq, Repr

structure DescriptorLayout where
  /-- The distance between two entries of a table; not zero. -/
  size : UInt64
  pcOffset : UInt64
  scopeOffset : UInt64
  deriving DecidableEq, Repr

structure CodeHeapLayout where
  memory : UInt64
  segmentMap : UInt64
  log2SegmentSize : UInt64
  deriving DecidableEq, Repr

structure VirtualSpaceLayout where
  low : UInt64
  high : UInt64
  deriving DecidableEq, Repr

structure HeapBlockLayout where
  /-- The allocated space begins right behind the header. -/
  size : UInt64
  used : UInt64
  deriving DecidableEq, Repr

structure ConstMethodLayout where
  /-- The bytecodes begin right behind the structure. -/
  size : UInt64
  constants : UInt64
  codeSize : UInt64
  flags : UInt64
  nameIndex : UInt64
  signatureIndex : UInt64
  deriving DecidableEq, Repr

structure ConstantPoolLayout where
  /-- The slots begin right behind the structure. -/
  size : UInt64
  holder : UInt64
  deriving DecidableEq, Repr

structure SymbolLayout where
  lengthAndRefcount : UInt64
  body : UInt64
  deriving DecidableEq, Repr

/-- Every offset that the decoders need. -/
structure Layout where
  machine : Machine
  blob : BlobLayout
  compiled : CompiledLayout
  descriptorCache : DescriptorCacheLayout
  descriptor : DescriptorLayout
  codeHeap : CodeHeapLayout
  virtualSpace : VirtualSpaceLayout
  heapBlock : HeapBlockLayout
  methodConst : UInt64
  constMethod : ConstMethodLayout
  constantPool : ConstantPoolLayout
  klassName : UInt64
  symbol : SymbolLayout
  deriving DecidableEq, Repr

namespace LayoutSource

def field (source : LayoutSource) (owner name : String) : Answer UInt64 :=
  match source.fieldOffset? owner name with
  | some offset => .ok offset
  | none => .error (.missingLayout owner name)

def size (source : LayoutSource) (owner : String) : Answer UInt64 :=
  match source.typeSize? owner with
  | some n => .ok n
  | none => .error (.missingLayout owner "<size>")

/-- A size that must not be zero. -/
def positiveSize (source : LayoutSource) (owner : String) : Answer UInt64 := do
  let n ← source.size owner
  if n = 0 then throw (.missingLayout owner "<size>")
  return n

/-- The used byte of a block header, which lies inside another structure. -/
def usedOffset (source : LayoutSource) : Answer UInt64 := do
  let header ← source.field "HeapBlock" "_header"
  let used ← source.field "HeapBlock::Header" "_used"
  match Address.add? header used.toNat with
  | some offset => return offset
  | none => throw (.malformed .usedOffset header)

end LayoutSource

namespace Layout

def pointerWidth (size : UInt8) : Answer PointerWidth :=
  if size = 4 then .ok .four
  else if size = 8 then .ok .eight
  else .error (.unsupportedPointerSize size)

def resolve (source : LayoutSource) (target : TargetInfo) : Answer Layout := do
  let width ← pointerWidth target.pointerSize
  let descriptorSize ← source.positiveSize "PcDesc"
  return {
    machine := ⟨width, target.endian⟩
    blob := {
      name := ← source.field "CodeBlob" "_name"
      size := ← source.field "CodeBlob" "_size"
      instructionsOffset := ← source.field "CodeBlob" "_instructions_offset" }
    compiled := {
      method := ← source.field "nmethod" "_method"
      scopesPcsOffset := ← source.field "nmethod" "_scopes_pcs_offset"
      dependenciesOffset := ← source.field "nmethod" "_dependencies_offset"
      scopesDataOffset := ← source.field "nmethod" "_scopes_data_offset"
      oopsOffset := ← source.field "nmethod" "_oops_offset"
      descriptorCache := ← source.field "nmethod" "_pc_desc_cache" }
    descriptorCache := {
      recent := ← source.field "PcDescCache" "_last_pc_desc"
      slots := ← source.field "PcDescCache" "_pc_descs" }
    descriptor := {
      size := descriptorSize
      pcOffset := ← source.field "PcDesc" "_pc_offset"
      scopeOffset := ← source.field "PcDesc" "_scope_decode_offset" }
    codeHeap := {
      memory := ← source.field "CodeHeap" "_memory"
      segmentMap := ← source.field "CodeHeap" "_segmap"
      log2SegmentSize := ← source.field "CodeHeap" "_log2_segment_size" }
    virtualSpace := {
      low := ← source.field "VirtualSpace" "_low"
      high := ← source.field "VirtualSpace" "_high" }
    heapBlock := {
      size := ← source.size "HeapBlock"
      used := ← source.usedOffset }
    methodConst := ← source.field "Method" "_constMethod"
    constMethod := {
      size := ← source.size "ConstMethod"
      constants := ← source.field "ConstMethod" "_constants"
      codeSize := ← source.field "ConstMethod" "_code_size"
      flags := ← source.field "ConstMethod" "_flags"
      nameIndex := ← source.field "ConstMethod" "_name_index"
      signatureIndex := ← source.field "ConstMethod" "_signature_index" }
    constantPool := {
      size := ← source.size "ConstantPool"
      holder := ← source.field "ConstantPool" "_pool_holder" }
    klassName := ← source.field "Klass" "_name"
    symbol := {
      lengthAndRefcount := ← source.field "Symbol" "_length_and_refcount"
      body := ← source.field "Symbol" "_body" } }

end Layout

end JitFrames
