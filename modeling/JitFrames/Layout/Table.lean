import JitFrames.Json.Value
import JitFrames.Layout.NameMap
import JitFrames.Memory.Machine

namespace JitFrames

def Endian.text : Endian → String
  | .little => "little"
  | .big => "big"

def Endian.ofText? : String → Option Endian
  | "little" => some .little
  | "big" => some .big
  | _ => none

/-- What a table says about the machine; the pointer size is not checked yet. -/
structure TargetInfo where
  pointerSize : UInt8
  endian : Endian
  deriving DecidableEq, Repr

/-- A machine of 64 bits, little endian. -/
def TargetInfo.default : TargetInfo := ⟨8, .little⟩

/-- Size and field offsets of one structure. -/
structure StructureLayout where
  size? : Option UInt64
  fields : NameMap UInt64
  deriving DecidableEq

def StructureLayout.empty : StructureLayout := ⟨none, NameMap.empty⟩

structure LayoutTable where
  target : TargetInfo
  structures : NameMap StructureLayout
  deriving DecidableEq

namespace LayoutTable

def empty : LayoutTable := ⟨TargetInfo.default, NameMap.empty⟩

def structureAt (t : LayoutTable) (owner : String) : StructureLayout :=
  (t.structures.get? owner).getD StructureLayout.empty

/-- The table that also records the offset of a field. -/
def withField (t : LayoutTable) (owner field : String) (offset : UInt64) : LayoutTable :=
  let s := t.structureAt owner
  { t with
    structures := t.structures.insert owner { s with fields := s.fields.insert field offset } }

/-- The table that also records the size of a structure. -/
def withSize (t : LayoutTable) (owner : String) (size : UInt64) : LayoutTable :=
  { t with
    structures := t.structures.insert owner { t.structureAt owner with size? := some size } }

def fieldOffset? (t : LayoutTable) (owner field : String) : Option UInt64 := do
  (← t.structures.get? owner).fields.get? field

def typeSize? (t : LayoutTable) (owner : String) : Option UInt64 := do
  (← t.structures.get? owner).size?

end LayoutTable

open Json (Value)

/-- The name of the byte order, or an object that maps it to null. -/
def Endian.ofJson? : Value → Option Endian
  | .object [(key, .null)] => do ofText? (← key)
  | v => do ofText? (← v.string?)

def TargetInfo.ofJson? (v : Value) : Option TargetInfo := do
  match ← v.record? ["pointer_size", "endian"] with
  | [some size, endian] =>
    let size ← size.nat? 256
    let endian ← match endian with
      | some e => Endian.ofJson? e
      | none => some .little
    some ⟨UInt8.ofNat size, endian⟩
  | _ => none

def StructureLayout.ofJson? (v : Value) : Option StructureLayout := do
  match ← v.record? ["size", "fields"] with
  | [size, fields] =>
    let size ← match size with
      | some .null => some none
      | some n => n.word?.map some
      | none => some none
    let fields ← match fields with
      | some fs => (← fs.members?).mapM fun f => f.2.word?.map (f.1, ·)
      | none => some []
    some ⟨size, NameMap.ofList fields⟩
  | _ => none

namespace LayoutTable

def ofJson? (v : Value) : Option LayoutTable := do
  match ← v.record? ["target", "structures"] with
  | [target, structures] =>
    let target ← match target with
      | some t => TargetInfo.ofJson? t
      | none => some TargetInfo.default
    let structures ← match structures with
      | some ss => (← ss.members?).mapM fun s => (StructureLayout.ofJson? s.2).map (s.1, ·)
      | none => some []
    some ⟨target, NameMap.ofList structures⟩
  | _ => none

/-- The table that a JSON text holds. -/
def parse? (readJson : Json.Reader) (text : String) : Option LayoutTable :=
  (readJson text).bind ofJson?

end LayoutTable

def TargetInfo.toJson (t : TargetInfo) : Value :=
  .ofMembers [("pointer_size", .ofNat t.pointerSize.toNat), ("endian", .ofString t.endian.text)]

namespace StructureLayout

/-- The member that holds the size; a size that is not known is left out. -/
def sizeMember (s : StructureLayout) : List (String × Value) :=
  s.size?.toList.map fun n => ("size", .ofNat n.toNat)

/-- The offsets of the fields. -/
def fieldMembers (s : StructureLayout) : List (String × Value) :=
  s.fields.entries.map fun f => (f.1, .ofNat f.2.toNat)

def toJson (s : StructureLayout) : Value :=
  .ofMembers (s.sizeMember ++ [("fields", .ofMembers s.fieldMembers)])

end StructureLayout

namespace LayoutTable

/-- The structures by their names. -/
def structureMembers (t : LayoutTable) : List (String × Value) :=
  t.structures.entries.map fun s => (s.1, s.2.toJson)

def toJson (t : LayoutTable) : Value :=
  .ofMembers [("target", t.target.toJson), ("structures", .ofMembers t.structureMembers)]

end LayoutTable

end JitFrames
