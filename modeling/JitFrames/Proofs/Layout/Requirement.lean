import Mathlib.Data.List.Basic
import JitFrames.Layout.Basic

namespace JitFrames

/-- What a layout needs to know for one of its offsets. -/
inductive Need where
  | size (owner : String)
  | field (owner name : String)
  /-- The distance between two descriptors, which must not be zero. -/
  | descriptorSize
  /-- The used byte of a block header, which lies inside another structure. -/
  | usedOffset
  deriving DecidableEq

namespace Need

/-- What a source says about a need. -/
def answer? (source : LayoutSource) : Need → Option UInt64
  | size owner => source.typeSize? owner
  | field owner name => source.fieldOffset? owner name
  | descriptorSize => (source.typeSize? "PcDesc").filter (· ≠ 0)
  | usedOffset => do
    let header ← source.fieldOffset? "HeapBlock" "_header"
    let used ← source.fieldOffset? "HeapBlock::Header" "_used"
    Address.add? header used.toNat

/-- What goes wrong without the answer; a sum fails only once there is a header to name. -/
def fault (source : LayoutSource) : Need → Fault
  | size owner => .missingLayout owner "<size>"
  | field owner name => .missingLayout owner name
  | descriptorSize => .missingLayout "PcDesc" "<size>"
  | usedOffset => .malformed .usedOffset ((source.fieldOffset? "HeapBlock" "_header").getD 0)

/-- The answer to a need. -/
def ask (source : LayoutSource) (need : Need) : Answer UInt64 :=
  match need.answer? source with
  | some n => .ok n
  | none => .error (need.fault source)

/-- The needs that are settled one after the other to settle this one. -/
def steps : Need → List Need
  | usedOffset => [field "HeapBlock" "_header", field "HeapBlock::Header" "_used", usedOffset]
  | need => [need]

theorem mem_steps (need : Need) : need ∈ need.steps := by
  cases need <;> simp [steps]

theorem answered_of_mem_steps {source : LayoutSource} {need step : Need} (h : step ∈ need.steps)
    (hanswer : (need.answer? source).isSome) : (step.answer? source).isSome := by
  cases need with
  | usedOffset =>
    obtain ⟨offset, hoffset⟩ := Option.isSome_iff_exists.mp hanswer
    simp only [answer?, Option.bind_eq_bind, Option.bind_eq_some_iff] at hoffset
    obtain ⟨header, hheader, used, hused, -⟩ := hoffset
    simp only [steps, List.mem_cons, List.not_mem_nil, or_false] at h
    obtain rfl | rfl | rfl := h
    · exact Option.isSome_of_eq_some hheader
    · exact Option.isSome_of_eq_some hused
    · exact hanswer
  | size owner =>
    rw [List.mem_singleton.mp h]
    exact hanswer
  | field owner name =>
    rw [List.mem_singleton.mp h]
    exact hanswer
  | descriptorSize =>
    rw [List.mem_singleton.mp h]
    exact hanswer

end Need

/-- A check that is made while a layout is resolved. -/
inductive Requirement where
  | pointerSize
  | answered (need : Need)
  deriving DecidableEq

namespace Requirement

def met (source : LayoutSource) (target : TargetInfo) : Requirement → Bool
  | pointerSize => target.pointerSize = 4 ∨ target.pointerSize = 8
  | answered need => (need.answer? source).isSome

def fault (source : LayoutSource) (target : TargetInfo) : Requirement → Fault
  | pointerSize => .unsupportedPointerSize target.pointerSize
  | answered need => need.fault source

end Requirement

namespace Layout

/-- The offsets of a layout and what they need: the size of a descriptor first, then all others as
they are declared. -/
def offsets : List (Need × (Layout → UInt64)) :=
  [(.descriptorSize, (·.descriptor.size)),
   (.field "CodeBlob" "_name", (·.blob.name)),
   (.field "CodeBlob" "_size", (·.blob.size)),
   (.field "CodeBlob" "_instructions_offset", (·.blob.instructionsOffset)),
   (.field "nmethod" "_method", (·.compiled.method)),
   (.field "nmethod" "_scopes_pcs_offset", (·.compiled.scopesPcsOffset)),
   (.field "nmethod" "_dependencies_offset", (·.compiled.dependenciesOffset)),
   (.field "nmethod" "_scopes_data_offset", (·.compiled.scopesDataOffset)),
   (.field "nmethod" "_oops_offset", (·.compiled.oopsOffset)),
   (.field "nmethod" "_pc_desc_cache", (·.compiled.descriptorCache)),
   (.field "PcDescCache" "_last_pc_desc", (·.descriptorCache.recent)),
   (.field "PcDescCache" "_pc_descs", (·.descriptorCache.slots)),
   (.field "PcDesc" "_pc_offset", (·.descriptor.pcOffset)),
   (.field "PcDesc" "_scope_decode_offset", (·.descriptor.scopeOffset)),
   (.field "CodeHeap" "_memory", (·.codeHeap.memory)),
   (.field "CodeHeap" "_segmap", (·.codeHeap.segmentMap)),
   (.field "CodeHeap" "_log2_segment_size", (·.codeHeap.log2SegmentSize)),
   (.field "VirtualSpace" "_low", (·.virtualSpace.low)),
   (.field "VirtualSpace" "_high", (·.virtualSpace.high)),
   (.size "HeapBlock", (·.heapBlock.size)),
   (.usedOffset, (·.heapBlock.used)),
   (.field "Method" "_constMethod", (·.methodConst)),
   (.size "ConstMethod", (·.constMethod.size)),
   (.field "ConstMethod" "_constants", (·.constMethod.constants)),
   (.field "ConstMethod" "_code_size", (·.constMethod.codeSize)),
   (.field "ConstMethod" "_flags", (·.constMethod.flags)),
   (.field "ConstMethod" "_name_index", (·.constMethod.nameIndex)),
   (.field "ConstMethod" "_signature_index", (·.constMethod.signatureIndex)),
   (.size "ConstantPool", (·.constantPool.size)),
   (.field "ConstantPool" "_pool_holder", (·.constantPool.holder)),
   (.field "Klass" "_name", (·.klassName)),
   (.field "Symbol" "_length_and_refcount", (·.symbol.lengthAndRefcount)),
   (.field "Symbol" "_body", (·.symbol.body))]

def needs : List Need := offsets.flatMap (·.1.steps)

/-- All checks in their order. -/
def requirements : List Requirement := .pointerSize :: needs.map .answered

/-- The first requirement that is not met. -/
def unmet? (source : LayoutSource) (target : TargetInfo) : Option Requirement :=
  requirements.find? fun q => !q.met source target

/-- How many requirements are met before the first one that is not. -/
def metFirst (source : LayoutSource) (target : TargetInfo) : Nat :=
  requirements.findIdx fun q => !q.met source target

variable {source : LayoutSource} {target : TargetInfo} {need : Need}

theorem unmet?_eq_none_iff :
    unmet? source target = none ↔ ∀ q ∈ requirements, q.met source target = true := by
  simp [unmet?]

theorem mem_requirements : .answered need ∈ requirements ↔ need ∈ needs := by
  simp [requirements]

/-- The target is one of those that can be inspected, and the source says all that is needed. -/
structure Complete (source : LayoutSource) (target : TargetInfo) : Prop where
  pointerSize : target.pointerSize = 4 ∨ target.pointerSize = 8
  size : ∀ owner, .size owner ∈ needs → ∃ n, source.typeSize? owner = some n
  field : ∀ owner name, .field owner name ∈ needs → ∃ n, source.fieldOffset? owner name = some n
  descriptorSize : ∃ n ≠ 0, source.typeSize? "PcDesc" = some n
  usedOffset : ∀ header used, source.fieldOffset? "HeapBlock" "_header" = some header →
    source.fieldOffset? "HeapBlock::Header" "_used" = some used →
    header.toNat + used.toNat < UInt64.size

theorem met_iff_complete :
    (∀ q ∈ requirements, q.met source target = true) ↔ Complete source target := by
  constructor
  · intro h
    have hanswered (need : Need) (hneed : need ∈ needs) : ∃ n, need.answer? source = some n :=
      Option.isSome_iff_exists.mp (h _ (mem_requirements.mpr hneed))
    refine ⟨decide_eq_true_iff.mp (h .pointerSize (by decide)), fun owner ho => hanswered _ ho,
      fun owner name ho => hanswered _ ho, ?_, fun header used hheader hused => ?_⟩
    · obtain ⟨n, hn⟩ := hanswered .descriptorSize (by decide)
      obtain ⟨hsize, hpos⟩ := Option.filter_eq_some_iff.mp hn
      exact ⟨n, by simpa using hpos, hsize⟩
    · obtain ⟨n, hn⟩ := hanswered .usedOffset (by decide)
      rw [Need.answer?, hheader, hused] at hn
      rw [Address.add?_eq_some_iff.mp hn]
      exact n.toNat_lt_size
  · intro h q hq
    cases q with
    | pointerSize => exact decide_eq_true_iff.mpr h.pointerSize
    | answered need =>
      have hneed := mem_requirements.mp hq
      apply Option.isSome_iff_exists.mpr
      cases need with
      | size owner => exact h.size owner hneed
      | field owner name => exact h.field owner name hneed
      | descriptorSize =>
        obtain ⟨n, hn, hsize⟩ := h.descriptorSize
        exact ⟨n, Option.filter_eq_some_iff.mpr ⟨hsize, by simpa using hn⟩⟩
      | usedOffset =>
        obtain ⟨header, hheader⟩ := h.field "HeapBlock" "_header" (by decide)
        obtain ⟨used, hused⟩ := h.field "HeapBlock::Header" "_used" (by decide)
        obtain ⟨n, hn⟩ := Address.exists_add? (h.usedOffset header used hheader hused)
        refine ⟨n, ?_⟩
        rw [Need.answer?, hheader, hused]
        exact hn

end Layout

end JitFrames
