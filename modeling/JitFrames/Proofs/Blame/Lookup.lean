import JitFrames.CommandLine.Report
import JitFrames.Proofs.Blame.Target
import JitFrames.Proofs.Growth.Scope

namespace JitFrames

open Answer (FailsOnly BlamesTarget)

variable (t : Target)

namespace Bracket

theorem stride_blamesTarget {below : Nat → Answer Bool} (h : ∀ index, BlamesTarget (below index))
    (skip : Nat) (b : Bracket) : BlamesTarget (stride below skip b) := by
  fun_induction stride below skip b with
  | case1 b hopen hbelow ih => exact ih
  | case2 b hopen hbelow => exact .ok _
  | case3 b hopen e hbelow => exact .error (h _ e hbelow)
  | case4 b hopen => exact .ok b

theorem close_blamesTarget {below : Nat → Answer Bool} (h : ∀ index, BlamesTarget (below index))
    (b : Bracket) : BlamesTarget (b.close below) :=
  .foldlM (fun b skip => stride_blamesTarget h skip b) b skips

end Bracket

theorem Descriptor.read_blamesTarget (a : Address) : BlamesTarget (Descriptor.read t a) :=
  (t.i32Field_blamesTarget a _).bind fun _ => (t.i32Field_blamesTarget a _).bind fun _ => .pure _

theorem DescriptorCache.read_blamesTarget (a : Address) :
    BlamesTarget (DescriptorCache.read t a) := by
  refine (t.pointerField_blamesTarget a _).bind fun recent => ?_
  exact .bind (.mapM (fun _ => t.pointerField_blamesTarget a _) _) fun _ => .pure _

namespace DescriptorTable

theorem ofBounds_blamesTarget (start stop : Address) (stride : UInt64) :
    BlamesTarget (ofBounds start stop stride) := by
  unfold ofBounds
  split
  · exact .error rfl
  · split
    · exact .ok _
    · exact .error rfl

variable {offset : Nat} {precision : Precision} (d : DescriptorTable)

theorem entry_blamesTarget (index : Nat) : BlamesTarget (d.entry t index) :=
  Descriptor.read_blamesTarget t (d.addressOf index)

theorem below_blamesTarget (index : Nat) : BlamesTarget (d.below t offset index) :=
  (d.entry_blamesTarget t index).bind fun _ => .pure _

theorem answers_blamesTarget (desc : Descriptor) :
    BlamesTarget (d.answers t desc offset precision) := by
  refine .ite (.pure false) ?_
  cases precision with
  | exact => exact .pure _
  | approximate =>
    cases d.indexOf? desc.address with
    | none => exact .pure false
    | some index =>
      cases index with
      | zero => exact .pure false
      | succ i => exact (d.entry_blamesTarget t i).bind fun _ => .pure _

theorem startBracket_blamesTarget (pivot : Option Address) :
    BlamesTarget (d.startBracket t offset pivot) := by
  unfold startBracket
  dsimp only
  cases pivot.bind d.indexOf? with
  | none => exact .pure _
  | some p => exact .ite ((d.below_blamesTarget t p).bind fun _ => .pure _) (.pure _)

theorem search_blamesTarget (pivot : Option Address) :
    BlamesTarget (d.search t offset precision pivot) := by
  refine .ite (.pure none) ?_
  refine (d.startBracket_blamesTarget t pivot).bind fun start => ?_
  refine (Bracket.close_blamesTarget (d.below_blamesTarget t) start).bind fun bracket => ?_
  refine .ite (.pure none) ?_
  refine (d.entry_blamesTarget t bracket.ceiling).bind fun desc => ?_
  exact (d.answers_blamesTarget t desc).bind fun _ => .pure _

theorem findInSlots_blamesTarget (slots : List (Option Address)) :
    BlamesTarget (d.findInSlots t offset precision slots) := by
  induction slots with
  | nil => exact .ok none
  | cons slot slots ih =>
    cases slot with
    | none => exact .ok none
    | some a =>
      refine (Descriptor.read_blamesTarget t a).bind fun desc => .ite (.pure none) ?_
      exact (d.answers_blamesTarget t desc).bind fun _ => .ite (.pure _) ih

theorem findCached_blamesTarget (cache : DescriptorCache) :
    BlamesTarget (d.findCached t cache offset precision) := by
  unfold findCached
  cases cache.recent with
  | none => exact .pure none
  | some a =>
    refine (Descriptor.read_blamesTarget t a).bind fun desc => ?_
    refine (d.answers_blamesTarget t desc).bind fun _ => .ite (.pure _) ?_
    exact d.findInSlots_blamesTarget t cache.slots

end DescriptorTable

namespace CompiledMethod

theorem findDescriptor_blamesTarget (m : CompiledMethod) (pc : Address) (precision : Precision) :
    BlamesTarget (m.findDescriptor t pc precision) := by
  unfold findDescriptor
  cases m.instructionOffset? pc with
  | none => exact .pure none
  | some offset =>
    refine (DescriptorTable.ofBounds_blamesTarget _ _ _).bind fun table => ?_
    refine (DescriptorCache.read_blamesTarget t m.descriptorCache).bind fun cache => ?_
    refine (table.findCached_blamesTarget t cache).bind fun found => ?_
    cases found with
    | some desc => exact .pure _
    | none => exact table.search_blamesTarget t cache.recent

theorem descriptorAt_blamesTarget (m : CompiledMethod) (pc : Address) :
    BlamesTarget (m.descriptorAt t pc) := by
  refine (m.findDescriptor_blamesTarget t pc .exact).bind fun found => ?_
  cases found with
  | some desc => exact .pure _
  | none => exact m.findDescriptor_blamesTarget t pc .approximate

end CompiledMethod

theorem HeapBlock.read_blamesTarget (a : Address) : BlamesTarget (HeapBlock.read t a) :=
  (t.fieldAddress_blamesTarget a _).bind fun place =>
    (t.readU8_blamesTarget place).bind fun _ => .pure _

namespace CodeHeap

variable (heap : CodeHeap)

theorem mapByte_blamesTarget (segment : Nat) : BlamesTarget (heap.mapByte t segment) :=
  .ite (.error rfl) (t.readU8_blamesTarget _)

theorem blockAt_blamesTarget (segment : Nat) : BlamesTarget (heap.blockAt t segment) := by
  unfold blockAt
  cases heap.memory.start.add? ((segment <<< heap.log2SegmentSize) % UInt64.size) with
  | none => exact .error rfl
  | some a => exact HeapBlock.read_blamesTarget t a

theorem firstSegment_blamesTarget (segment : Nat) (distance : UInt8) :
    BlamesTarget (heap.firstSegment t segment distance) := by
  fun_induction firstSegment heap t segment distance with
  | case1 segment => exact .ok segment
  | case2 segment distance hzero hchain => exact .error rfl
  | case3 segment distance hzero hchain next hbyte ih => exact ih
  | case4 segment distance hzero hchain e hbyte =>
    exact .error (heap.mapByte_blamesTarget t _ e hbyte)

theorem findStart_blamesTarget (p : Address) : BlamesTarget (heap.findStart t p) := by
  unfold findStart
  cases heap.segmentOf? p with
  | none => exact .pure none
  | some segment =>
    refine (heap.mapByte_blamesTarget t segment).bind fun distance => .ite (.pure none) ?_
    refine (heap.firstSegment_blamesTarget t segment distance).bind fun first => ?_
    refine (heap.blockAt_blamesTarget t first).bind fun block => .ite (.pure none) ?_
    exact (t.fieldAddress_blamesTarget block.address _).bind fun _ => .pure _

theorem findBlob_blamesTarget (p : Address) : BlamesTarget (heap.findBlob t p) := by
  refine (heap.findStart_blamesTarget t p).bind fun found => ?_
  cases found with
  | none => exact .pure none
  | some start => exact (CodeBlob.read_blamesTarget t start).bind fun _ => .pure _

end CodeHeap

namespace Resolution

theorem functionName_blamesTarget (method : Option Address) :
    BlamesTarget (functionName t method) := by
  cases method with
  | none => exact .pure _
  | some a =>
    exact (Method.read_blamesTarget t a).bind fun method => method.qualifiedName_blamesTarget t

theorem callOf_blamesTarget (frame : Frame) : BlamesTarget (callOf t frame) :=
  (functionName_blamesTarget t frame.method).bind fun _ => .pure _

theorem callsAt_blamesTarget (m : CompiledMethod) (desc : Option Descriptor) :
    BlamesTarget (callsAt t m desc) := by
  have hframes : BlamesTarget (desc.elim (pure []) (m.frames t)) := by
    cases desc with
    | none => exact .pure []
    | some d => exact m.frames_blamesTarget t d
  rw [callsAt_eq]
  refine hframes.bind fun frames => (FailsOnly.mapM (callOf_blamesTarget t) frames).bind ?_
  intro calls
  refine .ite ?_ (.pure calls)
  exact (functionName_blamesTarget t m.method.nonNull?).bind fun _ => .pure _

theorem ofAddress_blamesTarget (heap : CodeHeap) (a : Address) :
    BlamesTarget (ofAddress t heap a) := by
  refine (heap.findBlob_blamesTarget t a).bind fun found => ?_
  cases found with
  | none => exact .pure none
  | some blob =>
    refine (blob.compiledMethod?_blamesTarget t).bind fun compiled => ?_
    cases compiled with
    | none => exact .pure _
    | some m =>
      refine (m.descriptorAt_blamesTarget t a).bind fun desc => ?_
      exact (callsAt_blamesTarget t m desc).bind fun _ => .pure _

end Resolution

namespace CommandLine.Report

variable (s : Symbolizer)

theorem resolve_blamesTarget (a : Address) : BlamesTarget (s.resolve a).1 := by
  unfold Symbolizer.resolve
  cases s.known.lookup a with
  | some r => exact .ok r
  | none =>
    cases hresolve : Resolution.ofAddress s.target s.heap a with
    | ok r => exact .ok r
    | error e => exact .error (Resolution.ofAddress_blamesTarget s.target s.heap a e hresolve)

theorem blob_blamesTarget (a : Address) : BlamesTarget (blob s a) := by
  refine (s.heap.findBlob_blamesTarget s.target a).bind fun found => ?_
  cases found <;> exact .pure _

theorem compiledMethodAt_blamesTarget (pc : Address) : BlamesTarget (compiledMethodAt s pc) := by
  refine (s.heap.findBlob_blamesTarget s.target pc).bind fun found => ?_
  cases found with
  | none => exact .pure none
  | some b => exact b.compiledMethod?_blamesTarget s.target

theorem descriptor_blamesTarget (pc : Address) (precision : Precision) :
    BlamesTarget (descriptor s pc precision) := by
  refine (compiledMethodAt_blamesTarget s pc).bind fun found => ?_
  cases found with
  | none => exact .pure _
  | some m =>
    refine (m.findDescriptor_blamesTarget s.target pc precision).bind fun found => ?_
    cases found <;> exact .pure _

theorem inlining_blamesTarget (pc : Address) : BlamesTarget (inlining s pc) := by
  refine (resolve_blamesTarget s pc).bind fun found => ?_
  cases found <;> exact .pure _

theorem line_blamesTarget (method : Address) (bci : Bci) : BlamesTarget (line t method bci) := by
  refine (Method.read_blamesTarget t method).bind fun method => ?_
  refine (method.lineAt_blamesTarget t bci).bind fun line => ?_
  exact (method.qualifiedName_blamesTarget t).bind fun _ => .pure _

end CommandLine.Report

end JitFrames
