import JitFrames.Code.Heap
import JitFrames.Proofs.Growth.Target

namespace JitFrames

open Answer (Persists)

variable {m m' : Memory} {layout : Layout}

theorem HeapBlock.read_persists (h : m.Extends m') (a : Address) :
    Persists (HeapBlock.read ⟨m, layout⟩ a) (HeapBlock.read ⟨m', layout⟩ a) := by
  refine (Target.fieldAddress_persists a _).bind fun place => ?_
  exact (Target.readU8_persists h place).bind fun _ => .refl _

namespace CodeHeap

theorem readSpace_persists (h : m.Extends m') (base : Address) (offset : UInt64) :
    Persists (readSpace ⟨m, layout⟩ base offset) (readSpace ⟨m', layout⟩ base offset) := by
  refine (Target.fieldAddress_persists base _).bind fun space => ?_
  refine (Target.pointerField_persists h space _).bind fun low => ?_
  exact (Target.pointerField_persists h space _).bind fun _ => .refl _

theorem read_persists (h : m.Extends m') (a : Address) :
    Persists (CodeHeap.read ⟨m, layout⟩ a) (CodeHeap.read ⟨m', layout⟩ a) := by
  refine (readSpace_persists h a _).bind fun memory => ?_
  refine (readSpace_persists h a _).bind fun segmentMap => ?_
  exact (Target.i32Field_persists h a _).bind fun _ => .refl _

theorem mapByte_persists (h : m.Extends m') (heap : CodeHeap) (segment : Nat) :
    Persists (heap.mapByte ⟨m, layout⟩ segment) (heap.mapByte ⟨m', layout⟩ segment) :=
  .ite (fun _ => .refl _) fun _ => Target.readU8_persists h _

theorem blockAt_persists (h : m.Extends m') (heap : CodeHeap) (segment : Nat) :
    Persists (heap.blockAt ⟨m, layout⟩ segment) (heap.blockAt ⟨m', layout⟩ segment) := by
  unfold blockAt
  cases heap.memory.start.add? ((segment <<< heap.log2SegmentSize) % UInt64.size) with
  | none => exact .refl _
  | some a => exact HeapBlock.read_persists h a

theorem firstSegment_persists (h : m.Extends m') (heap : CodeHeap) (segment : Nat)
    (distance : UInt8) :
    Persists (heap.firstSegment ⟨m, layout⟩ segment distance)
      (heap.firstSegment ⟨m', layout⟩ segment distance) := by
  induction segment using Nat.strongRecOn generalizing distance with
  | ind segment ih =>
    rw [firstSegment, firstSegment]
    by_cases hzero : distance = 0
    · rw [dif_pos hzero, dif_pos hzero]
      exact .refl _
    · rw [dif_neg hzero, dif_neg hzero]
      by_cases hchain : segment < distance.toNat
      · rw [dif_pos hchain, dif_pos hchain]
        exact .refl _
      · rw [dif_neg hchain, dif_neg hchain]
        obtain ⟨a, n, hbyte⟩ | hsame := heap.mapByte_persists h (segment - distance.toNat)
        · rw [hbyte]
          exact .inl ⟨a, n, rfl⟩
        · rw [hsame]
          cases heap.mapByte ⟨m, layout⟩ (segment - distance.toNat) with
          | error e => exact .refl _
          | ok next =>
            have hback : distance.toNat ≠ 0 := fun h0 => hzero (UInt8.toNat_inj.mp h0)
            exact ih (segment - distance.toNat) (by omega) next

theorem findStart_persists (h : m.Extends m') (heap : CodeHeap) (p : Address) :
    Persists (heap.findStart ⟨m, layout⟩ p) (heap.findStart ⟨m', layout⟩ p) := by
  unfold findStart
  cases heap.segmentOf? p with
  | none => exact .refl _
  | some segment =>
    refine (heap.mapByte_persists h segment).bind fun distance => ?_
    refine .ite (fun _ => .refl _) fun _ => ?_
    refine (heap.firstSegment_persists h segment distance).bind fun first => ?_
    refine (heap.blockAt_persists h first).bind fun block => ?_
    exact .ite (fun _ => .refl _) fun _ => .refl _

theorem findBlob_persists (h : m.Extends m') (heap : CodeHeap) (p : Address) :
    Persists (heap.findBlob ⟨m, layout⟩ p) (heap.findBlob ⟨m', layout⟩ p) := by
  refine (heap.findStart_persists h p).bind fun found => ?_
  cases found with
  | none => exact .refl _
  | some start => exact (CodeBlob.read_persists h start).bind fun _ => .refl _

end CodeHeap

end JitFrames
