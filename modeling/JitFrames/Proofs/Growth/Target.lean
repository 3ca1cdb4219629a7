import JitFrames.Code.CompiledMethod
import JitFrames.Code.Method
import JitFrames.Proofs.Growth.Codec

namespace JitFrames

open Answer (Persists)

variable {m m' : Memory} {layout : Layout}

namespace Target

theorem fieldAddress_persists (base : Address) (offset : Nat) :
    Persists (fieldAddress ⟨m, layout⟩ base offset) (fieldAddress ⟨m', layout⟩ base offset) :=
  .refl _

theorem readNumber_persists (h : m.Extends m') (a : Address) (n : Nat) :
    Persists (readNumber ⟨m, layout⟩ a n) (readNumber ⟨m', layout⟩ a n) :=
  (h.read a n).bind fun _ => .refl _

theorem readU8_persists (h : m.Extends m') (a : Address) :
    Persists (readU8 ⟨m, layout⟩ a) (readU8 ⟨m', layout⟩ a) := h.readByte a

theorem readU16_persists (h : m.Extends m') (a : Address) :
    Persists (readU16 ⟨m, layout⟩ a) (readU16 ⟨m', layout⟩ a) :=
  (readNumber_persists h a 2).bind fun _ => .refl _

theorem readU32_persists (h : m.Extends m') (a : Address) :
    Persists (readU32 ⟨m, layout⟩ a) (readU32 ⟨m', layout⟩ a) :=
  (readNumber_persists h a 4).bind fun _ => .refl _

theorem readI32_persists (h : m.Extends m') (a : Address) :
    Persists (readI32 ⟨m, layout⟩ a) (readI32 ⟨m', layout⟩ a) :=
  (readNumber_persists h a 4).bind fun _ => .refl _

theorem readPointer_persists (h : m.Extends m') (a : Address) :
    Persists (readPointer ⟨m, layout⟩ a) (readPointer ⟨m', layout⟩ a) :=
  (readNumber_persists h a (pointerBytes ⟨m, layout⟩)).bind fun _ => .refl _

theorem pointerField_persists (h : m.Extends m') (base : Address) (offset : UInt64) :
    Persists (pointerField ⟨m, layout⟩ base offset) (pointerField ⟨m', layout⟩ base offset) :=
  (fieldAddress_persists base offset.toNat).bind (readPointer_persists h)

theorem i32Field_persists (h : m.Extends m') (base : Address) (offset : UInt64) :
    Persists (i32Field ⟨m, layout⟩ base offset) (i32Field ⟨m', layout⟩ base offset) :=
  (fieldAddress_persists base offset.toNat).bind (readI32_persists h)

theorem u16Field_persists (h : m.Extends m') (base : Address) (offset : UInt64) :
    Persists (u16Field ⟨m, layout⟩ base offset) (u16Field ⟨m', layout⟩ base offset) :=
  (fieldAddress_persists base offset.toNat).bind (readU16_persists h)

theorem readToNul_persists (h : m.Extends m') (a : Address) (room passed : Nat) :
    Persists (readToNul ⟨m, layout⟩ a room passed) (readToNul ⟨m', layout⟩ a room passed) := by
  induction room generalizing passed with
  | zero => exact .refl _
  | succ room ih =>
    refine (fieldAddress_persists a passed).bind fun place => ?_
    refine (readU8_persists h place).bind fun b => ?_
    exact .ite (fun _ => .refl _) fun _ => (ih (passed + 1)).bind fun _ => .refl _

theorem readCString_persists (h : m.Extends m') (a : Address) :
    Persists (readCString ⟨m, layout⟩ a) (readCString ⟨m', layout⟩ a) :=
  (readToNul_persists h a maxCString 0).bind fun _ => .refl _

theorem readSymbol_persists (h : m.Extends m') (a : Address) :
    Persists (readSymbol ⟨m, layout⟩ a) (readSymbol ⟨m', layout⟩ a) := by
  refine (fieldAddress_persists a layout.symbol.lengthAndRefcount.toNat).bind fun place => ?_
  refine (readU32_persists h place).bind fun word => ?_
  refine (fieldAddress_persists a layout.symbol.body.toNat).bind fun body => ?_
  exact (h.read body (word.toNat / UInt16.size)).bind fun _ => .refl _

end Target

open Target

namespace CodeBlob

theorem naturalField_persists (h : m.Extends m') (base : Address) (offset : UInt64)
    (what : Defect) :
    Persists (naturalField ⟨m, layout⟩ base offset what)
      (naturalField ⟨m', layout⟩ base offset what) :=
  (i32Field_persists h base offset).bind fun _ => .refl _

theorem nameAt_persists (h : m.Extends m') (pointer : Address) :
    Persists (nameAt ⟨m, layout⟩ pointer) (nameAt ⟨m', layout⟩ pointer) := by
  unfold nameAt
  cases pointer.nonNull? with
  | none => exact .refl _
  | some a => exact readCString_persists h a

theorem read_persists (h : m.Extends m') (a : Address) :
    Persists (CodeBlob.read ⟨m, layout⟩ a) (CodeBlob.read ⟨m', layout⟩ a) := by
  refine (naturalField_persists h a _ _).bind fun size => ?_
  refine (naturalField_persists h a _ _).bind fun instructionsOffset => ?_
  by_cases hfits : a.toNat + size < UInt64.size
  · simp only [hfits, ↓reduceDIte]
    refine (pointerField_persists h a _).bind fun pointer => ?_
    exact (nameAt_persists h pointer).bind fun _ => .refl _
  · simp only [hfits, ↓reduceDIte]
    exact .refl _

end CodeBlob

namespace CompiledMethod

theorem sectionAt_persists (h : m.Extends m') (base : Address) (offset : UInt64) (what : Defect) :
    Persists (sectionAt ⟨m, layout⟩ base offset what) (sectionAt ⟨m', layout⟩ base offset what) :=
  (i32Field_persists h base offset).bind fun _ => .refl _

theorem read_persists (h : m.Extends m') (blob : CodeBlob) :
    Persists (CompiledMethod.read ⟨m, layout⟩ blob) (CompiledMethod.read ⟨m', layout⟩ blob) := by
  refine .ite (fun _ => ?_) fun _ => .throw_bind _ _ _
  refine (sectionAt_persists h blob.address _ _).bind fun descriptorsBegin => ?_
  refine (sectionAt_persists h blob.address _ _).bind fun descriptorsEnd => ?_
  refine (sectionAt_persists h blob.address _ _).bind fun scopesData => ?_
  refine (sectionAt_persists h blob.address _ _).bind fun oops => ?_
  refine (pointerField_persists h blob.address _).bind fun method => ?_
  exact (fieldAddress_persists blob.address _).bind fun _ => .refl _

theorem oopAt_persists (h : m.Extends m') (method : CompiledMethod) (index : UInt32) :
    Persists (method.oopAt ⟨m, layout⟩ index) (method.oopAt ⟨m', layout⟩ index) := by
  unfold oopAt pointerBytes
  refine .ite (fun _ => .refl _) fun _ => ?_
  dsimp only
  cases method.oops.add? ((index.toNat - 1) * layout.machine.pointerWidth.bytes) with
  | none => exact .refl _
  | some slot => exact (readPointer_persists h slot).bind fun _ => .refl _

end CompiledMethod

theorem CodeBlob.compiledMethod?_persists (h : m.Extends m') (blob : CodeBlob) :
    Persists (blob.compiledMethod? ⟨m, layout⟩) (blob.compiledMethod? ⟨m', layout⟩) :=
  .ite (fun _ => (CompiledMethod.read_persists h blob).bind fun _ => .refl _) fun _ => .refl _

namespace ConstMethod

theorem read_persists (h : m.Extends m') (a : Address) :
    Persists (ConstMethod.read ⟨m, layout⟩ a) (ConstMethod.read ⟨m', layout⟩ a) := by
  refine (pointerField_persists h a _).bind fun constants => ?_
  refine (u16Field_persists h a _).bind fun codeSize => ?_
  refine (u16Field_persists h a _).bind fun flags => ?_
  refine (u16Field_persists h a _).bind fun nameIndex => ?_
  exact (u16Field_persists h a _).bind fun _ => .refl _

theorem symbolAt_persists (h : m.Extends m') (c : ConstMethod) (index : UInt16) :
    Persists (c.symbolAt ⟨m, layout⟩ index) (c.symbolAt ⟨m', layout⟩ index) := by
  refine (pointerField_persists h c.constants _).bind fun pointer => ?_
  cases pointer.nonNull? with
  | none => exact .refl _
  | some symbol => exact readSymbol_persists h symbol

theorem holderName_persists (h : m.Extends m') (c : ConstMethod) :
    Persists (c.holderName ⟨m, layout⟩) (c.holderName ⟨m', layout⟩) := by
  refine (pointerField_persists h c.constants _).bind fun pointer => ?_
  cases pointer.nonNull? with
  | none => exact .refl _
  | some klass =>
    refine (pointerField_persists h klass _).bind fun pointer => ?_
    cases pointer.nonNull? with
    | none => exact .refl _
    | some name => exact (readSymbol_persists h name).bind fun _ => .refl _

end ConstMethod

namespace Method

theorem read_persists (h : m.Extends m') (a : Address) :
    Persists (Method.read ⟨m, layout⟩ a) (Method.read ⟨m', layout⟩ a) := by
  refine (pointerField_persists h a _).bind fun constMethod => ?_
  exact (ConstMethod.read_persists h constMethod).bind fun _ => .refl _

theorem lineAt_persists (h : m.Extends m') (method : Method) (bci : Bci) :
    Persists (method.lineAt ⟨m, layout⟩ bci) (method.lineAt ⟨m', layout⟩ bci) :=
  (Persists.refl (method.constMethod.lineTable ⟨m, layout⟩)).bind fun table =>
    LineTable.lineAt_persists h table bci

theorem qualifiedName_persists (h : m.Extends m') (method : Method) :
    Persists (method.qualifiedName ⟨m, layout⟩) (method.qualifiedName ⟨m', layout⟩) := by
  refine (ConstMethod.holderName_persists h method.constMethod).bind fun holder => ?_
  refine (ConstMethod.symbolAt_persists h method.constMethod _).bind fun name => ?_
  exact (ConstMethod.symbolAt_persists h method.constMethod _).bind fun _ => .refl _

end Method

end JitFrames
