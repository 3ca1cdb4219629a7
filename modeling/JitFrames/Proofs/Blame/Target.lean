import JitFrames.Code.CompiledMethod
import JitFrames.Code.Scope
import JitFrames.Proofs.Blame.Answer

namespace JitFrames

open Answer (BlamesTarget)

namespace Target

variable (t : Target)

theorem fieldAddress_blamesTarget (base : Address) (offset : Nat) :
    BlamesTarget (t.fieldAddress base offset) := by
  unfold fieldAddress
  cases base.add? offset with
  | none => exact .error rfl
  | some a => exact .ok a

theorem readNumber_blamesTarget (a : Address) (n : Nat) : BlamesTarget (t.readNumber a n) :=
  (t.memory.read_blamesTarget a n).bind fun _ => .pure _

theorem readU8_blamesTarget (a : Address) : BlamesTarget (t.readU8 a) :=
  t.memory.readByte_blamesTarget a

theorem readU32_blamesTarget (a : Address) : BlamesTarget (t.readU32 a) :=
  (t.readNumber_blamesTarget a 4).bind fun _ => .pure _

theorem readPointer_blamesTarget (a : Address) : BlamesTarget (t.readPointer a) :=
  (t.readNumber_blamesTarget a t.pointerBytes).bind fun _ => .pure _

theorem pointerField_blamesTarget (base : Address) (offset : UInt64) :
    BlamesTarget (t.pointerField base offset) :=
  (t.fieldAddress_blamesTarget base offset.toNat).bind t.readPointer_blamesTarget

theorem i32Field_blamesTarget (base : Address) (offset : UInt64) :
    BlamesTarget (t.i32Field base offset) :=
  (t.fieldAddress_blamesTarget base offset.toNat).bind fun a =>
    (t.readNumber_blamesTarget a 4).bind fun _ => .pure _

theorem u16Field_blamesTarget (base : Address) (offset : UInt64) :
    BlamesTarget (t.u16Field base offset) :=
  (t.fieldAddress_blamesTarget base offset.toNat).bind fun a =>
    (t.readNumber_blamesTarget a 2).bind fun _ => .pure _

theorem readToNul_blamesTarget (a : Address) (room passed : Nat) :
    BlamesTarget (t.readToNul a room passed) := by
  induction room generalizing passed with
  | zero => exact .error rfl
  | succ room ih =>
    refine (t.fieldAddress_blamesTarget a passed).bind fun place => ?_
    refine (t.readU8_blamesTarget place).bind fun b => ?_
    exact .ite (.pure _) ((ih (passed + 1)).bind fun _ => .pure _)

theorem readCString_blamesTarget (a : Address) : BlamesTarget (t.readCString a) :=
  (t.readToNul_blamesTarget a maxCString 0).bind fun _ => .pure _

theorem readSymbol_blamesTarget (a : Address) : BlamesTarget (t.readSymbol a) := by
  refine (t.fieldAddress_blamesTarget a _).bind fun place => ?_
  refine (t.readU32_blamesTarget place).bind fun word => ?_
  refine (t.fieldAddress_blamesTarget a _).bind fun body => ?_
  exact (t.memory.read_blamesTarget body _).bind fun _ => .pure _

end Target

variable (t : Target)

namespace CodeBlob

theorem naturalField_blamesTarget (base : Address) (offset : UInt64) (what : Defect) :
    BlamesTarget (naturalField t base offset what) := by
  refine (t.i32Field_blamesTarget base offset).bind fun n => ?_
  cases natural? n with
  | none => exact .throw rfl
  | some n => exact .pure n

theorem nameAt_blamesTarget (pointer : Address) : BlamesTarget (nameAt t pointer) := by
  unfold nameAt
  cases pointer.nonNull? with
  | none => exact .ok ""
  | some a => exact t.readCString_blamesTarget a

theorem read_blamesTarget (a : Address) : BlamesTarget (CodeBlob.read t a) := by
  refine (naturalField_blamesTarget t a _ _).bind fun size => ?_
  refine (naturalField_blamesTarget t a _ _).bind fun instructionsOffset => ?_
  by_cases fits : a.toNat + size < UInt64.size
  · rw [dif_pos fits]
    refine (t.pointerField_blamesTarget a _).bind fun pointer => ?_
    exact (nameAt_blamesTarget t pointer).bind fun _ => .pure _
  · rw [dif_neg fits]
    exact .throw rfl

end CodeBlob

namespace CompiledMethod

theorem sectionAt_blamesTarget (base : Address) (offset : UInt64) (what : Defect) :
    BlamesTarget (sectionAt t base offset what) := by
  refine (t.i32Field_blamesTarget base offset).bind fun n => ?_
  cases (CodeBlob.natural? n).bind base.add? with
  | none => exact .throw rfl
  | some a => exact .pure a

theorem read_blamesTarget (blob : CodeBlob) : BlamesTarget (CompiledMethod.read t blob) := by
  refine .ite ?_ (.bind (.throw rfl) fun _ => ?_)
  all_goals
    refine (sectionAt_blamesTarget t _ _ _).bind fun descriptorsBegin => ?_
    refine (sectionAt_blamesTarget t _ _ _).bind fun descriptorsEnd => ?_
    refine (sectionAt_blamesTarget t _ _ _).bind fun scopesData => ?_
    refine (sectionAt_blamesTarget t _ _ _).bind fun oops => ?_
    refine (t.pointerField_blamesTarget _ _).bind fun method => ?_
    exact (t.fieldAddress_blamesTarget _ _).bind fun _ => .pure _

theorem oopAt_blamesTarget (m : CompiledMethod) (index : UInt32) :
    BlamesTarget (m.oopAt t index) := by
  refine .ite (.pure none) ?_
  cases m.oops.add? ((index.toNat - 1) * t.pointerBytes) with
  | none => exact .throw rfl
  | some slot => exact (t.readPointer_blamesTarget slot).bind fun _ => .pure _

end CompiledMethod

theorem CodeBlob.compiledMethod?_blamesTarget (b : CodeBlob) :
    BlamesTarget (b.compiledMethod? t) :=
  .ite ((CompiledMethod.read_blamesTarget t b).bind fun _ => .pure _) (.pure none)

namespace ConstMethod

theorem read_blamesTarget (a : Address) : BlamesTarget (ConstMethod.read t a) := by
  refine (t.pointerField_blamesTarget a _).bind fun constants => ?_
  refine (t.u16Field_blamesTarget a _).bind fun codeSize => ?_
  refine (t.u16Field_blamesTarget a _).bind fun flags => ?_
  refine (t.u16Field_blamesTarget a _).bind fun nameIndex => ?_
  exact (t.u16Field_blamesTarget a _).bind fun _ => .pure _

theorem lineTable_blamesTarget (c : ConstMethod) : BlamesTarget (c.lineTable t) :=
  .ite ((t.fieldAddress_blamesTarget c.address _).bind fun _ => .pure _) (.pure none)

theorem symbolAt_blamesTarget (c : ConstMethod) (index : UInt16) :
    BlamesTarget (c.symbolAt t index) := by
  refine (t.pointerField_blamesTarget c.constants _).bind fun pointer => ?_
  cases pointer.nonNull? with
  | none => exact .throw rfl
  | some symbol => exact t.readSymbol_blamesTarget symbol

theorem holderName_blamesTarget (c : ConstMethod) : BlamesTarget (c.holderName t) := by
  refine (t.pointerField_blamesTarget c.constants _).bind fun pointer => ?_
  cases pointer.nonNull? with
  | none => exact .pure none
  | some klass =>
    refine (t.pointerField_blamesTarget klass _).bind fun pointer => ?_
    cases pointer.nonNull? with
    | none => exact .pure none
    | some name => exact (t.readSymbol_blamesTarget name).bind fun _ => .pure _

end ConstMethod

namespace Method

theorem read_blamesTarget (a : Address) : BlamesTarget (Method.read t a) := by
  refine (t.pointerField_blamesTarget a _).bind fun constMethod => ?_
  exact (ConstMethod.read_blamesTarget t constMethod).bind fun _ => .pure _

theorem lineAt_blamesTarget (m : Method) (bci : Bci) : BlamesTarget (m.lineAt t bci) :=
  (m.constMethod.lineTable_blamesTarget t).bind fun table =>
    LineTable.lineAt_blamesTarget t.memory table bci

theorem qualifiedName_blamesTarget (m : Method) : BlamesTarget (m.qualifiedName t) := by
  refine (m.constMethod.holderName_blamesTarget t).bind fun holder => ?_
  refine (m.constMethod.symbolAt_blamesTarget t _).bind fun name => ?_
  exact (m.constMethod.symbolAt_blamesTarget t _).bind fun _ => .pure _

end Method

theorem ScopeRecord.read_blamesTarget (s : ByteStream) :
    Step.BlamesTarget (ScopeRecord.read s) := by
  have hint := Compressed.readInt_blamesTarget s
  exact hint.bind fun sender => hint.bind fun methodIndex =>
    (hint.bind fun _ => .pure _).bind fun _ => .pure _

namespace CompiledMethod

theorem scopeAt_blamesTarget (m : CompiledMethod) (offset : UInt32) :
    BlamesTarget (m.scopeAt t offset) := by
  unfold scopeAt
  cases hread : ScopeRecord.read (m.scopesStream t) offset.toNat with
  | ok r p => exact .ok r
  | error e p => exact .error (ScopeRecord.read_blamesTarget _ _ e p hread)

theorem frameOf_blamesTarget (m : CompiledMethod) (r : ScopeRecord) :
    BlamesTarget (m.frameOf t r) := by
  refine (m.oopAt_blamesTarget t r.methodIndex).bind fun callee => ?_
  cases callee with
  | none => exact .pure _
  | some a =>
    refine (Method.read_blamesTarget t a).bind fun callee => ?_
    exact (callee.lineAt_blamesTarget t r.bci).bind fun _ => .pure _

theorem scopeFrame_blamesTarget (m : CompiledMethod) (offset : UInt32) :
    BlamesTarget (m.scopeFrame t offset) :=
  (m.scopeAt_blamesTarget t offset).bind fun r =>
    (m.frameOf_blamesTarget t r).bind fun _ => .pure _

theorem framesFrom_blamesTarget (m : CompiledMethod) (seen : List UInt32) (offset : UInt32) :
    BlamesTarget (m.framesFrom t seen offset) := by
  induction hleft : unvisited seen using Nat.strongRecOn generalizing seen offset with
  | ind left ih =>
    rw [framesFrom]
    refine .ite (.ok []) ?_
    by_cases hseen : offset ∈ seen
    · rw [dif_pos hseen]
      exact .error rfl
    · rw [dif_neg hseen]
      cases hscope : m.scopeFrame t offset with
      | error e => exact .error (m.scopeFrame_blamesTarget t offset e hscope)
      | ok scope =>
        have hless := unvisited_cons_lt hseen
        exact (ih _ (by omega) (offset :: seen) scope.1.sender rfl).bind fun _ => .pure _

theorem frames_blamesTarget (m : CompiledMethod) (desc : Descriptor) :
    BlamesTarget (m.frames t desc) := by
  unfold frames
  cases CodeBlob.natural? desc.scopeOffset with
  | none => exact .error rfl
  | some offset => exact m.framesFrom_blamesTarget t [] (UInt32.ofNat offset)

end CompiledMethod

end JitFrames
