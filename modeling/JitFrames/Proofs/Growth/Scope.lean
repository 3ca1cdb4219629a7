import JitFrames.Proofs.Growth.Descriptor
import JitFrames.Proofs.Growth.Heap
import JitFrames.Symbolizer

namespace JitFrames

open Answer (Persists)

variable {m m' : Memory} {layout : Layout}

theorem ScopeRecord.read_persists (h : m.Extends m') (origin : Address) :
    Step.Persists (ScopeRecord.read ⟨m, origin⟩) (ScopeRecord.read ⟨m', origin⟩) := by
  refine (h.readInt origin).bind fun sender => ?_
  refine (h.readInt origin).bind fun methodIndex => ?_
  exact ((h.readInt origin).bind fun _ => .refl _).bind fun _ => .refl _

namespace CompiledMethod

/-- The range that bounds the records is known from the method, so it is the same over both
memories. -/
theorem scopeAt_persists (h : m.Extends m') (method : CompiledMethod) (offset : UInt32) :
    Persists (method.scopeAt ⟨m, layout⟩ offset) (method.scopeAt ⟨m', layout⟩ offset) := by
  unfold scopeAt scopesStream
  obtain ⟨a, n, p, hread⟩ | hsame :=
    ScopeRecord.read_persists (h.within method.scopesRange) method.scopesData offset.toNat
  · rw [hread]
    exact .inl ⟨a, n, rfl⟩
  · rw [hsame]
    exact .refl _

theorem frameOf_persists (h : m.Extends m') (method : CompiledMethod) (r : ScopeRecord) :
    Persists (method.frameOf ⟨m, layout⟩ r) (method.frameOf ⟨m', layout⟩ r) := by
  refine (method.oopAt_persists h r.methodIndex).bind fun callee => ?_
  cases callee with
  | none => exact .refl _
  | some a =>
    refine (Method.read_persists h a).bind fun callee => ?_
    exact (callee.lineAt_persists h r.bci).bind fun _ => .refl _

theorem scopeFrame_persists (h : m.Extends m') (method : CompiledMethod) (offset : UInt32) :
    Persists (method.scopeFrame ⟨m, layout⟩ offset) (method.scopeFrame ⟨m', layout⟩ offset) := by
  refine (method.scopeAt_persists h offset).bind fun r => ?_
  exact (method.frameOf_persists h r).bind fun _ => .refl _

theorem framesFrom_persists (h : m.Extends m') (method : CompiledMethod) (seen : List UInt32)
    (offset : UInt32) :
    Persists (method.framesFrom ⟨m, layout⟩ seen offset)
      (method.framesFrom ⟨m', layout⟩ seen offset) := by
  induction hleft : unvisited seen using Nat.strongRecOn generalizing seen offset with
  | ind left ih =>
    rw [framesFrom, framesFrom]
    refine .ite (fun _ => .refl _) fun _ => ?_
    by_cases hseen : offset ∈ seen
    · rw [dif_pos hseen, dif_pos hseen]
      exact .refl _
    · rw [dif_neg hseen, dif_neg hseen]
      -- A revisited offset was told apart above: it does not depend on the memory.
      obtain ⟨a, n, hscope⟩ | hsame := method.scopeFrame_persists h offset
      · rw [hscope]
        exact .inl ⟨a, n, rfl⟩
      · rw [hsame]
        cases method.scopeFrame ⟨m, layout⟩ offset with
        | error e => exact .refl _
        | ok scope =>
          have hless := unvisited_cons_lt hseen
          have hrest := ih _ (by omega) (offset :: seen) scope.1.sender rfl
          exact hrest.bind fun _ => .refl _

theorem frames_persists (h : m.Extends m') (method : CompiledMethod) (desc : Descriptor) :
    Persists (method.frames ⟨m, layout⟩ desc) (method.frames ⟨m', layout⟩ desc) := by
  unfold frames
  cases CodeBlob.natural? desc.scopeOffset with
  | none => exact .refl _
  | some offset => exact method.framesFrom_persists h [] (UInt32.ofNat offset)

end CompiledMethod

namespace Resolution

theorem functionName_persists (h : m.Extends m') (method : Option Address) :
    Persists (functionName ⟨m, layout⟩ method) (functionName ⟨m', layout⟩ method) := by
  cases method with
  | none => exact .refl _
  | some a => exact (Method.read_persists h a).bind fun method => method.qualifiedName_persists h

theorem callOf_persists (h : m.Extends m') (frame : Frame) :
    Persists (callOf ⟨m, layout⟩ frame) (callOf ⟨m', layout⟩ frame) :=
  (functionName_persists h frame.method).bind fun _ => .refl _

/-- With or without a descriptor the frames become calls in one way. -/
theorem callsAt_eq (t : Target) (method : CompiledMethod) (desc : Option Descriptor) :
    callsAt t method desc = (do
      let calls ← (← desc.elim (pure []) (method.frames t)).mapM (callOf t)
      if calls.isEmpty then return [⟨← functionName t method.method.nonNull?, none⟩]
      else return calls) := by
  unfold callsAt
  cases desc with
  | none =>
    refine bind_congr fun frames => bind_congr fun calls => ?_
    cases calls <;> rfl
  | some d =>
    refine bind_congr fun frames => bind_congr fun calls => ?_
    cases calls <;> rfl

theorem callsAt_persists (h : m.Extends m') (method : CompiledMethod) (desc : Option Descriptor) :
    Persists (callsAt ⟨m, layout⟩ method desc) (callsAt ⟨m', layout⟩ method desc) := by
  have hframes : Persists (desc.elim (pure []) (method.frames ⟨m, layout⟩))
      (desc.elim (pure []) (method.frames ⟨m', layout⟩)) := by
    cases desc with
    | none =>
      rw [Option.elim_none, Option.elim_none]
      exact .refl _
    | some d => exact method.frames_persists h d
  rw [callsAt_eq, callsAt_eq]
  refine hframes.bind fun frames => ?_
  refine (Persists.mapM (callOf_persists h) frames).bind fun calls => ?_
  refine .ite (fun _ => ?_) fun _ => .refl _
  exact (functionName_persists h method.method.nonNull?).bind fun _ => .refl _

theorem ofAddress_persists (h : m.Extends m') (heap : CodeHeap) (a : Address) :
    Persists (ofAddress ⟨m, layout⟩ heap a) (ofAddress ⟨m', layout⟩ heap a) := by
  refine (heap.findBlob_persists h a).bind fun found => ?_
  cases found with
  | none => exact .refl _
  | some blob =>
    refine (blob.compiledMethod?_persists h).bind fun compiled => ?_
    cases compiled with
    | none => exact .refl _
    | some method =>
      refine (method.descriptorAt_persists h a).bind fun desc => ?_
      exact (callsAt_persists h method desc).bind fun _ => .refl _

end Resolution

end JitFrames
