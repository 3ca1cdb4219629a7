import Mathlib.Data.List.Forall2
import JitFrames.Proofs.Growth.Scope
import JitFrames.Proofs.Heap.Search
import JitFrames.Proofs.Scope.Chain
import JitFrames.Proofs.Symbolizer

namespace JitFrames

/-- A list of steps succeeds exactly if each of them does. -/
theorem Answer.mapM_eq_ok_iff {ε α β : Type} {f : α → Except ε β} {as : List α} {bs : List β} :
    as.mapM f = .ok bs ↔ List.Forall₂ (fun a b => f a = .ok b) as bs := by
  induction as generalizing bs with
  | nil =>
    rw [List.mapM_nil, Answer.pure_eq_ok, List.forall₂_nil_left_iff]
    exact eq_comm
  | cons a as ih =>
    rw [List.mapM_cons, Answer.bind_eq_ok, List.forall₂_cons_left_iff]
    simp only [Answer.bind_eq_ok, Answer.pure_eq_ok]
    constructor
    · intro hh
      obtain ⟨b, hb, rest, hrest, rfl⟩ := hh
      exact ⟨b, rest, hb, ih.mp hrest, rfl⟩
    · intro hh
      obtain ⟨b, rest, hb, hrest, rfl⟩ := hh
      exact ⟨b, hb, rest, ih.mpr hrest, rfl⟩

namespace Resolution

variable {t : Target} {heap : CodeHeap} {a : Address} {blob : CodeBlob} {m : CompiledMethod}
  {method : Option Address} {name : String} {frame : Frame}
  {call : InlinedCall} {calls : List InlinedCall} {desc : Option Descriptor} {r : Resolution}

/-- The name that a call goes by: that of its method, if the method is recorded. -/
def NameOf (t : Target) (method : Option Address) (name : String) : Prop :=
  match method with
  | none => name = unknownFunction
  | some a => ∃ m, Method.read t a = .ok m ∧ m.qualifiedName t = .ok name

/-- A call tells a frame: its name, and where in the method it stands. -/
structure Tells (t : Target) (frame : Frame) (call : InlinedCall) : Prop where
  name : NameOf t frame.method call.function
  location : call.location = some ⟨frame.bci, frame.line⟩

/-- The calls at a descriptor: with scope information those of its frames in their order, without
it the one call of the compiled method itself, which stands nowhere. -/
structure CallsAt (t : Target) (m : CompiledMethod) (desc : Option Descriptor)
    (calls : List InlinedCall) : Prop where
  framed : ∀ d, desc = some d → d.scopeOffset ≠ 0 →
    ∃ frames, m.frames t d = .ok frames ∧ List.Forall₂ (Tells t) frames calls
  bare : (∀ d, desc = some d → d.scopeOffset = 0) →
    ∃ name, NameOf t m.method.nonNull? name ∧ calls = [⟨name, none⟩]

/-- What the resolution of an address in a blob says. -/
structure Reflects (r : Resolution) (t : Target) (blob : CodeBlob) (a : Address) : Prop where
  address : r.address = a
  blobName : r.blob = blob.name
  other : blob.name ≠ compiledMethodName → r.descriptor = none ∧ r.calls = [⟨blob.name, none⟩]
  compiled : blob.name = compiledMethodName → ∃ m, CompiledMethod.read t blob = .ok m ∧
    m.descriptorAt t a = .ok r.descriptor ∧ CallsAt t m r.descriptor r.calls

theorem functionName_eq_ok_iff : functionName t method = .ok name ↔ NameOf t method name := by
  cases method with
  | none =>
    have hnone : functionName t none = .ok unknownFunction := rfl
    rw [hnone, Except.ok.injEq]
    exact eq_comm
  | some a =>
    have hsome : functionName t (some a) = (do (← Method.read t a).qualifiedName t) := rfl
    rw [hsome, Answer.bind_eq_ok]
    rfl

theorem callOf_eq_ok_iff : callOf t frame = .ok call ↔ Tells t frame call := by
  unfold callOf
  rw [Answer.bind_eq_ok]
  simp only [functionName_eq_ok_iff, Answer.pure_eq_ok]
  constructor
  · intro hh
    obtain ⟨name, hname, rfl⟩ := hh
    exact ⟨hname, rfl⟩
  · intro hh
    obtain ⟨hname, hlocation⟩ := hh
    refine ⟨call.function, hname, ?_⟩
    rw [← hlocation]

theorem framesAt_eq_nil_iff :
    desc.elim (pure []) (m.frames t) = .ok [] ↔ ∀ d, desc = some d → d.scopeOffset = 0 := by
  cases desc with
  | none => simp [Answer.pure_eq_ok]
  | some d => simp [CompiledMethod.frames_eq_nil_iff]

/-- No frame at all means that the compiled method stands in. -/
theorem callsAt_bare (h : ∀ d, desc = some d → d.scopeOffset = 0) :
    callsAt t m desc = .ok calls ↔
      ∃ name, NameOf t m.method.nonNull? name ∧ calls = [⟨name, none⟩] := by
  rw [callsAt_eq, framesAt_eq_nil_iff.mpr h, Answer.ok_bind, List.mapM_nil, pure_bind,
    List.isEmpty_nil, if_pos rfl, Answer.bind_eq_ok]
  simp only [functionName_eq_ok_iff, Answer.pure_eq_ok]
  exact exists_congr fun name => and_congr_right fun _ => eq_comm

/-- There is a frame, so there is a call, and nothing stands in. -/
theorem callsAt_framed {d : Descriptor} (h : d.scopeOffset ≠ 0) :
    callsAt t m (some d) = .ok calls ↔
      ∃ frames, m.frames t d = .ok frames ∧ List.Forall₂ (Tells t) frames calls := by
  rw [callsAt_eq, Option.elim_some]
  simp only [Answer.bind_eq_ok, Answer.mapM_eq_ok_iff, callOf_eq_ok_iff]
  refine exists_congr fun frames => and_congr_right fun hframes => ?_
  have hsome : frames ≠ [] := by
    intro hnil
    rw [hnil] at hframes
    exact h (CompiledMethod.frames_eq_nil_iff.mp hframes)
  have hcalls {told : List InlinedCall} (htold : List.Forall₂ (Tells t) frames told) :
      told.isEmpty = false := by
    rw [List.isEmpty_eq_false_iff, ← List.length_pos_iff, ← htold.length_eq]
    exact List.length_pos_iff.mpr hsome
  constructor
  · intro hh
    obtain ⟨told, htold, hanswer⟩ := hh
    rw [hcalls htold, if_neg Bool.false_ne_true] at hanswer
    cases Answer.pure_eq_ok.mp hanswer
    exact htold
  · intro htold
    refine ⟨calls, htold, ?_⟩
    rw [hcalls htold, if_neg Bool.false_ne_true]
    rfl

/-- A descriptor has scope information, or there is none at all. -/
theorem bare_or_framed (desc : Option Descriptor) :
    (∀ d, desc = some d → d.scopeOffset = 0) ∨ ∃ d, desc = some d ∧ d.scopeOffset ≠ 0 := by
  cases desc with
  | none => exact .inl fun d hd => nomatch hd
  | some d =>
    by_cases hscope : d.scopeOffset = 0
    · exact .inl fun d' hd' => Option.some.inj hd' ▸ hscope
    · exact .inr ⟨d, rfl, hscope⟩

theorem callsAt_eq_ok_iff : callsAt t m desc = .ok calls ↔ CallsAt t m desc calls := by
  obtain hbare | ⟨d, rfl, hscope⟩ := bare_or_framed desc
  · rw [callsAt_bare hbare]
    constructor
    · intro hcalls
      exact ⟨fun d hd hscope => absurd (hbare d hd) hscope, fun _ => hcalls⟩
    · intro hh
      exact hh.bare hbare
  · rw [callsAt_framed hscope]
    constructor
    · intro hcalls
      refine ⟨fun d' hd' _ => ?_, fun h => absurd (h d rfl) hscope⟩
      cases hd'
      exact hcalls
    · intro hh
      exact hh.framed d rfl hscope

theorem CallsAt.nonempty (h : CallsAt t m desc calls) : calls ≠ [] := by
  obtain hbare | ⟨d, rfl, hscope⟩ := bare_or_framed desc
  · obtain ⟨name, -, rfl⟩ := h.bare hbare
    exact List.cons_ne_nil _ _
  · obtain ⟨frames, hframes, htold⟩ := h.framed d rfl hscope
    intro hnil
    rw [hnil, List.forall₂_nil_right_iff] at htold
    rw [htold] at hframes
    exact hscope (CompiledMethod.frames_eq_nil_iff.mp hframes)

theorem Reflects.nonempty (h : r.Reflects t blob a) : r.calls ≠ [] := by
  by_cases hname : blob.name = compiledMethodName
  · obtain ⟨m, -, -, hcalls⟩ := h.compiled hname
    exact hcalls.nonempty
  · rw [(h.other hname).2]
    exact List.cons_ne_nil _ _

theorem ofAddress_of_none (h : heap.findBlob t a = .ok none) : ofAddress t heap a = .ok none := by
  unfold ofAddress
  rw [h]
  rfl

theorem ofAddress_of_other (h : heap.findBlob t a = .ok (some blob))
    (hname : blob.name ≠ compiledMethodName) :
    ofAddress t heap a = .ok (some ⟨a, blob.name, none, [⟨blob.name, none⟩]⟩) := by
  have hother : blob.isCompiledMethod = false := beq_false_of_ne hname
  unfold ofAddress CodeBlob.compiledMethod?
  rw [h, Answer.ok_bind]
  simp only [hother]
  rfl

theorem ofAddress_of_compiled (h : heap.findBlob t a = .ok (some blob))
    (hname : blob.name = compiledMethodName) :
    ofAddress t heap a = (do
      let m ← CompiledMethod.read t blob
      let desc ← m.descriptorAt t a
      return some ⟨a, blob.name, desc, ← callsAt t m desc⟩) := by
  have hcompiled : blob.isCompiledMethod = true := beq_iff_eq.mpr hname
  unfold ofAddress CodeBlob.compiledMethod?
  rw [h, Answer.ok_bind]
  simp only [hcompiled, if_true, bind_assoc, pure_bind]

/-- For an address in a blob there is no other answer than what the metadata of the blob tells. -/
theorem ofAddress_of_some {answer : Option Resolution} (h : heap.findBlob t a = .ok (some blob)) :
    ofAddress t heap a = .ok answer ↔ ∃ r : Resolution, answer = some r ∧ r.Reflects t blob a := by
  by_cases hname : blob.name = compiledMethodName
  · rw [ofAddress_of_compiled h hname]
    simp only [Answer.bind_eq_ok, Answer.pure_eq_ok, callsAt_eq_ok_iff]
    constructor
    · intro hh
      obtain ⟨m, hm, desc, hdesc, calls, hcalls, rfl⟩ := hh
      exact ⟨_, rfl, rfl, rfl, fun h => absurd hname h, fun _ => ⟨m, hm, hdesc, hcalls⟩⟩
    · intro hh
      obtain ⟨r, rfl, haddress, hblob, -, hcompiled⟩ := hh
      obtain ⟨m, hm, hdesc, hcalls⟩ := hcompiled hname
      refine ⟨m, hm, r.descriptor, hdesc, r.calls, hcalls, ?_⟩
      rw [← haddress, ← hblob]
  · rw [ofAddress_of_other h hname, Except.ok.injEq]
    constructor
    · intro hh
      obtain rfl := hh
      exact ⟨_, rfl, rfl, rfl, fun _ => ⟨rfl, rfl⟩, fun h => absurd h hname⟩
    · intro hh
      obtain ⟨r, rfl, haddress, hblob, hother, -⟩ := hh
      obtain ⟨hdesc, hcalls⟩ := hother hname
      rw [← hcalls, ← hdesc, ← haddress, ← hblob]

theorem exists_found {answer : Option Resolution} (h : ofAddress t heap a = .ok answer) :
    ∃ found, heap.findBlob t a = .ok found := by
  unfold ofAddress at h
  obtain ⟨found, hfound, -⟩ := Answer.bind_eq_ok.mp h
  exact ⟨found, hfound⟩

theorem ofAddress_eq_none_iff : ofAddress t heap a = .ok none ↔ heap.findBlob t a = .ok none := by
  constructor
  · intro hh
    obtain ⟨found, hfound⟩ := exists_found hh
    cases found with
    | none => exact hfound
    | some blob =>
      obtain ⟨r, hr, -⟩ := (ofAddress_of_some hfound).mp hh
      cases hr
  · exact ofAddress_of_none

theorem ofAddress_eq_some_iff :
    ofAddress t heap a = .ok (some r) ↔
      ∃ blob, heap.findBlob t a = .ok (some blob) ∧ r.Reflects t blob a := by
  constructor
  · intro hh
    obtain ⟨found, hfound⟩ := exists_found hh
    cases found with
    | none =>
      rw [ofAddress_of_none hfound] at hh
      cases hh
    | some blob =>
      obtain ⟨r', hr, hreflects⟩ := (ofAddress_of_some hfound).mp hh
      cases hr
      exact ⟨blob, hfound, hreflects⟩
  · intro hh
    obtain ⟨blob, hfound, hreflects⟩ := hh
    exact (ofAddress_of_some hfound).mpr ⟨r, rfl, hreflects⟩

end Resolution

namespace Symbolizer

/-- However often it was asked before, a symbolizer knows nothing exactly of the addresses outside
all blobs. The answer for any other address is the one that the metadata of its blob tells, given
exactly if all that it takes can be read, and it names at least one call. -/
theorem resolve_reflects {t : Target} {home : Address} {s : Symbolizer} (hs : InUse t home s)
    (a : Address) :
    ((s.resolve a).1 = .ok none ↔ s.locate a = .ok none) ∧
    ∀ r, ((s.resolve a).1 = .ok (some r) ↔
        ∃ blob, s.locate a = .ok (some blob) ∧ r.Reflects s.target blob a) ∧
      ((s.resolve a).1 = .ok (some r) → r.calls ≠ []) := by
  rw [hs.faithful.answer a]
  refine ⟨Resolution.ofAddress_eq_none_iff,
    fun r => ⟨Resolution.ofAddress_eq_some_iff, fun hr => ?_⟩⟩
  obtain ⟨blob, -, hreflects⟩ := Resolution.ofAddress_eq_some_iff.mp hr
  exact hreflects.nonempty

/-- A code heap of two segments, the second one unused, with the compiled code of the method
`A.m()V` in the first: a cache with the first descriptor, a table with this one and the closing one,
two scopes (an unrecorded method, and `A.m()V` inlined into it), and the method as the one
reference. Behind it the metadata of the method, with one pair in the line table. -/
def oneMethod : Target where
  layout := .dense
  memory := Image.memory ⟨[
    ⟨0x100, ([0x200, 0x300, 0x180, 0x182, 7].flatMap wordBytes).toArray⟩,
    ⟨0x180, #[0, 0xFF]⟩,
    ⟨0x200, (1 :: ([0x400, 84, 52, 0x500, 52, 68, 68, 80, 0x235, 0, 0, 0, 0, 4, 4, 12, 0].flatMap
      wordBytes ++ [0, 0, 0, 8, 1, 1, 4, 0, 0, 0, 0, 0] ++ wordBytes 0x500)).toArray⟩,
    ⟨0x400, #[0x6E, 0x6D, 0x65, 0x74, 0x68, 0x6F, 0x64, 0]⟩,
    ⟨0x500, (wordBytes 0x510).toArray⟩,
    ⟨0x510, (wordBytes 0x540 ++ [0, 0, 1, 0, 0, 0, 1, 0, 29, 0]).toArray⟩,
    ⟨0x540, ([0x560, 0x570, 0x580].flatMap wordBytes).toArray⟩,
    ⟨0x560, (wordBytes 0x590).toArray⟩,
    ⟨0x570, (wordBytes 0x10000 ++ [0x6D]).toArray⟩,
    ⟨0x580, (wordBytes 0x30000 ++ [0x28, 0x29, 0x56]).toArray⟩,
    ⟨0x590, (wordBytes 0x10000 ++ [0x41]).toArray⟩]⟩

def oneMethodHeap : CodeHeap := ⟨0x100, ⟨0x200, 0x300⟩, ⟨0x180, 0x182⟩, 7⟩

def oneMethodBlob : CodeBlob := ⟨0x201, 84, 52, "nmethod", by decide⟩

def oneMethodCode : CompiledMethod where
  blob := oneMethodBlob
  method := 0x500
  descriptorsBegin := 0x235
  descriptorsEnd := 0x245
  scopesData := 0x245
  oops := 0x251
  descriptorCache := 0x221

theorem oneMethod_name : Resolution.NameOf oneMethod (some 0x500) "A.m()V" := by
  apply Resolution.functionName_eq_ok_iff.mp
  decide +kernel

theorem oneMethod_frames : oneMethodCode.frames oneMethod ⟨0x235, 4, 4⟩ =
    .ok [⟨some 0x500, 3, 5⟩, ⟨none, 7, SourceLine.unknown⟩] := by
  have hinner : oneMethodCode.RecordAt oneMethod 4 ⟨1, 1, 3⟩ :=
    ⟨5, 6, 7, 4, rfl, rfl, rfl, rfl, by decide⟩
  have hinnerFrame : oneMethodCode.FrameOf oneMethod ⟨1, 1, 3⟩ ⟨some 0x500, 3, 5⟩ :=
    ⟨rfl, rfl, _, rfl, by decide +kernel⟩
  have houter : oneMethodCode.RecordAt oneMethod 1 ⟨0, 0, 7⟩ :=
    ⟨2, 3, 4, 8, rfl, rfl, rfl, rfl, by decide⟩
  have houterFrame :
      oneMethodCode.FrameOf oneMethod ⟨0, 0, 7⟩ ⟨none, 7, SourceLine.unknown⟩ := ⟨rfl, rfl, rfl⟩
  have hends : oneMethodCode.framesFrom oneMethod [1, 4] 0 = .ok [] :=
    CompiledMethod.framesFrom_eq_nil_iff.mpr rfl
  have hlast := CompiledMethod.framesFrom_eq_cons_iff.mpr
    ⟨by decide, by decide, _, houter, houterFrame, hends⟩
  rw [CompiledMethod.frames_eq_framesFrom (by decide : (4 : Int32).toInt = (4 : UInt32).toNat)]
  exact CompiledMethod.framesFrom_eq_cons_iff.mpr
    ⟨by decide, by decide, _, hinner, hinnerFrame, hlast⟩

/-- The call with its caller, an address in front of the machine code, and the unused segment. -/
theorem resolve_reflects_oneMethod :
    ∃ s, ofHeapAt oneMethod 0x100 = .ok s ∧
      (s.resolve 0x239).1 = .ok (some ⟨0x239, "nmethod", some ⟨0x235, 4, 4⟩,
        [⟨"A.m()V", some ⟨3, 5⟩⟩, ⟨"<unknown>", some ⟨7, -1⟩⟩]⟩) ∧
      (s.resolve 0x210).1 =
        .ok (some ⟨0x210, "nmethod", none, [⟨"A.m()V", none⟩]⟩) ∧
      (s.resolve 0x290).1 = .ok none := by
  have hs : ofHeapAt oneMethod 0x100 = .ok ⟨oneMethod, oneMethodHeap, []⟩ := rfl
  have hall := resolve_reflects (.made hs)
  have hblob : CodeBlob.read oneMethod 0x201 = .ok oneMethodBlob := rfl
  have hcode : CompiledMethod.read oneMethod oneMethodBlob = .ok oneMethodCode := rfl
  have hframed : Resolution.CallsAt oneMethod oneMethodCode (some ⟨0x235, 4, 4⟩)
      [⟨"A.m()V", some ⟨3, 5⟩⟩, ⟨"<unknown>", some ⟨7, -1⟩⟩] := by
    apply Resolution.callsAt_eq_ok_iff.mp
    apply (Resolution.callsAt_framed (by decide)).mpr
    exact ⟨_, oneMethod_frames, .cons ⟨oneMethod_name, rfl⟩ (.cons ⟨rfl, rfl⟩ .nil)⟩
  have hbare : Resolution.CallsAt oneMethod oneMethodCode none [⟨"A.m()V", none⟩] := by
    apply Resolution.callsAt_eq_ok_iff.mp
    apply (Resolution.callsAt_bare (by simp)).mpr
    exact ⟨_, oneMethod_name, rfl⟩
  refine ⟨_, hs, ?_, ?_, ?_⟩
  · have hlocate : oneMethodHeap.findBlob oneMethod 0x239 = .ok (some oneMethodBlob) :=
      CodeHeap.findBlob_eq_some_iff.mpr ⟨by decide +kernel, hblob, by decide⟩
    apply ((hall 0x239).2 _).1.mpr
    exact ⟨oneMethodBlob, hlocate, rfl, rfl, fun h => absurd rfl h,
      fun _ => ⟨oneMethodCode, hcode, by decide +kernel, hframed⟩⟩
  · have hlocate : oneMethodHeap.findBlob oneMethod 0x210 = .ok (some oneMethodBlob) :=
      CodeHeap.findBlob_eq_some_iff.mpr ⟨by decide +kernel, hblob, by decide⟩
    apply ((hall 0x210).2 _).1.mpr
    exact ⟨oneMethodBlob, hlocate, rfl, rfl, fun h => absurd rfl h,
      fun _ => ⟨oneMethodCode, hcode, by decide +kernel, hbare⟩⟩
  · exact (hall 0x290).1.mpr rfl

end Symbolizer

end JitFrames
