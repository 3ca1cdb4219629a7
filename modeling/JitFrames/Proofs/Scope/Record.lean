import JitFrames.Code.Scope
import JitFrames.Proofs.Answer
import JitFrames.Proofs.Codec.Within

namespace JitFrames

namespace ScopeRecord

theorem read_narrows {m : Memory} {r : AddressRange} :
    Decoder.Narrows r (ScopeRecord.read ⟨m.within r, r.start⟩) (ScopeRecord.read ⟨m, r.start⟩) := by
  apply Compressed.readInt_narrows.bind
  intro sender
  apply Compressed.readInt_narrows.bind
  intro methodIndex
  refine Decoder.Narrows.bind ?_ fun bci => .pure (ScopeRecord.mk sender methodIndex bci)
  exact Compressed.readInt_narrows.bind fun stored => .pure (stored.toInt32 + Bci.invocationEntry)

theorem read_eq_ok_iff {s : ByteStream} {p stop : Nat} {record : ScopeRecord} :
    ScopeRecord.read s p = .ok record stop ↔
      ∃ q q' stored, Compressed.readInt s p = .ok record.sender q ∧
        Compressed.readInt s q = .ok record.methodIndex q' ∧
        Compressed.readInt s q' = .ok stored stop ∧ record.bci = stored.toInt32 - 1 := by
  constructor
  · intro h
    obtain ⟨sender, q, hsender, h⟩ := bind_eq_ok.mp h
    obtain ⟨methodIndex, q', hmethod, h⟩ := bind_eq_ok.mp h
    obtain ⟨bci, q'', hbci, h⟩ := bind_eq_ok.mp h
    obtain ⟨rfl, rfl⟩ := pure_eq_ok.mp h
    obtain ⟨stored, q'', hstored, h⟩ := bind_eq_ok.mp hbci
    obtain ⟨rfl, rfl⟩ := pure_eq_ok.mp h
    exact ⟨q, q', stored, hsender, hmethod, hstored, (Int32.sub_eq_add_neg _ 1).symm⟩
  · intro hh
    obtain ⟨q, q', stored, hsender, hmethod, hstored, hbci⟩ := hh
    refine bind_eq_ok.mpr ⟨_, q, hsender, bind_eq_ok.mpr ⟨_, q', hmethod, ?_⟩⟩
    refine bind_eq_ok.mpr ⟨record.bci, stop, ?_, pure_eq_ok.mpr ⟨rfl, rfl⟩⟩
    refine bind_eq_ok.mpr ⟨stored, stop, hstored, pure_eq_ok.mpr ⟨?_, rfl⟩⟩
    rw [hbci, Int32.sub_eq_add_neg]
    rfl

end ScopeRecord

namespace CompiledMethod

variable {m : CompiledMethod} {t : Target} {offset : UInt32} {record : ScopeRecord} {frame : Frame}

/-- The scopes data and whatever memory follows them. -/
def scopes (m : CompiledMethod) (t : Target) : ByteStream := ⟨t.memory, m.scopesData⟩

/-- A record stands at an offset: three numbers, the last of them before the end of the blob. -/
def RecordAt (m : CompiledMethod) (t : Target) (offset : UInt32) (record : ScopeRecord) : Prop :=
  ∃ q q' stop stored,
    Compressed.readInt (m.scopes t) offset.toNat = .ok record.sender q ∧
    Compressed.readInt (m.scopes t) q = .ok record.methodIndex q' ∧
    Compressed.readInt (m.scopes t) q' = .ok stored stop ∧
    record.bci = stored.toInt32 - 1 ∧
    m.scopesData.toNat + stop ≤ m.blob.stop.toNat

/-- The frame of a record: its method, its bytecode index, and the line of the method there. -/
structure FrameOf (m : CompiledMethod) (t : Target) (record : ScopeRecord) (frame : Frame) :
    Prop where
  method : m.oopAt t record.methodIndex = .ok frame.method
  bci : frame.bci = record.bci
  line : match frame.method with
    | none => frame.line = SourceLine.unknown
    | some a => ∃ method, Method.read t a = .ok method ∧ method.lineAt t frame.bci = .ok frame.line

/-- The record at an offset describes a frame. -/
def Describes (m : CompiledMethod) (t : Target) (offset : UInt32) (frame : Frame) : Prop :=
  ∃ record, m.RecordAt t offset record ∧ m.FrameOf t record frame

theorem scopeAt_eq_ok_iff : m.scopeAt t offset = .ok record ↔ m.RecordAt t offset record := by
  have hread {stop : Nat} :
      ScopeRecord.read (m.scopesStream t) offset.toNat = .ok record stop ↔
        ScopeRecord.read (m.scopes t) offset.toNat = .ok record stop ∧
          (stop = offset.toNat ∨ m.scopesData.toNat + stop ≤ m.blob.stop.toNat) :=
    (ScopeRecord.read_narrows (r := m.scopesRange)).eq_ok_iff
  simp only [RecordAt]
  constructor
  · intro h
    simp only [scopeAt] at h
    split at h
    · next r stop hr =>
      cases h
      obtain ⟨hr, hstop⟩ := hread.mp hr
      obtain ⟨q, q', stored, hsender, hmethod, hstored, hbci⟩ := ScopeRecord.read_eq_ok_iff.mp hr
      -- A record is never empty, so it is its end that must lie in the range.
      have hq := Compressed.readInt_eq_ok hsender
      have hq' := Compressed.readInt_eq_ok hmethod
      have hend := Compressed.readInt_eq_ok hstored
      exact ⟨q, q', stop, stored, hsender, hmethod, hstored, hbci, by omega⟩
    · cases h
  · intro hh
    obtain ⟨q, q', stop, stored, hsender, hmethod, hstored, hbci, hstop⟩ := hh
    have hr := ScopeRecord.read_eq_ok_iff.mpr ⟨q, q', stored, hsender, hmethod, hstored, hbci⟩
    simp only [scopeAt]
    rw [hread.mpr ⟨hr, .inr hstop⟩]

theorem frameOf_eq_ok_iff : m.frameOf t record = .ok frame ↔ m.FrameOf t record frame := by
  constructor
  · intro h
    obtain ⟨oop, hoop, h⟩ := Answer.bind_eq_ok.mp h
    cases oop with
    | none =>
      cases Answer.pure_eq_ok.mp h
      exact ⟨hoop, rfl, rfl⟩
    | some a =>
      obtain ⟨method, hmethod, h⟩ := Answer.bind_eq_ok.mp h
      obtain ⟨line, hline, h⟩ := Answer.bind_eq_ok.mp h
      cases Answer.pure_eq_ok.mp h
      exact ⟨hoop, rfl, method, hmethod, hline⟩
  · obtain ⟨oop, bci, line⟩ := frame
    intro hh
    obtain ⟨hoop, rfl, hline⟩ := hh
    refine Answer.bind_eq_ok.mpr ⟨oop, hoop, ?_⟩
    cases oop with
    | none =>
      cases hline
      rfl
    | some a =>
      obtain ⟨method, hmethod, hline⟩ := hline
      refine Answer.bind_eq_ok.mpr ⟨method, hmethod, ?_⟩
      exact Answer.bind_eq_ok.mpr ⟨line, hline, rfl⟩

theorem scopeFrame_eq_ok_iff :
    m.scopeFrame t offset = .ok (record, frame) ↔
      m.RecordAt t offset record ∧ m.FrameOf t record frame := by
  rw [← scopeAt_eq_ok_iff, ← frameOf_eq_ok_iff]
  constructor
  · intro h
    obtain ⟨r, hr, h⟩ := Answer.bind_eq_ok.mp h
    obtain ⟨f, hf, h⟩ := Answer.bind_eq_ok.mp h
    cases Answer.pure_eq_ok.mp h
    exact ⟨hr, hf⟩
  · intro hh
    obtain ⟨hr, hf⟩ := hh
    exact Answer.bind_eq_ok.mpr ⟨record, hr, Answer.bind_eq_ok.mpr ⟨frame, hf, rfl⟩⟩

end CompiledMethod

end JitFrames
