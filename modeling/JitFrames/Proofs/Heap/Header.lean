import JitFrames.Proofs.Answer
import JitFrames.Proofs.Heap.Segment

namespace JitFrames

theorem Memory.readByte_congr {m m' : Memory} {a : Address} (h : m'.byte? a = m.byte? a) :
    m'.readByte a = m.readByte a := by
  unfold readByte
  rw [h]

theorem Memory.readByte_eq_error {m : Memory} {a : Address} {e : Fault}
    (h : m.readByte a = .error e) : e = .unmapped a 1 := by
  unfold readByte at h
  split at h
  · cases h
  · cases h
    rfl

theorem Target.fieldAddress_eq_error {t : Target} {base : Address} {n : Nat} {e : Fault}
    (h : t.fieldAddress base n = .error e) : e = .malformed .fieldAddress base := by
  unfold fieldAddress at h
  split at h
  · cases h
  · cases h
    rfl

namespace HeapBlock

variable {t : Target} {header start : Address} {e : Fault} {b : HeapBlock}

/-- The header's byte that tells whether the block is used. -/
def UsedByte (t : Target) (header : Address) (used : UInt8) : Prop :=
  ∃ a : Address, a.toNat = header.toNat + t.layout.heapBlock.used.toNat ∧
    t.memory.byte? a = some used

theorem read_eq_ok_iff :
    read t header = .ok b ↔ ∃ used, UsedByte t header used ∧ b = ⟨header, used != 0⟩ := by
  unfold read
  simp only [Answer.bind_eq_ok, Answer.pure_eq_ok, Target.fieldAddress_eq_ok_iff]
  constructor
  · intro hh
    obtain ⟨a, ha, used, hused, hb⟩ := hh
    exact ⟨used, ⟨a, ha.symm, Memory.readByte_eq_ok_iff.mp hused⟩, hb.symm⟩
  · intro hh
    obtain ⟨used, ⟨a, ha, hused⟩, hb⟩ := hh
    exact ⟨a, ha.symm, used, Memory.readByte_eq_ok_iff.mpr hused, hb.symm⟩

/-- Where the contents of the block with a header begin, unless it is free. -/
def contentsAt (t : Target) (header : Address) : Answer (Option Address) := do
  let block ← read t header
  if !block.used then
    return none
  return some (← block.allocatedSpace t)

theorem contentsAt_eq_some_iff :
    contentsAt t header = .ok (some start) ↔
      (∃ used, UsedByte t header used ∧ used ≠ 0) ∧
      start.toNat = header.toNat + t.layout.heapBlock.size.toNat := by
  unfold contentsAt
  simp only [Answer.bind_eq_ok, read_eq_ok_iff]
  constructor
  · intro hh
    obtain ⟨block, ⟨used, hused, rfl⟩, hstart⟩ := hh
    split at hstart
    · cases hstart
    · next hfree =>
      obtain ⟨a, ha, hstart⟩ := Answer.bind_eq_ok.mp hstart
      cases Answer.pure_eq_ok.mp hstart
      refine ⟨⟨used, hused, ?_⟩, (Target.fieldAddress_eq_ok_iff.mp ha).symm⟩
      intro heq
      exact hfree (by simp [heq])
  · intro hh
    obtain ⟨⟨used, hused, hnonzero⟩, hstart⟩ := hh
    refine ⟨_, ⟨used, hused, rfl⟩, ?_⟩
    have hspace : allocatedSpace ⟨header, used != 0⟩ t = .ok start :=
      Target.fieldAddress_eq_ok_iff.mpr hstart.symm
    rw [if_neg (by simpa using hnonzero), hspace]
    rfl

/-- The header can be missing or run past the address space; no fault of it blames the map. -/
theorem contentsAt_eq_error (h : contentsAt t header = .error e) :
    e = .malformed .fieldAddress header ∨ ∃ a, e = .unmapped a 1 := by
  obtain hread | ⟨block, hread, h⟩ := Answer.bind_eq_error_iff.mp h
  · obtain hfield | ⟨a, -, hbyte⟩ := Answer.bind_eq_error_iff.mp hread
    · exact .inl (Target.fieldAddress_eq_error hfield)
    · obtain hbyte | ⟨used, -, hpure⟩ := Answer.bind_eq_error_iff.mp hbyte
      · exact .inr ⟨a, Memory.readByte_eq_error hbyte⟩
      · cases hpure
  · obtain ⟨used, -, rfl⟩ := read_eq_ok_iff.mp hread
    split at h
    · cases h
    · obtain hspace | ⟨a, -, hpure⟩ := Answer.bind_eq_error_iff.mp h
      · exact .inl (Target.fieldAddress_eq_error hspace)
      · cases hpure

theorem contentsAt_congr {m : Memory}
    (hbyte : ∀ a : Address, a.toNat = header.toNat + t.layout.heapBlock.used.toNat →
      m.byte? a = t.memory.byte? a) :
    contentsAt ⟨m, t.layout⟩ header = contentsAt t header := by
  have hread : read ⟨m, t.layout⟩ header = read t header := by
    unfold read
    cases hfield : t.fieldAddress header t.layout.heapBlock.used.toNat with
    | error e =>
      have hfield' : Target.fieldAddress ⟨m, t.layout⟩ header t.layout.heapBlock.used.toNat =
        .error e := hfield
      rw [hfield']
      rfl
    | ok a =>
      have hfield' : Target.fieldAddress ⟨m, t.layout⟩ header t.layout.heapBlock.used.toNat =
        .ok a := hfield
      have ha := (Target.fieldAddress_eq_ok_iff.mp hfield).symm
      rw [hfield', Answer.ok_bind, Answer.ok_bind]
      simp only [Target.readU8]
      rw [Memory.readByte_congr (hbyte a ha)]
  unfold contentsAt
  rw [hread]
  rfl

end HeapBlock

end JitFrames
