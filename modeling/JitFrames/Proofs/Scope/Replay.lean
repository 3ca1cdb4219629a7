import JitFrames.Proofs.Scope.Chain

namespace JitFrames.CompiledMethod

variable {m : CompiledMethod} {t : Target} {seen : List UInt32} {first a : UInt32} {e : Fault}

/-- The replay that starts at an offset comes to another one, with the offsets of all records that
it has read on its way. -/
inductive Comes (m : CompiledMethod) (t : Target) (first : UInt32) :
    List UInt32 → UInt32 → Prop where
  | start : Comes m t first [] first
  | onward {seen : List UInt32} {a : UInt32} {record : ScopeRecord} {frame : Frame} :
      Comes m t first seen a → a ≠ 0 → a ∉ seen → m.scopeFrame t a = .ok (record, frame) →
      Comes m t first (a :: seen) record.sender

/-- Each of the three numbers of a record takes a byte. -/
theorem RecordAt.span_le {record : ScopeRecord} (h : m.RecordAt t a record) :
    m.scopesData.toNat + a.toNat + 3 ≤ m.blob.stop.toNat := by
  obtain ⟨q, q', stop, stored, hsender, hmethod, hstored, -, hstop⟩ := h
  have hq := Compressed.readInt_eq_ok hsender
  have hq' := Compressed.readInt_eq_ok hmethod
  have hend := Compressed.readInt_eq_ok hstored
  omega

/-- A record that was read lies in front of the end of the blob, so its offset has an address. -/
theorem RecordAt.address_lt {record : ScopeRecord} (h : m.RecordAt t a record) :
    m.scopesData.toNat + a.toNat < UInt64.size := by
  have hspan := h.span_le
  have hblob := m.blob.stop.toNat_lt_size
  omega

theorem Comes.seen_lt (h : m.Comes t first seen a) :
    ∀ b ∈ seen, m.scopesData.toNat + b.toNat < UInt64.size := by
  induction h with
  | start => exact fun b hb => absurd hb List.not_mem_nil
  | onward _ _ _ hscope ih =>
    intro b hb
    obtain rfl | hb := List.mem_cons.mp hb
    · exact (scopeFrame_eq_ok_iff.mp hscope).1.address_lt
    · exact ih b hb

/-- Once the replay has come to an offset it fails as it fails from there. -/
theorem Comes.framesFrom_eq_error (h : m.Comes t first seen a)
    (he : m.framesFrom t seen a = .error e) : m.framesFrom t [] first = .error e := by
  induction h with
  | start => exact he
  | onward _ hnonzero hunseen hscope ih =>
    obtain ⟨hrecord, hframe⟩ := scopeFrame_eq_ok_iff.mp hscope
    apply ih
    rw [framesFrom_step hnonzero hunseen hrecord hframe, he]
    rfl

/-- The replay stands at an offset where it has to stop: at one that it has seen before, or at a
record that cannot be read or has no frame. -/
inductive StopsWith (m : CompiledMethod) (t : Target) (seen : List UInt32) (a : UInt32) :
    Fault → Prop where
  | revisit : a ∈ seen → StopsWith m t seen a (.malformed .scopeChain (m.scopesData + a.toUInt64))
  | record {e : Fault} : a ∉ seen → m.scopeFrame t a = .error e → StopsWith m t seen a e

theorem StopsWith.framesFrom_eq_error (h : m.StopsWith t seen a e) (hnonzero : a ≠ 0) :
    m.framesFrom t seen a = .error e := by
  cases h with
  | revisit hseen => rw [framesFrom, if_neg hnonzero, dif_pos hseen]
  | record hunseen hscope => rw [framesFrom, if_neg hnonzero, dif_neg hunseen, hscope]

theorem Comes.exists_stopsWith (hcomes : m.Comes t first seen a)
    (he : m.framesFrom t seen a = .error e) :
    ∃ seen' b, m.Comes t first seen' b ∧ b ≠ 0 ∧ m.StopsWith t seen' b e := by
  fun_induction framesFrom m t seen a with
  | case1 seen => cases he
  | case2 seen a hnonzero hseen =>
    cases he
    exact ⟨seen, a, hcomes, hnonzero, .revisit hseen⟩
  | case3 seen a hnonzero hunseen e' hscope =>
    cases he
    exact ⟨seen, a, hcomes, hnonzero, .record hunseen hscope⟩
  | case4 seen a hnonzero hunseen record frame hscope ih =>
    obtain hrest | ⟨rest, -, he⟩ := Answer.bind_eq_error_iff.mp he
    · exact ih (hcomes.onward hnonzero hunseen hscope) hrest
    · cases he

theorem framesFrom_eq_error_iff : m.framesFrom t [] first = .error e ↔
    ∃ seen a, m.Comes t first seen a ∧ a ≠ 0 ∧ m.StopsWith t seen a e := by
  constructor
  · exact Comes.exists_stopsWith .start
  · intro h
    obtain ⟨seen, a, hcomes, hnonzero, hstops⟩ := h
    exact hcomes.framesFrom_eq_error (hstops.framesFrom_eq_error hnonzero)

end JitFrames.CompiledMethod
