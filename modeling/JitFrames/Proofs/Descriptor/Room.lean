import JitFrames.Code.Descriptor.Lookup
import JitFrames.Proofs.Descriptor.Span
import JitFrames.Proofs.Overflow.Derived

namespace JitFrames

variable {t : Target} {blob : CodeBlob} {m : CompiledMethod}

namespace CompiledMethod

variable {base a : Address} {offset : UInt64} {what : Defect}

/-- An offset in the header takes an address at most this far. -/
theorem sectionAt_eq_ok (h : sectionAt t base offset what = .ok a) :
    base.toNat ≤ a.toNat ∧ a.toNat ≤ base.toNat + offsetLimit := by
  obtain ⟨field, -, h⟩ := Answer.bind_eq_ok.mp h
  split at h
  · next place hplace =>
    obtain ⟨n, hn, hadd⟩ := Option.bind_eq_some_iff.mp hplace
    have hsum := Address.add?_eq_some_iff.mp hadd
    have hfield := CodeBlob.natural?_eq_some_iff.mp hn
    have hlt : field.toInt < 0x80000000 := field.toInt_lt
    rw [← Answer.pure_eq_ok.mp h]
    unfold offsetLimit
    omega
  · cases h

theorem descriptors_of_read (h : CompiledMethod.read t blob = .ok m) :
    blob.address.toNat ≤ m.descriptorsBegin.toNat ∧
      m.descriptorsEnd.toNat ≤ blob.address.toNat + offsetLimit := by
  unfold CompiledMethod.read at h
  split at h
  · obtain ⟨descriptorsBegin, hbegin, h⟩ := Answer.bind_eq_ok.mp h
    obtain ⟨descriptorsEnd, hend, h⟩ := Answer.bind_eq_ok.mp h
    obtain ⟨scopesData, -, h⟩ := Answer.bind_eq_ok.mp h
    obtain ⟨oops, -, h⟩ := Answer.bind_eq_ok.mp h
    obtain ⟨method, -, h⟩ := Answer.bind_eq_ok.mp h
    obtain ⟨cache, -, h⟩ := Answer.bind_eq_ok.mp h
    rw [← Answer.pure_eq_ok.mp h]
    exact ⟨(sectionAt_eq_ok hbegin).1, (sectionAt_eq_ok hend).2⟩
  · cases h

end CompiledMethod

namespace DescriptorTable

variable {d : DescriptorTable} {b : Bracket} {skip : Nat}

/-- Every step of a search leads to an index that is a word. On a table without such room a step
would lose its carry. -/
def Roomy (d : DescriptorTable) : Prop :=
  ∀ skip ∈ Bracket.skips, d.sentinel + skip < UInt64.size

/-- The steps of a search begin between the first entry and the closing one. -/
theorem Roomy.step_lt (h : d.Roomy) (hfloor : b.floor ≤ d.sentinel) (hskip : skip ∈ Bracket.skips) :
    b.floor + skip < UInt64.size :=
  Nat.lt_of_le_of_lt (Nat.add_le_add_right hfloor skip) (h skip hskip)

/-- Every entry takes at least one byte, so the offsets in the header bound their number. -/
theorem length_le_of_read (hread : CompiledMethod.read t blob = .ok m)
    (h : m.descriptorTable t = .ok d) : d.length ≤ CompiledMethod.offsetLimit := by
  obtain ⟨-, hstride, hspan⟩ := ofBounds_eq_ok_iff.mp h
  have hpos : 0 < t.layout.descriptor.size.toNat := hstride ▸ d.stride_pos
  have hle : d.length ≤ d.length * t.layout.descriptor.size.toNat :=
    Nat.le_mul_of_pos_right _ hpos
  obtain ⟨hbegin, hend⟩ := CompiledMethod.descriptors_of_read hread
  omega

theorem roomy_of_read (hread : CompiledMethod.read t blob = .ok m)
    (h : m.descriptorTable t = .ok d) : d.Roomy := by
  have hlength := length_le_of_read hread h
  have hsentinel : d.sentinel ≤ d.length := Nat.sub_le _ _
  have hsteps : ∀ skip ∈ Bracket.skips, CompiledMethod.offsetLimit + skip < UInt64.size := by
    decide
  intro skip hskip
  have hstep := hsteps skip hskip
  omega

end DescriptorTable

end JitFrames
