import JitFrames.Code.Descriptor.Table
import JitFrames.Proofs.Answer

namespace JitFrames

theorem Descriptor.address_of_read {t : Target} {a : Address} {desc : Descriptor}
    (h : Descriptor.read t a = .ok desc) : desc.address = a := by
  obtain ⟨pcOffset, -, h⟩ := Answer.bind_eq_ok.mp h
  obtain ⟨scopeOffset, -, h⟩ := Answer.bind_eq_ok.mp h
  rw [← Answer.pure_eq_ok.mp h]

namespace DescriptorTable

variable {d : DescriptorTable} {t : Target} {a : Address} {i : Nat}

theorem addressOf_toNat (hi : i < d.length) :
    (d.addressOf i).toNat = d.start.toNat + i * d.stride := by
  have hmul : i * d.stride ≤ d.length * d.stride := Nat.mul_le_mul_right _ (Nat.le_of_lt hi)
  have hfits := d.fits
  exact UInt64.toNat_ofNat_of_lt' (by omega)

/-- The entries of a table are told apart by their addresses, and nothing else is one. -/
theorem indexOf?_eq_some_iff : d.indexOf? a = some i ↔ i < d.length ∧ d.addressOf i = a := by
  have hpos := d.stride_pos
  simp only [indexOf?]
  constructor
  · intro h
    obtain ⟨offset, hoffset, h⟩ := Option.bind_eq_some_iff.mp h
    split at h
    · next hentry =>
      cases h
      refine ⟨hentry.2, UInt64.toNat_inj.mp ?_⟩
      rw [addressOf_toNat hentry.2, Nat.div_mul_cancel (Nat.dvd_of_mod_eq_zero hentry.1)]
      exact Address.distance?_eq_some_iff.mp hoffset
    · cases h
  · intro hh
    obtain ⟨hi, rfl⟩ := hh
    refine Option.bind_eq_some_iff.mpr ⟨i * d.stride, ?_, ?_⟩
    · exact Address.distance?_eq_some_iff.mpr (addressOf_toNat hi).symm
    · rw [Nat.mul_mod_left, Nat.mul_div_cancel _ hpos, if_pos ⟨rfl, hi⟩]

theorem indexOf?_addressOf (hi : i < d.length) : d.indexOf? (d.addressOf i) = some i :=
  indexOf?_eq_some_iff.mpr ⟨hi, rfl⟩

/-- A table with no entry at all has no closing one either. -/
theorem indexOf?_eq_sentinel_iff :
    d.indexOf? a = some d.sentinel ↔ 0 < d.length ∧ a = d.addressOf d.sentinel := by
  rw [indexOf?_eq_some_iff]
  constructor
  · intro h
    exact ⟨Nat.zero_lt_of_lt h.1, h.2.symm⟩
  · intro h
    exact ⟨Nat.sub_lt h.1 Nat.one_pos, h.2.symm⟩

/-- The entries of a table in memory, without the one that closes it. -/
structure Lists (d : DescriptorTable) (t : Target) (entries : List Descriptor) : Prop where
  length : d.length = entries.length + 1
  entry : ∀ i e, entries[i]? = some e → d.entry t i = .ok e

variable {entries : List Descriptor}

theorem Lists.sentinel (h : d.Lists t entries) : d.sentinel = entries.length := by
  simp only [DescriptorTable.sentinel]
  rw [h.length, Nat.add_sub_cancel]

theorem lists_pair {x y : Descriptor} (hlength : d.length = 3) (hx : d.entry t 0 = .ok x)
    (hy : d.entry t 1 = .ok y) : d.Lists t [x, y] where
  length := hlength
  entry i e he := by
    match i with
    | 0 => cases he; exact hx
    | 1 => cases he; exact hy

/-- Entries in ascending order of their instruction offsets. -/
def Ascending (entries : List Descriptor) : Prop :=
  entries.Pairwise fun x y => x.pcOffset.toInt ≤ y.pcOffset.toInt

/-- No two entries share an instruction offset. -/
def StrictlyAscending (entries : List Descriptor) : Prop :=
  entries.Pairwise fun x y => x.pcOffset.toInt < y.pcOffset.toInt

instance : Decidable (Ascending entries) :=
  inferInstanceAs (Decidable (List.Pairwise _ entries))

instance : Decidable (StrictlyAscending entries) :=
  inferInstanceAs (Decidable (List.Pairwise _ entries))

theorem Ascending.le {j : Nat} {x y : Descriptor} (h : Ascending entries) (hij : i ≤ j)
    (hx : entries[i]? = some x) (hy : entries[j]? = some y) :
    x.pcOffset.toInt ≤ y.pcOffset.toInt := by
  obtain ⟨hi, rfl⟩ := List.getElem?_eq_some_iff.mp hx
  obtain ⟨hj, rfl⟩ := List.getElem?_eq_some_iff.mp hy
  rcases Nat.eq_or_lt_of_le hij with rfl | hlt
  · exact Int.le_refl _
  · exact List.pairwise_iff_getElem.mp h i j hi hj hlt

theorem StrictlyAscending.eq {x y : Descriptor} (h : StrictlyAscending entries)
    (hx : x ∈ entries) (hy : y ∈ entries) (heq : x.pcOffset.toInt = y.pcOffset.toInt) :
    x = y := by
  obtain ⟨i, hi, rfl⟩ := List.mem_iff_getElem.mp hx
  obtain ⟨j, hj, rfl⟩ := List.mem_iff_getElem.mp hy
  rcases Nat.lt_trichotomy i j with hlt | rfl | hlt
  · exact absurd heq (Int.ne_of_lt (List.pairwise_iff_getElem.mp h i j hi hj hlt))
  · rfl
  · exact absurd heq.symm (Int.ne_of_lt (List.pairwise_iff_getElem.mp h j i hj hi hlt))

end DescriptorTable

end JitFrames
