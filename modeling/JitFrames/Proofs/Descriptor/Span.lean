import JitFrames.Proofs.Descriptor.Table

namespace JitFrames.DescriptorTable

/-- One past the last entry. -/
def stop (d : DescriptorTable) : Nat := d.start.toNat + d.length * d.stride

variable {d : DescriptorTable} {start stop a : Address} {stride : UInt64} {i : Nat}

/-- A table between two addresses has its first entry at the one and ends at the other. -/
theorem ofBounds_eq_ok_iff :
    ofBounds start stop stride = .ok d ↔
      d.start = start ∧ d.stride = stride.toNat ∧
        start.toNat + d.length * stride.toNat = stop.toNat := by
  unfold ofBounds
  constructor
  · intro h
    split at h
    · cases h
    · next size hsize =>
      have hdistance := Address.distance?_eq_some_iff.mp hsize
      split at h
      · next hwhole =>
        cases h
        have hlength := Nat.div_mul_cancel (Nat.dvd_of_mod_eq_zero hwhole.2)
        refine ⟨rfl, rfl, ?_⟩
        dsimp only
        omega
      · cases h
  · rintro ⟨rfl, hstride, hstop⟩
    have hpos : 0 < stride.toNat := hstride ▸ d.stride_pos
    split
    · next hbefore =>
      have hdistance := Address.distance?_eq_some_iff.mpr hstop
      rw [hbefore] at hdistance
      cases hdistance
    · next size hsize =>
      have hdistance := Address.distance?_eq_some_iff.mp hsize
      have hlength : size = d.length * stride.toNat := by omega
      subst hlength
      rw [dif_pos ⟨hpos, Nat.mul_mod_left _ _⟩]
      obtain ⟨first, width, length, _, _⟩ := d
      subst hstride
      simp only [Nat.mul_div_cancel length hpos]

theorem exists_ofBounds_iff :
    (∃ d, ofBounds start stop stride = .ok d) ↔
      0 < stride.toNat ∧ start.toNat ≤ stop.toNat ∧
        stride.toNat ∣ stop.toNat - start.toNat := by
  constructor
  · rintro ⟨d, h⟩
    obtain ⟨-, hstride, hstop⟩ := ofBounds_eq_ok_iff.mp h
    refine ⟨hstride ▸ d.stride_pos, by omega, d.length, ?_⟩
    rw [Nat.mul_comm]
    omega
  · rintro ⟨hpos, hle, length, hlength⟩
    have hend : start.toNat + length * stride.toNat = stop.toNat := by
      rw [Nat.mul_comm]
      omega
    have hfits : start.toNat + length * stride.toNat < UInt64.size := by
      rw [hend]
      exact stop.toNat_lt_size
    exact ⟨⟨start, stride.toNat, length, hpos, hfits⟩, ofBounds_eq_ok_iff.mpr ⟨rfl, rfl, hend⟩⟩

theorem addressOf_lt_stop (hi : i < d.length) : (d.addressOf i).toNat < d.stop := by
  have hmul : (i + 1) * d.stride ≤ d.length * d.stride := Nat.mul_le_mul_right _ hi
  have hpos := d.stride_pos
  rw [Nat.succ_mul] at hmul
  rw [addressOf_toNat hi, DescriptorTable.stop]
  omega

/-- An address inside the table that a whole number of entries leads to is one of its entries. -/
theorem exists_indexOf?_iff :
    (∃ i, d.indexOf? a = some i) ↔
      d.start.toNat ≤ a.toNat ∧ a.toNat < d.stop ∧ d.stride ∣ a.toNat - d.start.toNat := by
  constructor
  · rintro ⟨i, h⟩
    obtain ⟨hi, rfl⟩ := indexOf?_eq_some_iff.mp h
    refine ⟨?_, addressOf_lt_stop hi, i, ?_⟩
    · rw [addressOf_toNat hi]
      exact Nat.le_add_right _ _
    · rw [addressOf_toNat hi, Nat.add_sub_cancel_left, Nat.mul_comm]
  · rintro ⟨hstart, hstop, i, hi⟩
    have haddress : a.toNat = d.start.toNat + i * d.stride := by
      rw [Nat.mul_comm i]
      omega
    have hlt : i < d.length := by
      apply Nat.lt_of_mul_lt_mul_right (a := d.stride)
      unfold DescriptorTable.stop at hstop
      omega
    refine ⟨i, indexOf?_eq_some_iff.mpr ⟨hlt, UInt64.toNat_inj.mp ?_⟩⟩
    rw [addressOf_toNat hlt, haddress]

theorem indexOf?_eq_none_iff :
    d.indexOf? a = none ↔
      a.toNat < d.start.toNat ∨ d.stop ≤ a.toNat ∨ ¬d.stride ∣ a.toNat - d.start.toNat := by
  have hsome : d.indexOf? a = none ↔ ¬∃ i, d.indexOf? a = some i := by
    cases d.indexOf? a <;> simp
  rw [hsome, exists_indexOf?_iff]
  omega

theorem le_sentinel (hi : i < d.length) : i ≤ d.sentinel := by
  unfold sentinel
  omega

/-- A table is made between two addresses exactly if the second does not lie before the first and a
whole number of entries of some size fits between them. Then no sum that leads to an entry leaves
the address space, every entry lies between the two addresses, an address has an index exactly if it
is that of the entry, and the closing entry is the last one unless there is none. -/
theorem ofBounds_bijective (start stop : Address) (stride : UInt64) :
    ((∃ d, ofBounds start stop stride = .ok d) ↔
      0 < stride.toNat ∧ start.toNat ≤ stop.toNat ∧
        stride.toNat ∣ stop.toNat - start.toNat) ∧
    ∀ d, ofBounds start stop stride = .ok d →
      d.length * stride.toNat = stop.toNat - start.toNat ∧
      (∀ i < d.length,
        start.toNat + i * stride.toNat < UInt64.size ∧
        (d.addressOf i).toNat = start.toNat + i * stride.toNat ∧
        start.toNat ≤ (d.addressOf i).toNat ∧ (d.addressOf i).toNat < stop.toNat ∧
        d.indexOf? (d.addressOf i) = some i) ∧
      (∀ a i, d.indexOf? a = some i ↔ i < d.length ∧ d.addressOf i = a) ∧
      (∀ a, d.indexOf? a = none ↔
        a.toNat < start.toNat ∨ stop.toNat ≤ a.toNat ∨
          ¬stride.toNat ∣ a.toNat - start.toNat) ∧
      (0 < d.length → d.sentinel < d.length ∧ ∀ i < d.length, i ≤ d.sentinel) := by
  refine ⟨exists_ofBounds_iff, fun d h => ?_⟩
  obtain ⟨rfl, hstride, hstop⟩ := ofBounds_eq_ok_iff.mp h
  have hend : d.stop = stop.toNat := by
    rw [DescriptorTable.stop, hstride, hstop]
  refine ⟨by omega, fun i hi => ?_, fun a i => indexOf?_eq_some_iff, fun a => ?_, fun hpos => ?_⟩
  · have haddress := addressOf_toNat hi
    have hlt := addressOf_lt_stop hi
    have hsize := (d.addressOf i).toNat_lt_size
    rw [hstride] at haddress
    exact ⟨haddress ▸ hsize, haddress, by omega, by omega, indexOf?_addressOf hi⟩
  · rw [indexOf?_eq_none_iff, hend, hstride]
  · exact ⟨Nat.sub_lt hpos Nat.one_pos, fun i hi => le_sentinel hi⟩

/-- Two entries of two bytes up to the last address, which is none of them, and neither is the middle
of the first. -/
theorem ofBounds_bijective_topmost :
    ∃ d, ofBounds 0xFFFFFFFFFFFFFFFB 0xFFFFFFFFFFFFFFFF 2 = .ok d ∧ d.length = 2 ∧
      d.indexOf? (d.addressOf 1) = some 1 ∧ d.indexOf? 0xFFFFFFFFFFFFFFFC = none ∧
      d.indexOf? 0xFFFFFFFFFFFFFFFF = none ∧ d.sentinel < d.length := by
  obtain ⟨hmade, hentries⟩ := ofBounds_bijective 0xFFFFFFFFFFFFFFFB 0xFFFFFFFFFFFFFFFF 2
  obtain ⟨d, hd⟩ := hmade.mpr (by decide)
  obtain ⟨hlength, hindices, -, hnone, hsentinel⟩ := hentries d hd
  have htwo : d.length = 2 := by
    have hfour : d.length * 2 = 4 := hlength
    omega
  have hsecond := hindices 1 (by omega)
  have hmiddle := (hnone 0xFFFFFFFFFFFFFFFC).mpr (.inr (.inr (by decide)))
  have hbehind := (hnone 0xFFFFFFFFFFFFFFFF).mpr (.inr (.inl (by decide)))
  exact ⟨d, hd, htwo, hsecond.2.2.2.2, hmiddle, hbehind, (hsentinel (by omega)).1⟩

end JitFrames.DescriptorTable
