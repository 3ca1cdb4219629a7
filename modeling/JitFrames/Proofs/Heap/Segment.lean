import JitFrames.Code.Heap

namespace JitFrames

theorem Target.fieldAddress_eq_ok_iff {t : Target} {base a : Address} {n : Nat} :
    t.fieldAddress base n = .ok a ↔ base.toNat + n = a.toNat := by
  rw [← Address.add?_eq_some_iff]
  simp only [fieldAddress]
  cases base.add? n with
  | none => simp
  | some b => simp

theorem CodeBlob.stop_toNat (b : CodeBlob) : b.stop.toNat = b.address.toNat + b.size :=
  UInt64.toNat_ofNat_of_lt' b.fits

theorem CodeBlob.contains_iff {b : CodeBlob} {p : Address} :
    b.contains p = true ↔
      b.address.toNat ≤ p.toNat ∧ p.toNat < b.address.toNat + b.size := by
  unfold contains range
  rw [AddressRange.contains_iff]
  show _ ∧ p.toNat < b.stop.toNat ↔ _
  rw [b.stop_toNat]

namespace CodeHeap

variable {h : CodeHeap} {t : Target} {p : Address} {s : Nat} {d : UInt8}

/-- Where a segment begins, as a number without bound. -/
def segmentStart (h : CodeHeap) (s : Nat) : Nat :=
  h.memory.start.toNat + s <<< h.log2SegmentSize

theorem segmentStart_mono {s' : Nat} (hs : s ≤ s') : h.segmentStart s ≤ h.segmentStart s' := by
  simp only [segmentStart]
  rw [Nat.shiftLeft_eq, Nat.shiftLeft_eq]
  exact Nat.add_le_add_left (Nat.mul_le_mul_right _ hs) _

theorem segmentOf?_eq_some_iff :
    h.segmentOf? p = some s ↔
      h.contains p = true ∧ h.segmentStart s ≤ p.toNat ∧ p.toNat < h.segmentStart (s + 1) := by
  simp only [segmentOf?]
  by_cases hp : h.contains p = true
  · have hlow : h.memory.start.toNat ≤ p.toNat := (AddressRange.contains_iff.mp hp).1
    have hsize : 0 < 2 ^ h.log2SegmentSize := Nat.two_pow_pos _
    rw [if_pos hp, Option.some.injEq, Nat.shiftRight_eq_div_pow, Nat.div_eq_iff hsize]
    simp only [segmentStart]
    rw [Nat.shiftLeft_eq, Nat.shiftLeft_eq, Nat.succ_mul]
    constructor
    · intro hs
      exact ⟨hp, by omega, by omega⟩
    · intro hh
      obtain ⟨-, hs⟩ := hh
      omega
  · simp [hp]

/-- Every address of the heap lies in a segment. -/
theorem exists_segmentOf? (hp : h.contains p = true) : ∃ s, h.segmentOf? p = some s :=
  ⟨_, if_pos hp⟩

/-- The map holds a byte for a segment. -/
def MapHolds (h : CodeHeap) (t : Target) (s : Nat) (d : UInt8) : Prop :=
  s < h.segmentMap.size ∧
    ∃ a : Address, a.toNat = h.segmentMap.start.toNat + s ∧ t.memory.byte? a = some d

/-- A map byte lies in the map, in front of its end, which is an address. -/
theorem mapAddress_toNat (hs : s < h.segmentMap.size) :
    (h.segmentMap.start + UInt64.ofNat s).toNat = h.segmentMap.start.toNat + s := by
  have hstop := h.segmentMap.stop.toNat_lt_size
  have hfits : h.segmentMap.start.toNat + s < UInt64.size := by
    simp only [AddressRange.size] at hs
    omega
  rw [UInt64.toNat_add, UInt64.toNat_ofNat', Nat.add_mod_mod, Nat.mod_eq_of_lt hfits]

theorem mapByte_eq_ok_iff : h.mapByte t s = .ok d ↔ h.MapHolds t s d := by
  unfold mapByte MapHolds
  by_cases hs : h.segmentMap.size ≤ s
  · rw [if_pos hs]
    constructor
    · intro heq
      cases heq
    · intro hh
      obtain ⟨hlt, -⟩ := hh
      omega
  · have ha := mapAddress_toNat (Nat.lt_of_not_le hs)
    rw [if_neg hs]
    simp only [Target.readU8]
    rw [Memory.readByte_eq_ok_iff]
    constructor
    · intro hd
      exact ⟨Nat.lt_of_not_le hs, _, ha, hd⟩
    · intro hh
      obtain ⟨-, a, ha', hd⟩ := hh
      rw [UInt64.toNat_inj.mp (ha.trans ha'.symm)]
      exact hd

theorem MapHolds.unique {d' : UInt8} (hd : h.MapHolds t s d) (hd' : h.MapHolds t s d') :
    d = d' := by
  have heq := (mapByte_eq_ok_iff.mpr hd).symm.trans (mapByte_eq_ok_iff.mpr hd')
  exact Except.ok.inj heq

/-- A segment that begins inside the address space loses no bits of its offset. -/
theorem blockAt_eq {a : Address} (ha : a.toNat = h.segmentStart s) :
    h.blockAt t s = HeapBlock.read t a := by
  have hfits : s <<< h.log2SegmentSize < UInt64.size := by
    have hlt := a.toNat_lt_size
    simp only [segmentStart] at ha
    omega
  have hadd : h.memory.start.add? (s <<< h.log2SegmentSize) = some a :=
    Address.add?_eq_some_iff.mpr ha.symm
  simp only [blockAt]
  rw [Nat.mod_eq_of_lt hfits, hadd]

end CodeHeap

end JitFrames
