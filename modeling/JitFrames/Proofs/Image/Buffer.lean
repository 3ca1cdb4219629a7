import JitFrames.Proofs.DenseLayout
import JitFrames.Proofs.Image.Reading

namespace JitFrames

variable {bytes got : Bytes} {image : Image} {a : Address} {n : Nat}

namespace Memory

/-- Whether a read asks for a byte that a buffer does not have. -/
def Misses (bytes : Bytes) (a : Address) (n : Nat) : Prop := ∃ i < n, bytes[a.toNat + i]? = none

theorem misses_iff : Misses bytes a n ↔ 0 < n ∧ bytes.size < a.toNat + n := by
  constructor
  · intro h
    obtain ⟨i, hi, hnone⟩ := h
    have hsize : bytes.size ≤ a.toNat + i := Array.getElem?_eq_none_iff.mp hnone
    omega
  · intro h
    obtain ⟨hpos, hlt⟩ := h
    exact ⟨n - 1, by omega, Array.getElem?_eq_none_iff.mpr (by omega)⟩

theorem read_eq_unmapped_iff {m : Memory} :
    m.read a n = .error (.unmapped a n) ↔ m.bytes? a n = none := by
  unfold read
  cases m.bytes? a n with
  | some got => simp
  | none => simp

theorem bytes?_ofBytes_eq_some_iff (hsize : bytes.size < UInt64.size) :
    (ofBytes bytes).bytes? a n = some got ↔
      a.toNat + n ≤ bytes.size ∧ got = bytes.extract a.toNat (a.toNat + n) := by
  simp only [ofBytes, Option.bind_eq_bind, Option.bind_eq_some_iff, Address.add?_eq_some_iff]
  constructor
  · intro h
    obtain ⟨stop, hstop, hbytes⟩ := h
    rw [← hstop] at hbytes
    split at hbytes
    · next hle => exact ⟨hle, (Option.some.inj hbytes).symm⟩
    · cases hbytes
  · intro h
    obtain ⟨hle, hgot⟩ := h
    obtain ⟨stop, hadd⟩ := Address.exists_add? (show a.toNat + n < UInt64.size by omega)
    have hstop := Address.add?_eq_some_iff.mp hadd
    refine ⟨stop, hstop, ?_⟩
    rw [← hstop, if_pos hle, hgot]

end Memory

namespace Image

/-- The image that holds a buffer as its only region, from address 0 on. -/
def ofBuffer? (bytes : Bytes) : Option Image := empty.add? ⟨0, bytes⟩

theorem exists_ofBuffer? (hsize : bytes.size < UInt64.size) :
    ∃ image, ofBuffer? bytes = some image := by
  by_cases hempty : bytes.isEmpty = true
  · exact ⟨empty, add?_empty hempty⟩
  · have hbytes : bytes.isEmpty = false := by simpa using hempty
    refine ⟨_, (add?_eq_some_iff hbytes).mpr ⟨?_, rfl⟩⟩
    rw [wellFormed_empty.admits_iff_not_meets hbytes]
    have hstop : (Region.mk 0 bytes).stop = bytes.size := Nat.zero_add _
    exact ⟨by omega, fun s hs => absurd hs List.not_mem_nil⟩

theorem size_lt_of_ofBuffer? (h : ofBuffer? bytes = some image) : bytes.size < UInt64.size := by
  by_cases hempty : bytes.isEmpty = true
  · have hzero : bytes.size = 0 := by simpa [Array.isEmpty] using hempty
    rw [hzero]
    decide
  · have hbytes : bytes.isEmpty = false := by simpa using hempty
    obtain ⟨hadmits, -⟩ := (add?_eq_some_iff hbytes).mp h
    obtain ⟨hstop, -⟩ := (wellFormed_empty.admits_iff_not_meets hbytes).mp hadmits
    have hsize : (Region.mk 0 bytes).stop = bytes.size := Nat.zero_add _
    have hpos : 0 < UInt64.size := by decide
    omega

/-- In contrast to the buffer itself, the image has nothing to give where the buffer ends. -/
theorem bytes?_ofBuffer?_eq_some_iff (h : ofBuffer? bytes = some image) :
    image.memory.bytes? a n = some got ↔
      a.toNat < bytes.size ∧ a.toNat + n ≤ bytes.size ∧
        got = bytes.extract a.toNat (a.toNat + n) := by
  have hwell : image.WellFormed := wellFormed_empty.add? h
  have hstop : (Region.mk 0 bytes).stop = bytes.size := Nat.zero_add _
  have hregion : (Region.mk 0 bytes).bytes? a n = some got ↔ a.toNat < bytes.size ∧
      a.toNat + n ≤ bytes.size ∧ got = bytes.extract a.toNat (a.toNat + n) := by
    rw [Region.bytes?_eq_some_iff, Region.contains_iff, hstop]
    simp only [UInt64.toNat_zero, Nat.zero_le, true_and, Nat.sub_zero]
  rw [hwell.bytes?_eq_some_iff, ← hregion]
  by_cases hempty : bytes.isEmpty = true
  · have hzero : bytes.size = 0 := by simpa [Array.isEmpty] using hempty
    obtain rfl : empty = image := Option.some.inj ((add?_empty hempty).symm.trans h)
    rw [hregion]
    exact iff_of_false (fun hh => absurd hh.choose_spec.1 List.not_mem_nil) (by omega)
  · have hbytes : bytes.isEmpty = false := by simpa using hempty
    simp only [mem_add? hbytes h, empty, List.not_mem_nil, or_false, exists_eq_left]

/-- A buffer is an image of one region, if it fits into the address space. A read of the buffer
fails exactly if some byte of it is missing or it begins behind the end, and otherwise gives all of
its bytes. A read of the image gives the same, except that at the end of the buffer it fails also
for no bytes. -/
theorem read_ofBuffer? (bytes : Bytes) :
    (bytes.size < UInt64.size → ∃ image, ofBuffer? bytes = some image) ∧
    ∀ image, ofBuffer? bytes = some image → ∀ (a : Address) (n : Nat),
      ((Memory.ofBytes bytes).read a n = .error (.unmapped a n) ↔
        Memory.Misses bytes a n ∨ n = 0 ∧ bytes.size < a.toNat) ∧
      (∀ got, (Memory.ofBytes bytes).read a n = .ok got →
        got.size = n ∧ ∀ i < n, got[i]? = bytes[a.toNat + i]?) ∧
      (n ≠ 0 ∨ a.toNat ≠ bytes.size →
        image.memory.read a n = (Memory.ofBytes bytes).read a n) ∧
      (n = 0 → a.toNat = bytes.size → (Memory.ofBytes bytes).read a n = .ok #[] ∧
        image.memory.read a n = .error (.unmapped a n)) := by
  refine ⟨exists_ofBuffer?, fun image h a n => ?_⟩
  have hsize := size_lt_of_ofBuffer? h
  have hbuffer (got : Bytes) : (Memory.ofBytes bytes).bytes? a n = some got ↔
      a.toNat + n ≤ bytes.size ∧ got = bytes.extract a.toNat (a.toNat + n) :=
    Memory.bytes?_ofBytes_eq_some_iff hsize
  have himage (got : Bytes) : image.memory.bytes? a n = some got ↔ a.toNat < bytes.size ∧
      a.toNat + n ≤ bytes.size ∧ got = bytes.extract a.toNat (a.toNat + n) :=
    bytes?_ofBuffer?_eq_some_iff h
  refine ⟨?_, fun got hgot => ?_, fun hother => ?_, fun hn ha => ⟨?_, ?_⟩⟩
  · have hnone : (Memory.ofBytes bytes).bytes? a n = none ↔ bytes.size < a.toNat + n := by
      rw [Option.eq_none_iff_forall_ne_some]
      simp only [ne_eq, hbuffer, not_and, forall_eq_apply_imp_iff, ← Nat.not_le]
    rw [Memory.read_eq_unmapped_iff, hnone, Memory.misses_iff]
    omega
  · obtain ⟨hle, rfl⟩ := (hbuffer got).mp (Memory.read_eq_ok_iff.mp hgot)
    rw [Array.size_extract, Nat.min_eq_left hle]
    refine ⟨by omega, fun i hi => ?_⟩
    rw [Array.getElem?_extract, Nat.min_eq_left hle, if_pos (by omega)]
  · have hsame : image.memory.bytes? a n = (Memory.ofBytes bytes).bytes? a n := by
      apply Option.ext
      intro got
      rw [himage, hbuffer]
      exact and_iff_right_of_imp (fun hle => by omega)
    unfold Memory.read
    rw [hsame]
  · rw [Memory.read_eq_ok_iff, hbuffer]
    refine ⟨by omega, ?_⟩
    rw [hn, Nat.add_zero, Array.extract_empty_of_stop_le_start (Nat.le_refl _)]
  · rw [Memory.read_eq_unmapped_iff, Option.eq_none_iff_forall_ne_some]
    intro got hgot
    have hlt := ((himage got).mp hgot).1
    omega

/-- Two bytes as a buffer and as an image: one read inside, one that asks for a third byte, the one
at the end that asks for none, and one of no bytes behind the end. -/
theorem read_ofBuffer?_pair :
    ∃ image, ofBuffer? #[1, 2] = some image ∧
      image.memory.read 1 1 = (Memory.ofBytes #[1, 2]).read 1 1 ∧
      (Memory.ofBytes #[1, 2]).read 1 2 = .error (.unmapped 1 2) ∧
      (∀ got, (Memory.ofBytes #[1, 2]).read 0 2 = .ok got → got.size = 2) ∧
      (Memory.ofBytes #[1, 2]).read 2 0 = .ok #[] ∧
      image.memory.read 2 0 = .error (.unmapped 2 0) ∧
      image.memory.read 3 0 = (Memory.ofBytes #[1, 2]).read 3 0 := by
  obtain ⟨image, himage⟩ := (read_ofBuffer? #[1, 2]).1 (by decide)
  have hreads := (read_ofBuffer? #[1, 2]).2 image himage
  obtain ⟨hbuffer, hcaptured⟩ := (hreads 2 0).2.2.2 rfl rfl
  exact ⟨image, himage, (hreads 1 1).2.2.1 (.inl (by decide)),
    (hreads 1 2).1.mpr (.inl ⟨1, by decide, rfl⟩), fun got hgot => ((hreads 0 2).2.1 got hgot).1,
    hbuffer, hcaptured, (hreads 3 0).2.2.1 (.inr (by decide))⟩

/-- No byte is asked for, so none is missing, and the buffer gives the empty read that the image
refuses. A symbol of no characters at the end of what was captured is lost with it. -/
theorem empty_read_refused :
    ¬Memory.Misses #[1, 2] 2 0 ∧
      (Memory.ofBytes #[1, 2]).read 2 0 = .ok #[] ∧
      (ofBuffer? #[1, 2]).map (·.memory.read 2 0) = some (.error (.unmapped 2 0)) ∧
      (Target.mk (Memory.ofBytes #[1, 0, 0, 0]) .dense).readSymbol 0 = .ok "" ∧
      (ofBuffer? #[1, 0, 0, 0]).map (fun image => (Target.mk image.memory .dense).readSymbol 0) =
        some (.error (.unmapped 4 0)) := by
  refine ⟨?_, by decide, by decide, by decide +kernel, by decide +kernel⟩
  rw [Memory.misses_iff]
  omega

end Image

end JitFrames
