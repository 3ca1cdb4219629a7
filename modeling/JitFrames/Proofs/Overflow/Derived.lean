import JitFrames.Code.Method
import JitFrames.Memory.Image
import JitFrames.Proofs.Heap.Search

namespace JitFrames

variable {t : Target} {a base : Address} {b : CodeBlob} {n : Nat}

/-- What comes of adding to a base an offset that was itself added up in words. -/
structure Derived (base : Address) (offset : Nat) (answer : Answer Address) : Prop where
  exact : offset < UInt64.size → ∀ a, answer = .ok a ↔ a.toNat = base.toNat + offset
  refused : offset < UInt64.size → UInt64.size ≤ base.toNat + offset →
    answer = .error (.malformed .fieldAddress base)
  carryLost : UInt64.size ≤ offset → ∀ a,
    answer = .ok a ↔ a.toNat + UInt64.size = base.toNat + offset
  fault : ∀ e, answer = .error e → e = .malformed .fieldAddress base

theorem Target.fieldAddress_of_not_fits (h : UInt64.size ≤ base.toNat + n) :
    t.fieldAddress base n = .error (.malformed .fieldAddress base) := by
  simp only [fieldAddress, Address.add?_eq_none_iff.mpr h]

/-- A sum of two words loses at most one carry. -/
theorem derived_fieldAddress (base : Address) {offset : UInt64}
    (hoffset : offset.toNat = n % UInt64.size) (hn : n < 2 * UInt64.size) :
    Derived base n (t.fieldAddress base offset.toNat) where
  exact hfits a := by
    rw [Target.fieldAddress_eq_ok_iff, hoffset, Nat.mod_eq_of_lt hfits]
    exact eq_comm
  refused hfits hpast := by
    rw [← Nat.mod_eq_of_lt hfits, ← hoffset] at hpast
    exact Target.fieldAddress_of_not_fits hpast
  carryLost hcarry a := by
    have hlost : offset.toNat + UInt64.size = n := by
      rw [hoffset, Nat.mod_eq_sub_mod hcarry, Nat.mod_eq_of_lt (by omega)]
      omega
    rw [Target.fieldAddress_eq_ok_iff]
    omega
  fault _ he := Target.fieldAddress_eq_error he

theorem Target.pointerBytes_le (t : Target) : t.pointerBytes ≤ 8 := by
  unfold pointerBytes PointerWidth.bytes
  cases t.layout.machine.pointerWidth with
  | four => decide
  | eight => decide

namespace ConstMethod

/-- How far behind a `ConstMethod` its line table begins. -/
def lineTableOffset (c : ConstMethod) (t : Target) : Nat :=
  t.layout.constMethod.size.toNat + c.codeSize.toNat

/-- How far behind a constant pool one of its slots is. -/
def slotOffset (t : Target) (index : UInt16) : Nat :=
  t.layout.constantPool.size.toNat + index.toNat * t.pointerBytes

/-- The symbol that a slot points to. -/
def symbolIn (c : ConstMethod) (t : Target) (slot : Address) : Answer String := do
  match (← t.readPointer slot).nonNull? with
  | some symbol => t.readSymbol symbol
  | none => throw (.malformed .poolSymbol c.constants)

theorem lineTable_derived (c : ConstMethod) (t : Target) (h : c.hasLineTable = true) :
    ∃ answer, c.lineTable t = some <$> answer ∧
      Derived c.address (c.lineTableOffset t) answer := by
  refine ⟨t.fieldAddress c.address (t.layout.constMethod.size + c.codeSize.toUInt64).toNat, ?_,
    derived_fieldAddress _ ?_ ?_⟩
  · unfold lineTable
    rw [if_pos h]
    exact (map_eq_pure_bind some _).symm
  · rw [UInt64.toNat_add, UInt16.toNat_toUInt64]
    rfl
  · have hsize := t.layout.constMethod.size.toNat_lt_size
    have hcode := c.codeSize.toNat_lt_size
    have hword : UInt16.size < UInt64.size := by decide
    unfold lineTableOffset
    omega

theorem symbolAt_derived (c : ConstMethod) (t : Target) (index : UInt16) :
    ∃ answer, c.symbolAt t index = answer >>= c.symbolIn t ∧
      Derived c.constants (slotOffset t index) answer := by
  have hbytes := t.pointerBytes_le
  have hslots : index.toNat * t.pointerBytes < UInt16.size * 9 := by
    have hindex := index.toNat_lt_size
    exact Nat.mul_lt_mul'' hindex (by omega)
  have hword : UInt16.size * 9 < UInt64.size := by decide
  have hwidth : (UInt64.ofNat t.pointerBytes).toNat = t.pointerBytes :=
    UInt64.toNat_ofNat_of_lt' (by omega)
  refine ⟨t.fieldAddress c.constants
    (t.layout.constantPool.size + index.toUInt64 * UInt64.ofNat t.pointerBytes).toNat, ?_,
    derived_fieldAddress _ ?_ ?_⟩
  · unfold symbolAt Target.pointerField symbolIn
    exact bind_assoc _ _ _
  · have hproduct : (index.toUInt64 * UInt64.ofNat t.pointerBytes).toNat =
        index.toNat * t.pointerBytes := by
      rw [UInt64.toNat_mul, UInt16.toNat_toUInt64, hwidth,
        Nat.mod_eq_of_lt (show _ < UInt64.size by omega)]
    rw [UInt64.toNat_add, hproduct]
    rfl
  · have hsize := t.layout.constantPool.size.toNat_lt_size
    unfold slotOffset
    omega

end ConstMethod

namespace CodeBlob

theorem natural?_eq_some_iff {i : Int32} : natural? i = some n ↔ i.toInt = n := by
  unfold natural?
  split
  · simp only [Option.some.injEq]
    omega
  · refine iff_of_false nofun ?_
    omega

theorem naturalField_eq_ok_iff {offset : UInt64} {what : Defect} :
    naturalField t base offset what = .ok n ↔
      ∃ i, t.i32Field base offset = .ok i ∧ i.toInt = n := by
  unfold naturalField
  rw [Answer.bind_eq_ok]
  refine exists_congr fun i => and_congr_right fun _ => ?_
  rw [← natural?_eq_some_iff]
  cases natural? i with
  | none => exact iff_of_false nofun nofun
  | some m => simp [pure, Except.pure]

theorem instructionsOffset_of_read (h : CodeBlob.read t a = .ok b) :
    ∃ i, t.i32Field a t.layout.blob.instructionsOffset = .ok i ∧
      i.toInt = b.instructionsOffset :=
  naturalField_eq_ok_iff.mp (CodeBlob.fields_of_read h).2.2

theorem instructionsBegin_toNat (b : CodeBlob) :
    b.instructionsBegin.toNat = min (b.address.toNat + b.instructionsOffset) (UInt64.size - 1) := by
  have hpos : 0 < UInt64.size := by decide
  exact UInt64.toNat_ofNat_of_lt' (by omega)

end CodeBlob

/-- A line table and the slots of a constant pool are at the exact sum of what the layout and the
target say, or refused if there is no such address, as long as their offset fits into a word; the
sizes in the layout can make it larger, and then its carry is lost without a fault. The machine code
of a blob begins at the exact sum of its address and the offset in its header, or at the last address
if the sum lies behind that. -/
theorem derived_addresses (t : Target) :
    (∀ c : ConstMethod, c.hasLineTable = true → ∃ answer, c.lineTable t = some <$> answer ∧
      Derived c.address (c.lineTableOffset t) answer) ∧
    (∀ (c : ConstMethod) (index : UInt16), ∃ answer,
      c.symbolAt t index = answer >>= c.symbolIn t ∧
      Derived c.constants (ConstMethod.slotOffset t index) answer) ∧
    ∀ (a : Address) (b : CodeBlob), CodeBlob.read t a = .ok b → b.address = a ∧
      (∃ i, t.i32Field a t.layout.blob.instructionsOffset = .ok i ∧
        i.toInt = b.instructionsOffset) ∧
      (a.toNat + b.instructionsOffset < UInt64.size →
        b.instructionsBegin.toNat = a.toNat + b.instructionsOffset) ∧
      (UInt64.size ≤ a.toNat + b.instructionsOffset →
        b.instructionsBegin.toNat = UInt64.size - 1) := by
  refine ⟨fun c h => c.lineTable_derived t h, fun c index => c.symbolAt_derived t index,
    fun a b h => ?_⟩
  have hbegin := b.instructionsBegin_toNat
  have hpos : 0 < UInt64.size := by decide
  rw [CodeBlob.address_of_read h] at hbegin
  exact ⟨CodeBlob.address_of_read h, CodeBlob.instructionsOffset_of_read h,
    fun hfits => by omega, fun hpast => by omega⟩

/-- The header of a blob near the end of the address space, whose machine code is said to begin
behind it; and a layout that gives a `ConstMethod` all addresses but one. -/
def farOffset : Target where
  memory := (Image.mk
    [⟨0xFFFFFFFFFFFFFF00, (wordBytes 0 ++ wordBytes 32 ++ wordBytes 0x7FFFFFFF).toArray⟩]).memory
  layout := { Layout.dense with
    constMethod := { Layout.dense.constMethod with size := 0xFFFFFFFFFFFFFFFF } }

def farOffsetBlob : CodeBlob := ⟨0xFFFFFFFFFFFFFF00, 32, 0x7FFFFFFF, "", by decide⟩

/-- No bytecodes: the offset is the largest word, which is refused but at address 0. One byte of
them: the carry is lost. The offset of the machine code is read as it is in the header. -/
theorem derived_addresses_farOffset :
    (∃ answer, (ConstMethod.mk 16 0 0 1 0 0).lineTable farOffset = some <$> answer ∧
      answer = .error (.malformed .fieldAddress 16)) ∧
    (∃ answer, (ConstMethod.mk 16 0 1 1 0 0).lineTable farOffset = some <$> answer ∧
      answer = .ok 16) ∧
    (∃ answer, (ConstMethod.mk 0 16 0 1 0 0).symbolAt farOffset 3 =
      answer >>= (ConstMethod.mk 0 16 0 1 0 0).symbolIn farOffset ∧ answer = .ok 32) ∧
    CodeBlob.read farOffset 0xFFFFFFFFFFFFFF00 = .ok farOffsetBlob ∧
    farOffsetBlob.instructionsBegin.toNat = UInt64.size - 1 := by
  obtain ⟨hline, hslot, hblob⟩ := derived_addresses farOffset
  have hread : CodeBlob.read farOffset 0xFFFFFFFFFFFFFF00 = .ok farOffsetBlob := rfl
  obtain ⟨whole, hwhole, hrefused⟩ := hline ⟨16, 0, 0, 1, 0, 0⟩ rfl
  obtain ⟨past, hpast, hlost⟩ := hline ⟨16, 0, 1, 1, 0, 0⟩ rfl
  obtain ⟨slot, hsymbol, hexact⟩ := hslot ⟨0, 16, 0, 1, 0, 0⟩ 3
  exact ⟨⟨whole, hwhole, hrefused.refused (by decide) (by decide)⟩,
    ⟨past, hpast, (hlost.carryLost (by decide) 16).mpr (by decide)⟩,
    ⟨slot, hsymbol, (hexact.exact (by decide) 32).mpr (by decide)⟩, hread,
    (hblob _ _ hread).2.2.2 (by decide)⟩

/-- Both sums lie behind the last address, and both are accepted for something else. -/
theorem sum_past_addresses_accepted :
    CodeBlob.read farOffset 0xFFFFFFFFFFFFFF00 = .ok farOffsetBlob ∧
    UInt64.size ≤ farOffsetBlob.address.toNat + farOffsetBlob.instructionsOffset ∧
    farOffsetBlob.instructionsBegin = 0xFFFFFFFFFFFFFFFF ∧
    UInt64.size ≤ 16 + (ConstMethod.mk 16 0 1 1 0 0).lineTableOffset farOffset ∧
    (ConstMethod.mk 16 0 1 1 0 0).lineTable farOffset = .ok (some 16) :=
  ⟨rfl, by decide, by decide, by decide, by decide⟩

end JitFrames
