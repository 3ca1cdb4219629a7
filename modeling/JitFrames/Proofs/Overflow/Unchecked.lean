import JitFrames.Proofs.Descriptor.Course
import JitFrames.Proofs.Image.Reading
import JitFrames.Proofs.Scope.Replay

namespace JitFrames

variable {t : Target} {a : Address} {n i : Nat}

namespace Memory

/-- Memories that inspections read: captured images, buffers, and parts of them. -/
inductive Captured : Memory → Prop where
  | image (rs : List Region) : Captured (Image.history rs).memory
  | buffer (bytes : Bytes) : Captured (ofBytes bytes)
  | within {m : Memory} (h : Captured m) (r : AddressRange) : Captured (m.within r)

/-- The last address is never captured, so whatever was read is followed by an address. -/
theorem Captured.stop_lt {m : Memory} (h : m.Captured) {bytes : Bytes}
    (hbytes : m.bytes? a n = some bytes) : a.toNat + n < UInt64.size := by
  induction h with
  | image rs =>
    have hwell := Image.wellFormed_history rs
    obtain ⟨r, hr, hregion⟩ := hwell.bytes?_eq_some_iff.mp hbytes
    have hstop := (Region.bytes?_eq_some_iff.mp hregion).2.1
    have hbounded := hwell.bounded r hr
    have hpos : 0 < UInt64.size := by decide
    omega
  | buffer buffer =>
    obtain ⟨stop, hstop, -⟩ := Option.bind_eq_some_iff.mp hbytes
    rw [Address.add?_eq_some_iff.mp hstop]
    exact stop.toNat_lt_size
  | within _ r ih =>
    simp only [Memory.within] at hbytes
    split at hbytes
    · exact ih hbytes
    · cases hbytes

theorem Captured.roomy {m : Memory} (h : m.Captured) (origin : Address) :
    (ByteStream.mk m origin).Roomy := by
  intro _
  cases hb : m.byte? 0xFFFFFFFFFFFFFFFF with
  | none => rfl
  | some b =>
    obtain ⟨bytes, hbytes, -⟩ := Option.bind_eq_some_iff.mp hb
    exact absurd (h.stop_lt hbytes) (by decide)

end Memory

theorem ByteStream.next_position_lt {s : ByteStream} (hroom : s.Roomy) {p q : Nat} {b : UInt8}
    (hnext : s.next p = .ok b q) : q = p + 1 ∧ q < UInt64.size := by
  obtain ⟨rfl, hlt⟩ := next_eq_ok hnext
  have hp : p < UInt64.size := by omega
  exact ⟨rfl, (holds_singleton hnext).stop_lt hroom hp⟩

theorem Target.readPointer_stop_lt (h : t.memory.Captured) {p : Address}
    (hp : t.readPointer a = .ok p) : a.toNat + t.pointerBytes < UInt64.size := by
  obtain ⟨number, hnumber, -⟩ := Answer.bind_eq_ok.mp hp
  obtain ⟨bytes, hbytes, -⟩ := Answer.bind_eq_ok.mp hnumber
  exact h.stop_lt (Memory.read_eq_ok_iff.mp hbytes)

namespace DescriptorCache

/-- The offset of a slot, a sum of words. -/
def slotField (t : Target) (i : Nat) : UInt64 :=
  t.layout.descriptorCache.slots + UInt64.ofNat (i * t.pointerBytes)

theorem slotField_toNat
    (h : t.layout.descriptorCache.slots.toNat + i * t.pointerBytes < UInt64.size) :
    (slotField t i).toNat = t.layout.descriptorCache.slots.toNat + i * t.pointerBytes := by
  unfold slotField
  rw [UInt64.toNat_add, UInt64.toNat_ofNat', Nat.add_mod_mod, Nat.mod_eq_of_lt h]

/-- Each slot that was read makes room for the offset of the next one. -/
theorem slot_lt (h : t.memory.Captured)
    (hread : ∀ j < i, ∃ p, t.pointerField a (slotField t j) = .ok p) :
    t.layout.descriptorCache.slots.toNat + i * t.pointerBytes < UInt64.size := by
  induction i with
  | zero =>
    rw [Nat.zero_mul]
    exact t.layout.descriptorCache.slots.toNat_lt_size
  | succ i ih =>
    -- The sum in front was exact, so the slot that was read lies where it says.
    have hslot := slotField_toNat (ih fun j hj => hread j (Nat.lt_succ_of_lt hj))
    obtain ⟨p, hp⟩ := hread i (Nat.lt_succ_self i)
    obtain ⟨place, hplace, hp⟩ := Answer.bind_eq_ok.mp hp
    have hsum := Target.fieldAddress_eq_ok_iff.mp hplace
    have hstop := Target.readPointer_stop_lt h hp
    rw [Nat.succ_mul]
    omega

end DescriptorCache

namespace DescriptorTable

variable {d : DescriptorTable}

theorem index_mul_lt (hi : i < d.length) : i * d.stride < UInt64.size := by
  have hle : i * d.stride ≤ d.length * d.stride := Nat.mul_le_mul_right _ (Nat.le_of_lt hi)
  have hfits := d.fits
  omega

end DescriptorTable

theorem CompiledMethod.Comes.revisit_toNat {m : CompiledMethod} {first a : UInt32}
    {seen : List UInt32} (h : m.Comes t first seen a) (hseen : a ∈ seen) :
    (m.scopesData + a.toUInt64).toNat = m.scopesData.toNat + a.toNat := by
  rw [UInt64.toNat_add, UInt32.toNat_toUInt64, Nat.mod_eq_of_lt (h.seen_lt a hseen)]

/-- The sums that an inspection takes without a check are those of the numbers: no carry is lost. -/
structure SumsFit (t : Target) : Prop where
  /-- The position behind a byte that was read. -/
  position : ∀ s : ByteStream, s.memory.Captured → ∀ (p q : Nat) (b : UInt8),
    s.next p = .ok b q → q = p + 1 ∧ q < UInt64.size
  /-- The offset of a slot of the descriptor cache, when all slots in front of it were read. -/
  cacheSlot : ∀ (a : Address) (i : Nat),
    (∀ j < i, ∃ p, t.pointerField a (DescriptorCache.slotField t j) = .ok p) →
    (DescriptorCache.slotField t i).toNat =
      t.layout.descriptorCache.slots.toNat + i * t.pointerBytes
  /-- The addresses of the entries that a search or the matching rule looks at. -/
  tableEntry : ∀ (blob : CodeBlob) (m : CompiledMethod) (d : DescriptorTable),
    CompiledMethod.read t blob = .ok m → m.descriptorTable t = .ok d →
    ∀ offset pivot i, d.Consults t offset pivot i →
      i * d.stride < UInt64.size ∧ (d.addressOf i).toNat = d.start.toNat + i * d.stride
  /-- No other entry has a say in what they answer. -/
  tableReads : ∀ (d : DescriptorTable) (t' : Target) (offset : Nat) (pivot : Option Address),
    (∀ i, d.Consults t offset pivot i → d.entry t' i = d.entry t i) → ∀ precision,
      d.search t' offset precision pivot = d.search t offset precision pivot ∧
      ∀ desc, d.answers t' desc offset precision = d.answers t desc offset precision
  /-- The index that a round of the search takes up next, from each bracket that it comes to. -/
  probe : ∀ (blob : CodeBlob) (m : CompiledMethod) (d : DescriptorTable),
    CompiledMethod.read t blob = .ok m → m.descriptorTable t = .ok d →
    ∀ offset pivot b b', d.startBracket t offset pivot = .ok b →
      Bracket.Reached (d.below t offset) b b' →
      ∀ skip ∈ Bracket.skips, b'.floor + skip < UInt64.size
  /-- And so from the brackets that its loops pass. -/
  course : ∀ (blob : CodeBlob) (m : CompiledMethod) (d : DescriptorTable),
    CompiledMethod.read t blob = .ok m → m.descriptorTable t = .ok d →
    ∀ offset pivot passed r, d.Narrows t offset pivot passed r →
      ∀ b ∈ passed, ∀ skip ∈ Bracket.skips, b.floor + skip < UInt64.size
  /-- The address of a byte of the segment map. -/
  mapByte : ∀ (h : CodeHeap) (segment : Nat), segment < h.segmentMap.size →
    (h.segmentMap.start + UInt64.ofNat segment).toNat = h.segmentMap.start.toNat + segment
  /-- The end of a blob. -/
  blobStop : ∀ (a : Address) (b : CodeBlob), CodeBlob.read t a = .ok b →
    b.stop.toNat = a.toNat + b.size
  /-- The address that is told with a chain that comes back to an offset. -/
  revisit : ∀ (m : CompiledMethod) (first : UInt32) (seen : List UInt32) (a : UInt32),
    m.Comes t first seen a → a ∈ seen →
    (m.scopesData + a.toUInt64).toNat = m.scopesData.toNat + a.toNat
  /-- A replay that fails has come to such an offset, or to a record that cannot be read. -/
  stops : ∀ (m : CompiledMethod) (desc : Descriptor) (first : UInt32),
    desc.scopeOffset.toInt = first.toNat → ∀ e, m.frames t desc = .error e ↔
      ∃ seen a, m.Comes t first seen a ∧ a ≠ 0 ∧ m.StopsWith t seen a e

/-- On a captured target no sum that is taken without a check passes the last address. -/
theorem sums_fit (t : Target) (h : t.memory.Captured) : SumsFit t where
  position s hs p q b hnext := ByteStream.next_position_lt (hs.roomy s.origin) hnext
  cacheSlot a i hread := DescriptorCache.slotField_toNat (DescriptorCache.slot_lt h hread)
  tableEntry blob m d _ _ offset pivot i hi :=
    ⟨DescriptorTable.index_mul_lt hi.lt_length, DescriptorTable.addressOf_toNat hi.lt_length⟩
  tableReads d t' offset pivot hsame precision :=
    ⟨DescriptorTable.search_congr hsame, DescriptorTable.answers_congr hsame⟩
  probe blob m d hread htable offset pivot b b' hstart hreached skip hskip := by
    have hvalid := hreached.valid (DescriptorTable.startBracket_eq_ok hstart)
    have hfloor := Nat.le_trans hvalid.floor_le hvalid.ceiling_le
    exact (DescriptorTable.roomy_of_read hread htable).step_lt hfloor hskip
  course blob m d hread htable offset pivot passed r hnarrows :=
    hnarrows.step_lt (DescriptorTable.roomy_of_read hread htable)
  mapByte heap segment hs := CodeHeap.mapAddress_toNat hs
  blobStop a b hread := by
    rw [b.stop_toNat, CodeBlob.address_of_read hread]
  revisit m first seen a hcomes hseen := hcomes.revisit_toNat hseen
  stops m desc first hfirst e := by
    rw [CompiledMethod.frames_eq_framesFrom hfirst]
    exact CompiledMethod.framesFrom_eq_error_iff

/-- A compiled method at the start of the address space, with an empty cache, a table of two entries
and the closing one, and its name. -/
def smallMethod : Target :=
  .ofWords [76, 84, 52, 0, 52, 76, 76, 76, 0, 0, 0, 0, 0, 5, 1, 9, 2, 0, 0, 0x74656D6E, 0x00646F68]

def smallMethodBlob : CodeBlob := ⟨0, 84, 52, "nmethod", by decide⟩

def smallMethodCode : CompiledMethod where
  blob := smallMethodBlob
  method := 0
  descriptorsBegin := 52
  descriptorsEnd := 76
  scopesData := 76
  oops := 76
  descriptorCache := 32

/-- Its table: like the compact one, but behind a header. -/
def smallMethodTable : DescriptorTable :=
  ⟨52, 8, 3, DescriptorTable.compact.stride_pos, by decide⟩

/-- The last slot, the entry before the closing one, the first probe and the end of a method in a
buffer; the last byte that an image can hold; and a record that is its own sender. -/
theorem sums_fit_smallMethod :
    (DescriptorCache.slotField smallMethod 3).toNat = 4 + 3 * 4 ∧
    (smallMethodTable.addressOf 1).toNat = 52 + 1 * 8 ∧
    (Bracket.mk 0 2).floor + 511 < UInt64.size ∧
    smallMethodBlob.stop.toNat = 0 + 84 ∧
    (∃ q, (ByteStream.mk (Image.history [⟨0xFFFFFFFFFFFFFFFE, #[4]⟩]).memory 0).next
      0xFFFFFFFFFFFFFFFE = .ok 4 q ∧ q < UInt64.size) ∧
    (CompiledMethod.inlined.scopesData + (7 : UInt32).toUInt64).toNat = 24 + 7 ∧
    CompiledMethod.inlined.frames CompiledMethod.inlinedTarget ⟨0, 0, 7⟩ =
      .error (.malformed .scopeChain (24 + 7)) := by
  have hsmall := sums_fit smallMethod (.buffer _)
  have hinlined := sums_fit CompiledMethod.inlinedTarget (.buffer _)
  have hblob : CodeBlob.read smallMethod 0 = .ok smallMethodBlob := rfl
  have hcode : CompiledMethod.read smallMethod smallMethodBlob = .ok smallMethodCode := rfl
  have htable : smallMethodCode.descriptorTable smallMethod = .ok smallMethodTable := rfl
  have hslots : ∀ j < 3, ∃ p,
      smallMethod.pointerField 32 (DescriptorCache.slotField smallMethod j) = .ok p := by
    intro j hj
    obtain rfl | rfl | rfl : j = 0 ∨ j = 1 ∨ j = 2 := by omega
    · exact ⟨0, rfl⟩
    · exact ⟨0, rfl⟩
    · exact ⟨0, rfl⟩
  have hscope : CompiledMethod.inlined.scopeFrame CompiledMethod.inlinedTarget 7 =
      .ok (⟨7, 0, 0⟩, ⟨none, 0, SourceLine.unknown⟩) :=
    CompiledMethod.scopeFrame_eq_ok_iff.mpr
      ⟨⟨8, 9, 10, 1, rfl, rfl, rfl, rfl, by decide⟩, rfl, rfl, rfl⟩
  have hcomes : CompiledMethod.inlined.Comes CompiledMethod.inlinedTarget 7 [7] 7 :=
    .onward .start (by decide) List.not_mem_nil hscope
  have hlast : (ByteStream.mk (Image.history [⟨0xFFFFFFFFFFFFFFFE, #[4]⟩]).memory 0).next
      0xFFFFFFFFFFFFFFFE = .ok 4 0xFFFFFFFFFFFFFFFF :=
    ByteStream.next_eq_ok_iff.mpr ⟨rfl, 0xFFFFFFFFFFFFFFFE, by decide, by decide⟩
  refine ⟨hsmall.cacheSlot 32 3 hslots, ?_, ?_, hsmall.blobStop 0 _ hblob, ?_, ?_, ?_⟩
  · exact (hsmall.tableEntry _ _ _ hcode htable 5 none 1 (.before (show
      smallMethodTable.indexOf? 68 = some 2 from rfl))).2
  · exact hsmall.probe _ _ _ hcode htable 5 none ⟨0, 2⟩ ⟨0, 2⟩ rfl .refl 511 (by decide)
  · exact ⟨_, hlast, (hsmall.position _ (.image _) _ _ _ hlast).2⟩
  · exact hinlined.revisit _ 7 [7] 7 hcomes List.mem_cons_self
  · exact (hinlined.stops _ ⟨0, 0, 7⟩ 7 (by decide) _).mpr
      ⟨[7], 7, hcomes, by decide, .revisit List.mem_cons_self⟩

end JitFrames
