import JitFrames.Proofs.Answer
import JitFrames.Proofs.DenseLayout
import JitFrames.Proofs.Heap.Segment

namespace JitFrames.CodeHeap

/-- A block of a heap: a run of segments, and the blob in it if it is used. -/
structure Block where
  first : Nat
  count : Nat
  blob : Option CodeBlob

/-- The segment is one of the block's. -/
def Block.Has (b : Block) (s : Nat) : Prop := b.first ≤ s ∧ s < b.first + b.count

/-- The address lies in a segment of the block. -/
def Covers (h : CodeHeap) (b : Block) (p : Address) : Prop :=
  h.segmentStart b.first ≤ p.toNat ∧ p.toNat < h.segmentStart (b.first + b.count)

/-- The heap is made of the blocks: their runs lie in the heap and share no segment, the map
tells them, their headers can be read, and each used one holds a blob. -/
structure WellFormed (h : CodeHeap) (t : Target) (blocks : List Block) : Prop where
  inside : ∀ b ∈ blocks, h.segmentStart (b.first + b.count) ≤ h.memory.stop.toNat
  disjoint : ∀ b ∈ blocks, ∀ b' ∈ blocks, ∀ s, b.Has s → b'.Has s → b = b'
  mapFirst : ∀ b ∈ blocks, h.MapHolds t b.first 0
  mapLater : ∀ b ∈ blocks, ∀ s, b.Has s → s ≠ b.first →
    ∃ d, h.MapHolds t s d ∧ 1 ≤ d.toNat ∧ d.toNat ≤ s - b.first ∧ d.toNat ≤ 0xFE
  mapUnused : ∀ s, h.segmentStart s < h.memory.stop.toNat → (∀ b ∈ blocks, ¬b.Has s) →
    h.MapHolds t s 0xFF
  header : ∀ b ∈ blocks, ∃ a : Address, a.toNat = h.segmentStart b.first ∧
    HeapBlock.read t a = .ok ⟨a, b.blob.isSome⟩
  content : ∀ b ∈ blocks, ∀ blob, b.blob = some blob →
    blob.address.toNat = h.segmentStart b.first + t.layout.heapBlock.size.toNat ∧
    CodeBlob.read t blob.address = .ok blob ∧
    ∀ p, blob.contains p = true → h.Covers b p

variable {h : CodeHeap} {t : Target} {p : Address} {s : Nat} {d : UInt8} {b b' : Block}
  {blocks : List Block} {blob : CodeBlob}

theorem covers_iff (hs : h.segmentOf? p = some s) : h.Covers b p ↔ b.Has s := by
  obtain ⟨-, hlow, hhigh⟩ := segmentOf?_eq_some_iff.mp hs
  constructor
  · intro hh
    obtain ⟨hfirst, hlast⟩ := hh
    constructor
    · apply Nat.le_of_not_lt
      intro hlt
      have hmono := h.segmentStart_mono (show s + 1 ≤ b.first from hlt)
      omega
    · apply Nat.lt_of_not_le
      intro hle
      have hmono := h.segmentStart_mono hle
      omega
  · intro hh
    obtain ⟨hfirst, hlast⟩ := hh
    have hbegin := h.segmentStart_mono hfirst
    have hend := h.segmentStart_mono (show s + 1 ≤ b.first + b.count from hlast)
    exact ⟨by omega, by omega⟩

namespace WellFormed

theorem contains_of_covers (hw : h.WellFormed t blocks) (hb : b ∈ blocks)
    (hp : h.Covers b p) : h.contains p = true := by
  have hinside := hw.inside b hb
  obtain ⟨hfirst, hlast⟩ := hp
  have hlow : h.memory.start.toNat ≤ h.segmentStart b.first := Nat.le_add_right _ _
  exact AddressRange.contains_iff.mpr ⟨by omega, by omega⟩

theorem eq_of_covers (hw : h.WellFormed t blocks) (hb : b ∈ blocks) (hb' : b' ∈ blocks)
    (hp : h.Covers b p) (hp' : h.Covers b' p) : b = b' := by
  obtain ⟨s, hs⟩ := exists_segmentOf? (hw.contains_of_covers hb hp)
  exact hw.disjoint b hb b' hb' s ((covers_iff hs).mp hp) ((covers_iff hs).mp hp')

/-- A segment of a block has a map byte that does not lead out of the block. -/
theorem map_of_has (hw : h.WellFormed t blocks) (hb : b ∈ blocks) (hs : b.Has s) :
    ∃ d, h.MapHolds t s d ∧ d ≠ freeMark ∧ d.toNat ≤ s - b.first ∧
      (d = 0 ↔ s = b.first) := by
  by_cases hfirst : s = b.first
  · subst hfirst
    exact ⟨0, hw.mapFirst b hb, by decide, Nat.zero_le _, by simp⟩
  · obtain ⟨d, hmap, hpos, hback, hmax⟩ := hw.mapLater b hb s hs hfirst
    refine ⟨d, hmap, ?_, hback, ?_⟩
    · intro heq
      subst heq
      exact absurd hmax (by decide)
    · constructor
      · intro heq
        subst heq
        exact absurd hpos (by decide)
      · exact fun heq => absurd heq hfirst

/-- The walk goes back to the first segment of its block. It ends because each step goes to an
earlier segment, and it stays in the block because no distance leads out of it. -/
theorem firstSegment_eq (hw : h.WellFormed t blocks) (hb : b ∈ blocks) (hs : b.Has s)
    (hd : h.MapHolds t s d) : h.firstSegment t s d = .ok b.first := by
  induction s using Nat.strongRecOn generalizing d with
  | ind s ih =>
    obtain ⟨d', hd', -, hback, hzero⟩ := hw.map_of_has hb hs
    cases hd.unique hd'
    rw [firstSegment]
    by_cases hstop : d = 0
    · rw [dif_pos hstop, hzero.mp hstop]
    · have hpos : d.toNat ≠ 0 := fun h0 => hstop (UInt8.toNat_inj.mp h0)
      obtain ⟨hfirst, hlast⟩ := hs
      have hprev : b.Has (s - d.toNat) := ⟨by omega, by omega⟩
      obtain ⟨next, hnext, -⟩ := hw.map_of_has hb hprev
      rw [dif_neg hstop, dif_neg (by omega), mapByte_eq_ok_iff.mpr hnext]
      exact ih (s - d.toNat) (by omega) hprev hnext

theorem blockAt_first (hw : h.WellFormed t blocks) (hb : b ∈ blocks) :
    ∃ a : Address, a.toNat = h.segmentStart b.first ∧
      h.blockAt t b.first = .ok ⟨a, b.blob.isSome⟩ := by
  obtain ⟨a, ha, hread⟩ := hw.header b hb
  exact ⟨a, ha, (blockAt_eq ha).trans hread⟩

/-- In a block the search finds where the block's blob begins, if it has one. -/
theorem findStart_of_covers (hw : h.WellFormed t blocks) (hb : b ∈ blocks)
    (hp : h.Covers b p) : h.findStart t p = .ok (b.blob.map CodeBlob.address) := by
  obtain ⟨s, hs⟩ := exists_segmentOf? (hw.contains_of_covers hb hp)
  have hhas := (covers_iff hs).mp hp
  obtain ⟨d, hd, hmark, -⟩ := hw.map_of_has hb hhas
  obtain ⟨a, ha, hblock⟩ := hw.blockAt_first hb
  simp only [findStart]
  simp only [hs, mapByte_eq_ok_iff.mpr hd, Answer.ok_bind, if_neg hmark,
    hw.firstSegment_eq hb hhas hd, hblock]
  cases hblob : b.blob with
  | none => rfl
  | some blob =>
    obtain ⟨haddress, -⟩ := hw.content b hb blob hblob
    have hspace : HeapBlock.allocatedSpace ⟨a, true⟩ t = .ok blob.address :=
      Target.fieldAddress_eq_ok_iff.mpr (by rw [ha, haddress])
    simp only [Option.isSome_some, Bool.not_true, Bool.false_eq_true, if_false, hspace]
    rfl

theorem findStart_of_uncovered (hw : h.WellFormed t blocks)
    (hp : ∀ b ∈ blocks, ¬h.Covers b p) : h.findStart t p = .ok none := by
  simp only [findStart]
  cases hs : h.segmentOf? p with
  | none => rfl
  | some s =>
    obtain ⟨hin, hlow, -⟩ := segmentOf?_eq_some_iff.mp hs
    have hstop := (AddressRange.contains_iff.mp hin).2
    have hmap : h.MapHolds t s freeMark := by
      apply hw.mapUnused s (by omega)
      intro b hb hhas
      exact hp b hb ((covers_iff hs).mpr hhas)
    simp only [mapByte_eq_ok_iff.mpr hmap, Answer.ok_bind, if_true]
    rfl

theorem findBlob_of_covers (hw : h.WellFormed t blocks) (hb : b ∈ blocks)
    (hp : h.Covers b p) : h.findBlob t p = .ok (b.blob.filter (·.contains p)) := by
  simp only [findBlob]
  rw [hw.findStart_of_covers hb hp]
  cases hblob : b.blob with
  | none => rfl
  | some blob =>
    obtain ⟨-, hread, -⟩ := hw.content b hb blob hblob
    simp only [Option.map_some, Answer.ok_bind, hread, Option.filter_some]
    rfl

theorem findBlob_of_uncovered (hw : h.WellFormed t blocks)
    (hp : ∀ b ∈ blocks, ¬h.Covers b p) : h.findBlob t p = .ok none := by
  simp only [findBlob]
  rw [hw.findStart_of_uncovered hp]
  rfl

/-- The search for a blob answers with the blob whose bytes hold the address. -/
theorem findBlob_eq (hw : h.WellFormed t blocks) (p : Address) :
    ∃ r, h.findBlob t p = .ok r ∧
      ∀ blob, r = some blob ↔
        (∃ b ∈ blocks, b.blob = some blob) ∧ blob.contains p = true := by
  by_cases hcovered : ∃ b ∈ blocks, h.Covers b p
  · obtain ⟨b, hb, hp⟩ := hcovered
    refine ⟨_, hw.findBlob_of_covers hb hp, fun blob => ?_⟩
    rw [Option.filter_eq_some_iff]
    constructor
    · intro hh
      obtain ⟨hblob, hin⟩ := hh
      exact ⟨⟨b, hb, hblob⟩, hin⟩
    · intro hh
      obtain ⟨⟨b', hb', hblob⟩, hin⟩ := hh
      have hp' := (hw.content b' hb' blob hblob).2.2 p hin
      rw [hw.eq_of_covers hb hb' hp hp']
      exact ⟨hblob, hin⟩
  · have hnone : ∀ b ∈ blocks, ¬h.Covers b p := fun b hb hp => hcovered ⟨b, hb, hp⟩
    refine ⟨none, hw.findBlob_of_uncovered hnone, fun blob => ⟨fun heq => ?_, ?_⟩⟩
    · cases heq
    · intro hh
      obtain ⟨⟨b, hb, hblob⟩, hin⟩ := hh
      exact absurd ((hw.content b hb blob hblob).2.2 p hin) (hnone b hb)

end WellFormed

/-- In a heap made of blocks an address leads to the contents of the used block whose segments it
lies in, and nowhere outside the heap, in a free block and in a segment of no block. The blob found
around it is the one whose bytes hold it, and none if there is no such blob. -/
theorem lookup_of_wellFormed (hw : h.WellFormed t blocks) (p : Address) :
    (h.contains p = false → h.findStart t p = .ok none) ∧
    (∀ b ∈ blocks, h.Covers b p →
      (b.blob = none → h.findStart t p = .ok none) ∧
      (b.blob ≠ none → ∃ start : Address,
        start.toNat = h.segmentStart b.first + t.layout.heapBlock.size.toNat ∧
        h.findStart t p = .ok (some start))) ∧
    ((∀ b ∈ blocks, ¬h.Covers b p) → h.findStart t p = .ok none) ∧
    ∃ r, h.findBlob t p = .ok r ∧
      ∀ blob, r = some blob ↔
        (∃ b ∈ blocks, b.blob = some blob) ∧
        blob.address.toNat ≤ p.toNat ∧ p.toNat < blob.address.toNat + blob.size := by
  refine ⟨fun hout => ?_, fun b hb hp => ⟨fun hfree => ?_, fun hused => ?_⟩,
    hw.findStart_of_uncovered, ?_⟩
  · apply hw.findStart_of_uncovered
    intro b hb hp
    rw [hw.contains_of_covers hb hp] at hout
    cases hout
  · rw [hw.findStart_of_covers hb hp, hfree]
    rfl
  · obtain ⟨blob, hblob⟩ := Option.ne_none_iff_exists'.mp hused
    refine ⟨blob.address, (hw.content b hb blob hblob).1, ?_⟩
    rw [hw.findStart_of_covers hb hp, hblob]
    rfl
  · simp only [← CodeBlob.contains_iff]
    exact hw.findBlob_eq p

/-- A heap of five segments of eight bytes: a used block of three, whose last segment goes back by
two, a free block of one, and one segment of no block. The blob is twenty bytes long. -/
def small : CodeHeap := ⟨0, ⟨8, 48⟩, ⟨0, 5⟩, 3⟩

def smallTarget : Target :=
  ⟨.ofBytes #[
    0, 1, 2, 0, 255, 0, 0, 0,
    1, 0, 0, 0, 0, 20, 0, 0, 0, 12, 0, 0, 0, 0, 0, 0, 0, 0, 0, 0, 0, 0, 0, 0,
    0], .dense⟩

def smallBlob : CodeBlob := ⟨9, 20, 12, "", by decide⟩

def smallBlocks : List Block := [⟨0, 3, some smallBlob⟩, ⟨3, 1, none⟩]

theorem mem_smallBlocks :
    b ∈ smallBlocks ↔ b = ⟨0, 3, some smallBlob⟩ ∨ b = ⟨3, 1, none⟩ := by
  simp [smallBlocks]

theorem small_wellFormed : small.WellFormed smallTarget smallBlocks where
  inside := by simp [smallBlocks, segmentStart, small]
  disjoint := by
    simp only [mem_smallBlocks]
    rintro b (rfl | rfl) b' (rfl | rfl) s ⟨hfirst, hlast⟩ ⟨hfirst', hlast'⟩
    · rfl
    · dsimp only at hlast hfirst'
      omega
    · dsimp only at hlast' hfirst
      omega
    · rfl
  mapFirst := by
    simp only [mem_smallBlocks]
    rintro b (rfl | rfl)
    · exact ⟨by decide, 0, rfl, rfl⟩
    · exact ⟨by decide, 3, rfl, rfl⟩
  mapLater := by
    simp only [mem_smallBlocks]
    rintro b (rfl | rfl) s ⟨hfirst, hlast⟩ hlater
    · dsimp only at hlast hlater
      obtain rfl | rfl : s = 1 ∨ s = 2 := by omega
      · exact ⟨1, ⟨by decide, 1, rfl, rfl⟩, by decide⟩
      · exact ⟨2, ⟨by decide, 2, rfl, rfl⟩, by decide⟩
    · dsimp only at hfirst hlast hlater
      omega
  mapUnused := by
    simp only [mem_smallBlocks]
    intro s hs hno
    have hlast : s = 4 := by
      have hused := hno _ (.inl rfl)
      have hfree := hno _ (.inr rfl)
      simp only [Block.Has] at hused hfree
      simp only [segmentStart, small, Nat.shiftLeft_eq] at hs
      have hbound : 8 + s * 8 < 48 := hs
      omega
    subst hlast
    exact ⟨by decide, 4, rfl, rfl⟩
  header := by
    simp only [mem_smallBlocks]
    rintro b (rfl | rfl)
    · exact ⟨8, rfl, rfl⟩
    · exact ⟨32, rfl, rfl⟩
  content := by
    simp only [mem_smallBlocks]
    rintro b (rfl | rfl) blob hblob
    · cases hblob
      refine ⟨rfl, rfl, fun p hp => ?_⟩
      obtain ⟨hlow, hhigh⟩ := CodeBlob.contains_iff.mp hp
      have hlow' : 9 ≤ p.toNat := hlow
      have hhigh' : p.toNat < 29 := hhigh
      constructor
      · show 8 ≤ p.toNat
        omega
      · show p.toNat < 32
        omega
    · cases hblob

/-- Behind the blob's end the block is still its block; the free block and the segment behind it
lead nowhere. -/
theorem lookup_of_wellFormed_small :
    small.WellFormed smallTarget smallBlocks ∧
    small.findBlob smallTarget 16 = .ok (some smallBlob) ∧
    (∃ start : Address, start.toNat = 9 ∧ small.findStart smallTarget 30 = .ok (some start)) ∧
    small.findStart smallTarget 35 = .ok none ∧
    small.findStart smallTarget 45 = .ok none ∧
    small.findStart smallTarget 48 = .ok none := by
  have hw := small_wellFormed
  have hused : (⟨0, 3, some smallBlob⟩ : Block) ∈ smallBlocks := List.mem_cons_self
  have hfree : (⟨3, 1, none⟩ : Block) ∈ smallBlocks := List.mem_cons_of_mem _ List.mem_cons_self
  refine ⟨hw, ?_, ?_, ?_, ?_, (lookup_of_wellFormed hw 48).1 (by decide)⟩
  · obtain ⟨r, hr, hiff⟩ := (lookup_of_wellFormed hw 16).2.2.2
    rw [hr, (hiff smallBlob).mpr ⟨⟨_, hused, rfl⟩, by decide, by decide⟩]
  · exact ((lookup_of_wellFormed hw 30).2.1 _ hused ⟨by decide, by decide⟩).2 (by decide)
  · exact ((lookup_of_wellFormed hw 35).2.1 _ hfree ⟨by decide, by decide⟩).1 rfl
  · apply (lookup_of_wellFormed hw 45).2.2.1
    intro b hb hp
    have hhas : b.Has 4 := (covers_iff (by decide)).mp hp
    rw [mem_smallBlocks] at hb
    obtain rfl | rfl := hb
    · exact absurd hhas.2 (by decide)
    · exact absurd hhas.2 (by decide)

end JitFrames.CodeHeap
