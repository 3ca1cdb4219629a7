import JitFrames.Memory.Image
import JitFrames.Proofs.DenseLayout
import JitFrames.Proofs.Heap.Header
import JitFrames.Proofs.Heap.Walk

namespace JitFrames

/-- A blob that was read is what its header says. -/
theorem CodeBlob.fields_of_read {t : Target} {a : Address} {b : CodeBlob}
    (h : CodeBlob.read t a = .ok b) :
    b.address = a ∧ naturalField t a t.layout.blob.size .blobSize = .ok b.size ∧
      naturalField t a t.layout.blob.instructionsOffset .instructionsOffset =
        .ok b.instructionsOffset := by
  obtain ⟨size, hsize, h⟩ := Answer.bind_eq_ok.mp h
  obtain ⟨instructionsOffset, hoffset, h⟩ := Answer.bind_eq_ok.mp h
  split at h
  · obtain ⟨pointer, -, h⟩ := Answer.bind_eq_ok.mp h
    obtain ⟨name, -, h⟩ := Answer.bind_eq_ok.mp h
    rw [← Answer.pure_eq_ok.mp h]
    exact ⟨rfl, hsize, hoffset⟩
  · cases h

theorem CodeBlob.address_of_read {t : Target} {a : Address} {b : CodeBlob}
    (h : CodeBlob.read t a = .ok b) : b.address = a := (CodeBlob.fields_of_read h).1

namespace CodeHeap

variable {h : CodeHeap} {t : Target} {p header start a : Address} {own s : Nat}
  {later : List Nat} {blob : CodeBlob} {e : Fault}

theorem mapByte_eq_error (hmap : h.mapByte t s = .error e) :
    (h.segmentMap.size ≤ s ∧ e = .malformed .segmentMapIndex h.segmentMap.start) ∨
      s < h.segmentMap.size ∧ ∃ a, e = .unmapped a 1 := by
  unfold mapByte at hmap
  split at hmap
  · next hsize =>
    cases hmap
    exact .inl ⟨hsize, rfl⟩
  · next hsize => exact .inr ⟨Nat.lt_of_not_le hsize, _, Memory.readByte_eq_error hmap⟩

/-- A search that comes to a segment inspects the header where this segment begins, which is at or
before the address, so that no bits of the segment's offset are lost. -/
theorem exists_header (hs : h.segmentOf? p = some own) (hle : s ≤ own) :
    ∃ header : Address, header.toNat = h.segmentStart s ∧ header ≤ p := by
  have hlow := (segmentOf?_eq_some_iff.mp hs).2.1
  have hmono := h.segmentStart_mono hle
  have hp := p.toNat_lt_size
  have hnat : (UInt64.ofNat (h.segmentStart s)).toNat = h.segmentStart s :=
    UInt64.toNat_ofNat_of_lt' (by omega)
  refine ⟨UInt64.ofNat (h.segmentStart s), hnat, ?_⟩
  rw [UInt64.le_iff_toNat_le, hnat]
  omega

theorem findStart_of_outside (hp : h.contains p = false) : h.findStart t p = .ok none := by
  have hs : h.segmentOf? p = none := by
    rw [segmentOf?, if_neg (Bool.eq_false_iff.mp hp)]
  simp only [findStart]
  rw [hs]
  rfl

theorem findStart_of_unused (hs : h.segmentOf? p = some own)
    (hown : h.MapHolds t own freeMark) : h.findStart t p = .ok none := by
  simp only [findStart]
  simp only [hs, mapByte_eq_ok_iff.mpr hown, Answer.ok_bind, if_true]
  rfl

/-- In a segment of a block the search answers from the header that the walk back leads to. -/
theorem findStart_of_visits (hs : h.segmentOf? p = some own) (hv : h.Visits t own later)
    (hown : ¬h.MapHolds t own freeMark)
    (hheader : header.toNat = h.segmentStart (later.getLastD own)) :
    h.findStart t p = (do
      let d ← h.mapByte t (later.getLastD own)
      if d = 0 then HeapBlock.contentsAt t header
      else .error (.malformed .segmentMapChain h.segmentMap.start)) := by
  have hsearch : h.findStart t p = (do
      let first ← h.blockStart t own
      let block ← h.blockAt t first
      if !block.used then
        return none
      return some (← block.allocatedSpace t)) := by
    simp only [findStart, hs, blockStart]
    cases hmap : h.mapByte t own with
    | error e => rfl
    | ok d =>
      have hd : d ≠ freeMark := by
        intro heq
        subst heq
        exact hown (mapByte_eq_ok_iff.mp hmap)
      simp only [Answer.ok_bind, if_neg hd]
  rw [hsearch, blockStart_of_isChain hv.steps, blockStart_of_stays (hv.ends hown)]
  cases h.mapByte t (later.getLastD own) with
  | error e => rfl
  | ok d =>
    rw [Answer.ok_bind, Answer.ok_bind]
    by_cases hd : d = 0
    · rw [if_pos hd, if_pos hd, Answer.ok_bind, blockAt_eq hheader]
      rfl
    · rw [if_neg hd, if_neg hd]
      rfl

/-- How a search ends that begins in one segment, comes to another one last and finds a header
where that one begins. -/
inductive Outcome (h : CodeHeap) (t : Target) (own last : Nat) (header : Address) :
    Answer (Option Address) → Prop where
  | outside (hsize : h.segmentMap.size ≤ own) :
    Outcome h t own last header (.error (.malformed .segmentMapIndex h.segmentMap.start))
  | unread {a : Address} (hsize : own < h.segmentMap.size) (hlast : ∀ d, ¬h.MapHolds t last d) :
    Outcome h t own last header (.error (.unmapped a 1))
  | unused (hown : h.MapHolds t own freeMark) : Outcome h t own last header (.ok none)
  | overrun {d : UInt8} (hown : ¬h.MapHolds t own freeMark) (hlast : h.MapHolds t last d)
    (hd : last < d.toNat) :
    Outcome h t own last header (.error (.malformed .segmentMapChain h.segmentMap.start))
  | arrived (hown : ¬h.MapHolds t own freeMark) (hlast : h.MapHolds t last 0) :
    Outcome h t own last header (HeapBlock.contentsAt t header)

theorem outcome_findStart (hs : h.segmentOf? p = some own) (hv : h.Visits t own later)
    (hheader : header.toNat = h.segmentStart (later.getLastD own)) :
    h.Outcome t own (later.getLastD own) header (h.findStart t p) := by
  by_cases hown : h.MapHolds t own freeMark
  · rw [findStart_of_unused hs hown]
    exact .unused hown
  · rw [findStart_of_visits hs hv hown hheader]
    cases hmap : h.mapByte t (later.getLastD own) with
    | error e =>
      obtain ⟨hsize, rfl⟩ | ⟨hsize, a, rfl⟩ := mapByte_eq_error hmap
      · exact .outside (Nat.le_trans hsize hv.last_le)
      · refine .unread (hv.own_lt_size hsize) fun d hd => ?_
        rw [mapByte_eq_ok_iff.mpr hd] at hmap
        cases hmap
    | ok d =>
      have hlast := mapByte_eq_ok_iff.mp hmap
      rw [Answer.ok_bind]
      by_cases hd : d = 0
      · subst hd
        rw [if_pos rfl]
        exact .arrived hown hlast
      · rw [if_neg hd]
        refine .overrun hown hlast (Nat.lt_of_not_le fun hle => ?_)
        exact hv.ends hown _ ⟨d, hlast, hd, Nat.sub_add_cancel hle⟩

/-- The faults of a search: those that the map deserves, and what can be wrong with a header. -/
theorem Outcome.of_error {last : Nat} {answer : Answer (Option Address)}
    (hout : h.Outcome t own last header answer) (hanswer : answer = .error e) :
    (h.segmentMap.size ≤ own ∧ e = .malformed .segmentMapIndex h.segmentMap.start) ∨
      (¬h.MapHolds t own freeMark ∧ (∃ d, h.MapHolds t last d ∧ last < d.toNat) ∧
        e = .malformed .segmentMapChain h.segmentMap.start) ∨
      e = .malformed .fieldAddress header ∨ ∃ a, e = .unmapped a 1 := by
  cases hout with
  | outside hsize =>
    cases hanswer
    exact .inl ⟨hsize, rfl⟩
  | unread hsize hlast =>
    cases hanswer
    exact .inr (.inr (.inr ⟨_, rfl⟩))
  | unused hown => cases hanswer
  | overrun hown hlast hd =>
    cases hanswer
    exact .inr (.inl ⟨hown, ⟨_, hlast, hd⟩, rfl⟩)
  | arrived hown hlast => exact .inr (.inr (HeapBlock.contentsAt_eq_error hanswer))

theorem Outcome.of_some {last : Nat} {answer : Answer (Option Address)}
    (hout : h.Outcome t own last header answer) (hanswer : answer = .ok (some start)) :
    ¬h.MapHolds t own freeMark ∧ h.MapHolds t last 0 ∧
      HeapBlock.contentsAt t header = .ok (some start) := by
  cases hout with
  | outside hsize => cases hanswer
  | unread hlt hlast => cases hanswer
  | unused hown => cases hanswer
  | overrun hown hlast hd => cases hanswer
  | arrived hown hlast => exact ⟨hown, hlast, hanswer⟩

theorem findStart_eq_segmentMapIndex_iff (hs : h.segmentOf? p = some own)
    (hv : h.Visits t own later) :
    h.findStart t p = .error (.malformed .segmentMapIndex a) ↔
      h.segmentMap.size ≤ own ∧ a = h.segmentMap.start := by
  obtain ⟨header, hheader, -⟩ := exists_header hs hv.last_le
  have hout := outcome_findStart hs hv hheader
  constructor
  · intro heq
    obtain ⟨hsize, he⟩ | ⟨-, -, he⟩ | he | ⟨a, he⟩ := hout.of_error heq
    · cases he
      exact ⟨hsize, rfl⟩
    · cases he
    · cases he
    · cases he
  · intro hh
    obtain ⟨hsize, rfl⟩ := hh
    have houtside : ¬own < h.segmentMap.size := Nat.not_lt.mpr hsize
    generalize h.findStart t p = answer at hout
    cases hout with
    | outside => rfl
    | unread hlt hlast => exact absurd hlt houtside
    | unused hown => exact absurd hown.1 houtside
    | overrun hown hlast hd => exact absurd (hv.own_lt_size hlast.1) houtside
    | arrived hown hlast => exact absurd (hv.own_lt_size hlast.1) houtside

theorem findStart_eq_segmentMapChain_iff (hs : h.segmentOf? p = some own)
    (hv : h.Visits t own later) :
    h.findStart t p = .error (.malformed .segmentMapChain a) ↔
      ¬h.MapHolds t own freeMark ∧
      (∃ s ∈ own :: later, ∃ d, h.MapHolds t s d ∧ s < d.toNat) ∧ a = h.segmentMap.start := by
  obtain ⟨header, hheader, -⟩ := exists_header hs hv.last_le
  have hout := outcome_findStart hs hv hheader
  constructor
  · intro heq
    obtain ⟨-, he⟩ | ⟨hown, hlast, he⟩ | he | ⟨a, he⟩ := hout.of_error heq
    · cases he
    · cases he
      exact ⟨hown, ⟨_, List.getLastD_mem_cons, hlast⟩, rfl⟩
    · cases he
    · cases he
  · intro hh
    obtain ⟨hown, ⟨s, hs, d, hmap, hd⟩, rfl⟩ := hh
    have hlast := hv.eq_last hs hmap hd
    subst hlast
    generalize h.findStart t p = answer at hout
    cases hout with
    | outside hsize => exact absurd (hv.own_lt_size hmap.1) (Nat.not_lt.mpr hsize)
    | unread hlt hnone => exact absurd hmap (hnone d)
    | unused hmark => exact absurd hmark hown
    | overrun => rfl
    | arrived hown' hzero =>
      rw [hmap.unique hzero] at hd
      exact absurd hd (Nat.not_lt_zero _)

theorem findStart_ne_segmentIndex (hs : h.segmentOf? p = some own) (hv : h.Visits t own later) :
    h.findStart t p ≠ .error (.malformed .segmentIndex a) := by
  obtain ⟨header, hheader, -⟩ := exists_header hs hv.last_le
  have hout := outcome_findStart hs hv hheader
  intro heq
  obtain ⟨-, he⟩ | ⟨-, -, he⟩ | he | ⟨a, he⟩ := hout.of_error heq
  all_goals cases he

/-- The search finds contents exactly behind the header of a used block, at a byte 0 of the map. -/
theorem findStart_eq_some_iff (hs : h.segmentOf? p = some own) (hv : h.Visits t own later)
    (hheader : header.toNat = h.segmentStart (later.getLastD own)) :
    h.findStart t p = .ok (some start) ↔
      ¬h.MapHolds t own freeMark ∧ h.MapHolds t (later.getLastD own) 0 ∧
      (∃ used, HeapBlock.UsedByte t header used ∧ used ≠ 0) ∧
      start.toNat = header.toNat + t.layout.heapBlock.size.toNat := by
  have hout := outcome_findStart hs hv hheader
  rw [← HeapBlock.contentsAt_eq_some_iff]
  constructor
  · exact hout.of_some
  · intro hh
    obtain ⟨hown, hlast, hstart⟩ := hh
    generalize h.findStart t p = answer at hout
    cases hout with
    | outside hsize => exact absurd (hv.own_lt_size hlast.1) (Nat.not_lt.mpr hsize)
    | unread hlt hnone => exact absurd hlast (hnone 0)
    | unused hmark => exact absurd hmark hown
    | overrun hown' hother hd =>
      rw [hother.unique hlast] at hd
      exact absurd hd (Nat.not_lt_zero _)
    | arrived => exact hstart

theorem findBlob_eq_some_iff :
    h.findBlob t p = .ok (some blob) ↔
      h.findStart t p = .ok (some blob.address) ∧ CodeBlob.read t blob.address = .ok blob ∧
      blob.contains p = true := by
  simp only [findBlob]
  rw [Answer.bind_eq_ok]
  constructor
  · intro hh
    obtain ⟨found, hfound, hblob⟩ := hh
    cases found with
    | none => cases hblob
    | some start =>
      obtain ⟨read, hread, hblob⟩ := Answer.bind_eq_ok.mp hblob
      split at hblob
      · next hin =>
        cases Answer.pure_eq_ok.mp hblob
        rw [CodeBlob.address_of_read hread]
        exact ⟨hfound, hread, hin⟩
      · cases hblob
  · intro hh
    obtain ⟨hfound, hread, hin⟩ := hh
    refine ⟨some blob.address, hfound, ?_⟩
    simp only [hread, Answer.ok_bind, hin, if_true]
    rfl

/-- The address of a map byte that a search asks for. -/
def ReadsMap (h : CodeHeap) (own : Nat) (later : List Nat) (a : Address) : Prop :=
  ∃ s ∈ own :: later, s < h.segmentMap.size ∧ a.toNat = h.segmentMap.start.toNat + s

theorem contains_of_readsMap (ha : h.ReadsMap own later a) : h.segmentMap.contains a = true := by
  obtain ⟨s, -, hs, ha⟩ := ha
  simp only [AddressRange.size] at hs
  exact AddressRange.contains_iff.mpr ⟨by omega, by omega⟩

theorem mapByte_congr {m : Memory} (hs : s ∈ own :: later)
    (hbytes : ∀ a, h.ReadsMap own later a → m.byte? a = t.memory.byte? a) :
    h.mapByte ⟨m, t.layout⟩ s = h.mapByte t s := by
  unfold mapByte
  by_cases hsize : h.segmentMap.size ≤ s
  · rw [if_pos hsize, if_pos hsize]
  · have hlt := Nat.lt_of_not_le hsize
    rw [if_neg hsize, if_neg hsize]
    exact Memory.readByte_congr (hbytes _ ⟨s, hs, hlt, mapAddress_toNat hlt⟩)

/-- A search reads the map bytes of the segments that it visits, and the byte in the header that
they lead to. -/
theorem findStart_congr {m : Memory} (hs : h.segmentOf? p = some own)
    (hv : h.Visits t own later) (hheader : header.toNat = h.segmentStart (later.getLastD own))
    (hbytes : ∀ a, h.ReadsMap own later a ∨
      a.toNat = header.toNat + t.layout.heapBlock.used.toNat → m.byte? a = t.memory.byte? a) :
    h.findStart ⟨m, t.layout⟩ p = h.findStart t p := by
  have hmap : ∀ s ∈ own :: later, h.mapByte ⟨m, t.layout⟩ s = h.mapByte t s :=
    fun s hmem => mapByte_congr hmem fun a ha => hbytes a (.inl ha)
  have hcontents := HeapBlock.contentsAt_congr fun a ha => hbytes a (.inr ha)
  have hholds : h.MapHolds ⟨m, t.layout⟩ own freeMark ↔ h.MapHolds t own freeMark := by
    rw [← mapByte_eq_ok_iff, ← mapByte_eq_ok_iff, hmap own List.mem_cons_self]
  by_cases hown : h.MapHolds t own freeMark
  · rw [findStart_of_unused hs hown, findStart_of_unused hs (hholds.mpr hown)]
  · have hown' : ¬h.MapHolds ⟨m, t.layout⟩ own freeMark := fun hmark => hown (hholds.mp hmark)
    rw [findStart_of_visits hs hv hown hheader,
      findStart_of_visits hs (hv.congr hmap) hown' hheader, hmap _ List.getLastD_mem_cons,
      hcontents]

/-- Whatever the map holds, a search in the heap walks back through ever earlier segments. It reads
the map bytes of these segments, inside the map, and one byte of the header at the last of them,
which begins at or before the address. It complains about the map's end exactly in a segment behind
it, about the chain exactly if a distance on the way reaches past the map's beginning, and never
about a segment's index. A blob is found only in the heap and around the address, right behind a
header that says that its block is used. -/
theorem findStart_walk (h : CodeHeap) (t : Target) (p : Address) :
    (∀ blob, h.findBlob t p = .ok (some blob) →
      h.contains p = true ∧ blob.contains p = true) ∧
    (h.contains p = true → ∃ (own : Nat) (later : List Nat) (header : Address),
      own = (p.toNat - h.memory.start.toNat) >>> h.log2SegmentSize ∧
      h.Visits t own later ∧ (own :: later).Pairwise (· > ·) ∧ later.length ≤ own ∧
      header.toNat = h.segmentStart (later.getLastD own) ∧ header ≤ p ∧
      (∀ a, h.ReadsMap own later a → h.segmentMap.contains a = true) ∧
      (∀ m : Memory,
        (∀ a, h.ReadsMap own later a ∨ a.toNat = header.toNat + t.layout.heapBlock.used.toNat →
          m.byte? a = t.memory.byte? a) →
        h.findStart ⟨m, t.layout⟩ p = h.findStart t p) ∧
      (∀ a, h.findStart t p = .error (.malformed .segmentMapIndex a) ↔
        h.segmentMap.size ≤ own ∧ a = h.segmentMap.start) ∧
      (∀ a, h.findStart t p = .error (.malformed .segmentMapChain a) ↔
        ¬h.MapHolds t own freeMark ∧
        (∃ s ∈ own :: later, ∃ d, h.MapHolds t s d ∧ s < d.toNat) ∧ a = h.segmentMap.start) ∧
      (∀ a, h.findStart t p ≠ .error (.malformed .segmentIndex a)) ∧
      (∀ start, h.findStart t p = .ok (some start) ↔
        ¬h.MapHolds t own freeMark ∧ h.MapHolds t (later.getLastD own) 0 ∧
        (∃ used, HeapBlock.UsedByte t header used ∧ used ≠ 0) ∧
        start.toNat = header.toNat + t.layout.heapBlock.size.toNat) ∧
      ∀ blob, h.findBlob t p = .ok (some blob) →
        (∃ used, HeapBlock.UsedByte t header used ∧ used ≠ 0) ∧
        blob.address.toNat = header.toNat + t.layout.heapBlock.size.toNat) := by
  constructor
  · intro blob hblob
    obtain ⟨hfound, -, hin⟩ := findBlob_eq_some_iff.mp hblob
    refine ⟨?_, hin⟩
    by_contra hout
    rw [findStart_of_outside (Bool.eq_false_iff.mpr hout)] at hfound
    cases hfound
  · intro hp
    obtain ⟨own, hs⟩ := exists_segmentOf? hp
    obtain ⟨later, hv⟩ := h.exists_visits t own
    obtain ⟨header, hheader, hle⟩ := exists_header hs hv.last_le
    have hown : own = (p.toNat - h.memory.start.toNat) >>> h.log2SegmentSize := by
      rw [segmentOf?, if_pos hp] at hs
      exact (Option.some.inj hs).symm
    refine ⟨own, later, header, hown, hv, pairwise_of_isChain hv.steps,
      length_le_of_isChain hv.steps, hheader, hle, fun a => contains_of_readsMap,
      fun m => findStart_congr hs hv hheader, fun a => findStart_eq_segmentMapIndex_iff hs hv,
      fun a => findStart_eq_segmentMapChain_iff hs hv, fun a => findStart_ne_segmentIndex hs hv,
      fun start => findStart_eq_some_iff hs hv hheader, ?_⟩
    intro blob hblob
    obtain ⟨hfound, -, -⟩ := findBlob_eq_some_iff.mp hblob
    exact ((findStart_eq_some_iff hs hv hheader).mp hfound).2.2

/-- A code heap of eight segments with a map of five bytes: a block of two segments, a byte that
reaches past the map's beginning, one that leads back into the block, and an unused segment. -/
def torn : Target where
  layout := .dense
  memory := Image.memory ⟨[
    ⟨0x100, (wordBytes 0x200 ++ wordBytes 0x240 ++ wordBytes 0x300 ++ wordBytes 0x305 ++
      wordBytes 3).toArray⟩,
    ⟨0x200, (1 :: (wordBytes 0 ++ wordBytes 20 ++ wordBytes 12)).toArray⟩,
    ⟨0x300, #[0, 1, 7, 2, 0xFF]⟩]⟩

def tornHeap : CodeHeap := ⟨0x100, ⟨0x200, 0x240⟩, ⟨0x300, 0x305⟩, 3⟩

def tornBlob : CodeBlob := ⟨0x201, 20, 12, "", by decide⟩

/-- A blob in the block, the byte that reaches too far, and a segment behind the map. -/
theorem findStart_walk_torn :
    CodeHeap.read torn 0x100 = .ok tornHeap ∧
    tornHeap.findStart torn 0x210 = .error (.malformed .segmentMapChain 0x300) ∧
    tornHeap.findStart torn 0x228 = .error (.malformed .segmentMapIndex 0x300) ∧
    ∃ blob, tornHeap.findBlob torn 0x208 = .ok (some blob) ∧ blob.contains 0x208 = true ∧
      ∃ header : Address, header ≤ 0x208 ∧ blob.address.toNat = header.toNat + 1 := by
  refine ⟨rfl, ?_, ?_, tornBlob, ?_⟩
  · obtain ⟨own, later, header, rfl, -, -, -, -, -, -, -, -, hchain, -⟩ :=
      (findStart_walk tornHeap torn 0x210).2 (by decide)
    refine (hchain 0x300).mpr ⟨fun hmark => ?_, ⟨2, List.mem_cons_self, 7, ?_, by decide⟩, rfl⟩
    · have hbyte := mapByte_eq_ok_iff.mpr hmark
      exact absurd hbyte (by decide +kernel)
    · exact mapByte_eq_ok_iff.mp (by decide +kernel)
  · obtain ⟨own, later, header, rfl, -, -, -, -, -, -, -, hindex, -⟩ :=
      (findStart_walk tornHeap torn 0x228).2 (by decide)
    exact (hindex 0x300).mpr ⟨by decide, rfl⟩
  · have hblob := findBlob_eq_some_iff.mpr
      ⟨(by decide +kernel : tornHeap.findStart torn 0x208 = .ok (some tornBlob.address)), rfl,
        (by decide : tornBlob.contains 0x208 = true)⟩
    have hwalk := findStart_walk tornHeap torn 0x208
    obtain ⟨own, later, header, -, -, -, -, -, hle, -, -, -, -, -, -, hfound⟩ :=
      hwalk.2 (by decide)
    exact ⟨hblob, (hwalk.1 _ hblob).2, header, hle, (hfound _ hblob).2⟩

end CodeHeap

end JitFrames
