import JitFrames.Proofs.Heap.Search

namespace JitFrames.CodeHeap

variable {h : CodeHeap} {t : Target} {p : Address} {own s : Nat} {later : List Nat}

/-- A mark on the way is followed like any other byte, or the walk ends in a fault. -/
theorem Visits.of_mark (hv : h.Visits t own later) (hown : ¬h.MapHolds t own freeMark)
    (hlast : h.MapHolds t (later.getLastD own) 0) (hs : s ∈ own :: later)
    (hmark : h.MapHolds t s freeMark) : 255 ≤ s ∧ s - 255 ∈ later := by
  have hvalue : freeMark.toNat = 255 := by decide
  have hle : freeMark.toNat ≤ s := by
    apply Nat.le_of_not_lt
    intro hlt
    have hsame := hv.eq_last hs hmark hlt
    subst hsame
    exact absurd (hmark.unique hlast) (by decide)
  have hprev := hv.prev_mem hown hs hmark (by decide) hle
  rw [hvalue] at hle hprev
  exact ⟨hle, hprev⟩

/-- The mark of an unused segment counts where a search begins: nothing is found there, and no
block is found from there. Behind it, a search that finds a block has gone 255 segments back from
each marked segment that it came to. So up to the 256th segment of the heap a block is only ever
found through segments without a mark. -/
theorem findStart_marked (hs : h.segmentOf? p = some own) (hv : h.Visits t own later) :
    (h.MapHolds t own freeMark → h.findStart t p = .ok none) ∧
    ∀ start, h.findStart t p = .ok (some start) →
      ¬h.MapHolds t own freeMark ∧ h.MapHolds t (later.getLastD own) 0 ∧
      (∀ s ∈ later, h.MapHolds t s freeMark → 255 ≤ s ∧ s - 255 ∈ later) ∧
      (own ≤ 255 → ∀ s ∈ own :: later, ¬h.MapHolds t s freeMark) := by
  refine ⟨findStart_of_unused hs, fun start hfound => ?_⟩
  obtain ⟨header, hheader, -⟩ := exists_header hs hv.last_le
  obtain ⟨hown, hlast, -⟩ := (findStart_eq_some_iff hs hv hheader).mp hfound
  refine ⟨hown, hlast, fun s hs => hv.of_mark hown hlast (List.mem_cons_of_mem own hs), ?_⟩
  intro hfew s hs hmark
  obtain rfl | hlater := List.mem_cons.mp hs
  · exact hown hmark
  · have hlt := hv.lt_own hlater
    have hle := (hv.of_mark hown hlast hs hmark).1
    omega

/-- A code heap of 257 segments. Only the first one begins a block; the last one's distance is 1,
and all between them are marked. -/
def bridged : Target where
  layout := .dense
  memory := Image.memory ⟨[
    ⟨0x100, (wordBytes 0x1000 ++ wordBytes 0x1808 ++ wordBytes 0x300 ++ wordBytes 0x401 ++
      wordBytes 3).toArray⟩,
    ⟨0x300, (0 :: (List.replicate 255 0xFF ++ [1])).toArray⟩,
    ⟨0x1000, (1 :: (wordBytes 0 ++ wordBytes 0x804 ++ wordBytes 12)).toArray⟩]⟩

def bridgedHeap : CodeHeap := ⟨0x100, ⟨0x1000, 0x1808⟩, ⟨0x300, 0x401⟩, 3⟩

theorem bridged_marked : bridgedHeap.MapHolds bridged 255 freeMark :=
  mapByte_eq_ok_iff.mp (by decide +kernel)

theorem bridged_visits : bridgedHeap.Visits bridged 256 [255, 0] := by
  have hown : bridgedHeap.MapHolds bridged 256 1 := mapByte_eq_ok_iff.mp (by decide +kernel)
  have hfirst : bridgedHeap.MapHolds bridged 0 0 := mapByte_eq_ok_iff.mp (by decide +kernel)
  refine ⟨?_, fun hmark => ?_, fun _ s hback => ?_⟩
  · refine List.isChain_cons_cons.mpr ⟨⟨1, hown, by decide, rfl⟩, ?_⟩
    exact List.isChain_cons_cons.mpr ⟨⟨freeMark, bridged_marked, by decide, rfl⟩,
      List.isChain_singleton 0⟩
  · exact absurd (hown.unique hmark) (by decide)
  · exact absurd hback.lt (Nat.not_lt_zero s)

/-- In the last segment the search finds the block of the first one, across a marked segment; in
the marked segment itself it finds nothing. -/
theorem findStart_marked_bridged :
    bridgedHeap.segmentOf? 0x1800 = some 256 ∧ bridgedHeap.Visits bridged 256 [255, 0] ∧
    bridgedHeap.findStart bridged 0x1800 = .ok (some 0x1001) ∧
    ¬bridgedHeap.MapHolds bridged 256 freeMark ∧ bridgedHeap.MapHolds bridged 0 0 ∧
    (∀ s ∈ [255, 0], bridgedHeap.MapHolds bridged s freeMark → 255 ≤ s ∧ s - 255 ∈ [255, 0]) ∧
    bridgedHeap.findStart bridged 0x17F8 = .ok none := by
  have hs : bridgedHeap.segmentOf? 0x1800 = some 256 := by decide
  have hfound : bridgedHeap.findStart bridged 0x1800 = .ok (some 0x1001) := by decide +kernel
  obtain ⟨hown, hlast, hmarks, -⟩ := (findStart_marked hs bridged_visits).2 _ hfound
  obtain ⟨later, hv⟩ := bridgedHeap.exists_visits bridged 255
  have hmarked : bridgedHeap.segmentOf? 0x17F8 = some 255 := by decide
  have hnone := (findStart_marked hmarked hv).1 bridged_marked
  exact ⟨hs, bridged_visits, hfound, hown, hlast, hmarks, hnone⟩

/-- A block is found from a segment that leads to it through an unused one only. -/
theorem unused_segment_crossed :
    CodeHeap.read bridged 0x100 = .ok bridgedHeap ∧
    bridgedHeap.findStart bridged 0x1800 = .ok (some 0x1001) ∧
    bridgedHeap.segmentOf? 0x1800 = some 256 ∧ bridgedHeap.Visits bridged 256 [255, 0] ∧
    bridgedHeap.MapHolds bridged 255 freeMark :=
  ⟨rfl, by decide +kernel, by decide, bridged_visits, bridged_marked⟩

end JitFrames.CodeHeap
