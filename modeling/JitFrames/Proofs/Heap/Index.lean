import JitFrames.Proofs.Heap.Search

namespace JitFrames.CodeHeap

variable {h : CodeHeap} {t : Target} {a : Address} {s s' : Nat} {b : HeapBlock}

theorem log2SegmentSize_lt_of_read (h0 : CodeHeap.read t a = .ok h) : h.log2SegmentSize < 64 := by
  obtain ⟨memory, -, h0⟩ := Answer.bind_eq_ok.mp h0
  obtain ⟨segmentMap, -, h0⟩ := Answer.bind_eq_ok.mp h0
  obtain ⟨field, -, h0⟩ := Answer.bind_eq_ok.mp h0
  split at h0
  · next log2 hlog2 =>
    split at h0
    · next hlt =>
      cases Answer.pure_eq_ok.mp h0
      exact hlt
    · cases h0
  · cases h0

theorem segmentStart_lt_segmentStart (hs : s < s') : h.segmentStart s < h.segmentStart s' := by
  have hsize : 0 < 2 ^ h.log2SegmentSize := Nat.two_pow_pos _
  simp only [segmentStart]
  rw [Nat.shiftLeft_eq, Nat.shiftLeft_eq]
  exact Nat.add_lt_add_left (Nat.mul_lt_mul_of_pos_right hs hsize) _

theorem segmentStart_injective (heq : h.segmentStart s = h.segmentStart s') : s = s' := by
  obtain hlt | hsame | hlt := Nat.lt_trichotomy s s'
  · exact absurd heq (Nat.ne_of_lt (segmentStart_lt_segmentStart hlt))
  · exact hsame
  · exact absurd heq.symm (Nat.ne_of_lt (segmentStart_lt_segmentStart hlt))

theorem segmentOf?_segmentStart (ha : a.toNat = h.segmentStart s) (hin : h.contains a = true) :
    h.segmentOf? a = some s := by
  have hlt : h.segmentStart s < h.segmentStart (s + 1) :=
    segmentStart_lt_segmentStart (Nat.lt_succ_self s)
  exact segmentOf?_eq_some_iff.mpr ⟨hin, by omega, by omega⟩

/-- How many segments have an offset that fits into a word. -/
def offsetCount (h : CodeHeap) : Nat := UInt64.size >>> h.log2SegmentSize

theorem offsetCount_shiftLeft (hlog2 : h.log2SegmentSize < 64) :
    h.offsetCount <<< h.log2SegmentSize = UInt64.size := by
  have hdvd : 2 ^ h.log2SegmentSize ∣ UInt64.size := Nat.pow_dvd_pow 2 (Nat.le_of_lt hlog2)
  rw [offsetCount, Nat.shiftLeft_eq, Nat.shiftRight_eq_div_pow]
  exact Nat.div_mul_cancel hdvd

theorem offset_lt_iff (hlog2 : h.log2SegmentSize < 64) :
    s <<< h.log2SegmentSize < UInt64.size ↔ s < h.offsetCount := by
  rw [← offsetCount_shiftLeft hlog2, Nat.shiftLeft_eq, Nat.shiftLeft_eq]
  exact Nat.mul_lt_mul_right (Nat.two_pow_pos _)

theorem offset_mod (hlog2 : h.log2SegmentSize < 64) :
    s <<< h.log2SegmentSize % UInt64.size = (s % h.offsetCount) <<< h.log2SegmentSize := by
  rw [← offsetCount_shiftLeft hlog2, Nat.shiftLeft_eq, Nat.shiftLeft_eq, Nat.shiftLeft_eq,
    Nat.mul_mod_mul_right]

theorem offsetCount_pos (hlog2 : h.log2SegmentSize < 64) : 0 < h.offsetCount := by
  have hsize := offsetCount_shiftLeft hlog2
  apply Nat.pos_of_ne_zero
  intro hzero
  rw [hzero, Nat.zero_shiftLeft] at hsize
  cases hsize

/-- Of an index only the part counts whose offset fits into a word. -/
theorem blockAt_mod (hlog2 : h.log2SegmentSize < 64) :
    h.blockAt t s = h.blockAt t (s % h.offsetCount) := by
  simp only [blockAt]
  rw [offset_mod hlog2, offset_mod hlog2, Nat.mod_mod]

theorem blockAt_eq_error (hfits : s <<< h.log2SegmentSize < UInt64.size)
    (hout : UInt64.size ≤ h.segmentStart s) :
    h.blockAt t s = .error (.malformed .segmentIndex h.address) := by
  have hadd : h.memory.start.add? (s <<< h.log2SegmentSize) = none :=
    Address.add?_eq_none_iff.mpr hout
  simp only [blockAt]
  rw [Nat.mod_eq_of_lt hfits, hadd]

theorem address_of_blockAt (hfits : s <<< h.log2SegmentSize < UInt64.size)
    (hb : h.blockAt t s = .ok b) : b.address.toNat = h.segmentStart s := by
  have hlt : h.segmentStart s < UInt64.size := by
    apply Nat.lt_of_not_le
    intro hout
    rw [blockAt_eq_error hfits hout] at hb
    cases hb
  have ha : (UInt64.ofNat (h.segmentStart s)).toNat = h.segmentStart s := by
    exact UInt64.toNat_ofNat_of_lt' hlt
  rw [blockAt_eq ha] at hb
  obtain ⟨used, -, rfl⟩ := HeapBlock.read_eq_ok_iff.mp hb
  exact ha

/-- An index whose offset fits into a word has its block at exactly its segment's address, or is
refused if there is no such address, and in the heap it is the segment of that address. Any other
index stands for what is left of it without the bits whose offset does not fit: it is not refused
for them, and its block is not at its segment's address. So two indices share an address exactly if
they differ in such bits only. -/
theorem blockAt_index (hread : CodeHeap.read t a = .ok h) (s : UInt64) :
    (s.toNat <<< h.log2SegmentSize < UInt64.size →
      (UInt64.size ≤ h.segmentStart s.toNat →
        h.blockAt t s.toNat = .error (.malformed .segmentIndex h.address)) ∧
      ∀ b, h.blockAt t s.toNat = .ok b →
        b.address.toNat = h.segmentStart s.toNat ∧
        (h.contains b.address = true → h.segmentOf? b.address = some s.toNat)) ∧
    (UInt64.size ≤ s.toNat <<< h.log2SegmentSize →
      h.blockAt t s.toNat = h.blockAt t (s.toNat % h.offsetCount) ∧
      ∀ b, h.blockAt t s.toNat = .ok b →
        b.address.toNat = h.segmentStart (s.toNat % h.offsetCount) ∧
        b.address.toNat ≠ h.segmentStart s.toNat) ∧
    ∀ (s' : UInt64) (b b' : HeapBlock),
      h.blockAt t s.toNat = .ok b → h.blockAt t s'.toNat = .ok b' →
      (b.address = b'.address ↔ s.toNat % h.offsetCount = s'.toNat % h.offsetCount) := by
  have hlog2 := log2SegmentSize_lt_of_read hread
  have hpos := offsetCount_pos hlog2
  have hfits (s : Nat) : (s % h.offsetCount) <<< h.log2SegmentSize < UInt64.size :=
    (offset_lt_iff hlog2).mpr (Nat.mod_lt s hpos)
  have haddress {s : Nat} {b : HeapBlock} (hb : h.blockAt t s = .ok b) :
      b.address.toNat = h.segmentStart (s % h.offsetCount) := by
    rw [blockAt_mod hlog2] at hb
    exact address_of_blockAt (hfits s) hb
  refine ⟨fun hs => ⟨blockAt_eq_error hs, fun b hb => ?_⟩, fun hs => ?_, fun s' b b' hb hb' => ?_⟩
  · have ha := address_of_blockAt hs hb
    exact ⟨ha, segmentOf?_segmentStart ha⟩
  · refine ⟨blockAt_mod hlog2, fun b hb => ⟨haddress hb, fun heq => ?_⟩⟩
    have hsame := segmentStart_injective ((haddress hb).symm.trans heq)
    have hwrapped := hfits s.toNat
    rw [hsame] at hwrapped
    exact absurd hwrapped (Nat.not_lt.mpr hs)
  · constructor
    · intro heq
      apply segmentStart_injective
      rw [← haddress hb, ← haddress hb', heq]
    · intro heq
      apply UInt64.toNat_inj.mp
      rw [haddress hb, haddress hb', heq]

/-- The last index whose offset fits has no address; the one behind it has the first block. -/
theorem blockAt_index_torn :
    CodeHeap.read torn 0x100 = .ok tornHeap ∧
    tornHeap.blockAt torn 0x1FFFFFFFFFFFFFFF = .error (.malformed .segmentIndex 0x100) ∧
    (∀ b, tornHeap.blockAt torn 0x2000000000000000 = .ok b →
      b.address.toNat ≠ tornHeap.segmentStart 0x2000000000000000) ∧
    tornHeap.segmentOf? 0x200 = some 0 := by
  have hread : CodeHeap.read torn 0x100 = .ok tornHeap := rfl
  have hfirst : tornHeap.blockAt torn 0 = .ok ⟨0x200, true⟩ := rfl
  refine ⟨hread, ?_, fun b hb => ?_, ?_⟩
  · exact ((blockAt_index hread 0x1FFFFFFFFFFFFFFF).1 (by decide)).1 (by decide)
  · exact (((blockAt_index hread 0x2000000000000000).2.1 (by decide)).2 b hb).2
  · exact (((blockAt_index hread 0).1 (by decide)).2 _ hfirst).2 (by decide)

/-- An index whose offset does not fit into a word is accepted for the first segment's. -/
theorem wrapped_index_accepted :
    CodeHeap.read torn 0x100 = .ok tornHeap ∧
    UInt64.size ≤ tornHeap.segmentStart 0x2000000000000000 ∧
    tornHeap.blockAt torn 0x2000000000000000 = .ok ⟨0x200, true⟩ ∧
    tornHeap.blockAt torn 0 = .ok ⟨0x200, true⟩ ∧ tornHeap.segmentOf? 0x200 = some 0 :=
  ⟨rfl, by decide, by decide +kernel, rfl, by decide⟩

end JitFrames.CodeHeap
