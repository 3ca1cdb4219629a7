import JitFrames.Proofs.Codec.Reads
import JitFrames.Proofs.DenseLayout
import JitFrames.Proofs.Image.Reading

namespace JitFrames

variable {s s' : ByteStream} {m m' : Memory} {layout : Layout} {a : Address} {b : UInt8} {n : Nat}

theorem Compressed.readSigned_congr (h : s'.next = s.next) : readSigned s' = readSigned s := by
  unfold readSigned
  rw [readInt_congr h]

namespace LineTable

theorem readPair_congr (h : s'.next = s.next) : readPair s' = readPair s := by
  unfold readPair
  rw [h, Compressed.readSigned_congr h]

theorem cursorAfter_congr (h : s'.next = s.next) (n : Nat) :
    cursorAfter s' n = cursorAfter s n := by
  induction n with
  | zero => rfl
  | succ n ih => rw [cursorAfter, cursorAfter, ih, readPair_congr h]

theorem callAfter_congr (h : s'.next = s.next) (n : Nat) : callAfter s' n = callAfter s n := by
  unfold callAfter
  rw [readPair_congr h, cursorAfter_congr h]

theorem scan_congr (h : s'.next = s.next) (bci : Bci) (c : Cursor) (best : LinePair) :
    scan s' bci c best = scan s bci c best := by
  fun_induction scan s bci c best with
  | case1 c best e c' hread => rw [scan_eq, readPair_congr h, hread]
  | case2 c best c' hread => rw [scan_eq, readPair_congr h, hread]
  | case3 c best c' hread hfound =>
    rw [scan_eq, readPair_congr h, hread]
    exact if_pos hfound
  | case4 c best c' hread hother ih =>
    rw [scan_eq, readPair_congr h, hread]
    exact (if_neg hother).trans ih

theorem lineAt_congr (h : ∀ a, m'.readByte a = m.readByte a) (table : Option Address) (bci : Bci) :
    lineAt m' table bci = lineAt m table bci := by
  cases table with
  | none => rfl
  | some origin => exact scan_congr (ByteStream.next_congr h) bci _ _

end LineTable

namespace Target

theorem readToNul_congr (h : ∀ a, m'.readByte a = m.readByte a) (a : Address) (room passed : Nat) :
    readToNul ⟨m', layout⟩ a room passed = readToNul ⟨m, layout⟩ a room passed := by
  induction room generalizing passed with
  | zero => rfl
  | succ room ih =>
    unfold readToNul readU8
    simp only [h, ih]
    rfl

theorem readCString_congr (h : ∀ a, m'.readByte a = m.readByte a) (a : Address) :
    readCString ⟨m', layout⟩ a = readCString ⟨m, layout⟩ a := by
  unfold readCString
  rw [readToNul_congr h]

end Target

theorem Region.byte_eq_some_iff {r : Region} :
    (r.bytes? a 1).bind (·[0]?) = some b ↔
      ∃ i, r.base.toNat + i = a.toNat ∧ r.bytes[i]? = some b := by
  rw [Option.bind_eq_some_iff]
  constructor
  · intro hh
    obtain ⟨bytes, hbytes, hb⟩ := hh
    obtain ⟨hcontains, hstop, rfl⟩ := bytes?_eq_some_iff.mp hbytes
    obtain ⟨hbase, -⟩ := contains_iff.mp hcontains
    obtain ⟨hlt, -⟩ := Array.getElem?_eq_some_iff.mp hb
    rw [Array.size_extract] at hlt
    rw [Array.getElem?_extract, if_pos hlt, Nat.add_zero] at hb
    exact ⟨a.toNat - r.base.toNat, by omega, hb⟩
  · intro hh
    obtain ⟨i, hi, hb⟩ := hh
    obtain ⟨hlt, -⟩ := Array.getElem?_eq_some_iff.mp hb
    have hstop : r.stop = r.base.toNat + r.bytes.size := rfl
    have hindex : a.toNat - r.base.toNat = i := by omega
    refine ⟨_, bytes?_eq_some_iff.mpr ⟨contains_iff.mpr ⟨by omega, by omega⟩, by omega, rfl⟩, ?_⟩
    rw [hindex, Array.getElem?_extract, if_pos (by omega), Nat.add_zero]
    exact hb

namespace Image

variable {image image' image'' : Image} {r : Region}

/-- A region of the image holds the byte `b` for the address `a`. -/
def Maps (image : Image) (a : Address) (b : UInt8) : Prop :=
  ∃ r ∈ image.regions, ∃ i, r.base.toNat + i = a.toNat ∧ r.bytes[i]? = some b

/-- Two images hold the same bytes for the same addresses, wherever their regions begin and end. -/
def SameBytes (image image' : Image) : Prop := ∀ a b, image.Maps a b ↔ image'.Maps a b

theorem SameBytes.symm (h : image.SameBytes image') : image'.SameBytes image :=
  fun a b => (h a b).symm

theorem SameBytes.trans (h : image.SameBytes image') (h' : image'.SameBytes image'') :
    image.SameBytes image'' := fun a b => (h a b).trans (h' a b)

/-- A region can be cut anywhere. -/
theorem sameBytes_cut (front behind : List Region) {base middle : Address} {xs ys : Bytes}
    (h : base.toNat + xs.size = middle.toNat) :
    SameBytes ⟨front ++ ⟨base, xs ++ ys⟩ :: behind⟩
      ⟨front ++ ⟨base, xs⟩ :: ⟨middle, ys⟩ :: behind⟩ := by
  have hcut (a : Address) (b : UInt8) :
      (∃ i, base.toNat + i = a.toNat ∧ (xs ++ ys)[i]? = some b) ↔
        (∃ i, base.toNat + i = a.toNat ∧ xs[i]? = some b) ∨
          ∃ i, middle.toNat + i = a.toNat ∧ ys[i]? = some b := by
    constructor
    · intro hh
      obtain ⟨i, hi, hb⟩ := hh
      by_cases hlt : i < xs.size
      · rw [Array.getElem?_append_left hlt] at hb
        exact .inl ⟨i, hi, hb⟩
      · rw [Array.getElem?_append_right (Nat.le_of_not_lt hlt)] at hb
        exact .inr ⟨i - xs.size, by omega, hb⟩
    · intro hh
      obtain ⟨i, hi, hb⟩ | ⟨i, hi, hb⟩ := hh
      · obtain ⟨hlt, -⟩ := Array.getElem?_eq_some_iff.mp hb
        exact ⟨i, hi, (Array.getElem?_append_left hlt).trans hb⟩
      · refine ⟨xs.size + i, by omega, ?_⟩
        rw [Array.getElem?_append_right (Nat.le_add_right _ _), Nat.add_sub_cancel_left, hb]
  intro a b
  unfold Maps
  simp only [List.mem_append, List.mem_cons, or_and_right, exists_or, exists_eq_left, hcut,
    or_assoc]

namespace WellFormed

theorem byte?_eq_some_iff (h : image.WellFormed) :
    image.memory.byte? a = some b ↔ image.Maps a b := by
  unfold Memory.byte? Maps
  simp only [← Region.byte_eq_some_iff, Option.bind_eq_some_iff, h.bytes?_eq_some_iff]
  constructor
  · intro hh
    obtain ⟨bytes, ⟨r, hr, hbytes⟩, hb⟩ := hh
    exact ⟨r, hr, bytes, hbytes, hb⟩
  · intro hh
    obtain ⟨r, hr, bytes, hbytes, hb⟩ := hh
    exact ⟨bytes, ⟨r, hr, hbytes⟩, hb⟩

theorem readByte_congr (h : image.WellFormed) (h' : image'.WellFormed)
    (hsame : image.SameBytes image') (a : Address) :
    image'.memory.readByte a = image.memory.readByte a := by
  have hbyte : image'.memory.byte? a = image.memory.byte? a := by
    apply Option.ext
    intro b
    rw [h'.byte?_eq_some_iff, h.byte?_eq_some_iff]
    exact (hsame a b).symm
  unfold Memory.readByte
  rw [hbyte]

/-- A read stays in the region in which it begins. -/
theorem read_past_stop (h : image.WellFormed) (hr : r ∈ image.regions)
    (ha : r.contains a = true) (hstop : r.stop < a.toNat + n) :
    image.memory.read a n = .error (.unmapped a n) := by
  cases hbytes : image.memory.bytes? a n with
  | none =>
    unfold Memory.read
    rw [hbytes]
  | some bytes =>
    obtain ⟨s, ⟨hfilter, hle⟩, -⟩ := h.bytes?_eq_some_iff_serves.mp hbytes
    rw [h.filter_contains hr ha] at hfilter
    obtain rfl := (List.cons.inj hfilter).1
    omega

end WellFormed

/-- Images that hold the same bytes for the same addresses give the same to all who read byte by
byte: numbers, bytes and bytecode indices in any order and from any position, calls for the pairs of
a line table, lines of bytecode indices, and texts up to a zero byte, with the same positions and
the same faults. This is so although a read that goes on past the region in which it begins fails,
also if another region begins there. -/
theorem bytewise_reads_agree (rs rs' : List Region)
    (h : (history rs).SameBytes (history rs')) :
    (∀ origin reads p, Read.outcomes ⟨(history rs').memory, origin⟩ reads p =
      Read.outcomes ⟨(history rs).memory, origin⟩ reads p) ∧
    (∀ origin n, LineTable.callAfter ⟨(history rs').memory, origin⟩ n =
      LineTable.callAfter ⟨(history rs).memory, origin⟩ n) ∧
    (∀ table bci, LineTable.lineAt (history rs').memory table bci =
      LineTable.lineAt (history rs).memory table bci) ∧
    (∀ layout a, Target.readCString ⟨(history rs').memory, layout⟩ a =
      Target.readCString ⟨(history rs).memory, layout⟩ a) ∧
    ∀ r ∈ (history rs).regions, ∀ a n, r.contains a = true → r.stop < a.toNat + n →
      (history rs).memory.read a n = .error (.unmapped a n) := by
  have hread : ∀ a, (history rs').memory.readByte a = (history rs).memory.readByte a :=
    (wellFormed_history rs).readByte_congr (wellFormed_history rs') h
  have hnext (origin : Address) :
      (ByteStream.mk (history rs').memory origin).next =
        (ByteStream.mk (history rs).memory origin).next := ByteStream.next_congr hread
  refine ⟨fun origin reads p => ?_, fun origin n => ?_, fun table bci => ?_, fun layout a => ?_,
    fun r hr a n ha hstop => ?_⟩
  · exact Read.outcomes_congr (hnext origin) reads p
  · exact LineTable.callAfter_congr (hnext origin) n
  · exact LineTable.lineAt_congr hread table bci
  · exact Target.readCString_congr hread a
  · exact (wellFormed_history rs).read_past_stop hr ha hstop

/-- A table with one escaped pair, index 100 and line -2, and a name of two letters behind it. -/
def whole : List Region := [⟨0x10, #[0xFF, 200, 0, 3, 0, 0x4A, 0x43, 0]⟩]

/-- The same bytes, with cuts inside the first number, in front of the second one and inside the
name, added from the end. -/
def pieces : List Region :=
  [⟨0x16, #[0x43, 0]⟩, ⟨0x13, #[3, 0, 0x4A]⟩, ⟨0x12, #[0]⟩, ⟨0x10, #[0xFF, 200]⟩]

theorem whole_sameBytes_pieces : (history whole).SameBytes (history pieces) := by
  have hwhole : history whole = ⟨[⟨0x10, #[0xFF, 200] ++ #[0, 3, 0, 0x4A, 0x43, 0]⟩]⟩ := by decide
  have hpieces : history pieces =
      ⟨[⟨0x10, #[0xFF, 200]⟩, ⟨0x12, #[0]⟩, ⟨0x13, #[3, 0, 0x4A]⟩, ⟨0x16, #[0x43, 0]⟩]⟩ := by
    decide
  have hfirst : SameBytes ⟨[⟨0x10, #[0xFF, 200] ++ #[0, 3, 0, 0x4A, 0x43, 0]⟩]⟩
      ⟨[⟨0x10, #[0xFF, 200]⟩, ⟨0x12, #[0] ++ #[3, 0, 0x4A, 0x43, 0]⟩]⟩ :=
    sameBytes_cut [] [] rfl
  have hsecond : SameBytes ⟨[⟨0x10, #[0xFF, 200]⟩, ⟨0x12, #[0] ++ #[3, 0, 0x4A, 0x43, 0]⟩]⟩
      ⟨[⟨0x10, #[0xFF, 200]⟩, ⟨0x12, #[0]⟩, ⟨0x13, #[3, 0, 0x4A] ++ #[0x43, 0]⟩]⟩ :=
    sameBytes_cut [⟨0x10, #[0xFF, 200]⟩] [] rfl
  have hthird : SameBytes
      ⟨[⟨0x10, #[0xFF, 200]⟩, ⟨0x12, #[0]⟩, ⟨0x13, #[3, 0, 0x4A] ++ #[0x43, 0]⟩]⟩
      ⟨[⟨0x10, #[0xFF, 200]⟩, ⟨0x12, #[0]⟩, ⟨0x13, #[3, 0, 0x4A]⟩, ⟨0x16, #[0x43, 0]⟩]⟩ :=
    sameBytes_cut [⟨0x10, #[0xFF, 200]⟩, ⟨0x12, #[0]⟩] [] rfl
  rw [hwhole, hpieces]
  exact hfirst.trans (hsecond.trans hthird)

/-- The pieces give the number, the pair, the line and the name that the whole gives, and only the
read of two bytes finds the cut. -/
theorem bytewise_reads_agree_pieces :
    (history whole).SameBytes (history pieces) ∧
      Read.outcomes ⟨(history pieces).memory, 0x10⟩ [.item .byte, .item .signed] 0 =
        [.ok (.item (.byte 0xFF)) 1, .ok (.item (.signed 100)) 3] ∧
      LineTable.callAfter ⟨(history pieces).memory, 0x10⟩ 1 = .ok false ⟨5, ⟨100, -2⟩⟩ ∧
      LineTable.lineAt (history pieces).memory (some 0x10) 120 = .ok (-2) ∧
      Target.readCString ⟨(history pieces).memory, .dense⟩ 0x15 = .ok "JC" ∧
      (history whole).memory.read 0x11 2 = .ok #[200, 0] ∧
      (history pieces).memory.read 0x11 2 = .error (.unmapped 0x11 2) := by
  obtain ⟨hreads, hcalls, hlines, htexts, -⟩ := bytewise_reads_agree _ _ whole_sameBytes_pieces
  have hcut := (bytewise_reads_agree _ _ whole_sameBytes_pieces.symm).2.2.2.2
  rw [hreads, hcalls, hlines, htexts]
  refine ⟨whole_sameBytes_pieces, rfl, rfl, by decide +kernel, by decide +kernel, rfl, ?_⟩
  exact hcut ⟨0x10, #[0xFF, 200]⟩ (by decide) 0x11 2 (by decide) (by decide)

end Image

end JitFrames
