import JitFrames.Proofs.Codec.Calls
import JitFrames.Proofs.Codec.Canonical

namespace JitFrames

variable {s : ByteStream} {p q room : Nat} {e : Fault}

namespace Compressed

theorem readSigned_holds {v : Int32} (h : readSigned s p = .ok v q) :
    ∃ bytes, s.Holds p bytes ∧ q = p + bytes.length ∧ 1 ≤ bytes.length ∧ bytes.length ≤ 5 := by
  obtain ⟨n, p', hn, h⟩ := bind_eq_ok.mp h
  obtain ⟨-, rfl⟩ := pure_eq_ok.mp h
  obtain ⟨bytes, hconsumes, hq⟩ := readInt_consumes hn
  have hlength := hconsumes.readDigits.1.length
  exact ⟨bytes, hconsumes.holds, hq, hlength.1, hlength.2⟩

theorem readDigits_le_of_error (h : readDigits s room p = .error e q) : p ≤ q := by
  induction room generalizing p with
  | zero => exact Nat.le_of_eq (ByteStream.next_eq_error (bind_pure_eq_error.mp h)).symm
  | succ room ih =>
    obtain hb | ⟨b, p', hb, h⟩ := bind_eq_error.mp h
    · exact Nat.le_of_eq (ByteStream.next_eq_error hb).symm
    · obtain ⟨rfl, -⟩ := ByteStream.next_eq_ok hb
      split at h
      · exact absurd h pure_ne_error
      · have hrest : p + 1 ≤ q := ih (bind_pure_eq_error.mp h)
        omega

theorem readSigned_le_of_error (h : readSigned s p = .error e q) : p ≤ q :=
  readDigits_le_of_error (bind_pure_eq_error.mp (bind_pure_eq_error.mp h))

end Compressed

namespace LineTable

variable {c c' : Cursor} {bci : Bci} {best : LinePair} {n : Nat} {more : Bool}
  {answer : Answer SourceLine}

/-- A pair is one byte, or the escape byte and two numbers of up to five bytes. -/
theorem readPair_holds (h : readPair s c = .ok more c') :
    ∃ bytes, s.Holds c.position bytes ∧ c'.position = c.position + bytes.length ∧
      1 ≤ bytes.length ∧ bytes.length ≤ 11 := by
  obtain ⟨b, c₁, hb, h⟩ := bind_eq_ok.mp h
  have hnext := atPosition_eq_ok hb
  have hfirst := (ByteStream.next_eq_ok hnext).1
  have hbyte := ByteStream.holds_singleton hnext
  split at h
  · obtain ⟨-, rfl⟩ := pure_eq_ok.mp h
    exact ⟨[b], hbyte, hfirst, Nat.le_refl 1, Nat.le_add_left 1 10⟩
  · split at h
    · obtain ⟨x, c₂, hx, h⟩ := bind_eq_ok.mp h
      obtain ⟨⟨⟩, c₃, hs, h⟩ := bind_eq_ok.mp h
      obtain ⟨y, c₄, hy, h⟩ := bind_eq_ok.mp h
      obtain ⟨⟨⟩, c₅, hl, h⟩ := bind_eq_ok.mp h
      obtain ⟨-, rfl⟩ := pure_eq_ok.mp h
      obtain ⟨xs, hxs, hxlength, -, hxle⟩ := Compressed.readSigned_holds (atPosition_eq_ok hx)
      obtain ⟨ys, hys, hylength, -, hyle⟩ := Compressed.readSigned_holds (atPosition_eq_ok hy)
      rw [addBci_eq_ok hs, hxlength, hfirst] at hys
      rw [hfirst] at hxs
      refine ⟨b :: (xs ++ ys), ?_, ?_, ?_, ?_⟩
      · rw [hfirst] at hnext
        exact ByteStream.holds_cons.mpr ⟨hnext, ByteStream.holds_append.mpr ⟨hxs, hys⟩⟩
      · rw [addLine_eq_ok hl, hylength, addBci_eq_ok hs, hxlength, hfirst, List.length_cons,
          List.length_append]
        omega
      · rw [List.length_cons]
        omega
      · rw [List.length_cons, List.length_append]
        omega
    · obtain ⟨⟨⟩, c₂, hs, h⟩ := bind_eq_ok.mp h
      obtain ⟨⟨⟩, c₃, hl, h⟩ := bind_eq_ok.mp h
      obtain ⟨-, rfl⟩ := pure_eq_ok.mp h
      refine ⟨[b], hbyte, ?_, Nat.le_refl 1, Nat.le_add_left 1 10⟩
      rw [addLine_eq_ok hl, addBci_eq_ok hs, hfirst]
      rfl

theorem readPair_le_of_error (h : readPair s c = .error e c') : c.position ≤ c'.position := by
  obtain hb | ⟨b, c₁, hb, h⟩ := bind_eq_error.mp h
  · exact Nat.le_of_eq (ByteStream.next_eq_error (atPosition_eq_error hb).1).symm
  · have hfirst := (ByteStream.next_eq_ok (atPosition_eq_ok hb)).1
    split at h
    · exact absurd h pure_ne_error
    · split at h
      · obtain hx | ⟨x, c₂, hx, h⟩ := bind_eq_error.mp h
        · have hle := Compressed.readSigned_le_of_error (atPosition_eq_error hx).1
          omega
        · have hxlt := Compressed.readSigned_eq_ok (atPosition_eq_ok hx)
          obtain hs | ⟨⟨⟩, c₃, hs, h⟩ := bind_eq_error.mp h
          · cases hs
          · have hkeeps := addBci_eq_ok hs
            obtain hy | ⟨y, c₄, hy, h⟩ := bind_eq_error.mp h
            · have hle := Compressed.readSigned_le_of_error (atPosition_eq_error hy).1
              omega
            · cases h
      · cases h

/-- No call goes back, whether it succeeds or not. -/
theorem readPair_position_le (s : ByteStream) (c : Cursor) :
    c.position ≤ (Cursor.ofCall (readPair s c)).position := by
  cases h : readPair s c with
  | ok more c' =>
    obtain ⟨bytes, -, hposition, -⟩ := readPair_holds h
    exact hposition ▸ Nat.le_add_right _ _
  | error e c' => exact readPair_le_of_error h

/-- What a scan that is at a cursor, with the best pair so far, still does: how many calls of
`readPair` it makes, and what it answers after the last of them. -/
inductive Scans (s : ByteStream) (bci : Bci) :
    Cursor → LinePair → Nat → Answer SourceLine → Prop where
  | failed {c c' : Cursor} {best : LinePair} {e : Fault} : readPair s c = .error e c' →
      Scans s bci c best 1 (.error e)
  | ended {c c' : Cursor} {best : LinePair} : readPair s c = .ok false c' →
      Scans s bci c best 1 (.ok best.line)
  | found {c c' : Cursor} {best : LinePair} : readPair s c = .ok true c' → c'.pair.bci = bci →
      Scans s bci c best 1 (.ok c'.pair.line)
  | onward {c c' : Cursor} {best : LinePair} {n : Nat} {answer : Answer SourceLine} :
      readPair s c = .ok true c' → c'.pair.bci ≠ bci →
      Scans s bci c' (if c'.pair.bci < bci ∧ best.bci ≤ c'.pair.bci then c'.pair else best) n answer →
      Scans s bci c best (n + 1) answer

theorem exists_scans (s : ByteStream) (bci : Bci) (c : Cursor) (best : LinePair) :
    ∃ n answer, Scans s bci c best n answer := by
  fun_induction scan s bci c best with
  | case1 c best e c' hread => exact ⟨1, _, .failed hread⟩
  | case2 c best c' hread => exact ⟨1, _, .ended hread⟩
  | case3 c best c' hread hfound => exact ⟨1, _, .found hread hfound⟩
  | case4 c best c' hread hother ih =>
    obtain ⟨n, answer, hrest⟩ := ih
    exact ⟨n + 1, answer, .onward hread hother hrest⟩

namespace Scans

theorem eq_scan (h : Scans s bci c best n answer) : scan s bci c best = answer := by
  induction h with
  | failed hread => rw [scan_eq, hread]
  | ended hread => rw [scan_eq, hread]
  | found hread hfound =>
    rw [scan_eq, hread]
    exact if_pos hfound
  | onward hread hother _ ih =>
    rw [scan_eq, hread]
    exact (if_neg hother).trans ih

/-- Every call but the last one passes over a byte at least, and none of them is passed over twice. -/
theorem exists_holds (h : Scans s bci c best n answer) :
    ∃ bytes, s.Holds c.position bytes ∧ n ≤ bytes.length + 1 := by
  induction h with
  | failed | ended | found => exact ⟨[], s.holds_nil _, Nat.le_refl 1⟩
  | onward hread _ _ ih =>
    obtain ⟨first, hfirst, hposition, hlength, -⟩ := readPair_holds hread
    obtain ⟨rest, hrest, hn⟩ := ih
    rw [hposition] at hrest
    refine ⟨first ++ rest, ByteStream.holds_append.mpr ⟨hfirst, hrest⟩, ?_⟩
    rw [List.length_append]
    omega

end Scans

/-- A look-up in the table at an address that makes so many calls of `readPair` and answers so. -/
def LooksUp (m : Memory) (table : Address) (bci : Bci) (n : Nat)
    (answer : Answer SourceLine) : Prop :=
  Scans ⟨m, table⟩ bci Cursor.start ⟨0, SourceLine.unknown⟩ n answer

theorem exists_looksUp (m : Memory) (table : Address) (bci : Bci) :
    ∃ n answer, LooksUp m table bci n answer := exists_scans ⟨m, table⟩ bci _ _

theorem LooksUp.eq_lineAt {m : Memory} {table : Address} (h : LooksUp m table bci n answer) :
    lineAt m (some table) bci = answer := h.eq_scan

end LineTable

end JitFrames
