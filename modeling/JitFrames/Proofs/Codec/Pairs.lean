import JitFrames.Codec.LineTable
import JitFrames.Proofs.Codec.RoundTrip

namespace JitFrames.LineTable

/-- The pairs that one call of `readPair` after the other delivers from a cursor on, and the fault
that ends them unless the table does. -/
def delivered (s : ByteStream) (c : Cursor) : List LinePair × Option Fault :=
  match _h : readPair s c with
  | .error e _ => ([], some e)
  | .ok false _ => ([], none)
  | .ok true c' => (c'.pair :: (delivered s c').1, (delivered s c').2)
termination_by UInt64.size - c.position
decreasing_by all_goals have := readPair_eq_ok _h; omega

variable {s : ByteStream} {c c' : Cursor} {prev pair : LinePair} {p : Nat}

theorem delivered_of_true (h : readPair s c = .ok true c') :
    delivered s c = (c'.pair :: (delivered s c').1, (delivered s c').2) := by
  rw [delivered]
  split <;> simp_all

theorem delivered_of_false (h : readPair s c = .ok false c') : delivered s c = ([], none) := by
  rw [delivered]
  split <;> simp_all

theorem delivered_of_error {e : Fault} (h : readPair s c = .error e c') :
    delivered s c = ([], some e) := by
  rw [delivered]
  split <;> simp_all

/-- A difference that fits into a byte comes back from the number it was written as. -/
theorem ofNat_toNat_toInt {d : Int32} (h : 0 ≤ d) : Int32.ofNat d.toInt.toNat = d := by
  have hd : 0 ≤ d.toInt := by simpa using Int32.le_iff_toInt_le.mp h
  have hlt := d.toInt_lt
  rw [← Int32.toInt_inj, Int32.toInt_ofNat_of_lt (by omega)]
  omega

/-- Adding the difference from the pair before gives the pair, also where the difference wraps. -/
theorem add_sub_self (a b : Int32) : a + (b - a) = b := by
  rw [Int32.add_comm, Int32.sub_add_cancel]

theorem atPosition_of_ok {α : Type} {step : Decoder α} {x : α} {q : Nat}
    (h : step c.position = .ok x q) : atPosition step c = .ok x ⟨q, c.pair⟩ := by
  unfold atPosition
  rw [h]

theorem readPair_terminator (h : s.next c.position = .ok terminator p) :
    readPair s c = .ok false ⟨p, c.pair⟩ := by
  refine bind_eq_ok.mpr ⟨terminator, _, atPosition_of_ok h, ?_⟩
  rw [if_pos rfl]
  rfl

/-- The escaped form: whatever the differences are, the two signed numbers behind the escape byte
carry them. -/
theorem readPair_escape (h : s.Holds p (escape :: (Compressed.encodeSigned (pair.bci - prev.bci) ++
      Compressed.encodeSigned (pair.line - prev.line)))) :
    readPair s ⟨p, prev⟩ =
      .ok true ⟨p + 1 + (Compressed.encodeSigned (pair.bci - prev.bci)).length +
        (Compressed.encodeSigned (pair.line - prev.line)).length, pair⟩ := by
  obtain ⟨hescape, hdiffs⟩ := ByteStream.holds_cons.mp h
  obtain ⟨hbci, hline⟩ := ByteStream.holds_append.mp hdiffs
  refine bind_eq_ok.mpr ⟨escape, _, atPosition_of_ok hescape, ?_⟩
  rw [if_neg (by decide), if_pos rfl]
  refine bind_eq_ok.mpr ⟨_, _, atPosition_of_ok (Compressed.readSigned_encodeSigned hbci), ?_⟩
  refine bind_eq_ok.mpr ⟨(), _, rfl, ?_⟩
  refine bind_eq_ok.mpr ⟨_, _, atPosition_of_ok (Compressed.readSigned_encodeSigned hline), ?_⟩
  refine bind_eq_ok.mpr ⟨(), _, rfl, pure_eq_ok.mpr ⟨rfl, ?_⟩⟩
  simp only [add_sub_self]

/-- The one-byte form. Five bits of index and three of line do not mix, and the byte is neither of
the two that mean something else. -/
theorem readPair_packed {b : UInt8} (h : s.next p = .ok b (p + 1)) (hterminator : b ≠ terminator)
    (hescape : b ≠ escape) (hbci : Int32.ofNat (b.toNat / bciWeight) = pair.bci - prev.bci)
    (hline : Int32.ofNat (b.toNat % bciWeight) = pair.line - prev.line) :
    readPair s ⟨p, prev⟩ = .ok true ⟨p + 1, pair⟩ := by
  refine bind_eq_ok.mpr ⟨b, _, atPosition_of_ok h, ?_⟩
  rw [if_neg hterminator, if_neg hescape, hbci, hline]
  refine bind_eq_ok.mpr ⟨(), _, rfl, bind_eq_ok.mpr ⟨(), _, rfl, pure_eq_ok.mpr ⟨rfl, ?_⟩⟩⟩
  simp only [add_sub_self]

theorem readPair_encodePair (h : s.Holds p (encodePair prev pair)) :
    readPair s ⟨p, prev⟩ = .ok true ⟨p + (encodePair prev pair).length, pair⟩ := by
  simp only [encodePair] at h ⊢
  split at h
  · next hpacked =>
    rw [if_pos hpacked]
    obtain ⟨hbci, hbci', hline, hline', hterminator, hescape⟩ := hpacked
    obtain ⟨hnext, -⟩ := ByteStream.holds_cons.mp h
    have hb : (pair.bci - prev.bci).toInt < 32 := Int32.lt_iff_toInt_lt.mp hbci'
    have hl : (pair.line - prev.line).toInt < 8 := Int32.lt_iff_toInt_lt.mp hline'
    have hbyte : (UInt8.ofNat ((pair.bci - prev.bci).toInt.toNat * bciWeight +
          (pair.line - prev.line).toInt.toNat)).toNat =
        (pair.bci - prev.bci).toInt.toNat * bciWeight +
          (pair.line - prev.line).toInt.toNat := by
      rw [UInt8.toNat_ofNat', Nat.mod_eq_of_lt (by simp only [bciWeight]; omega)]
    refine readPair_packed hnext hterminator hescape ?_ ?_
    · rw [hbyte, ← ofNat_toNat_toInt hbci]
      congr 1
      simp only [ofNat_toNat_toInt hbci, bciWeight]
      omega
    · rw [hbyte, ← ofNat_toNat_toInt hline]
      congr 1
      simp only [ofNat_toNat_toInt hline, bciWeight]
      omega
  · next hescaped =>
    rw [if_neg hescaped, readPair_escape h]
    simp only [List.length_cons, List.length_append]
    congr 2
    omega

/-- The reader's pair is the one that the writer has written last, so each pair is read as the
difference that it was written as. -/
theorem delivered_encodePairs {pairs : List LinePair}
    (h : s.Holds p (encodePairs prev pairs ++ [terminator])) :
    delivered s ⟨p, prev⟩ = (pairs, none) := by
  induction pairs generalizing p prev with
  | nil =>
    obtain ⟨hnext, -⟩ := ByteStream.holds_cons.mp h
    exact delivered_of_false (readPair_terminator hnext)
  | cons pair pairs ih =>
    rw [encodePairs, List.append_assoc] at h
    obtain ⟨hpair, hpairs⟩ := ByteStream.holds_append.mp h
    rw [delivered_of_true (readPair_encodePair hpair), ih hpairs]

/-- Wherever the bytes of a table stand, and whatever follows them, they are read as the pairs that
were written, each of them once and in order, and then as the end of the table. -/
theorem table_roundTrip (pairs : List LinePair) (memory : Memory) (table : Address)
    (h : (ByteStream.mk memory table).Holds 0 (encode pairs)) :
    delivered ⟨memory, table⟩ Cursor.start = (pairs, none) :=
  delivered_encodePairs h

/-- A pair that repeats the start, one whose byte would be the escape, one that repeats it, and
steps over the whole range of numbers and back. -/
def extremePairs : List LinePair :=
  [⟨0, 0⟩, ⟨31, 7⟩, ⟨31, 7⟩, ⟨32, 8⟩, ⟨Int32.minValue, Int32.maxValue⟩,
    ⟨Int32.maxValue, Int32.minValue⟩, ⟨-1, -1⟩]

theorem table_roundTrip_extremes :
    (ByteStream.mk (.ofBytes (encode extremePairs ++ [9]).toArray) 0).Holds 0
        (encode extremePairs) ∧
      delivered ⟨.ofBytes (encode extremePairs ++ [9]).toArray, 0⟩ Cursor.start =
        (extremePairs, none) := by
  have h : (ByteStream.mk (.ofBytes (encode extremePairs ++ [9]).toArray) 0).Holds 0
      (encode extremePairs) :=
    ByteStream.ofBytes_holds [] (encode extremePairs) [9] (by decide)
  exact ⟨h, table_roundTrip extremePairs _ 0 h⟩

end JitFrames.LineTable
