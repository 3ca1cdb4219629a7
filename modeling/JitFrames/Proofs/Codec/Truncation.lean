import JitFrames.Proofs.Codec.Calls
import JitFrames.Proofs.Growth.Codec

namespace JitFrames

variable {s : ByteStream} {e : Fault} {stop p : Nat} {front bytes xs ys : List UInt8}

namespace ByteStream

/-- Of the bytes from a position on those in front of `stop` stand there, and at `stop`, before the
last of them is read, a fault comes. -/
def BreaksOff (s : ByteStream) (e : Fault) (stop : Nat) : Nat → List UInt8 → Prop
  | _, [] => False
  | p, b :: bytes =>
    (stop = p ∧ s.next p = .error e p) ∨ (s.next p = .ok b (p + 1) ∧ BreaksOff s e stop (p + 1) bytes)

theorem breaksOff_append :
    s.BreaksOff e stop p (xs ++ ys) ↔
      s.BreaksOff e stop p xs ∨ (s.Holds p xs ∧ s.BreaksOff e stop (p + xs.length) ys) := by
  induction xs generalizing p with
  | nil => simp [BreaksOff, Holds]
  | cons b xs ih =>
    simp only [List.cons_append, BreaksOff, holds_cons, ih, List.length_cons]
    rw [Nat.add_right_comm p 1, Nat.add_assoc p]
    constructor
    · rintro (h | ⟨hb, h | ⟨hxs, h⟩⟩)
      · exact .inl (.inl h)
      · exact .inl (.inr ⟨hb, h⟩)
      · exact .inr ⟨⟨hb, hxs⟩, h⟩
    · rintro ((h | ⟨hb, h⟩) | ⟨⟨hb, hxs⟩, h⟩)
      · exact .inl h
      · exact .inr ⟨hb, .inl h⟩
      · exact .inr ⟨hb, .inr ⟨hxs, h⟩⟩

theorem breaksOff_of_holds (hfront : s.Holds p front) (hcut : front <+: bytes)
    (hne : front ≠ bytes) (hstop : s.next (p + front.length) = .error e (p + front.length)) :
    s.BreaksOff e (p + front.length) p bytes := by
  obtain ⟨rest, rfl⟩ := hcut
  refine breaksOff_append.mpr (.inr ⟨hfront, ?_⟩)
  cases rest with
  | nil => simp at hne
  | cons b rest => exact .inl ⟨rfl, hstop⟩

theorem ofBytes_holds_take (bytes : List UInt8) {n : Nat} (hn : n < UInt64.size) :
    (ByteStream.mk (.ofBytes bytes.toArray) 0).Holds 0 (bytes.take n) := by
  apply ofBytes_holds_of_getElem?
  · rw [List.length_take]
    omega
  · intro i hi
    rw [List.length_take] at hi
    simp [List.getElem?_eq_getElem (show i < bytes.length by omega)]

theorem ofBytes_next_error (bytes : List UInt8) {n : Nat} (hn : n < UInt64.size)
    (hend : bytes.length ≤ n ∨ n + 1 = UInt64.size) :
    (ByteStream.mk (.ofBytes bytes.toArray) 0).next n =
      .error (.unmapped (UInt64.ofNat n) 1) n := by
  have hmissing : (Memory.ofBytes bytes.toArray).byte? (UInt64.ofNat n) = none := by
    rw [Memory.byte?_ofBytes, UInt64.toNat_ofNat_of_lt' hn]
    split
    · exact Array.getElem?_eq_none (by rw [List.size_toArray]; omega)
    · rfl
  simp only [next, Address.add?_zero hn, Memory.readByte, hmissing]

/-- A buffer is read up to its end, or up to the last address if it reaches that far. -/
theorem ofBytes_breaksOff (hcut : front <+: bytes) (hne : front ≠ bytes) :
    (ByteStream.mk (.ofBytes front.toArray) 0).BreaksOff
      (.unmapped (UInt64.ofNat (min front.length (UInt64.size - 1))) 1)
      (min front.length (UInt64.size - 1)) 0 bytes := by
  have hsize : 0 < UInt64.size := by decide
  have hshorter : front.length < bytes.length :=
    Nat.lt_of_le_of_ne hcut.length_le fun h => hne (hcut.eq_of_length h)
  have hread := ofBytes_holds_take front
    (show min front.length (UInt64.size - 1) < UInt64.size by omega)
  have hlength : (front.take (min front.length (UInt64.size - 1))).length =
      min front.length (UInt64.size - 1) := by
    rw [List.length_take]
    omega
  have hend := ofBytes_next_error front
    (show min front.length (UInt64.size - 1) < UInt64.size by omega) (by omega)
  have htake : front.take (min front.length (UInt64.size - 1)) ≠ bytes := by
    intro heq
    rw [heq] at hlength
    omega
  rw [← hlength, ← Nat.zero_add (front.take _).length] at hend
  have hbreaks := breaksOff_of_holds hread ((List.take_prefix _ front).trans hcut) htake hend
  rwa [Nat.zero_add, hlength] at hbreaks

end ByteStream

/-- A longer buffer gives what its front part gives. -/
theorem Memory.ofBytes_extends (h : front <+: bytes) :
    (Memory.ofBytes front.toArray).Extends (.ofBytes bytes.toArray) := by
  obtain ⟨rest, rfl⟩ := h
  intro a n read hread
  unfold Memory.ofBytes at hread ⊢
  obtain ⟨stop, hstop, hread⟩ := Option.bind_eq_some_iff.mp hread
  refine Option.bind_eq_some_iff.mpr ⟨stop, hstop, ?_⟩
  split at hread
  · next hin =>
    rw [List.size_toArray] at hin
    have hstop : stop.toNat ≤ (front ++ rest).toArray.size := by
      rw [List.size_toArray, List.length_append]
      omega
    rw [if_pos hstop, ← hread, ← List.append_toArray, Array.extract_append]
    simp [hin]
  · cases hread

namespace Compressed

open ByteStream

theorem readDigits_breaksOff {room n : Nat} (h : s.BreaksOff e stop p (digits room n)) :
    readDigits s room p = .error e stop := by
  induction room generalizing n p with
  | zero =>
    obtain ⟨rfl, hstop⟩ | ⟨-, hnone⟩ := h
    · exact bind_of_error hstop
    · exact hnone.elim
  | succ room ih =>
    simp only [digits] at h
    split at h
    · obtain ⟨rfl, hstop⟩ | ⟨-, hnone⟩ := h
      · exact bind_of_error hstop
      · exact hnone.elim
    · obtain ⟨rfl, hstop⟩ | ⟨hb, hrest⟩ := h
      · exact bind_of_error hstop
      · refine bind_eq_error.mpr (.inr ⟨_, _, hb, ?_⟩)
        rw [if_neg (by rw [highDigit_toNat]; omega)]
        exact bind_of_error (ih hrest)

theorem readInt_breaksOff {v : UInt32} (h : s.BreaksOff e stop p (encode v)) :
    readInt s p = .error e stop :=
  bind_of_error (readDigits_breaksOff h)

theorem readSigned_breaksOff {v : Int32} (h : s.BreaksOff e stop p (encodeSigned v)) :
    readSigned s p = .error e stop :=
  bind_of_error (readInt_breaksOff h)

end Compressed

namespace LineTable

open ByteStream Compressed

variable {prev pair : LinePair} {pairs : List LinePair}

/-- Wherever a pair is cut, in front of it, behind the escape byte or in one of its numbers, it is
not delivered. -/
theorem readPair_breaksOff (h : s.BreaksOff e stop p (encodePair prev pair)) :
    ∃ c, readPair s ⟨p, prev⟩ = .error e c := by
  simp only [encodePair] at h
  split at h
  · obtain ⟨rfl, hstop⟩ | ⟨-, hnone⟩ := h
    · exact ⟨⟨stop, prev⟩, readPair_of_next_error hstop⟩
    · exact hnone.elim
  · obtain ⟨rfl, hstop⟩ | ⟨hescape, hdiffs⟩ := h
    · exact ⟨⟨stop, prev⟩, readPair_of_next_error hstop⟩
    · obtain hbci | ⟨hbci, hline⟩ := breaksOff_append.mp hdiffs
      · refine ⟨⟨stop, prev⟩, bind_eq_error.mpr (.inr ⟨escape, _, atPosition_of_ok hescape, ?_⟩)⟩
        rw [if_neg (by decide), if_pos rfl]
        exact bind_of_error (atPosition_of_error (readSigned_breaksOff hbci))
      · refine ⟨⟨stop, ⟨prev.bci + (pair.bci - prev.bci), prev.line⟩⟩,
          bind_eq_error.mpr (.inr ⟨escape, _, atPosition_of_ok hescape, ?_⟩)⟩
        rw [if_neg (by decide), if_pos rfl]
        refine bind_eq_error.mpr (.inr ⟨_, _, atPosition_of_ok (readSigned_encodeSigned hbci), ?_⟩)
        refine bind_eq_error.mpr (.inr ⟨(), _, rfl, ?_⟩)
        exact bind_of_error (atPosition_of_error (readSigned_breaksOff hline))

theorem delivered_breaksOff (h : s.BreaksOff e stop p (encodePairs prev pairs ++ [terminator])) :
    ∃ front, front <+: pairs ∧ delivered s ⟨p, prev⟩ = (front, some e) := by
  induction pairs generalizing p prev with
  | nil =>
    obtain ⟨rfl, hstop⟩ | ⟨-, hnone⟩ := h
    · have hread : readPair s ⟨stop, prev⟩ = .error e ⟨stop, prev⟩ := readPair_of_next_error hstop
      exact ⟨[], List.nil_prefix, delivered_of_error hread⟩
    · exact hnone.elim
  | cons pair pairs ih =>
    rw [encodePairs, List.append_assoc] at h
    obtain hpair | ⟨hpair, hpairs⟩ := breaksOff_append.mp h
    · obtain ⟨c, hread⟩ := readPair_breaksOff hpair
      exact ⟨[], List.nil_prefix, delivered_of_error hread⟩
    · obtain ⟨front, hfront, hrest⟩ := ih hpairs
      refine ⟨pair :: front, (List.prefix_cons_inj pair).mpr hfront, ?_⟩
      rw [delivered_of_true (readPair_encodePair hpair), hrest]

/-- The calls pass over the pairs one by one and stay at the fault behind them. -/
theorem delivered_cursorAfter (h : delivered s Cursor.start = (pairs, some e)) (n : Nat) :
    delivered s (cursorAfter s n) = (pairs.drop n, some e) := by
  induction n with
  | zero => exact h
  | succ n ih =>
    rw [cursorAfter_succ, callAfter]
    cases hcall : readPair s (cursorAfter s n) with
    | error e' c =>
      rw [delivered_of_error hcall, Prod.mk.injEq] at ih
      have hrest : pairs.drop (n + 1) = [] := by
        rw [← List.drop_drop, ← ih.1]
        rfl
      rw [hrest, ← ih.2]
      exact delivered_of_error (readPair_again hcall)
    | ok more c =>
      cases more with
      | false =>
        rw [delivered_of_false hcall, Prod.mk.injEq] at ih
        cases ih.2
      | true =>
        rw [delivered_of_true hcall, Prod.mk.injEq] at ih
        have hrest : pairs.drop (n + 1) = (delivered s c).1 := by
          rw [← List.drop_drop, ← ih.1]
          rfl
        rw [hrest, ← ih.2]
        rfl

/-- What the calls answer one by one where the pairs that are delivered end in a fault. -/
theorem callAfter_of_delivered (h : delivered s Cursor.start = (pairs, some e)) (n : Nat) :
    (∀ pair, pairs[n]? = some pair → ∃ c, callAfter s n = .ok true c ∧ c.pair = pair) ∧
      (pairs.length ≤ n → ∃ c, callAfter s n = .error e c) := by
  have hn := delivered_cursorAfter h n
  cases hcall : callAfter s n with
  | error e' c =>
    rw [delivered_of_error hcall, Prod.mk.injEq] at hn
    have hlength : pairs.length ≤ n := List.drop_eq_nil_iff.mp hn.1.symm
    rw [List.getElem?_eq_none hlength, ← Option.some.inj hn.2]
    exact ⟨fun pair hpair => (by cases hpair), fun _ => ⟨c, rfl⟩⟩
  | ok more c =>
    cases more with
    | false =>
      rw [delivered_of_false hcall, Prod.mk.injEq] at hn
      cases hn.2
    | true =>
      rw [delivered_of_true hcall, Prod.mk.injEq] at hn
      have hhead : pairs[n]? = some c.pair := by
        rw [← List.head?_drop, ← hn.1]
        rfl
      refine ⟨fun pair hpair => ⟨c, rfl, Option.some.inj (hhead.symm.trans hpair)⟩, fun hlength => ?_⟩
      rw [List.getElem?_eq_none hlength] at hhead
      cases hhead

/-- Every encoding that is cut off is found out. A number is missed at the first byte that is not
there. The calls on a table deliver some first pairs of it and from then on fail, and a look-up fails
unless it answers what it would answer over the whole table. -/
theorem truncation_detected :
    (∀ (v : UInt32) (front : List UInt8), front <+: Compressed.encode v → front ≠ Compressed.encode v →
      readInt ⟨.ofBytes front.toArray, 0⟩ 0 =
        .error (.unmapped (UInt64.ofNat front.length) 1) front.length) ∧
    (∀ (pairs : List LinePair) (front : List UInt8),
      front <+: LineTable.encode pairs → front ≠ LineTable.encode pairs →
      (∃ read a, read <+: pairs ∧
        (∀ n pair, read[n]? = some pair →
          ∃ c, callAfter ⟨.ofBytes front.toArray, 0⟩ n = .ok true c ∧ c.pair = pair) ∧
        (∀ n, read.length ≤ n →
          ∃ c, callAfter ⟨.ofBytes front.toArray, 0⟩ n = .error (.unmapped a 1) c)) ∧
      ∀ bci, Answer.IsUnmapped (lineAt (.ofBytes front.toArray) (some 0) bci) ∨
        lineAt (.ofBytes front.toArray) (some 0) bci =
          lineAt (.ofBytes (LineTable.encode pairs).toArray) (some 0) bci) := by
  constructor
  · intro v front hcut hne
    have hlength : front.length ≤ maxFollow + 1 :=
      Nat.le_trans hcut.length_le (digits_length maxFollow v.toNat).2
    have hmin : min front.length (UInt64.size - 1) = front.length :=
      Nat.min_eq_left (Nat.le_trans hlength (by decide))
    have hbreaks := ofBytes_breaksOff hcut hne
    rw [hmin] at hbreaks
    exact readInt_breaksOff hbreaks
  · intro pairs front hcut hne
    obtain ⟨read, hread, hdelivered⟩ := delivered_breaksOff (ofBytes_breaksOff hcut hne)
    refine ⟨⟨read, _, hread, fun n => (callAfter_of_delivered hdelivered n).1,
      fun n => (callAfter_of_delivered hdelivered n).2⟩, fun bci => ?_⟩
    obtain hmissing | hsame := lineAt_persists (Memory.ofBytes_extends hcut) (some 0) bci
    · exact .inl hmissing
    · exact .inr hsame.symm

/-- A pair of one byte and an escaped one. -/
def cutPairs : List LinePair := [⟨1, 1⟩, ⟨100, -2⟩]

/-- Their table up to the line difference of the second pair, which ends in a byte like the
terminator. -/
def cutTable : List UInt8 := [0x09, 0xFF, 198, 0]

theorem truncation_detected_between_numbers :
    (([255, 252, 252] : List UInt8) <+: Compressed.encode 0xFFFFFFFF ∧
      ([255, 252, 252] : List UInt8) ≠ Compressed.encode 0xFFFFFFFF ∧
      readInt ⟨.ofBytes #[255, 252, 252], 0⟩ 0 = .error (.unmapped 3 1) 3) ∧
    cutTable <+: LineTable.encode cutPairs ∧ cutTable ≠ LineTable.encode cutPairs ∧
      (∃ read a, read <+: cutPairs ∧ ∀ n, read.length ≤ n →
        ∃ c, callAfter ⟨.ofBytes cutTable.toArray, 0⟩ n = .error (.unmapped a 1) c) ∧
      (Answer.IsUnmapped (lineAt (.ofBytes cutTable.toArray) (some 0) 1) ∨
        lineAt (.ofBytes cutTable.toArray) (some 0) 1 =
          lineAt (.ofBytes (LineTable.encode cutPairs).toArray) (some 0) 1) := by
  have hnumber : ([255, 252, 252] : List UInt8) <+: Compressed.encode 0xFFFFFFFF := by decide
  have hnumber' : ([255, 252, 252] : List UInt8) ≠ Compressed.encode 0xFFFFFFFF := by decide
  have htable : cutTable <+: LineTable.encode cutPairs := by decide
  have htable' : cutTable ≠ LineTable.encode cutPairs := by decide
  obtain ⟨hint, hpairs⟩ := truncation_detected
  obtain ⟨⟨read, a, hread, -, hfails⟩, hline⟩ := hpairs cutPairs cutTable htable htable'
  exact ⟨⟨hnumber, hnumber', hint 0xFFFFFFFF _ hnumber hnumber'⟩, htable, htable',
    ⟨read, a, hread, hfails⟩, hline 1⟩

end LineTable

end JitFrames
