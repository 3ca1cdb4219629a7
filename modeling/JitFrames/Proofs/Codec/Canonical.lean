import Mathlib.Data.Nat.Digits.Defs
import JitFrames.Proofs.Codec.RoundTrip

namespace JitFrames

/-- What stands at a position is decided up to its length. -/
theorem ByteStream.Holds.unique {s : ByteStream} {p : Nat} {xs ys : List UInt8}
    (hxs : s.Holds p xs) (hys : s.Holds p ys) (hlength : xs.length = ys.length) : xs = ys := by
  apply List.ext_getElem hlength
  intro i hi hi'
  obtain ⟨a, ha, hb⟩ := hxs i hi
  obtain ⟨a', ha', hb'⟩ := hys i hi'
  have haa : a = a' := Option.some.inj (ha.symm.trans ha')
  rw [haa, hb'] at hb
  exact (Option.some.inj hb).symm

namespace Compressed

/-- The sum of bytes of which the `i`-th counts `64 ^ i`-fold. -/
def value (bytes : List UInt8) : Nat := Nat.ofDigits radix (bytes.map UInt8.toNat)

/-- One number with room for `room` bytes after the first: each byte before the last is a high code,
and the last one is none unless all of the room is used. -/
def IsNumber (room : Nat) (bytes : List UInt8) : Prop :=
  ∃ init last, bytes = init ++ [last] ∧ init.length ≤ room ∧ (∀ b ∈ init, highCode ≤ b.toNat) ∧
    (last.toNat < highCode ∨ init.length = room)

/-- The bytes that reading a number at a position moves past. -/
structure Consumes (s : ByteStream) (p : Nat) (v : UInt32) (bytes : List UInt8) : Prop where
  holds : s.Holds p bytes
  read : readInt s p = .ok v (p + bytes.length)

variable {s : ByteStream} {p q n room : Nat} {v : UInt32} {b : UInt8} {bytes : List UInt8}

theorem value_singleton (b : UInt8) : value [b] = b.toNat := Nat.ofDigits_singleton

theorem value_cons (b : UInt8) (bytes : List UInt8) :
    value (b :: bytes) = b.toNat + radix * value bytes := Nat.ofDigits_cons

theorem IsNumber.last (hb : b.toNat < highCode ∨ room = 0) : IsNumber room [b] := by
  refine ⟨[], b, rfl, Nat.zero_le room, by simp, ?_⟩
  rw [List.length_nil]
  omega

theorem IsNumber.announced (hb : highCode ≤ b.toNat) (h : IsNumber room bytes) :
    IsNumber (room + 1) (b :: bytes) := by
  obtain ⟨init, last, rfl, hlength, hinit, hlast⟩ := h
  refine ⟨b :: init, last, rfl, ?_, ?_, ?_⟩
  · rw [List.length_cons]
    omega
  · intro c hc
    rcases List.mem_cons.mp hc with rfl | hc
    · exact hb
    · exact hinit c hc
  · rw [List.length_cons]
    omega

theorem IsNumber.length (h : IsNumber room bytes) :
    1 ≤ bytes.length ∧ bytes.length ≤ room + 1 := by
  obtain ⟨init, last, rfl, hlength, -⟩ := h
  rw [List.length_append, List.length_singleton]
  omega

theorem readDigits_consumes (h : readDigits s room p = .ok n q) :
    ∃ bytes, IsNumber room bytes ∧ s.Holds p bytes ∧ q = p + bytes.length ∧ n = value bytes := by
  induction room generalizing p n with
  | zero =>
    obtain ⟨b, p', hb, h⟩ := bind_eq_ok.mp h
    obtain ⟨rfl, rfl⟩ := pure_eq_ok.mp h
    obtain ⟨rfl, -⟩ := ByteStream.next_eq_ok hb
    exact ⟨[b], .last (.inr rfl), ByteStream.holds_cons.mpr ⟨hb, ByteStream.holds_nil _ _⟩, rfl,
      (value_singleton b).symm⟩
  | succ room ih =>
    obtain ⟨b, p', hb, h⟩ := bind_eq_ok.mp h
    obtain ⟨rfl, -⟩ := ByteStream.next_eq_ok hb
    split at h
    · next hlow =>
      obtain ⟨rfl, rfl⟩ := pure_eq_ok.mp h
      exact ⟨[b], .last (.inl hlow), ByteStream.holds_cons.mpr ⟨hb, ByteStream.holds_nil _ _⟩,
        rfl, (value_singleton b).symm⟩
    · next hhigh =>
      obtain ⟨m, p'', hm, h⟩ := bind_eq_ok.mp h
      obtain ⟨rfl, rfl⟩ := pure_eq_ok.mp h
      obtain ⟨bytes, hnumber, hholds, hq, rfl⟩ := ih hm
      refine ⟨b :: bytes, .announced (Nat.le_of_not_lt hhigh) hnumber,
        ByteStream.holds_cons.mpr ⟨hb, hholds⟩, ?_, (value_cons b bytes).symm⟩
      rw [hq, List.length_cons]
      omega

/-- A high code gives its digit back, because what follows it counts in multiples of the radix. -/
theorem digits_value (h : IsNumber room bytes) : digits room (value bytes) = bytes := by
  obtain ⟨init, last, rfl, hlength, hinit, hlast⟩ := h
  induction init generalizing room with
  | nil =>
    rw [List.nil_append, value_singleton]
    cases room with
    | zero => rw [digits, UInt8.ofNat_toNat]
    | succ room =>
      have hlow : last.toNat < highCode := by
        rw [List.length_nil] at hlast
        omega
      rw [digits, if_pos hlow, UInt8.ofNat_toNat]
  | cons b init ih =>
    rw [List.length_cons] at hlength hlast
    obtain ⟨room, rfl⟩ := Nat.exists_eq_add_of_le' (show 1 ≤ room by omega)
    have hb : highCode ≤ b.toNat := hinit b List.mem_cons_self
    have hbyte : b.toNat < 256 := b.toNat_lt_size
    have hrest : digits room (value (init ++ [last])) = init ++ [last] :=
      ih (by omega) (fun c hc => hinit c (List.mem_cons_of_mem b hc)) (by omega)
    have hhigh : ¬b.toNat + radix * value (init ++ [last]) < highCode := by omega
    have hdigit : highCode + (b.toNat + radix * value (init ++ [last]) - highCode) % radix =
        b.toNat := by
      simp only [highCode, radix] at hb ⊢
      omega
    have hquotient : (b.toNat + radix * value (init ++ [last]) - highCode) / radix =
        value (init ++ [last]) := by
      simp only [highCode, radix] at hb ⊢
      omega
    rw [List.cons_append, value_cons, digits, if_neg hhigh, hdigit, hquotient, hrest,
      UInt8.ofNat_toNat]

theorem readInt_consumes (h : readInt s p = .ok v q) :
    ∃ bytes, Consumes s p v bytes ∧ q = p + bytes.length := by
  obtain ⟨n, p', hn, hv⟩ := bind_eq_ok.mp h
  obtain ⟨-, rfl⟩ := pure_eq_ok.mp hv
  obtain ⟨bytes, -, hholds, rfl, -⟩ := readDigits_consumes hn
  exact ⟨bytes, ⟨hholds, h⟩, rfl⟩

theorem readInt_position_lt (h : readInt s p = .ok v q) (hroom : s.Roomy) : q < UInt64.size := by
  obtain ⟨bytes, hbytes, rfl⟩ := readInt_consumes h
  have hread := readInt_eq_ok h
  obtain ⟨a, ha, -⟩ := hbytes.holds 0 (by omega)
  have hsum := Address.add?_eq_some_iff.mp ha
  have hlt := a.toNat_lt_size
  exact hbytes.holds.stop_lt hroom (by omega)

theorem Consumes.readDigits (h : Consumes s p v bytes) :
    IsNumber maxFollow bytes ∧
      readDigits s maxFollow p = .ok (value bytes) (p + bytes.length) ∧
      v = UInt32.ofNat (value bytes) := by
  obtain ⟨n, p', hn, hv⟩ := bind_eq_ok.mp h.read
  obtain ⟨rfl, rfl⟩ := pure_eq_ok.mp hv
  obtain ⟨read, hnumber, hholds, hlength, rfl⟩ := readDigits_consumes hn
  have hread : read = bytes := hholds.unique h.holds (by omega)
  rw [hread] at hn hnumber
  exact ⟨hnumber, hn, by rw [hread]⟩

theorem Consumes.toNat (h : Consumes s p v bytes) : v.toNat = value bytes % UInt32.size := by
  rw [h.readDigits.2.2, UInt32.toNat_ofNat']

/-- The writer uses no bytes but those of the number itself, so bytes whose sum wraps are never
written. -/
theorem Consumes.encode_eq_iff (h : Consumes s p v bytes) :
    encode v = bytes ↔ value bytes < UInt32.size := by
  obtain ⟨hnumber, hread, -⟩ := h.readDigits
  constructor
  · intro hv
    have hfits : v.toNat < capacity maxFollow := Nat.lt_of_lt_of_le v.toNat_lt_size word_le_capacity
    have hagain := readDigits_digits hfits (show s.Holds p (encode v) from hv ▸ h.holds)
    rw [hread] at hagain
    have hvalue : value bytes = v.toNat := by injection hagain
    rw [hvalue]
    exact v.toNat_lt_size
  · intro hsum
    rw [encode, h.toNat, Nat.mod_eq_of_lt hsum, digits_value hnumber]

/-- Reading a number moves past one to five bytes, to a position that is a word unless the last of
them is that of the address space. They are exactly one number and sum up to it except for what 32
bits do not hold. They are the bytes that the number is written in exactly if
their sum fits, so of the bytes read as one number only one sequence has a sum that fits. -/
theorem readInt_canonical :
    (∀ s p q v, readInt s p = .ok v q →
      (∃ bytes, Consumes s p v bytes ∧ q = p + bytes.length) ∧ (s.Roomy → q < UInt64.size)) ∧
    (∀ s p v bytes, Consumes s p v bytes →
      (1 ≤ bytes.length ∧ bytes.length ≤ 5) ∧ IsNumber 4 bytes ∧
      v.toNat = value bytes % UInt32.size ∧ (encode v = bytes ↔ value bytes < UInt32.size)) ∧
    (∀ s s' p p' v bytes bytes', Consumes s p v bytes → Consumes s' p' v bytes' →
      value bytes < UInt32.size → value bytes' < UInt32.size → bytes = bytes') := by
  refine ⟨fun s p q v h => ⟨readInt_consumes h, readInt_position_lt h⟩, ?_, ?_⟩
  · intro s p v bytes h
    have hnumber : IsNumber maxFollow bytes := h.readDigits.1
    exact ⟨hnumber.length, hnumber, h.toNat, h.encode_eq_iff⟩
  · intro s s' p p' v bytes bytes' h h' hsum hsum'
    have hv : encode v = bytes := h.encode_eq_iff.mpr hsum
    have hv' : encode v = bytes' := h'.encode_eq_iff.mpr hsum'
    rw [← hv, hv']

/-- Five high codes, whose sum is `2 ^ 32` more than the number read, and behind them the bytes that
this number is written in. -/
def wrappedStream : ByteStream :=
  ⟨.ofBytes ([255, 255, 255, 255, 255] ++ [255, 255, 255, 191] : List UInt8).toArray, 0⟩

theorem wrapped_consumes : Consumes wrappedStream 0 51130559 [255, 255, 255, 255, 255] :=
  ⟨ByteStream.ofBytes_holds [] [255, 255, 255, 255, 255] [255, 255, 255, 191] (by decide), rfl⟩

theorem unwrapped_consumes : Consumes wrappedStream 5 51130559 [255, 255, 255, 191] :=
  ⟨ByteStream.ofBytes_holds [255, 255, 255, 255, 255] [255, 255, 255, 191] [] (by decide), rfl⟩

/-- The number is read from either of the two sequences, and written in the second one. -/
theorem readInt_canonical_wrapped :
    (readInt wrappedStream 0 = .ok 51130559 5 ∧
      ∃ bytes, Consumes wrappedStream 0 51130559 bytes ∧ 5 = 0 + bytes.length) ∧
    IsNumber 4 [255, 255, 255, 255, 255] ∧
    encode 51130559 ≠ [255, 255, 255, 255, 255] ∧
    encode 51130559 = [255, 255, 255, 191] ∧
    (∀ bytes, Consumes wrappedStream 5 51130559 bytes → value bytes < UInt32.size →
      bytes = [255, 255, 255, 191]) := by
  obtain ⟨hread, hmeaning, hunique⟩ := readInt_canonical
  obtain ⟨-, hnumber, -, hwrapped⟩ := hmeaning _ _ _ _ wrapped_consumes
  obtain ⟨-, -, -, hunwrapped⟩ := hmeaning _ _ _ _ unwrapped_consumes
  refine ⟨⟨rfl, (hread _ _ _ _ rfl).1⟩, hnumber, ?_, hunwrapped.mpr (by decide), ?_⟩
  · exact mt hwrapped.mp (by decide)
  · intro bytes h hsum
    exact hunique _ _ _ _ _ _ _ h unwrapped_consumes hsum (by decide)

end Compressed

end JitFrames
