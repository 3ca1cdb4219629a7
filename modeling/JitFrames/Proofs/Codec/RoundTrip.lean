import JitFrames.Codec.Integer
import JitFrames.Proofs.Codec.Stream

namespace JitFrames.Compressed

/-- The numbers below this one fit into a byte and `room` bytes after it. -/
def capacity : Nat → Nat
  | 0 => UInt8.size
  | room + 1 => highCode + radix * capacity room

theorem word_le_capacity : UInt32.size ≤ capacity maxFollow := by decide

theorem digits_length (room n : Nat) :
    1 ≤ (digits room n).length ∧ (digits room n).length ≤ room + 1 := by
  induction room generalizing n with
  | zero => simp [digits]
  | succ room ih =>
    simp only [digits]
    split
    · simp
    · have h := ih ((n - highCode) / radix)
      simp only [List.length_cons]
      omega

/-- A byte that announces another one: the digit that it carries fits above the high code. -/
theorem highDigit_toNat (n : Nat) :
    (UInt8.ofNat (highCode + n % radix)).toNat = highCode + n % radix := by
  rw [UInt8.toNat_ofNat', Nat.mod_eq_of_lt (by simp only [highCode, radix]; omega)]

/-- The last byte takes what is left, which fits because the number is below the capacity; a byte
before it is a high code and its digit, so the reader goes on exactly where the writer did. -/
theorem readDigits_digits {s : ByteStream} {room n p : Nat} (hn : n < capacity room)
    (h : s.Holds p (digits room n)) :
    readDigits s room p = .ok n (p + (digits room n).length) := by
  induction room generalizing n p with
  | zero =>
    obtain ⟨hb, -⟩ := ByteStream.holds_cons.mp h
    have hv : (UInt8.ofNat n).toNat = n := by
      rw [UInt8.toNat_ofNat', Nat.mod_eq_of_lt (show n < UInt8.size from hn)]
    exact bind_eq_ok.mpr ⟨_, _, hb, pure_eq_ok.mpr ⟨hv, rfl⟩⟩
  | succ room ih =>
    simp only [digits] at h ⊢
    split at h
    · next hlow =>
      rw [if_pos hlow]
      obtain ⟨hb, -⟩ := ByteStream.holds_cons.mp h
      have hv : (UInt8.ofNat n).toNat = n := by
        simp only [highCode] at hlow
        rw [UInt8.toNat_ofNat', Nat.mod_eq_of_lt (by omega)]
      refine bind_eq_ok.mpr ⟨_, _, hb, ?_⟩
      rw [if_pos (by rw [hv]; exact hlow)]
      exact pure_eq_ok.mpr ⟨hv, rfl⟩
    · next hhigh =>
      rw [if_neg hhigh]
      obtain ⟨hb, hrest⟩ := ByteStream.holds_cons.mp h
      have hv := highDigit_toNat (n - highCode)
      have hrest' : (n - highCode) / radix < capacity room := by
        simp only [capacity, highCode, radix] at hn hhigh ⊢
        omega
      refine bind_eq_ok.mpr ⟨_, _, hb, ?_⟩
      rw [if_neg (by rw [hv]; omega)]
      refine bind_eq_ok.mpr ⟨_, _, ih hrest' hrest, pure_eq_ok.mpr ⟨?_, ?_⟩⟩
      · rw [hv]
        simp only [highCode, radix] at hhigh ⊢
        omega
      · rw [List.length_cons]
        omega

theorem readInt_encode {s : ByteStream} {p : Nat} {v : UInt32} (h : s.Holds p (encode v)) :
    readInt s p = .ok v (p + (encode v).length) := by
  have hv : v.toNat < capacity maxFollow := Nat.lt_of_lt_of_le v.toNat_lt_size word_le_capacity
  exact bind_eq_ok.mpr ⟨_, _, readDigits_digits hv h, pure_eq_ok.mpr ⟨UInt32.ofNat_toNat, rfl⟩⟩

theorem unfoldSign_foldSign (v : Int32) : unfoldSign (foldSign v) = v := by
  have hlow := v.le_toInt
  have hhigh := v.toInt_lt
  simp only [foldSign]
  split
  · next hv =>
    have hn : (UInt32.ofNat (2 * v.toInt).toNat).toNat = (2 * v.toInt).toNat := by
      rw [UInt32.toNat_ofNat', Nat.mod_eq_of_lt (by omega)]
    simp only [unfoldSign]
    rw [hn, if_pos (by omega), show (((2 * v.toInt).toNat : Int) / 2) = v.toInt by omega,
      Int32.ofInt_toInt]
  · next hv =>
    have hn : (UInt32.ofNat (-2 * v.toInt - 1).toNat).toNat = (-2 * v.toInt - 1).toNat := by
      rw [UInt32.toNat_ofNat', Nat.mod_eq_of_lt (by omega)]
    simp only [unfoldSign]
    rw [hn, if_neg (by omega),
      show -(((-2 * v.toInt - 1).toNat : Int) / 2) - 1 = v.toInt by omega, Int32.ofInt_toInt]

theorem readSigned_encodeSigned {s : ByteStream} {p : Nat} {v : Int32}
    (h : s.Holds p (encodeSigned v)) :
    readSigned s p = .ok v (p + (encodeSigned v).length) :=
  bind_eq_ok.mpr ⟨_, _, readInt_encode h, pure_eq_ok.mpr ⟨unfoldSign_foldSign v, rfl⟩⟩

/-- One read gives back one written item and moves past its bytes. -/
theorem Item.read_encode {s : ByteStream} {p : Nat} {item : Item} (h : s.Holds p item.encode) :
    item.kind.read s p = .ok item (p + item.encode.length) := by
  cases item with
  | int v => exact bind_eq_ok.mpr ⟨_, _, readInt_encode h, pure_eq_ok.mpr ⟨rfl, rfl⟩⟩
  | signed v => exact bind_eq_ok.mpr ⟨_, _, readSigned_encodeSigned h, pure_eq_ok.mpr ⟨rfl, rfl⟩⟩
  | byte v =>
    exact bind_eq_ok.mpr ⟨_, _, (ByteStream.holds_cons.mp h).1, pure_eq_ok.mpr ⟨rfl, rfl⟩⟩

/-- Reads an item of each kind, in order. -/
def readAll (s : ByteStream) (kinds : List Item.Kind) : Decoder (List Item) :=
  kinds.mapM (Item.Kind.read s)

theorem readAll_encodeAll {s : ByteStream} {p : Nat} {items : List Item}
    (h : s.Holds p (encodeAll items)) :
    readAll s (items.map Item.kind) p = .ok items (p + (encodeAll items).length) := by
  induction items generalizing p with
  | nil => exact pure_eq_ok.mpr ⟨rfl, rfl⟩
  | cons item items ih =>
    simp only [encodeAll] at h ih ⊢
    rw [List.flatMap_cons] at h ⊢
    obtain ⟨hitem, hitems⟩ := ByteStream.holds_append.mp h
    simp only [readAll] at ih ⊢
    rw [List.map_cons, List.mapM_cons]
    refine bind_eq_ok.mpr ⟨_, _, Item.read_encode hitem, ?_⟩
    refine bind_eq_ok.mpr ⟨_, _, ih hitems, pure_eq_ok.mpr ⟨rfl, ?_⟩⟩
    rw [List.length_append, Nat.add_assoc]

theorem Item.encode_length (item : Item) :
    1 ≤ item.encode.length ∧ item.encode.length ≤ maxFollow + 1 := by
  cases item with
  | int v => exact digits_length maxFollow v.toNat
  | signed v => exact digits_length maxFollow (foldSign v).toNat
  | byte v => exact ⟨Nat.le_refl 1, Nat.le_add_left 1 maxFollow⟩

/-- Reading items of the kinds that were written gives back the items, wherever in a memory their
bytes stand and whatever follows them. The position behind them is a word, unless the last byte of
the address space is read at the position of its address. No item takes more than five bytes. -/
theorem codec_roundTrip (items : List Item) :
    (∀ (memory : Memory) (buffer : Address) (pos : Nat),
      (ByteStream.mk memory buffer).Holds pos (encodeAll items) →
        readAll ⟨memory, buffer⟩ (items.map Item.kind) pos =
          .ok items (pos + (encodeAll items).length) ∧
        ((ByteStream.mk memory buffer).Roomy → pos < UInt64.size →
          pos + (encodeAll items).length < UInt64.size)) ∧
    ∀ item ∈ items, 1 ≤ item.encode.length ∧ item.encode.length ≤ 5 :=
  ⟨fun _ _ _ h => ⟨readAll_encodeAll h, h.stop_lt⟩, fun item _ => item.encode_length⟩

/-- The greatest number, the least signed one, a byte that is a high code and a one-byte number,
between other bytes of a buffer. -/
theorem codec_roundTrip_extremes :
    let items : List Item := [.int 0xFFFFFFFF, .signed Int32.minValue, .byte 0xC8, .int 191]
    let s : ByteStream := ⟨.ofBytes ([7, 7] ++ encodeAll items ++ [0xFF]).toArray, 0⟩
    (s.Holds 2 (encodeAll items) ∧
      readAll s [.int, .signed, .byte, .int] 2 = .ok items 14) ∧
    1 ≤ (encode 0xFFFFFFFF).length ∧ (encode 0xFFFFFFFF).length ≤ 5 := by
  intro items s
  have hs : s.Holds 2 (encodeAll items) :=
    ByteStream.ofBytes_holds [7, 7] (encodeAll items) [0xFF] (by decide)
  have h := codec_roundTrip items
  exact ⟨⟨hs, (h.1 s.memory s.origin 2 hs).1⟩, h.2 (.int 0xFFFFFFFF) (by simp [items])⟩

end JitFrames.Compressed
