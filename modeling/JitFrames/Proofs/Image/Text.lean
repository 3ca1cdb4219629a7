import JitFrames.Proofs.Answer
import JitFrames.Proofs.Image.Cuts

namespace JitFrames

namespace Target

variable {t : Target} {a : Address} {e : Fault} {b : UInt8} {bytes text : List UInt8} {p room : Nat}

/-- One byte of a text. -/
def textByte (t : Target) (a : Address) (p : Nat) : Answer UInt8 := do
  t.readU8 (← t.fieldAddress a p)

theorem textByte_eq_ok_iff :
    t.textByte a p = .ok b ↔ (ByteStream.mk t.memory a).next p = .ok b (p + 1) := by
  rw [ByteStream.next_eq_ok_iff]
  unfold textByte fieldAddress readU8
  cases ha : a.add? p with
  | none => simp [bind, Except.bind]
  | some a' => simp [bind, Except.bind, Memory.readByte_eq_ok_iff]

theorem textByte_eq_error_iff :
    t.textByte a p = .error e ↔
      (a.add? p = none ∧ e = .malformed .fieldAddress a) ∨
        ∃ a', a.add? p = some a' ∧ t.memory.byte? a' = none ∧ e = .unmapped a' 1 := by
  unfold textByte fieldAddress readU8
  cases ha : a.add? p with
  | none => simp [bind, Except.bind, eq_comm]
  | some a' =>
    cases hb : t.memory.byte? a' with
    | none => simp [bind, Except.bind, Memory.readByte, hb, eq_comm]
    | some b => simp [bind, Except.bind, Memory.readByte, hb]

theorem readToNul_succ (t : Target) (a : Address) (room p : Nat) :
    t.readToNul a (room + 1) p = t.textByte a p >>= fun b =>
      if b = 0 then pure [] else t.readToNul a room (p + 1) >>= fun text => pure (b :: text) := by
  unfold textByte
  rw [bind_assoc]
  rfl

/-- Bytes of a text from a position on that do not end it. -/
structure Unbroken (t : Target) (a : Address) (p : Nat) (bytes : List UInt8) : Prop where
  nonzero : 0 ∉ bytes
  holds : (ByteStream.mk t.memory a).Holds p bytes

theorem unbroken_nil (t : Target) (a : Address) (p : Nat) : t.Unbroken a p [] where
  nonzero := List.not_mem_nil
  holds := ByteStream.holds_nil _ p

theorem unbroken_cons_iff :
    t.Unbroken a p (b :: bytes) ↔ (b ≠ 0 ∧ t.textByte a p = .ok b) ∧ t.Unbroken a (p + 1) bytes := by
  rw [textByte_eq_ok_iff]
  constructor
  · intro h
    obtain ⟨hb, hbytes⟩ := List.ne_and_not_mem_of_not_mem_cons h.nonzero
    obtain ⟨hnext, hholds⟩ := ByteStream.holds_cons.mp h.holds
    exact ⟨⟨Ne.symm hb, hnext⟩, hbytes, hholds⟩
  · intro h
    obtain ⟨⟨hb, hnext⟩, hbytes, hholds⟩ := h
    exact ⟨List.not_mem_cons_of_ne_of_not_mem (Ne.symm hb) hbytes,
      ByteStream.holds_cons.mpr ⟨hnext, hholds⟩⟩

/-- From any position on, the bytes that are looked at either go on to the last of them or stop at a
zero byte or a fault. -/
theorem exists_unbroken (t : Target) (a : Address) (room p : Nat) :
    ∃ bytes, t.Unbroken a p bytes ∧
      (bytes.length = room ∨ bytes.length < room ∧
        (t.textByte a (p + bytes.length) = .ok 0 ∨
          ∃ e, t.textByte a (p + bytes.length) = .error e)) := by
  induction room generalizing p with
  | zero => exact ⟨[], unbroken_nil t a p, .inl rfl⟩
  | succ room ih =>
    cases hb : t.textByte a p with
    | error e => exact ⟨[], unbroken_nil t a p, .inr ⟨Nat.succ_pos room, .inr ⟨e, hb⟩⟩⟩
    | ok b =>
      by_cases hzero : b = 0
      · subst hzero
        exact ⟨[], unbroken_nil t a p, .inr ⟨Nat.succ_pos room, .inl hb⟩⟩
      · obtain ⟨bytes, hbytes, hstops⟩ := ih (p + 1)
        refine ⟨b :: bytes, unbroken_cons_iff.mpr ⟨⟨hzero, hb⟩, hbytes⟩, ?_⟩
        rw [List.length_cons, Nat.add_comm bytes.length 1, ← Nat.add_assoc]
        exact hstops.imp (fun hlength => by omega) fun hh => ⟨by omega, hh.2⟩

/-- What does not end a text is part of it. -/
theorem readToNul_append (h : t.Unbroken a p bytes) (room : Nat) :
    t.readToNul a (bytes.length + room) p =
      t.readToNul a room (p + bytes.length) >>= fun text => pure (bytes ++ text) := by
  induction bytes generalizing p with
  | nil =>
    rw [List.length_nil, Nat.zero_add, Nat.add_zero]
    exact (bind_pure _).symm
  | cons b bytes ih =>
    obtain ⟨⟨hzero, hb⟩, hbytes⟩ := unbroken_cons_iff.mp h
    rw [List.length_cons, Nat.add_right_comm, readToNul_succ, hb, Answer.ok_bind, if_neg hzero,
      ih hbytes, bind_assoc, Nat.add_right_comm, Nat.add_assoc p]
    rfl

theorem readToNul_of_full (h : t.Unbroken a p bytes) :
    t.readToNul a bytes.length p = .error (.malformed .cString a) := by
  rw [← Nat.add_zero bytes.length, readToNul_append h 0]
  rfl

theorem readToNul_of_nul (h : t.Unbroken a p bytes) (hroom : bytes.length < room)
    (hnul : t.textByte a (p + bytes.length) = .ok 0) : t.readToNul a room p = .ok bytes := by
  obtain ⟨rest, rfl⟩ := Nat.exists_eq_add_of_lt hroom
  rw [Nat.add_assoc, readToNul_append h, readToNul_succ, hnul]
  exact congrArg Except.ok (List.append_nil bytes)

theorem readToNul_of_error (h : t.Unbroken a p bytes) (hroom : bytes.length < room)
    (herror : t.textByte a (p + bytes.length) = .error e) : t.readToNul a room p = .error e := by
  obtain ⟨rest, rfl⟩ := Nat.exists_eq_add_of_lt hroom
  rw [Nat.add_assoc, readToNul_append h, readToNul_succ, herror]
  rfl

theorem readToNul_eq_ok_iff :
    t.readToNul a room p = .ok text ↔
      t.Unbroken a p text ∧ text.length < room ∧ t.textByte a (p + text.length) = .ok 0 := by
  constructor
  · intro h
    obtain ⟨bytes, hbytes, rfl | ⟨hroom, hnul | ⟨e, herror⟩⟩⟩ := exists_unbroken t a room p
    · rw [readToNul_of_full hbytes] at h
      cases h
    · rw [readToNul_of_nul hbytes hroom hnul] at h
      cases h
      exact ⟨hbytes, hroom, hnul⟩
    · rw [readToNul_of_error hbytes hroom herror] at h
      cases h
  · intro h
    obtain ⟨hbytes, hroom, hnul⟩ := h
    exact readToNul_of_nul hbytes hroom hnul

theorem readToNul_eq_error_iff :
    t.readToNul a room p = .error e ↔
      ∃ bytes, t.Unbroken a p bytes ∧
        (bytes.length = room ∧ e = .malformed .cString a ∨
          bytes.length < room ∧ t.textByte a (p + bytes.length) = .error e) := by
  constructor
  · intro h
    obtain ⟨bytes, hbytes, rfl | ⟨hroom, hnul | ⟨e', herror⟩⟩⟩ := exists_unbroken t a room p
    · rw [readToNul_of_full hbytes] at h
      cases h
      exact ⟨bytes, hbytes, .inl ⟨rfl, rfl⟩⟩
    · rw [readToNul_of_nul hbytes hroom hnul] at h
      cases h
    · rw [readToNul_of_error hbytes hroom herror] at h
      cases h
      exact ⟨bytes, hbytes, .inr ⟨hroom, herror⟩⟩
  · intro h
    obtain ⟨bytes, hbytes, ⟨rfl, rfl⟩ | ⟨hroom, herror⟩⟩ := h
    · exact readToNul_of_full hbytes
    · exact readToNul_of_error hbytes hroom herror

end Target

namespace Image

variable {image : Image} {r : Region} {layout : Layout} {a : Address} {e : Fault} {b : UInt8}
  {bytes text : List UInt8}

/-- The regions of the image hold the bytes one after the other from the address on. -/
def MapsAll (image : Image) (a : Address) (bytes : List UInt8) : Prop :=
  ∀ i (h : i < bytes.length), ∃ b : Address, a.toNat + i = b.toNat ∧ image.Maps b bytes[i]

/-- The bytes stand at the address ahead of a zero byte, which is among the first `room`. -/
structure EndsText (image : Image) (a : Address) (room : Nat) (text : List UInt8) : Prop where
  length_lt : text.length < room
  nonzero : 0 ∉ text
  mapsAll : image.MapsAll a (text ++ [0])

/-- The first `room` bytes from the address on are all there, and none of them is zero. -/
def FillsText (image : Image) (a : Address) (room : Nat) : Prop :=
  ∃ bytes : List UInt8, bytes.length = room ∧ 0 ∉ bytes ∧ image.MapsAll a bytes

/-- The byte at `b` is missing, and those from the address on up to it, fewer than `room`, are there
and none of them is zero. -/
def BreaksText (image : Image) (a : Address) (room : Nat) (b : Address) : Prop :=
  ∃ text : List UInt8, text.length < room ∧ 0 ∉ text ∧ image.MapsAll a text ∧
    a.toNat + text.length = b.toNat ∧ ∀ x, ¬image.Maps b x

theorem history_singleton (hr : r.bytes.isEmpty = false) (hstop : r.stop ≤ UInt64.size - 1) :
    history [r] = ⟨[r]⟩ := by
  have hadmits : empty.admits r = true :=
    (wellFormed_empty.admits_iff_not_meets hr).mpr ⟨hstop, fun s hs => absurd hs List.not_mem_nil⟩
  have hadd : empty.add? r = some ⟨[r]⟩ := (add?_eq_some_iff hr).mpr ⟨hadmits, rfl⟩
  exact congrArg Prod.snd (add_of_add?_some hadd)

namespace WellFormed

theorem toNat_lt_of_maps (h : image.WellFormed) (hb : image.Maps a b) :
    a.toNat + 1 < UInt64.size := by
  obtain ⟨r, hr, i, hi, hbyte⟩ := hb
  obtain ⟨hlt, -⟩ := Array.getElem?_eq_some_iff.mp hbyte
  have hstop : r.base.toNat + r.bytes.size ≤ UInt64.size - 1 := h.bounded r hr
  omega

/-- The last address is in no image, so behind bytes that are there is another address. -/
theorem toNat_lt_of_mapsAll (h : image.WellFormed) (hbytes : image.MapsAll a bytes) :
    a.toNat + bytes.length < UInt64.size := by
  by_cases hlength : bytes.length = 0
  · rw [hlength]
    exact a.toNat_lt_size
  · obtain ⟨b, hb, hmaps⟩ := hbytes (bytes.length - 1) (by omega)
    have hlt := h.toNat_lt_of_maps hmaps
    omega

theorem mapsAll (h : image.WellFormed) (hr : r ∈ image.regions) :
    image.MapsAll r.base r.bytes.toList := by
  intro i hi
  have hlt : i < r.bytes.size := hi
  have hstop : r.base.toNat + r.bytes.size ≤ UInt64.size - 1 := h.bounded r hr
  obtain ⟨b, hb⟩ := Address.exists_add? (show r.base.toNat + i < UInt64.size by omega)
  have hindex := Address.add?_eq_some_iff.mp hb
  exact ⟨b, hindex, r, hr, i, hindex, Array.getElem?_eq_getElem hlt⟩

theorem holds_iff (h : image.WellFormed) :
    (ByteStream.mk image.memory a).Holds 0 bytes ↔ image.MapsAll a bytes := by
  simp only [ByteStream.Holds, MapsAll, Address.add?_eq_some_iff, h.byte?_eq_some_iff, Nat.zero_add]

theorem unbroken_iff (h : image.WellFormed) :
    Target.Unbroken ⟨image.memory, layout⟩ a 0 bytes ↔ 0 ∉ bytes ∧ image.MapsAll a bytes := by
  rw [← h.holds_iff]
  exact ⟨fun hh => ⟨hh.nonzero, hh.holds⟩, fun hh => ⟨hh.1, hh.2⟩⟩

theorem mapsAll_concat_iff (h : image.WellFormed) :
    image.MapsAll a (text ++ [b]) ↔
      image.MapsAll a text ∧ Target.textByte ⟨image.memory, layout⟩ a (0 + text.length) = .ok b := by
  rw [← h.holds_iff, ← h.holds_iff, ByteStream.holds_append, Target.textByte_eq_ok_iff,
    ByteStream.holds_cons, and_iff_left (ByteStream.holds_nil _ _)]

theorem textByte_eq_error_iff (h : image.WellFormed) (htext : image.MapsAll a text) :
    Target.textByte ⟨image.memory, layout⟩ a (0 + text.length) = .error e ↔
      ∃ b : Address, a.toNat + text.length = b.toNat ∧ (∀ x, ¬image.Maps b x) ∧
        e = .unmapped b 1 := by
  have hfits : ¬UInt64.size ≤ a.toNat + text.length := Nat.not_le.mpr (h.toNat_lt_of_mapsAll htext)
  have hmissing (b : Address) : image.memory.byte? b = none ↔ ∀ x, ¬image.Maps b x := by
    rw [Option.eq_none_iff_forall_ne_some]
    simp only [ne_eq, h.byte?_eq_some_iff]
  simp only [Target.textByte_eq_error_iff, Address.add?_eq_none_iff, Address.add?_eq_some_iff,
    hfits, hmissing, false_and, false_or, Nat.zero_add]

theorem readToNul_eq_ok_iff (h : image.WellFormed) {room : Nat} :
    Target.readToNul ⟨image.memory, layout⟩ a room 0 = .ok text ↔ image.EndsText a room text := by
  rw [Target.readToNul_eq_ok_iff, h.unbroken_iff]
  constructor
  · intro hh
    obtain ⟨⟨hzero, hmaps⟩, hroom, hnul⟩ := hh
    exact ⟨hroom, hzero, h.mapsAll_concat_iff.mpr ⟨hmaps, hnul⟩⟩
  · intro hh
    obtain ⟨hmaps, hnul⟩ := h.mapsAll_concat_iff.mp hh.mapsAll
    exact ⟨⟨hh.nonzero, hmaps⟩, hh.length_lt, hnul⟩

theorem readToNul_eq_error_iff (h : image.WellFormed) {room : Nat} :
    Target.readToNul ⟨image.memory, layout⟩ a room 0 = .error e ↔
      image.FillsText a room ∧ e = .malformed .cString a ∨
        ∃ b, image.BreaksText a room b ∧ e = .unmapped b 1 := by
  rw [Target.readToNul_eq_error_iff]
  simp only [h.unbroken_iff]
  constructor
  · intro hh
    obtain ⟨bytes, ⟨hzero, hmaps⟩, ⟨hlength, rfl⟩ | ⟨hroom, herror⟩⟩ := hh
    · exact .inl ⟨⟨bytes, hlength, hzero, hmaps⟩, rfl⟩
    · obtain ⟨b, hb, hmissing, rfl⟩ := (h.textByte_eq_error_iff hmaps).mp herror
      exact .inr ⟨b, ⟨bytes, hroom, hzero, hmaps, hb, hmissing⟩, rfl⟩
  · intro hh
    obtain ⟨⟨bytes, hlength, hzero, hmaps⟩, rfl⟩ |
      ⟨b, ⟨text, hroom, hzero, hmaps, hb, hmissing⟩, rfl⟩ := hh
    · exact ⟨bytes, ⟨hzero, hmaps⟩, .inl ⟨hlength, rfl⟩⟩
    · refine ⟨text, ⟨hzero, hmaps⟩, .inr ⟨hroom, ?_⟩⟩
      exact (h.textByte_eq_error_iff hmaps).mpr ⟨b, hb, hmissing, rfl⟩

theorem readCString_eq_error_iff (h : image.WellFormed) :
    Target.readCString ⟨image.memory, layout⟩ a = .error e ↔
      image.FillsText a 256 ∧ e = .malformed .cString a ∨
        ∃ b, image.BreaksText a 256 b ∧ e = .unmapped b 1 := by
  unfold Target.readCString
  rw [Answer.bind_eq_error_iff]
  constructor
  · intro hh
    obtain hread | ⟨text, -, hpure⟩ := hh
    · exact h.readToNul_eq_error_iff.mp hread
    · cases hpure
  · intro hh
    exact .inl (h.readToNul_eq_error_iff.mpr hh)

end WellFormed

/-- A text is read exactly if there is a zero byte among the first 256 from the address on and no byte
ahead of it is missing, and is that of the bytes ahead of it. It is malformed exactly if all of these
256 bytes are there and none is zero. Otherwise the first byte that is missing fails, and as the last
address is in no image, the text never gets so far that there is no address for the next byte. -/
theorem readCString_decided (rs : List Region) (layout : Layout) (a : Address) :
    (∀ s, Target.readCString ⟨(history rs).memory, layout⟩ a = .ok s ↔
      ∃ text, (history rs).EndsText a 256 text ∧ s = Utf8.decodeLossy text) ∧
    (Target.readCString ⟨(history rs).memory, layout⟩ a = .error (.malformed .cString a) ↔
      (history rs).FillsText a 256) ∧
    (∀ e, Target.readCString ⟨(history rs).memory, layout⟩ a = .error e ↔
      (history rs).FillsText a 256 ∧ e = .malformed .cString a ∨
        ∃ b, (history rs).BreaksText a 256 b ∧ e = .unmapped b 1) ∧
    ∀ base, Target.readCString ⟨(history rs).memory, layout⟩ a ≠
      .error (.malformed .fieldAddress base) := by
  have h := wellFormed_history rs
  refine ⟨fun s => ?_, ?_, fun e => h.readCString_eq_error_iff, fun base hfield => ?_⟩
  · unfold Target.readCString
    rw [Answer.bind_eq_ok]
    simp only [h.readToNul_eq_ok_iff, Answer.pure_eq_ok]
    exact exists_congr fun text => and_congr_right fun _ => eq_comm
  · rw [h.readCString_eq_error_iff]
    simp only [and_true, reduceCtorEq, and_false, exists_false, or_false]
  · obtain ⟨-, he⟩ | ⟨b, -, he⟩ := h.readCString_eq_error_iff.mp hfield
    · cases he
    · cases he

/-- A name of three bytes that goes on from one region into the next, and two bytes up to the last
address. -/
def names : List Region :=
  [⟨0x12, #[0x43, 0]⟩, ⟨0x10, #[0x4A, 0xFF]⟩, ⟨0xFFFFFFFFFFFFFFFD, #[1, 2]⟩]

/-- 256 bytes, none of them zero. -/
def endless : Region := ⟨0x10, .replicate 256 1⟩

theorem endless_mapsAll : (history [endless]).MapsAll 0x10 (.replicate 256 1) := by
  have hbytes : endless.bytes.toList = .replicate 256 1 := Array.toList_replicate
  have hsize : endless.bytes.size = 256 := Array.size_replicate
  have hnonempty : endless.bytes.isEmpty = false := by
    rw [Array.isEmpty, hsize]
    rfl
  have hstop : endless.stop ≤ UInt64.size - 1 := by
    rw [Region.stop, hsize]
    decide
  have hmem : endless ∈ (history [endless]).regions := by
    rw [history_singleton hnonempty hstop]
    exact List.mem_singleton_self _
  rw [← hbytes]
  exact (wellFormed_history [endless]).mapsAll hmem

/-- A zero byte comes first, or the 256th byte, or the last address. -/
theorem readCString_decided_names :
    Target.readCString ⟨(history names).memory, .dense⟩ 0x10 = .ok "J\uFFFDC" ∧
      Target.readCString ⟨(history [endless]).memory, .dense⟩ 0x10 =
        .error (.malformed .cString 0x10) ∧
      Target.readCString ⟨(history names).memory, .dense⟩ 0xFFFFFFFFFFFFFFFD =
        .error (.unmapped 0xFFFFFFFFFFFFFFFF 1) := by
  have h := wellFormed_history names
  have hname : (history names).MapsAll 0x10 ([0x4A, 0xFF, 0x43] ++ [0]) := by
    refine h.holds_iff.mp ?_
    simp only [List.cons_append, List.nil_append, ByteStream.holds_cons, ByteStream.holds_nil]
    exact ⟨rfl, rfl, rfl, rfl, trivial⟩
  have hlast : (history names).MapsAll 0xFFFFFFFFFFFFFFFD [1, 2] := by
    refine h.holds_iff.mp ?_
    simp only [ByteStream.holds_cons, ByteStream.holds_nil]
    exact ⟨rfl, rfl, trivial⟩
  have hmissing (x : UInt8) : ¬(history names).Maps 0xFFFFFFFFFFFFFFFF x := by
    intro hmaps
    have hlt := h.toNat_lt_of_maps hmaps
    exact absurd hlt (by decide)
  refine ⟨?_, ?_, ?_⟩
  · refine ((readCString_decided names .dense 0x10).1 _).mpr ⟨_, ⟨?_, ?_, hname⟩, ?_⟩
    · decide
    · decide
    · decide +kernel
  · have hnonzero : (0 : UInt8) ∉ List.replicate 256 1 := fun hzero =>
      absurd (List.eq_of_mem_replicate hzero) (by decide)
    exact (readCString_decided [endless] .dense 0x10).2.1.mpr
      ⟨_, List.length_replicate, hnonzero, endless_mapsAll⟩
  · refine ((readCString_decided names .dense 0xFFFFFFFFFFFFFFFD).2.2.1 _).mpr (.inr ?_)
    exact ⟨0xFFFFFFFFFFFFFFFF, ⟨_, by decide, by decide, hlast, rfl, hmissing⟩, rfl⟩

end Image

end JitFrames
