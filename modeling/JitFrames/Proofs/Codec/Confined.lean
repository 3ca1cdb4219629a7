import JitFrames.Proofs.Codec.Reads

namespace JitFrames

variable {α β : Type} {r : AddressRange} {m m' : Memory} {origin a : Address} {p q : Nat}
  {e : Fault}

namespace Decoder

/-- Whether a step that ends so has not come to the byte at `q`. -/
def staysBefore (q : Nat) : EStateM.Result Fault Nat α → Bool
  | .ok _ p => p ≤ q
  | .error _ p => p < q

/-- What becomes of a step if the byte at `q` is out of reach. -/
def cut (q : Nat) (e : Fault) (result : EStateM.Result Fault Nat α) :
    EStateM.Result Fault Nat α :=
  if staysBefore q result then result else .error e q

variable {x : α} {result : EStateM.Result Fault Nat α}

theorem staysBefore_ok_iff :
    staysBefore q (.ok x p : EStateM.Result Fault Nat α) = true ↔ p ≤ q := decide_eq_true_iff

theorem staysBefore_error_iff :
    staysBefore q (.error e p : EStateM.Result Fault Nat α) = true ↔ p < q := decide_eq_true_iff

theorem position_le_of_staysBefore (h : staysBefore q result = true) : position result ≤ q := by
  cases result with
  | ok x p => exact staysBefore_ok_iff.mp h
  | error e' p => exact Nat.le_of_lt (staysBefore_error_iff.mp h)

theorem cut_of_staysBefore (h : staysBefore q result = true) : cut q e result = result := if_pos h

theorem cut_of_passes (h : ¬staysBefore q result = true) : cut q e result = .error e q := if_neg h

theorem cut_of_lt (h : q < position result) : cut q e result = .error e q := by
  apply cut_of_passes
  intro hstays
  exact absurd (position_le_of_staysBefore hstays) (Nat.not_le.mpr h)

/-- From the positions between `start` and `q` the first decoder answers like the second, unless
that one comes to the byte at `q`: then the first one fails there. -/
structure Confined (start q : Nat) (e : Fault) (f g : Decoder α) : Prop where
  advances : ∀ p, p ≤ position (g p)
  eq_cut : ∀ p, start ≤ p → p ≤ q → f p = cut q e (g p)

namespace Confined

variable {start : Nat}

theorem pure (x : α) : Confined start q e (Pure.pure x) (Pure.pure x) where
  advances := Nat.le_refl
  eq_cut _ _ hq := (cut_of_staysBefore (staysBefore_ok_iff.mpr hq)).symm

/-- A first step that has passed the byte is followed by steps further on, so the whole has passed
it as well. -/
theorem bind {f g : Decoder α} {f' g' : α → Decoder β} (h : Confined start q e f g)
    (h' : ∀ x, Confined start q e (f' x) (g' x)) :
    Confined start q e (f >>= f') (g >>= g') where
  advances p := by
    have hfirst := h.advances p
    cases hg : g p with
    | ok x p' =>
      rw [hg] at hfirst
      rw [bind_of_ok hg]
      exact Nat.le_trans hfirst ((h' x).advances p')
    | error e' p' =>
      rw [hg] at hfirst
      rw [bind_of_error hg]
      exact hfirst
  eq_cut p hp hq := by
    have hstep := h.advances p
    have hfirst := h.eq_cut p hp hq
    cases hg : g p with
    | ok x p' =>
      rw [hg] at hstep hfirst
      rw [bind_of_ok hg]
      by_cases hq' : p' ≤ q
      · rw [cut_of_staysBefore (staysBefore_ok_iff.mpr hq')] at hfirst
        rw [bind_of_ok hfirst]
        exact (h' x).eq_cut p' (Nat.le_trans hp hstep) hq'
      · have hpassed : q < p' := Nat.lt_of_not_le hq'
        rw [cut_of_lt hpassed] at hfirst
        rw [bind_of_error hfirst]
        exact (cut_of_lt (Nat.lt_of_lt_of_le hpassed ((h' x).advances p'))).symm
    | error e' p' =>
      rw [hg] at hfirst
      rw [bind_of_error hg]
      by_cases hq' : p' < q
      · rw [cut_of_staysBefore (staysBefore_error_iff.mpr hq')] at hfirst
        rw [bind_of_error hfirst]
        exact (cut_of_staysBefore (staysBefore_error_iff.mpr hq')).symm
      · rw [cut_of_passes (mt staysBefore_error_iff.mp hq')] at hfirst
        rw [bind_of_error hfirst]
        exact (cut_of_passes (mt staysBefore_error_iff.mp hq')).symm

end Confined

end Decoder

open Decoder (Confined staysBefore)

/-- The first byte outside a range that a stream comes to from a position on: the one at `q`, whose
address is `a`. -/
structure AddressRange.LeftAt (r : AddressRange) (origin : Address) (p q : Nat) (a : Address) :
    Prop where
  le : p ≤ q
  here : origin.add? q = some a
  outside : r.contains a = false
  inside : ∀ j, p ≤ j → j < q → ∃ b, origin.add? j = some b ∧ r.contains b = true

namespace AddressRange.LeftAt

variable {q' : Nat} {a' : Address}

theorem le_of_leftAt (h : r.LeftAt origin p q a) (h' : r.LeftAt origin p q' a') : q' ≤ q := by
  apply Nat.le_of_not_lt
  intro hlt
  obtain ⟨b, hb, hin⟩ := h'.inside q h.le hlt
  have hab : a = b := Option.some.inj (h.here.symm.trans hb)
  rw [← hab, h.outside] at hin
  cases hin

theorem unique (h : r.LeftAt origin p q a) (h' : r.LeftAt origin p q' a') : q' = q ∧ a' = a := by
  have hq : q' = q := Nat.le_antisymm (h.le_of_leftAt h') (h'.le_of_leftAt h)
  have hhere := h'.here
  rw [hq, h.here] at hhere
  exact ⟨hq, (Option.some.inj hhere).symm⟩

end AddressRange.LeftAt

/-- No range holds the last address, so a stream leaves every range. -/
theorem AddressRange.exists_leftAt (r : AddressRange) (h : origin.add? p ≠ none) :
    ∃ q a, r.LeftAt origin p q a := by
  obtain ⟨b, hb⟩ := Option.ne_none_iff_exists'.mp h
  by_cases hin : r.contains b = true
  · have hpos : origin.toNat + p = b.toNat := Address.add?_eq_some_iff.mp hb
    obtain ⟨hstart, hstop⟩ := contains_iff.mp hin
    refine ⟨r.stop.toNat - origin.toNat, r.stop, by omega, ?_, ?_, fun j hp hj => ?_⟩
    · exact Address.add?_eq_some_iff.mpr (by omega)
    · rw [← Bool.not_eq_true, contains_iff]
      omega
    · have hlt := r.stop.toNat_lt_size
      obtain ⟨c, hc⟩ := Address.exists_add? (show origin.toNat + j < UInt64.size by omega)
      have hcpos := Address.add?_eq_some_iff.mp hc
      exact ⟨c, hc, contains_iff.mpr ⟨by omega, by omega⟩⟩
  · exact ⟨p, b, Nat.le_refl p, hb, by simpa using hin, fun j hp hj => by omega⟩

namespace Memory

theorem readByte_within_of_inside (h : r.contains a = true) :
    (m.within r).readByte a = m.readByte a := by
  have hstop : a.toNat + 1 ≤ r.stop.toNat := (AddressRange.contains_iff.mp h).2
  unfold readByte byte? within
  simp [h, hstop]

theorem readByte_within_of_outside (h : r.contains a = false) :
    (m.within r).readByte a = .error (.unmapped a 1) := by
  unfold readByte byte? within
  simp [h]

/-- A part of a memory gives what stands in the part. -/
theorem readByte_within_congr (h : ∀ a, r.contains a = true → m'.readByte a = m.readByte a)
    (a : Address) : (m'.within r).readByte a = (m.within r).readByte a := by
  by_cases ha : r.contains a = true
  · rw [readByte_within_of_inside ha, readByte_within_of_inside ha, h a ha]
  · have ha : r.contains a = false := by simpa using ha
    rw [readByte_within_of_outside ha, readByte_within_of_outside ha]

end Memory

namespace ByteStream

theorem next_within_of_outside (ha : origin.add? q = some a) (h : r.contains a = false) :
    (ByteStream.mk (m.within r) origin).next q = .error (.unmapped a 1) q := by
  simp only [next, ha]
  rw [Memory.readByte_within_of_outside h]

theorem next_within_of_inside (ha : origin.add? p = some a) (h : r.contains a = true) :
    (ByteStream.mk (m.within r) origin).next p = (ByteStream.mk m origin).next p := by
  simp only [next, ha]
  rw [Memory.readByte_within_of_inside h]

theorem le_position_next (s : ByteStream) (p : Nat) : p ≤ Decoder.position (s.next p) := by
  cases h : s.next p with
  | ok b p' =>
    have hp := (next_eq_ok h).1
    exact Nat.le_of_lt (Nat.lt_of_lt_of_eq (Nat.lt_succ_self p) hp.symm)
  | error e p' => exact Nat.le_of_eq (next_eq_error h).symm

end ByteStream

variable {start : Nat}

theorem ByteStream.next_confined (h : r.LeftAt origin start q a) :
    Confined start q (.unmapped a 1) (ByteStream.mk (m.within r) origin).next
      (ByteStream.mk m origin).next where
  advances := le_position_next _
  eq_cut p hp hq := by
    obtain rfl | hlt := Nat.eq_or_lt_of_le hq
    · rw [next_within_of_outside h.here h.outside]
      cases hnext : (ByteStream.mk m origin).next p with
      | ok b p' =>
        obtain ⟨rfl, -⟩ := next_eq_ok hnext
        exact (Decoder.cut_of_lt (Nat.lt_succ_self p)).symm
      | error e p' =>
        obtain rfl := next_eq_error hnext
        exact (Decoder.cut_of_passes (mt Decoder.staysBefore_error_iff.mp (Nat.lt_irrefl _))).symm
    · obtain ⟨b, hb, hin⟩ := h.inside p hp hlt
      rw [next_within_of_inside hb hin]
      cases hnext : (ByteStream.mk m origin).next p with
      | ok b p' =>
        obtain ⟨rfl, -⟩ := next_eq_ok hnext
        exact (Decoder.cut_of_staysBefore (Decoder.staysBefore_ok_iff.mpr hlt)).symm
      | error e p' =>
        obtain rfl := next_eq_error hnext
        exact (Decoder.cut_of_staysBefore (Decoder.staysBefore_error_iff.mpr hlt)).symm

namespace Compressed

theorem readDigits_confined (h : r.LeftAt origin start q a) (room : Nat) :
    Confined start q (.unmapped a 1) (readDigits ⟨m.within r, origin⟩ room)
      (readDigits ⟨m, origin⟩ room) := by
  induction room with
  | zero => exact (ByteStream.next_confined h).bind fun b => .pure b.toNat
  | succ room ih =>
    apply (ByteStream.next_confined h).bind
    intro b
    by_cases hlow : b.toNat < highCode
    · rw [if_pos hlow, if_pos hlow]
      exact .pure b.toNat
    · rw [if_neg hlow, if_neg hlow]
      exact ih.bind fun n => .pure (b.toNat + radix * n)

theorem readInt_confined (h : r.LeftAt origin start q a) :
    Confined start q (.unmapped a 1) (readInt ⟨m.within r, origin⟩) (readInt ⟨m, origin⟩) :=
  (readDigits_confined h maxFollow).bind fun n => .pure (UInt32.ofNat n)

theorem Item.Kind.read_confined (h : r.LeftAt origin start q a) (kind : Item.Kind) :
    Confined start q (.unmapped a 1) (kind.read ⟨m.within r, origin⟩)
      (kind.read ⟨m, origin⟩) := by
  cases kind with
  | int => exact (readInt_confined h).bind fun v => .pure (Item.int v)
  | signed =>
    have hsigned := (readInt_confined (m := m) h).bind fun v => .pure (unfoldSign v)
    exact hsigned.bind fun v => .pure (Item.signed v)
  | byte => exact (ByteStream.next_confined h).bind fun v => .pure (Item.byte v)

end Compressed

namespace Read

theorem run_confined (h : r.LeftAt origin start q a) (read : Read) :
    Confined start q (.unmapped a 1) (read.run ⟨m.within r, origin⟩) (read.run ⟨m, origin⟩) := by
  cases read with
  | item kind => exact (kind.read_confined h).bind fun i => .pure (Value.item i)
  | bci =>
    have hbci := (Compressed.readInt_confined (m := m) h).bind fun v =>
      .pure (v.toInt32 + Bci.invocationEntry)
    exact hbci.bind fun b => .pure (Value.bci b)

/-- The reads that do not come to the byte outside, and one failure at that byte for each of the
others. -/
def confine (q : Nat) (e : Fault) (outcomes : List (EStateM.Result Fault Nat Value)) :
    List (EStateM.Result Fault Nat Value) :=
  let reached := outcomes.takeWhile (staysBefore q)
  reached ++ List.replicate (outcomes.length - reached.length) (.error e q)

theorem length_outcomes (s : ByteStream) (reads : List Read) (p : Nat) :
    (outcomes s reads p).length = reads.length := by
  induction reads generalizing p with
  | nil => rfl
  | cons read reads ih => rw [outcomes, List.length_cons, List.length_cons, ih]

theorem outcomes_confined (h : r.LeftAt origin start q a) (reads : List Read) (hp : start ≤ p)
    (hq : p ≤ q) :
    outcomes ⟨m.within r, origin⟩ reads p =
      confine q (.unmapped a 1) (outcomes ⟨m, origin⟩ reads p) := by
  induction reads generalizing p with
  | nil => rfl
  | cons read reads ih =>
    have hread := read.run_confined (m := m) h
    have hfirst := hread.eq_cut p hp hq
    rw [outcomes, outcomes]
    by_cases hstays : staysBefore q (read.run ⟨m, origin⟩ p) = true
    · rw [Decoder.cut_of_staysBefore hstays] at hfirst
      rw [hfirst, ih (Nat.le_trans hp (hread.advances p))
        (Decoder.position_le_of_staysBefore hstays)]
      simp only [confine]
      rw [List.takeWhile_cons_of_pos hstays, List.cons_append, List.length_cons, List.length_cons,
        Nat.add_sub_add_right]
    · -- A read that comes to the byte outside stays in front of it, and so do all behind this one.
      rw [Decoder.cut_of_passes hstays] at hfirst
      have hrest := outcomes_of_next_error
        (ByteStream.next_within_of_outside (m := m) h.here h.outside) reads
      rw [hfirst]
      simp only [confine]
      rw [List.takeWhile_cons_of_neg hstays, List.nil_append, List.length_nil, Nat.sub_zero,
        List.length_cons, length_outcomes, List.replicate_succ]
      exact congrArg _ hrest

/-- Streams over a part of a memory do not see what lies outside: wherever they start, they give the
same over any two memories that hold the same bytes in the part. And they give what the streams over
all of the memory give up to the first read that needs a byte outside; from then on every read
fails at that byte. A stream whose position has no address fails alike over both. -/
theorem outcomes_within (r : AddressRange) (origin : Address) (reads : List Read) (p : Nat) :
    (∀ m m' : Memory, (∀ a, r.contains a = true → m'.readByte a = m.readByte a) →
      outcomes ⟨m'.within r, origin⟩ reads p = outcomes ⟨m.within r, origin⟩ reads p) ∧
    ∀ m : Memory,
      (origin.add? p = none →
        outcomes ⟨m.within r, origin⟩ reads p = outcomes ⟨m, origin⟩ reads p) ∧
      (origin.add? p ≠ none → ∃ q a, r.LeftAt origin p q a ∧
        outcomes ⟨m.within r, origin⟩ reads p =
          confine q (.unmapped a 1) (outcomes ⟨m, origin⟩ reads p)) := by
  refine ⟨fun m m' h => ?_, fun m => ⟨fun h => ?_, fun h => ?_⟩⟩
  · apply outcomes_congr
    exact ByteStream.next_congr (Memory.readByte_within_congr h)
  · have hnowhere (s : ByteStream) (hs : s.origin = origin) :
        s.next p = .error (.malformed .streamPosition origin) p := by
      simp only [ByteStream.next, hs, h]
    rw [outcomes_of_next_error (hnowhere ⟨m.within r, origin⟩ rfl),
      outcomes_of_next_error (hnowhere ⟨m, origin⟩ rfl)]
  · obtain ⟨q, a, hleft⟩ := r.exists_leftAt h
    exact ⟨q, a, hleft, outcomes_confined hleft reads (Nat.le_refl p) hleft.le⟩

/-- The second number goes on behind the end of the range, so what stands there does not matter; and
behind the last address there is nothing to read in either way. -/
theorem outcomes_within_torn :
    outcomes ⟨(Memory.ofBytes #[7, 0xff, 99]).within ⟨0, 2⟩, 0⟩ [.item .int, .bci] 0 =
        outcomes ⟨(Memory.ofBytes #[7, 0xff, 3]).within ⟨0, 2⟩, 0⟩ [.item .int, .bci] 0 ∧
      outcomes ⟨(Memory.ofBytes #[7, 0xff, 3]).within ⟨0, 2⟩, 0⟩ [.item .int, .bci] 0 =
        [.ok (.item (.int 7)) 1, .error (.unmapped 2 1) 2] ∧
      outcomes ⟨Memory.ofBytes #[7, 0xff, 3], 0⟩ [.item .int, .bci] 0 =
        [.ok (.item (.int 7)) 1, .ok (.bci 446) 3] ∧
      outcomes ⟨(Memory.ofBytes #[7]).within ⟨0, 1⟩, UInt64.ofNat (UInt64.size - 1)⟩ [.bci] 1 =
        outcomes ⟨Memory.ofBytes #[7], UInt64.ofNat (UInt64.size - 1)⟩ [.bci] 1 := by
  have hfirst (last : UInt8) : (Memory.ofBytes #[7, 0xff, last]).readByte 0 = .ok 7 := rfl
  have hsecond (last : UInt8) : (Memory.ofBytes #[7, 0xff, last]).readByte 1 = .ok 0xff := rfl
  have hagree : ∀ a, (AddressRange.mk 0 2).contains a = true →
      (Memory.ofBytes #[7, 0xff, 99]).readByte a = (Memory.ofBytes #[7, 0xff, 3]).readByte a := by
    intro a ha
    obtain ⟨-, hlt⟩ := AddressRange.contains_iff.mp ha
    have hlow : a.toNat = 0 ∨ a.toNat = 1 := by
      have htwo : (AddressRange.mk 0 2).stop.toNat = 2 := rfl
      omega
    obtain hzero | hone := hlow
    · rw [UInt64.toNat_inj.mp (hzero.trans UInt64.toNat_zero.symm), hfirst, hfirst]
    · rw [UInt64.toNat_inj.mp (hone.trans UInt64.toNat_one.symm), hsecond, hsecond]
  have hfull : outcomes ⟨Memory.ofBytes #[7, 0xff, 3], 0⟩ [.item .int, .bci] 0 =
      [.ok (.item (.int 7)) 1, .ok (.bci 446) 3] := rfl
  refine ⟨(outcomes_within ⟨0, 2⟩ 0 _ 0).1 _ _ hagree, ?_, hfull,
    ((outcomes_within ⟨0, 1⟩ _ _ 1).2 _).1 (by decide)⟩
  have htwo : (AddressRange.mk 0 2).LeftAt 0 0 2 2 := {
    le := Nat.zero_le 2
    here := rfl
    outside := rfl
    inside := fun j _ hj => by
      obtain rfl | rfl : j = 0 ∨ j = 1 := by omega
      · exact ⟨0, rfl, rfl⟩
      · exact ⟨1, rfl, rfl⟩ }
  obtain ⟨q, a, hleft, houtcomes⟩ :=
    ((outcomes_within ⟨0, 2⟩ 0 [.item .int, .bci] 0).2 (Memory.ofBytes #[7, 0xff, 3])).2 (by decide)
  obtain ⟨rfl, rfl⟩ := htwo.unique hleft
  rw [houtcomes, hfull]
  rfl

end Read

end JitFrames
