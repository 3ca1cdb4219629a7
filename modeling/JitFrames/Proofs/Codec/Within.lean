import JitFrames.Codec.Integer
import JitFrames.Proofs.Codec.Stream

namespace JitFrames

theorem Memory.byte?_within {m : Memory} {r : AddressRange} {a : Address} {b : UInt8} :
    (m.within r).byte? a = some b ↔ m.byte? a = some b ∧ r.contains a = true := by
  unfold Memory.byte? Memory.within
  by_cases hr : r.contains a = true
  · have hstop : a.toNat + 1 ≤ r.stop.toNat := (AddressRange.contains_iff.mp hr).2
    simp [hr, hstop]
  · simp [hr]

variable {α β : Type} {m : Memory} {r : AddressRange}

/-- The first decoder answers like the second as long as the second moves up to the end of the
range at most. Where nothing is read, nothing is asked of the range. -/
structure Decoder.Narrows (r : AddressRange) (f g : Decoder α) : Prop where
  advances : ∀ {p q : Nat} {x : α}, g p = .ok x q → p ≤ q
  eq_ok_iff : ∀ {p q : Nat} {x : α},
    f p = .ok x q ↔ g p = .ok x q ∧ (q = p ∨ r.start.toNat + q ≤ r.stop.toNat)

namespace Decoder.Narrows

theorem pure (x : α) : Narrows r (Pure.pure x) (Pure.pure x) where
  advances h := Nat.le_of_eq (pure_eq_ok.mp h).2
  eq_ok_iff := by
    intro p q y
    rw [pure_eq_ok]
    constructor
    · intro hh
      obtain ⟨rfl, rfl⟩ := hh
      exact ⟨⟨rfl, rfl⟩, .inl rfl⟩
    · exact fun h => h.1

/-- The position between two steps lies between the outer ones, so the range that holds the last
position holds it too. -/
theorem bind {f g : Decoder α} {f' g' : α → Decoder β} (h : Narrows r f g)
    (h' : ∀ x, Narrows r (f' x) (g' x)) : Narrows r (f >>= f') (g >>= g') where
  advances := by
    intro p q y hy
    obtain ⟨x, p', hx, hy⟩ := bind_eq_ok.mp hy
    exact Nat.le_trans (h.advances hx) ((h' x).advances hy)
  eq_ok_iff := by
    intro p q y
    constructor
    · intro hy
      obtain ⟨x, p', hx, hy⟩ := bind_eq_ok.mp hy
      obtain ⟨hx, hp'⟩ := h.eq_ok_iff.mp hx
      obtain ⟨hy, hq⟩ := (h' x).eq_ok_iff.mp hy
      exact ⟨bind_eq_ok.mpr ⟨x, p', hx, hy⟩, by omega⟩
    · intro hh
      obtain ⟨hy, hq⟩ := hh
      obtain ⟨x, p', hx, hy⟩ := bind_eq_ok.mp hy
      have hfirst := h.advances hx
      have hsecond := (h' x).advances hy
      exact bind_eq_ok.mpr
        ⟨x, p', h.eq_ok_iff.mpr ⟨hx, by omega⟩, (h' x).eq_ok_iff.mpr ⟨hy, by omega⟩⟩

end Decoder.Narrows

theorem ByteStream.next_narrows :
    Decoder.Narrows r (ByteStream.mk (m.within r) r.start).next (ByteStream.mk m r.start).next where
  advances h := by
    have hnext := (next_eq_ok h).1
    omega
  eq_ok_iff := by
    intro p q b
    rw [next_eq_ok_iff, next_eq_ok_iff]
    constructor
    · intro hh
      obtain ⟨rfl, a, ha, hb⟩ := hh
      obtain ⟨hb, hr⟩ := Memory.byte?_within.mp hb
      have hpos : r.start.toNat + p = a.toNat := Address.add?_eq_some_iff.mp ha
      have hstop := (AddressRange.contains_iff.mp hr).2
      exact ⟨⟨rfl, a, ha, hb⟩, .inr (by omega)⟩
    · intro hh
      obtain ⟨⟨rfl, a, ha, hb⟩, hstop⟩ := hh
      have hpos : r.start.toNat + p = a.toNat := Address.add?_eq_some_iff.mp ha
      have hr : r.contains a = true := AddressRange.contains_iff.mpr ⟨by omega, by omega⟩
      exact ⟨rfl, a, ha, Memory.byte?_within.mpr ⟨hb, hr⟩⟩

namespace Compressed

theorem readDigits_narrows (room : Nat) :
    Decoder.Narrows r (readDigits ⟨m.within r, r.start⟩ room)
      (readDigits ⟨m, r.start⟩ room) := by
  induction room with
  | zero => exact ByteStream.next_narrows.bind fun b => .pure b.toNat
  | succ room ih =>
    apply ByteStream.next_narrows.bind
    intro b
    by_cases hlow : b.toNat < highCode
    · rw [if_pos hlow, if_pos hlow]
      exact .pure b.toNat
    · rw [if_neg hlow, if_neg hlow]
      exact ih.bind fun n => .pure (b.toNat + radix * n)

theorem readInt_narrows :
    Decoder.Narrows r (readInt ⟨m.within r, r.start⟩) (readInt ⟨m, r.start⟩) :=
  (readDigits_narrows maxFollow).bind fun n => .pure (UInt32.ofNat n)

end Compressed

end JitFrames
