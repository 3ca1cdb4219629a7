import JitFrames.Proofs.Growth.Answer

namespace JitFrames

open Answer (Persists)

variable {m m' : Memory}

namespace Memory.Extends

theorem next (h : m.Extends m') (origin : Address) :
    Step.Persists (ByteStream.next ⟨m, origin⟩) (ByteStream.next ⟨m', origin⟩) := by
  intro p
  unfold ByteStream.next
  cases origin.add? p with
  | none => exact .inr rfl
  | some a =>
    simp only
    obtain ⟨b, n, hread⟩ | hread := h.readByte a
    · rw [hread]
      exact .inl ⟨b, n, p, rfl⟩
    · rw [hread]
      exact .inr rfl

theorem readDigits (h : m.Extends m') (origin : Address) (room : Nat) :
    Step.Persists (Compressed.readDigits ⟨m, origin⟩ room)
      (Compressed.readDigits ⟨m', origin⟩ room) := by
  induction room with
  | zero => exact (h.next origin).bind fun _ => .refl _
  | succ room ih => exact (h.next origin).bind fun _ => .ite (.refl _) (ih.bind fun _ => .refl _)

theorem readInt (h : m.Extends m') (origin : Address) :
    Step.Persists (Compressed.readInt ⟨m, origin⟩) (Compressed.readInt ⟨m', origin⟩) :=
  (h.readDigits origin Compressed.maxFollow).bind fun _ => .refl _

theorem readSigned (h : m.Extends m') (origin : Address) :
    Step.Persists (Compressed.readSigned ⟨m, origin⟩) (Compressed.readSigned ⟨m', origin⟩) :=
  (h.readInt origin).bind fun _ => .refl _

end Memory.Extends

namespace LineTable

theorem atPosition_persists {α : Type} {f g : Decoder α} (h : Step.Persists f g) :
    Step.Persists (atPosition f) (atPosition g) := by
  intro c
  unfold atPosition
  obtain ⟨a, n, p, hf⟩ | hg := h c.position
  · rw [hf]
    exact .inl ⟨a, n, ⟨p, c.pair⟩, rfl⟩
  · rw [hg]
    exact .inr rfl

theorem readPair_persists (h : m.Extends m') (origin : Address) :
    Step.Persists (readPair ⟨m, origin⟩) (readPair ⟨m', origin⟩) := by
  refine (atPosition_persists (h.next origin)).bind fun _ => .ite (.refl _) (.ite ?_ (.refl _))
  refine (atPosition_persists (h.readSigned origin)).bind fun bci => ?_
  refine (Step.Persists.refl (addBci bci)).bind fun _ => ?_
  exact (atPosition_persists (h.readSigned origin)).bind fun _ => .refl _

/-- The reader of the larger memory stays at the cursor of the other one as long as that one reads
on. -/
theorem scan_persists (h : m.Extends m') (origin : Address) (bci : Bci) (c : Cursor)
    (best : LinePair) :
    Persists (scan ⟨m, origin⟩ bci c best) (scan ⟨m', origin⟩ bci c best) := by
  -- Both walks see the same pairs, so the room left in the address space shrinks for both.
  induction hroom : UInt64.size - c.position using Nat.strongRecOn generalizing c best with
  | ind room ih =>
    rw [scan_eq, scan_eq]
    obtain ⟨a, n, c', hread⟩ | hsame := readPair_persists h origin c
    · rw [hread]
      exact .inl ⟨a, n, rfl⟩
    · rw [hsame]
      cases hread : readPair ⟨m, origin⟩ c with
      | error e c' => exact .refl _
      | ok more c' =>
        cases more with
        | false => exact .refl _
        | true =>
          have hnext := readPair_eq_ok hread
          exact .ite (fun _ => .refl _) fun _ => ih _ (by omega) c' _ rfl

theorem lineAt_persists (h : m.Extends m') (table : Option Address) (bci : Bci) :
    Persists (lineAt m table bci) (lineAt m' table bci) := by
  cases table with
  | none => exact .refl _
  | some origin => exact scan_persists h origin bci _ _

end LineTable

end JitFrames
