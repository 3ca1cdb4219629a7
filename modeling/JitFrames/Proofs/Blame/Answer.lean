import JitFrames.Codec.LineTable
import JitFrames.Proofs.Answer

namespace JitFrames

variable {ε ε' α β σ : Type}

namespace Answer

/-- Every failure is of a given kind. -/
def FailsOnly (kind : ε → Bool) (x : Except ε α) : Prop := ∀ e, x = .error e → kind e = true

namespace FailsOnly

variable {kind : ε → Bool}

theorem ok (a : α) : FailsOnly kind (.ok a) := fun _ h => nomatch h

theorem pure (a : α) : FailsOnly kind (Pure.pure a : Except ε α) := ok a

theorem error {e : ε} (h : kind e = true) : FailsOnly kind (.error e : Except ε α) := by
  rintro _ ⟨⟩
  exact h

theorem throw {e : ε} (h : kind e = true) :
    FailsOnly kind (MonadExcept.throw e : Except ε α) := error h

theorem mono {kind' : ε → Bool} {x : Except ε α} (h : FailsOnly kind x)
    (hkind : ∀ e, kind e = true → kind' e = true) : FailsOnly kind' x :=
  fun e he => hkind e (h e he)

theorem bind {x : Except ε α} {f : α → Except ε β} (h : FailsOnly kind x)
    (hf : ∀ a, FailsOnly kind (f a)) : FailsOnly kind (x >>= f) := by
  cases x with
  | error e => exact error (h e rfl)
  | ok a => exact hf a

theorem map {x : Except ε α} (h : FailsOnly kind x) (f : α → β) : FailsOnly kind (x.map f) := by
  cases x with
  | error e => exact error (h e rfl)
  | ok a => exact ok (f a)

theorem mapError {kind' : ε' → Bool} {x : Except ε α} (h : FailsOnly kind x) {f : ε → ε'}
    (hf : ∀ e, kind e = true → kind' (f e) = true) : FailsOnly kind' (x.mapError f) := by
  cases x with
  | error e => exact error (hf e (h e rfl))
  | ok a => exact ok a

theorem ite {c : Prop} [Decidable c] {x y : Except ε α} (h : FailsOnly kind x)
    (h' : FailsOnly kind y) : FailsOnly kind (if c then x else y) := by
  by_cases hc : c
  · rw [if_pos hc]
    exact h
  · rw [if_neg hc]
    exact h'

theorem mapM {f : α → Except ε β} (h : ∀ a, FailsOnly kind (f a)) (xs : List α) :
    FailsOnly kind (xs.mapM f) := by
  induction xs with
  | nil => exact .pure []
  | cons a xs ih =>
    rw [List.mapM_cons]
    exact (h a).bind fun _ => ih.bind fun _ => .pure _

theorem foldlM {f : β → α → Except ε β} (h : ∀ b a, FailsOnly kind (f b a)) (b : β)
    (xs : List α) : FailsOnly kind (xs.foldlM f b) := by
  induction xs generalizing b with
  | nil => exact .pure b
  | cons a xs ih =>
    rw [List.foldlM_cons]
    exact (h b a).bind ih

end FailsOnly

end Answer

/-- Faults that lie in the memory of the target, not in its layout. -/
def Fault.isOfTarget : Fault → Bool
  | .unmapped .. | .malformed .. | .notCompiledMethod _ => true
  | .missingLayout .. | .unsupportedPointerSize _ => false

/-- Every fault of the inspection lies in the target. -/
abbrev Answer.BlamesTarget (x : Answer α) : Prop := FailsOnly Fault.isOfTarget x

open Answer (BlamesTarget)

/-- From any state on, every fault of the step lies in the target. -/
def Step.BlamesTarget (f : EStateM Fault σ α) : Prop :=
  ∀ s e s', f s = .error e s' → e.isOfTarget = true

namespace Step.BlamesTarget

theorem ok {f : EStateM Fault σ α} (h : ∀ s, ∃ a s', f s = .ok a s') : Step.BlamesTarget f := by
  intro s e s' hf
  obtain ⟨a, s'', hok⟩ := h s
  rw [hok] at hf
  cases hf

theorem pure (a : α) : Step.BlamesTarget (Pure.pure a : EStateM Fault σ α) :=
  ok fun s => ⟨a, s, rfl⟩

theorem bind {f : EStateM Fault σ α} {g : α → EStateM Fault σ β} (h : Step.BlamesTarget f)
    (hg : ∀ a, Step.BlamesTarget (g a)) : Step.BlamesTarget (f >>= g) := by
  intro s e s' hf
  simp only [Bind.bind, EStateM.bind] at hf
  cases hstep : f s with
  | error e' s'' =>
    rw [hstep] at hf
    cases hf
    exact h s e s' hstep
  | ok a s'' =>
    rw [hstep] at hf
    exact hg a s'' e s' hf

theorem ite {c : Prop} [Decidable c] {f g : EStateM Fault σ α} (h : Step.BlamesTarget f)
    (h' : Step.BlamesTarget g) : Step.BlamesTarget (if c then f else g) := by
  by_cases hc : c
  · rw [if_pos hc]
    exact h
  · rw [if_neg hc]
    exact h'

end Step.BlamesTarget

theorem Memory.read_blamesTarget (m : Memory) (a : Address) (n : Nat) :
    BlamesTarget (m.read a n) := by
  unfold Memory.read
  cases m.bytes? a n with
  | none => exact .error rfl
  | some bytes => exact .ok bytes

theorem Memory.readByte_blamesTarget (m : Memory) (a : Address) : BlamesTarget (m.readByte a) := by
  unfold Memory.readByte
  cases m.byte? a with
  | none => exact .error rfl
  | some b => exact .ok b

theorem ByteStream.next_blamesTarget (s : ByteStream) : Step.BlamesTarget s.next := by
  intro p e q h
  unfold ByteStream.next at h
  cases ha : s.origin.add? p with
  | none =>
    rw [ha] at h
    cases h
    rfl
  | some a =>
    rw [ha] at h
    cases hread : s.memory.readByte a with
    | error e' =>
      simp only [hread] at h
      cases h
      exact s.memory.readByte_blamesTarget a e hread
    | ok b =>
      simp only [hread] at h
      cases h

namespace Compressed

theorem readDigits_blamesTarget (s : ByteStream) (room : Nat) :
    Step.BlamesTarget (readDigits s room) := by
  induction room with
  | zero => exact s.next_blamesTarget.bind fun _ => .pure _
  | succ room ih =>
    exact s.next_blamesTarget.bind fun _ => .ite (.pure _) (ih.bind fun _ => .pure _)

theorem readInt_blamesTarget (s : ByteStream) : Step.BlamesTarget (readInt s) :=
  (readDigits_blamesTarget s maxFollow).bind fun _ => .pure _

theorem readSigned_blamesTarget (s : ByteStream) : Step.BlamesTarget (readSigned s) :=
  (readInt_blamesTarget s).bind fun _ => .pure _

end Compressed

namespace LineTable

theorem atPosition_blamesTarget {step : Decoder α} (h : Step.BlamesTarget step) :
    Step.BlamesTarget (atPosition step) := by
  intro c e c' hstep
  unfold atPosition at hstep
  cases hrun : step c.position with
  | error e' p =>
    rw [hrun] at hstep
    cases hstep
    exact h _ _ _ hrun
  | ok a p =>
    rw [hrun] at hstep
    cases hstep

theorem addBci_blamesTarget (delta : Int32) : Step.BlamesTarget (addBci delta) :=
  .ok fun _ => ⟨(), _, rfl⟩

theorem addLine_blamesTarget (delta : Int32) : Step.BlamesTarget (addLine delta) :=
  .ok fun _ => ⟨(), _, rfl⟩

theorem readPair_blamesTarget (s : ByteStream) : Step.BlamesTarget (readPair s) := by
  have hsigned := atPosition_blamesTarget (Compressed.readSigned_blamesTarget s)
  refine (atPosition_blamesTarget s.next_blamesTarget).bind fun b => ?_
  refine .ite (.pure _) (.ite ?_ ?_)
  · refine hsigned.bind fun bci => (addBci_blamesTarget bci).bind fun _ => ?_
    exact hsigned.bind fun line => (addLine_blamesTarget line).bind fun _ => .pure _
  · refine (addBci_blamesTarget _).bind fun _ => ?_
    exact (addLine_blamesTarget _).bind fun _ => .pure _

theorem scan_blamesTarget (s : ByteStream) (bci : Bci) (c : Cursor) (best : LinePair) :
    BlamesTarget (scan s bci c best) := by
  -- every pair that is read shortens the rest of the address space
  induction hroom : UInt64.size - c.position using Nat.strongRecOn generalizing c best with
  | ind room ih =>
    rw [scan_eq]
    cases hread : readPair s c with
    | error e c' => exact .error (readPair_blamesTarget s c e c' hread)
    | ok more c' =>
      cases more with
      | false => exact .ok _
      | true =>
        have hnext := readPair_eq_ok hread
        exact .ite (.ok _) (ih _ (by omega) c' _ rfl)

theorem lineAt_blamesTarget (m : Memory) (table : Option Address) (bci : Bci) :
    BlamesTarget (lineAt m table bci) := by
  cases table with
  | none => exact .ok _
  | some origin => exact scan_blamesTarget ⟨m, origin⟩ bci _ _

end LineTable

end JitFrames
