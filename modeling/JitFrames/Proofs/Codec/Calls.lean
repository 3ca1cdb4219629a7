import JitFrames.Proofs.Codec.Pairs

namespace JitFrames

variable {s : ByteStream} {p q room : Nat} {e : Fault}

namespace Compressed

/-- A number that fails has moved up to the byte that fails. -/
theorem readDigits_eq_error (h : readDigits s room p = .error e q) : s.next q = .error e q := by
  induction room generalizing p with
  | zero =>
    have hb := bind_pure_eq_error.mp h
    obtain rfl := ByteStream.next_eq_error hb
    exact hb
  | succ room ih =>
    obtain hb | ⟨b, p', hb, h⟩ := bind_eq_error.mp h
    · obtain rfl := ByteStream.next_eq_error hb
      exact hb
    · split at h
      · exact absurd h pure_ne_error
      · exact ih (bind_pure_eq_error.mp h)

theorem readInt_eq_error (h : readInt s p = .error e q) : s.next q = .error e q :=
  readDigits_eq_error (bind_pure_eq_error.mp h)

theorem readSigned_eq_error (h : readSigned s p = .error e q) : s.next q = .error e q :=
  readInt_eq_error (bind_pure_eq_error.mp h)

end Compressed

namespace LineTable

open Compressed

/-- An escaped pair whose index difference `delta` stands whole at a position and whose line
difference breaks off. -/
def Dangles (s : ByteStream) (p : Nat) (delta : Int32) : Prop :=
  ∃ q q' e stop, s.next p = .ok escape q ∧ readSigned s q = .ok delta q' ∧
    readSigned s q' = .error e stop

/-- The cursor at the end of a call. -/
def Cursor.ofCall : EStateM.Result Fault Cursor Bool → Cursor
  | .ok _ c => c
  | .error _ c => c

/-- The cursor after so many calls, whatever they answer. -/
def cursorAfter (s : ByteStream) : Nat → Cursor
  | 0 => Cursor.start
  | n + 1 => Cursor.ofCall (readPair s (cursorAfter s n))

/-- The answer of the call that comes after so many others. -/
def callAfter (s : ByteStream) (n : Nat) : EStateM.Result Fault Cursor Bool :=
  readPair s (cursorAfter s n)

/-- The pair delivered last in so many calls; both numbers are 0 before any is. -/
def lastDelivered (s : ByteStream) : Nat → LinePair
  | 0 => ⟨0, 0⟩
  | n + 1 =>
    match callAfter s n with
    | .ok true c => c.pair
    | .ok false _ => lastDelivered s n
    | .error _ _ => lastDelivered s n

variable {c c' : Cursor} {k n : Nat}

theorem atPosition_eq_error {α : Type} {step : Decoder α}
    (h : atPosition step c = .error e c') :
    step c.position = .error e c'.position ∧ c'.pair = c.pair := by
  unfold atPosition at h
  split at h
  · cases h
  · next hs =>
    cases h
    exact ⟨hs, rfl⟩

theorem atPosition_of_error {α : Type} {step : Decoder α} (h : step c.position = .error e q) :
    atPosition step c = .error e ⟨q, c.pair⟩ := by
  unfold atPosition
  rw [h]

theorem atPosition_keeps {α : Type} {step : Decoder α} {x : α}
    (h : atPosition step c = .ok x c') : c'.pair = c.pair := by
  unfold atPosition at h
  split at h
  · cases h
    rfl
  · cases h

theorem readPair_eq_false (h : readPair s c = .ok false c') : c'.pair = c.pair := by
  obtain ⟨b, c₁, hb, h⟩ := bind_eq_ok.mp h
  split at h
  · obtain ⟨-, rfl⟩ := pure_eq_ok.mp h
    exact atPosition_keeps hb
  · split at h
    · obtain ⟨x, c₂, hx, h⟩ := bind_eq_ok.mp h
      obtain ⟨⟨⟩, c₃, hs, h⟩ := bind_eq_ok.mp h
      obtain ⟨y, c₄, hy, h⟩ := bind_eq_ok.mp h
      obtain ⟨⟨⟩, c₅, hl, h⟩ := bind_eq_ok.mp h
      cases (pure_eq_ok.mp h).1
    · cases h

/-- All that a call which fails does: it stays at the byte it could not read, and moves the index
only by a difference behind which the pair breaks off. -/
theorem readPair_eq_error (h : readPair s c = .error e c') :
    s.next c'.position = .error e c'.position ∧ c'.pair.line = c.pair.line ∧
      ((c'.pair.bci = c.pair.bci ∧ ∀ delta, ¬Dangles s c.position delta) ∨
        ∃ delta, Dangles s c.position delta ∧ c'.pair.bci = c.pair.bci + delta) := by
  obtain hb | ⟨b, c₁, hb, h⟩ := bind_eq_error.mp h
  · -- the first byte of the pair is missing, so it cannot be an escape
    obtain ⟨hnext, hpair⟩ := atPosition_eq_error hb
    have hposition : c'.position = c.position := ByteStream.next_eq_error hnext
    rw [hpair, hposition]
    rw [hposition] at hnext
    refine ⟨hnext, rfl, .inl ⟨rfl, ?_⟩⟩
    rintro delta ⟨q, q', e', stop, hescape, -⟩
    rw [hnext] at hescape
    cases hescape
  · have hnext := atPosition_eq_ok hb
    have hpair := atPosition_keeps hb
    split at h
    · exact absurd h pure_ne_error
    · split at h
      · next hescape =>
        rw [hescape] at hnext
        obtain hx | ⟨x, c₂, hx, h⟩ := bind_eq_error.mp h
        · -- the index difference breaks off before it is added
          obtain ⟨hsigned, hkeeps⟩ := atPosition_eq_error hx
          rw [hkeeps, hpair]
          refine ⟨readSigned_eq_error hsigned, rfl, .inl ⟨rfl, ?_⟩⟩
          rintro delta ⟨q, q', e', stop, hq, hfirst, -⟩
          rw [hnext] at hq
          cases hq
          rw [hsigned] at hfirst
          cases hfirst
        · have hfirst := atPosition_eq_ok hx
          have hkeeps := atPosition_keeps hx
          obtain hs | ⟨⟨⟩, c₃, hs, h⟩ := bind_eq_error.mp h
          · cases hs
          · cases hs
            obtain hy | ⟨y, c₄, hy, h⟩ := bind_eq_error.mp h
            · -- the line difference breaks off when the index has moved
              obtain ⟨hsecond, hkeeps'⟩ := atPosition_eq_error hy
              rw [hkeeps', hkeeps, hpair]
              exact ⟨readSigned_eq_error hsecond, rfl, .inr
                ⟨x, ⟨c₁.position, c₂.position, e, c'.position, hnext, hfirst, hsecond⟩, rfl⟩⟩
            · cases h
      · cases h

theorem readPair_of_next_error (h : s.next c.position = .error e c.position) :
    readPair s c = .error e c :=
  bind_of_error (atPosition_of_error h)

theorem readPair_again (h : readPair s c = .error e c') : readPair s c' = .error e c' :=
  readPair_of_next_error (readPair_eq_error h).1

theorem cursorAfter_succ (s : ByteStream) (n : Nat) :
    cursorAfter s (n + 1) = Cursor.ofCall (callAfter s n) := rfl

/-- A fault is answered by all calls from the first one on that answers it. -/
theorem callAfter_of_error (h : callAfter s k = .error e c) (hkn : k ≤ n) :
    callAfter s n = .error e c := by
  induction hkn with
  | refl => exact h
  | step hkn ih =>
    have hagain : readPair s c = .error e c := readPair_again ih
    rw [callAfter, cursorAfter_succ, ih]
    exact hagain

theorem lastDelivered_of_error (h : callAfter s n = .error e c) :
    lastDelivered s (n + 1) = lastDelivered s n := by
  rw [lastDelivered, h]

/-- So many calls without a fault, after which the reader is at the pair delivered last. -/
structure Undisturbed (s : ByteStream) (n : Nat) : Prop where
  succeeds : ∀ j < n, ∀ e c, callAfter s j ≠ .error e c
  pair : (cursorAfter s n).pair = lastDelivered s n

theorem undisturbed_zero (s : ByteStream) : Undisturbed s 0 where
  succeeds j hj := absurd hj (Nat.not_lt_zero j)
  pair := rfl

theorem Undisturbed.succ {more : Bool} (h : Undisturbed s n)
    (hcall : callAfter s n = .ok more c) : Undisturbed s (n + 1) where
  succeeds j hj e c' herror := by
    by_cases hjn : j = n
    · rw [hjn, hcall] at herror
      cases herror
    · exact h.succeeds j (by omega) e c' herror
  pair := by
    rw [cursorAfter_succ, lastDelivered, hcall]
    cases more with
    | false => exact (readPair_eq_false hcall).trans h.pair
    | true => rfl

/-- Either no call has failed yet, or one was the first to fail and nothing is delivered since. -/
theorem undisturbed_or_failed (s : ByteStream) (n : Nat) :
    Undisturbed s n ∨ ∃ k < n, Undisturbed s k ∧ lastDelivered s n = lastDelivered s k ∧
      ∃ e c, callAfter s k = .error e c := by
  induction n with
  | zero => exact .inl (undisturbed_zero s)
  | succ n ih =>
    obtain hsound | ⟨k, hk, hsound, hlast, e, c, hcall⟩ := ih
    · cases hcall : callAfter s n with
      | ok more c => exact .inl (hsound.succ hcall)
      | error e c => exact .inr ⟨n, by omega, hsound, lastDelivered_of_error hcall, e, c, hcall⟩
    · have hnow : callAfter s n = .error e c := callAfter_of_error hcall (by omega)
      exact .inr ⟨k, by omega, hsound, (lastDelivered_of_error hnow).trans hlast, e, c, hcall⟩

/-- The end of the table changes neither number. A fault changes at most the index, and all later
calls answer it: the index then stands one difference further if the pair that the first of them
read dangles by that difference, and is that of the last pair delivered if it does not. -/
theorem pair_after_calls (s : ByteStream) (n : Nat) :
    (∀ c, callAfter s n = .ok false c → c.pair = lastDelivered s n) ∧
    (∀ e c, callAfter s n = .error e c →
      c.pair.line = (lastDelivered s n).line ∧
      ∃ k ≤ n, Undisturbed s k ∧ (∀ i, k ≤ i → callAfter s i = .error e c) ∧
        ((c.pair.bci = (lastDelivered s n).bci ∧
            ∀ delta, ¬Dangles s (cursorAfter s k).position delta) ∨
          ∃ delta, Dangles s (cursorAfter s k).position delta ∧
            c.pair.bci = (lastDelivered s n).bci + delta)) := by
  constructor
  · intro c hcall
    obtain hsound | ⟨k, hk, -, -, e, c', hfailed⟩ := undisturbed_or_failed s n
    · exact (readPair_eq_false hcall).trans hsound.pair
    · have hnow : callAfter s n = .error e c' := callAfter_of_error hfailed (by omega)
      rw [hcall] at hnow
      cases hnow
  · intro e c hcall
    -- the first call that failed is this one or one before it, and answered the same fault
    have hfirst : ∃ k ≤ n, Undisturbed s k ∧ lastDelivered s n = lastDelivered s k ∧
        callAfter s k = .error e c := by
      obtain hsound | ⟨k, hk, hsound, hlast, e', c', hfailed⟩ := undisturbed_or_failed s n
      · exact ⟨n, Nat.le_refl n, hsound, rfl, hcall⟩
      · have hnow : callAfter s n = .error e' c' := callAfter_of_error hfailed (by omega)
        rw [hcall] at hnow
        cases hnow
        exact ⟨k, by omega, hsound, hlast, hfailed⟩
    obtain ⟨k, hk, hsound, hlast, hfailed⟩ := hfirst
    obtain ⟨-, hline, hbci⟩ := readPair_eq_error hfailed
    rw [hsound.pair, ← hlast] at hline hbci
    exact ⟨hline, k, hk, hsound, fun i hi => callAfter_of_error hfailed hi, hbci⟩

/-- A pair of one byte, then an escaped one with its index difference, -2, only. -/
def danglingStream : ByteStream := ⟨.ofBytes #[0x09, 0xFF, 3], 0⟩

/-- A table of one pair. -/
def onePairStream : ByteStream := ⟨.ofBytes #[0x09, 0x00], 0⟩

theorem pair_after_calls_dangling :
    (callAfter onePairStream 1 = .ok false ⟨2, ⟨1, 1⟩⟩ ∧ lastDelivered onePairStream 1 = ⟨1, 1⟩) ∧
    callAfter danglingStream 1 = .error (.unmapped 3 1) ⟨3, ⟨-1, 1⟩⟩ ∧
      lastDelivered danglingStream 1 = ⟨1, 1⟩ ∧
      ∃ k ≤ 1, ∃ delta, Dangles danglingStream (cursorAfter danglingStream k).position delta ∧
        (-1 : Bci) = 1 + delta := by
  have hended : callAfter onePairStream 1 = .ok false ⟨2, ⟨1, 1⟩⟩ := rfl
  have hfailed : callAfter danglingStream 1 = .error (.unmapped 3 1) ⟨3, ⟨-1, 1⟩⟩ := rfl
  have hlast : lastDelivered danglingStream 1 = ⟨1, 1⟩ := rfl
  obtain ⟨-, k, hk, -, -, hbci⟩ := (pair_after_calls danglingStream 1).2 _ _ hfailed
  rw [hlast] at hbci
  refine ⟨⟨hended, ((pair_after_calls onePairStream 1).1 _ hended).symm⟩, hfailed, hlast, k, hk, ?_⟩
  obtain ⟨hsame, -⟩ | hdangles := hbci
  · exact absurd hsame (by decide)
  · exact hdangles

/-- A call that fails can leave the index of no pair that was delivered. -/
theorem index_moved_by_failure :
    callAfter danglingStream 1 = .error (.unmapped 3 1) ⟨3, ⟨-1, 1⟩⟩ ∧
      lastDelivered danglingStream 1 = ⟨1, 1⟩ ∧ (⟨-1, 1⟩ : LinePair) ≠ ⟨1, 1⟩ :=
  ⟨rfl, rfl, by decide⟩

end LineTable

end JitFrames
