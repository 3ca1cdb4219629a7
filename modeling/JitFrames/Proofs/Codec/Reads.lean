import JitFrames.Code.Scope
import JitFrames.Proofs.Codec.Calls

namespace JitFrames

/-- The position after a step, whether it succeeds or not. -/
def Decoder.position {α : Type} : EStateM.Result Fault Nat α → Nat
  | .ok _ p => p
  | .error _ p => p

/-- What a decoder can ask a stream for. -/
inductive Read where
  | item (kind : Compressed.Item.Kind)
  | bci
  deriving DecidableEq, Repr

namespace Read

inductive Value where
  | item (i : Compressed.Item)
  | bci (b : Bci)
  deriving DecidableEq, Repr

def run (s : ByteStream) : Read → Decoder Value
  | item kind => do return .item (← kind.read s)
  | bci => do return .bci (← ScopeRecord.readBci s)

/-- What reads give one after the other, each with the position behind it. -/
def outcomes (s : ByteStream) : List Read → Nat → List (EStateM.Result Fault Nat Value)
  | [], _ => []
  | read :: reads, p => read.run s p :: outcomes s reads (Decoder.position (read.run s p))

end Read

variable {s s' : ByteStream} {p : Nat} {e : Fault}

theorem ByteStream.next_congr {m m' : Memory} {origin : Address}
    (h : ∀ a, m'.readByte a = m.readByte a) :
    (ByteStream.mk m' origin).next = (ByteStream.mk m origin).next := by
  funext p
  simp only [next]
  cases origin.add? p with
  | none => rfl
  | some a => simp only [h]

namespace Compressed

theorem readDigits_congr (h : s'.next = s.next) (room : Nat) :
    readDigits s' room = readDigits s room := by
  induction room with
  | zero =>
    unfold readDigits
    rw [h]
  | succ room ih =>
    unfold readDigits
    rw [h, ih]

theorem readInt_congr (h : s'.next = s.next) : readInt s' = readInt s := by
  unfold readInt
  rw [readDigits_congr h]

theorem Item.Kind.read_congr (h : s'.next = s.next) (kind : Item.Kind) :
    kind.read s' = kind.read s := by
  cases kind with
  | int =>
    unfold Item.Kind.read
    rw [readInt_congr h]
  | signed =>
    unfold Item.Kind.read readSigned
    rw [readInt_congr h]
  | byte =>
    unfold Item.Kind.read
    rw [h]

end Compressed

theorem ScopeRecord.readBci_congr (h : s'.next = s.next) :
    ScopeRecord.readBci s' = ScopeRecord.readBci s := by
  unfold ScopeRecord.readBci
  rw [Compressed.readInt_congr h]

namespace Read

theorem run_congr (h : s'.next = s.next) (read : Read) : read.run s' = read.run s := by
  cases read with
  | item kind =>
    simp only [run]
    rw [kind.read_congr h]
  | bci =>
    simp only [run]
    rw [ScopeRecord.readBci_congr h]

theorem outcomes_congr (h : s'.next = s.next) (reads : List Read) (p : Nat) :
    outcomes s' reads p = outcomes s reads p := by
  induction reads generalizing p with
  | nil => rfl
  | cons read reads ih => rw [outcomes, outcomes, run_congr h, ih]

end Read

namespace Compressed

theorem readDigits_of_next_error (h : s.next p = .error e p) (room : Nat) :
    readDigits s room p = .error e p := by
  cases room with
  | zero => exact bind_of_error h
  | succ room => exact bind_of_error h

theorem readInt_of_next_error (h : s.next p = .error e p) : readInt s p = .error e p :=
  bind_of_error (readDigits_of_next_error h maxFollow)

theorem Item.Kind.read_of_next_error (h : s.next p = .error e p) (kind : Item.Kind) :
    kind.read s p = .error e p := by
  cases kind with
  | int => exact bind_of_error (readInt_of_next_error h)
  | signed => exact bind_of_error (bind_of_error (readInt_of_next_error h))
  | byte => exact bind_of_error h

end Compressed

namespace Read

theorem run_of_next_error (h : s.next p = .error e p) (read : Read) : read.run s p = .error e p := by
  cases read with
  | item kind => exact bind_of_error (kind.read_of_next_error h)
  | bci =>
    have hint := Compressed.readInt_of_next_error h
    exact bind_of_error (bind_of_error hint)

/-- Every read starts with a byte, so where there is none all of them fail alike. -/
theorem outcomes_of_next_error (h : s.next p = .error e p) (reads : List Read) :
    outcomes s reads p = List.replicate reads.length (.error e p) := by
  induction reads with
  | nil => rfl
  | cons read reads ih =>
    rw [outcomes, run_of_next_error h, List.length_cons, List.replicate_succ]
    exact congrArg _ ih

end Read

end JitFrames
