import JitFrames.CommandLine.Usage
import JitFrames.Codec.LineTable
import JitFrames.Memory.Literal
import JitFrames.Snapshot.Path

namespace JitFrames.CommandLine

/-- Everything that an option, a flag or a position on the command line can mean. -/
inductive Argument where
  | snapshot
  | core
  | layout
  | codeHeap
  | address
  | method
  | bci
  | approximate
  | help
  deriving DecidableEq, Repr

/-- The value of an argument. -/
inductive Value where
  | path (p : Path)
  | address (a : Address)
  | bci (n : Bci)
  /-- A flag is there. -/
  | present
  deriving DecidableEq, Repr

/-- Reads a value that must not be the empty text. -/
def pathOf (text : String) : Except UsageError Value :=
  if text.isEmpty then .error .emptyValue else .ok (.path (.ofString text))

def addressOf (text : String) : Except UsageError Value :=
  match Address.ofLiteral? text with
  | some a => .ok (.address a)
  | none => .error .badValue

/-- Reads a number of 32 bits with or without a sign. -/
def bciOf (text : String) : Except UsageError Value :=
  match Numeral.signed? text.toList with
  | some n =>
    if Int32.minValue.toInt ≤ n ∧ n ≤ Int32.maxValue.toInt then .ok (.bci (Int32.ofInt n))
    else .error .badValue
  | none => .error .badValue

namespace Argument

/-- Whether the argument stands for nothing but itself. -/
def isFlag (a : Argument) : Bool := a == approximate || a == help

def valueOf (text : String) : Argument → Except UsageError Value
  | .snapshot | .core | .layout => pathOf text
  | .codeHeap | .address | .method => addressOf text
  | .bci => bciOf text
  | .approximate | .help => .ok .present

/-- Whether a value with a minus sign can stand at the position of the argument. -/
def admitsNegative (a : Argument) : Bool := a == bci

end Argument

end JitFrames.CommandLine
