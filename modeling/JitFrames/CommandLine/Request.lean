import JitFrames.Code.Descriptor.Lookup
import JitFrames.Codec.LineTable
import JitFrames.Snapshot.Path

namespace JitFrames.CommandLine

/-- The question to answer. -/
inductive Query where
  /-- The blob around an address. -/
  | blob (a : Address)
  /-- The descriptor that answers for an instruction. -/
  | descriptor (pc : Address) (precision : Precision)
  /-- The inlined calls at an instruction. -/
  | inlining (pc : Address)
  /-- The source line of a bytecode index. -/
  | line (method : Address) (bci : Bci)
  deriving DecidableEq, Repr

/-- Whether the answer is looked for in the code heap. -/
def Query.needsCodeHeap : Query → Bool
  | .line .. => false
  | _ => true

/-- Where the memory of the target is read from. -/
inductive Source where
  | manifest (path : Path)
  | core (path : Path)
  deriving DecidableEq, Repr

/-- What the program is asked to do. -/
structure Request where
  source : Source
  layout : Path
  /-- Takes precedence over the one that a manifest records. -/
  codeHeap : Option Address
  query : Query
  deriving DecidableEq, Repr

end JitFrames.CommandLine
