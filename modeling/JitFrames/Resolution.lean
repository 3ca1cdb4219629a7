import JitFrames.Code.Descriptor.Lookup
import JitFrames.Code.Heap
import JitFrames.Code.Scope

namespace JitFrames

/-- Where in a method a call stands. -/
structure Location where
  bci : Bci
  line : SourceLine
  deriving DecidableEq, Repr

structure InlinedCall where
  function : String
  location : Option Location
  deriving DecidableEq, Repr

/-- What is known about an address inside a blob. -/
structure Resolution where
  address : Address
  /-- The name of the blob. -/
  blob : String
  /-- What the calls were decoded from. -/
  descriptor : Option Descriptor
  /-- The innermost call first. -/
  calls : List InlinedCall
  deriving DecidableEq, Repr

namespace Resolution

/-- Stands for the name of a method that is not recorded. -/
def unknownFunction : String := "<unknown>"

/-- The name of a method, if there is one. -/
def functionName (t : Target) (method : Option Address) : Answer String := do
  match method with
  | some a => (← Method.read t a).qualifiedName t
  | none => return unknownFunction

def callOf (t : Target) (frame : Frame) : Answer InlinedCall := do
  return ⟨← functionName t frame.method, some ⟨frame.bci, frame.line⟩⟩

/-- The calls at a descriptor. Without scope information all that is known is the compiled method
itself. -/
def callsAt (t : Target) (m : CompiledMethod) (desc : Option Descriptor) :
    Answer (List InlinedCall) := do
  let frames ← match desc with
    | some d => m.frames t d
    | none => pure []
  match ← frames.mapM (callOf t) with
  | [] => return [⟨← functionName t m.method.nonNull?, none⟩]
  | calls => return calls

/-- Resolves an address; there is nothing to say about one outside all blobs. -/
def ofAddress (t : Target) (heap : CodeHeap) (a : Address) : Answer (Option Resolution) := do
  match ← heap.findBlob t a with
  | none => return none
  | some blob =>
    match ← blob.compiledMethod? t with
    | none => return some ⟨a, blob.name, none, [⟨blob.name, none⟩]⟩
    | some m =>
      let desc ← m.descriptorAt t a
      return some ⟨a, blob.name, desc, ← callsAt t m desc⟩

/-- A call after the mark that begins its line. -/
def callText (mark : String) (a : Address) (call : InlinedCall) : String :=
  mark ++ " " ++ a.text ++ " " ++ call.function ++
    match call.location with
    | some loc =>
      "\n                      at " ++ Bci.text loc.bci ++ " / " ++ SourceLine.text loc.line
    | none => ""

/-- The calls one below the other; only the first one carries the number of the frame. -/
def text (r : Resolution) (number : Nat) : String :=
  match r.calls with
  | [] => ""
  | call :: calls =>
    "\n".intercalate
      (callText ("#" ++ Numeral.decimalPadded 2 number) r.address call ::
        calls.map (callText "    " r.address))

end Resolution

end JitFrames
