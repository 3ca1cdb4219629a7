import JitFrames.CommandLine.Request
import JitFrames.Symbolizer

namespace JitFrames.CommandLine.Report

def outsideBlobs (a : Address) : String := a.text ++ " is not inside any code blob"

def ofBlob (b : CodeBlob) : String :=
  b.address.text ++ " " ++ b.name ++ " [" ++ b.range.text ++ "] instructions at " ++
    b.instructionsBegin.text

def ofDescriptor (m : CompiledMethod) (d : Descriptor) : String :=
  "PcDesc " ++ d.address.text ++ " real_pc=" ++ (d.pc m).text ++
    " pc_offset=" ++ toString d.pcOffset.toInt ++
    " scope_decode_offset=" ++ toString d.scopeOffset.toInt

def blob (s : Symbolizer) (a : Address) : Answer String := do
  match ← s.locate a with
  | some b => return ofBlob b
  | none => return outsideBlobs a

/-- The compiled method around an instruction. -/
def compiledMethodAt (s : Symbolizer) (pc : Address) : Answer (Option CompiledMethod) := do
  match ← s.locate pc with
  | some b => b.compiledMethod? s.target
  | none => return none

def descriptor (s : Symbolizer) (pc : Address) (precision : Precision) : Answer String := do
  match ← compiledMethodAt s pc with
  | none => return pc.text ++ " is not inside a compiled method"
  | some m =>
    match ← m.findDescriptor s.target pc precision with
    | some d => return ofDescriptor m d
    | none => return "No descriptor for " ++ pc.text

def inlining (s : Symbolizer) (pc : Address) : Answer String := do
  match ← (s.resolve pc).1 with
  | some r => return r.text 0
  | none => return outsideBlobs pc

/-- The line is looked up before the method is named. -/
def line (t : Target) (method : Address) (bci : Bci) : Answer String := do
  let method ← Method.read t method
  let line ← method.lineAt t bci
  return (← method.qualifiedName t) ++ " " ++ Bci.text bci ++ " " ++ SourceLine.text line

end JitFrames.CommandLine.Report
