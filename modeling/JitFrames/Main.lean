import JitFrames.CommandLine.Reading
import JitFrames.Elf.Segment
import JitFrames.Json.Document

namespace JitFrames

/-- The fault that a number of the system names; its sign does not matter. -/
def FileFault.ofNumber? (n : UInt32) : Option FileFault :=
  if n = 2 ∨ n = -2 then some .notFound
  else if n = 20 ∨ n = -20 then some .notDirectory
  else if n = 21 ∨ n = -21 then some .isDirectory
  else none

/-- The fault that the system reports. -/
def FileFault.ofSystem : IO.Error → FileFault
  | .noFileOrDirectory .. => .notFound
  | .inappropriateType _ n text => (ofNumber? n).getD (.other text)
  | e => .other (toString e)

/-- Reads a file of the system, to which paths are text. -/
def readSystemFile : ReadFile IO := fun path => do
  try
    return .ok (← IO.FS.readBinFile path.text).data
  catch e =>
    return .error (.ofSystem e)

/-- Reads the files of the system, JSON and ELF. -/
def systemReaders : CommandLine.Readers IO := ⟨readSystemFile, Json.document?, Elf.segments?⟩

end JitFrames

def main (words : List String) : IO UInt32 := do
  let outcome ← JitFrames.CommandLine.run JitFrames.systemReaders
    JitFrames.CommandLine.readRequest words
  (← IO.getStdout).putStr outcome.output
  (← IO.getStderr).putStr outcome.errors
  return outcome.exitCode
