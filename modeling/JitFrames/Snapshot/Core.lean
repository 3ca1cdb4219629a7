import JitFrames.Snapshot.Basic

namespace JitFrames.CoreFile

/-- A segment that was loaded: where it stood, and what the file has of it unless the file ends
before it does. -/
structure Segment where
  address : Address
  bytes? : Option Bytes
  deriving DecidableEq, Repr

/-- How the loadable segments of a core file are read, if it is one. -/
abbrev Reader := Bytes → Option (List Segment)

/-- Adds segments to an image. One without bytes in the file was not captured. -/
def addSegments : Image → List Segment → Except Failure Image
  | image, [] => .ok image
  | image, s :: rest =>
    match s.bytes? with
    | none => .error .segmentData
    | some bytes =>
      if bytes.isEmpty then addSegments image rest
      else
        match image.addOrFail ⟨s.address, bytes⟩ with
        | .error e => .error e
        | .ok next => addSegments next rest

/-- The image in the bytes of a core file. -/
def imageOf (readSegments : Reader) (file : Bytes) : Except Failure Image := do
  match readSegments file with
  | none => throw .parseCore
  | some segments =>
    let image ← addSegments Image.empty segments
    if image.regions.isEmpty then throw .noLoadableSegments
    return image

/-- The snapshot in a core file, which does not record where the code heap is. -/
def ofFile (readSegments : Reader) (path : Path) :
    Except FileFault Bytes → Except Failure Snapshot
  | .error why => .error (.readCore path why)
  | .ok file => (imageOf readSegments file).map fun image => ⟨image, none⟩

variable {m : Type → Type} [Monad m]

def load (readSegments : Reader) (readFile : ReadFile m) (path : Path) :
    m (Except Failure Snapshot) := do
  return ofFile readSegments path (← readFile path)

end JitFrames.CoreFile
