import JitFrames.Memory.Image
import JitFrames.Snapshot.Failure

namespace JitFrames

/-- A captured image, and where its code heap is if the capture recorded that. -/
structure Snapshot where
  image : Image
  codeHeap : Option Address
  deriving DecidableEq, Repr

/-- The image with a region from a file. -/
def Image.addOrFail (image : Image) (r : Region) : Except Failure Image :=
  match image.add? r with
  | some next => .ok next
  | none => .error (.overlappingRegion r.base)

end JitFrames
