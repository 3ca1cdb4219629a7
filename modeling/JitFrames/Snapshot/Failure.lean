import JitFrames.Fault
import JitFrames.Snapshot.Files

namespace JitFrames

/-- Why a run of the program fails. -/
inductive Failure where
  | readManifest (path : Path) (why : FileFault)
  | parseManifest
  | readRegion (path : Path) (why : FileFault)
  | readCore (path : Path) (why : FileFault)
  | parseCore
  | segmentData
  | overlappingRegion (base : Address)
  | invalidAddress (literal : String)
  | noLoadableSegments
  | readLayout (path : Path) (why : FileFault)
  | parseLayout
  | incompleteLayout (why : Fault)
  /-- Neither the command line nor the snapshot says where the code heap is. -/
  | noCodeHeap
  | readCodeHeap (why : Fault)
  | inspection (why : Fault)
  deriving DecidableEq, Repr

namespace Failure

/-- What is said first; the deeper reason follows it. -/
def headline : Failure → String
  | .readManifest path _ => "Failed to read manifest " ++ path.text
  | .parseManifest => "Failed to parse snapshot manifest"
  | .readRegion path _ => "Failed to read region file " ++ path.text
  | .readCore path _ => "Failed to read core file " ++ path.text
  | .parseCore => "Failed to parse core file"
  | .segmentData => "Failed to read segment data"
  | .overlappingRegion base => "Region at " ++ base.short ++ " overlaps an existing region"
  | .invalidAddress literal => "Invalid address literal: " ++ literal
  | .noLoadableSegments => "Core file has no loadable segments"
  | .readLayout path _ => "Failed to read layout file " ++ path.text
  | .parseLayout => "Failed to parse layout table"
  | .incompleteLayout _ => "Layout file is incomplete"
  | .noCodeHeap =>
    "Missing required argument: --code-heap (the snapshot does not record a code heap address)"
  | .readCodeHeap _ => "Failed to read code heap"
  | .inspection why => why.message

def reason? : Failure → Option String
  | .readManifest _ why => some why.message
  | .readRegion _ why => some why.message
  | .readCore _ why => some why.message
  | .readLayout _ why => some why.message
  | .segmentData => some "Invalid ELF segment size or offset"
  | .incompleteLayout why => some why.message
  | .readCodeHeap why => some why.message
  | _ => none

def message (f : Failure) : String :=
  match f.reason? with
  | some reason => f.headline ++ ": " ++ reason
  | none => f.headline

end Failure

end JitFrames
