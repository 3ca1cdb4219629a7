import JitFrames.Resolution

namespace JitFrames

/-- Resolves addresses of one code heap and remembers its answers, so that an address is looked up
in the image once. Faults are not remembered. -/
structure Symbolizer where
  target : Target
  heap : CodeHeap
  /-- The answers given so far, the latest first. -/
  known : List (Address × Option Resolution)

namespace Symbolizer

/-- A symbolizer for the code heap at an address. -/
def ofHeapAt (t : Target) (a : Address) : Answer Symbolizer := do
  return ⟨t, ← CodeHeap.read t a, []⟩

def locate (s : Symbolizer) (a : Address) : Answer (Option CodeBlob) :=
  s.heap.findBlob s.target a

/-- Resolves an address; the second part has learned the answer. -/
def resolve (s : Symbolizer) (a : Address) : Answer (Option Resolution) × Symbolizer :=
  match s.known.lookup a with
  | some r => (.ok r, s)
  | none =>
    match Resolution.ofAddress s.target s.heap a with
    | .ok r => (.ok r, { s with known := (a, r) :: s.known })
    | .error e => (.error e, s)

end Symbolizer

end JitFrames
