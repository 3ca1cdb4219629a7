import JitFrames.Code.Descriptor.Table
import JitFrames.Code.Method

namespace JitFrames

/-- One call of an inlining chain. -/
structure Frame where
  method : Option Address
  bci : Bci
  line : SourceLine
  deriving DecidableEq, Repr

/-- A record of the scopes data, three compressed integers. -/
structure ScopeRecord where
  /-- The offset of the next record outwards, 0 for none. -/
  sender : UInt32
  /-- Counts the entries of the reference table from one. -/
  methodIndex : UInt32
  bci : Bci
  deriving DecidableEq, Repr

namespace ScopeRecord

/-- Reads a bytecode index, stored so that the entry of the method is zero. -/
def readBci (s : ByteStream) : Decoder Bci := do
  return (← Compressed.readInt s).toInt32 + Bci.invocationEntry

def read (s : ByteStream) : Decoder ScopeRecord := do
  let sender ← Compressed.readInt s
  let methodIndex ← Compressed.readInt s
  let bci ← readBci s
  return ⟨sender, methodIndex, bci⟩

end ScopeRecord

/-- Offsets that a walk has not come to yet. -/
def unvisited (seen : List UInt32) : Nat :=
  (List.range UInt32.size).countP fun n => !seen.contains (UInt32.ofNat n)

theorem unvisited_cons_lt {seen : List UInt32} {offset : UInt32} (h : offset ∉ seen) :
    unvisited (offset :: seen) < unvisited seen := by
  have hm : offset.toNat ∈ List.range UInt32.size := List.mem_range.mpr offset.toNat_lt_size
  obtain ⟨before, after, hr⟩ := List.append_of_mem hm
  have mono (l : List Nat) :
      l.countP (fun n => !(offset :: seen).contains (UInt32.ofNat n)) ≤
        l.countP (fun n => !seen.contains (UInt32.ofNat n)) := by
    refine List.countP_mono_left fun n _ hn => ?_
    simp_all
  have hb := mono before
  have ha := mono after
  unfold unvisited
  rw [hr, List.countP_append, List.countP_append, List.countP_cons_of_neg (by simp),
    List.countP_cons_of_pos (by simpa using h)]
  omega

namespace CompiledMethod

/-- The scopes data may run up to the end of the blob. -/
def scopesRange (m : CompiledMethod) : AddressRange := ⟨m.scopesData, m.blob.stop⟩

def scopesStream (m : CompiledMethod) (t : Target) : ByteStream :=
  ⟨t.memory.within m.scopesRange, m.scopesData⟩

/-- The record at an offset into the scopes data. -/
def scopeAt (m : CompiledMethod) (t : Target) (offset : UInt32) : Answer ScopeRecord :=
  match ScopeRecord.read (m.scopesStream t) offset.toNat with
  | .ok r _ => .ok r
  | .error e _ => .error e

/-- The frame that a record describes. -/
def frameOf (m : CompiledMethod) (t : Target) (r : ScopeRecord) : Answer Frame := do
  match ← m.oopAt t r.methodIndex with
  | none => return ⟨none, r.bci, SourceLine.unknown⟩
  | some a => return ⟨some a, r.bci, ← (← Method.read t a).lineAt t r.bci⟩

/-- The record at an offset with its frame. -/
def scopeFrame (m : CompiledMethod) (t : Target) (offset : UInt32) :
    Answer (ScopeRecord × Frame) := do
  let r ← m.scopeAt t offset
  return (r, ← m.frameOf t r)

/-- The frames from an offset outwards. A chain that comes back to an offset is malformed. -/
def framesFrom (m : CompiledMethod) (t : Target) (seen : List UInt32) (offset : UInt32) :
    Answer (List Frame) :=
  if offset = 0 then .ok []
  else if _h : offset ∈ seen then
    .error (.malformed .scopeChain (m.scopesData + offset.toUInt64))
  else
    match m.scopeFrame t offset with
    | .error e => .error e
    | .ok (r, frame) => do return frame :: (← framesFrom m t (offset :: seen) r.sender)
termination_by unvisited seen
decreasing_by exact unvisited_cons_lt _h

/-- The inlined calls at a descriptor, innermost first; none without scope information. -/
def frames (m : CompiledMethod) (t : Target) (desc : Descriptor) : Answer (List Frame) :=
  match CodeBlob.natural? desc.scopeOffset with
  | some offset => m.framesFrom t [] (UInt32.ofNat offset)
  | none => .error (.malformed .scopeDecodeOffset desc.address)

end CompiledMethod

end JitFrames
