import JitFrames.Fault

namespace JitFrames

abbrev Bytes := Array UInt8

/-- A read-only memory: the `length` bytes from an address on, if all of them are there. -/
structure Memory where
  bytes? : Address → Nat → Option Bytes

namespace Memory

/-- Reads exactly `length` bytes. -/
def read (m : Memory) (a : Address) (length : Nat) : Answer Bytes :=
  match m.bytes? a length with
  | some bytes => .ok bytes
  | none => .error (.unmapped a length)

/-- The byte at `a`. -/
def byte? (m : Memory) (a : Address) : Option UInt8 := (m.bytes? a 1).bind (·[0]?)

def readByte (m : Memory) (a : Address) : Answer UInt8 :=
  match m.byte? a with
  | some b => .ok b
  | none => .error (.unmapped a 1)

/-- A buffer as a memory of its own; addresses are indices. -/
def ofBytes (bytes : Bytes) : Memory where
  bytes? a length := do
    let stop ← a.add? length
    if stop.toNat ≤ bytes.size then some (bytes.extract a.toNat stop.toNat) else none

/-- The part of a memory inside a range. A decoder that runs off the end of its record fails
instead of reading the neighbour. -/
def within (m : Memory) (r : AddressRange) : Memory where
  bytes? a length :=
    if r.contains a && a.toNat + length ≤ r.stop.toNat then m.bytes? a length else none

theorem read_eq_ok_iff {m : Memory} {a : Address} {n : Nat} {bytes : Bytes} :
    m.read a n = .ok bytes ↔ m.bytes? a n = some bytes := by
  unfold read; split <;> simp_all

theorem readByte_eq_ok_iff {m : Memory} {a : Address} {b : UInt8} :
    m.readByte a = .ok b ↔ m.byte? a = some b := by
  unfold readByte; split <;> simp_all

end Memory

end JitFrames
