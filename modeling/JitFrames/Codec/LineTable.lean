import JitFrames.Codec.Integer

namespace JitFrames

/-- A bytecode index; `-1` is the entry of the method, before its first bytecode. -/
abbrev Bci := Int32

/-- A source line; negative if it is not known. -/
abbrev SourceLine := Int32

def Bci.invocationEntry : Bci := -1

def Bci.text (bci : Bci) : String := "bci" ++ toString bci.toInt

def SourceLine.unknown : SourceLine := -1

def SourceLine.isKnown (line : SourceLine) : Bool := 0 ≤ line

def SourceLine.text (line : SourceLine) : String :=
  if SourceLine.isKnown line then "L" ++ toString line.toInt else "L?"

/-- One entry of a line table, written as the difference from the one before. -/
structure LinePair where
  bci : Bci
  line : SourceLine
  deriving DecidableEq, Repr

namespace LineTable

def terminator : UInt8 := 0x00

/-- Announces two signed differences. -/
def escape : UInt8 := 0xFF

/-- The weight of the index difference in a byte; the line difference takes the values below. -/
def bciWeight : Nat := 8

/-- A position in a table and the pair read last. -/
structure Cursor where
  position : Nat
  pair : LinePair
  deriving DecidableEq, Repr

def Cursor.start : Cursor := ⟨0, ⟨0, 0⟩⟩

/-- Runs a step of the stream at the cursor's position. -/
def atPosition {α : Type} (step : Decoder α) : EStateM Fault Cursor α := fun c =>
  match step c.position with
  | .ok x p => .ok x { c with position := p }
  | .error e p => .error e { c with position := p }

def addBci (delta : Int32) : EStateM Fault Cursor Unit := fun c =>
  .ok () { c with pair.bci := c.pair.bci + delta }

def addLine (delta : Int32) : EStateM Fault Cursor Unit := fun c =>
  .ok () { c with pair.line := c.pair.line + delta }

/-- Moves to the next pair; `false` at the end of the table. The index is updated before the
line difference is read. -/
def readPair (s : ByteStream) : EStateM Fault Cursor Bool := do
  let b ← atPosition s.next
  if b = terminator then
    return false
  if b = escape then
    addBci (← atPosition (Compressed.readSigned s))
    addLine (← atPosition (Compressed.readSigned s))
  else
    addBci (Int32.ofNat (b.toNat / bciWeight))
    addLine (Int32.ofNat (b.toNat % bciWeight))
  return true

theorem atPosition_eq_ok {α : Type} {step : Decoder α} {c c' : Cursor} {x : α}
    (h : atPosition step c = .ok x c') : step c.position = .ok x c'.position := by
  unfold atPosition at h
  split at h
  · next hs => simp only [EStateM.Result.ok.injEq] at h; obtain ⟨rfl, rfl⟩ := h; exact hs
  · simp at h

theorem addBci_eq_ok {delta : Int32} {c c' : Cursor} (h : addBci delta c = .ok () c') :
    c'.position = c.position := by
  cases h
  rfl

theorem addLine_eq_ok {delta : Int32} {c c' : Cursor} (h : addLine delta c = .ok () c') :
    c'.position = c.position := by
  cases h
  rfl

/-- Every pair takes at least one byte, and that byte lies in the address space. -/
theorem readPair_eq_ok {s : ByteStream} {c c' : Cursor} {more : Bool}
    (h : readPair s c = .ok more c') : c.position < c'.position ∧ c.position < UInt64.size := by
  obtain ⟨b, c₁, hb, h⟩ := bind_eq_ok.mp h
  have h₁ := ByteStream.next_eq_ok (atPosition_eq_ok hb)
  split at h
  · obtain ⟨-, rfl⟩ := pure_eq_ok.mp h
    omega
  · split at h
    · obtain ⟨x, c₂, hx, h⟩ := bind_eq_ok.mp h
      obtain ⟨⟨⟩, c₃, hs, h⟩ := bind_eq_ok.mp h
      obtain ⟨y, c₄, hy, h⟩ := bind_eq_ok.mp h
      obtain ⟨⟨⟩, c₅, hl, h⟩ := bind_eq_ok.mp h
      obtain ⟨-, rfl⟩ := pure_eq_ok.mp h
      have h₂ := Compressed.readSigned_eq_ok (atPosition_eq_ok hx)
      have h₃ := addBci_eq_ok hs
      have h₄ := Compressed.readSigned_eq_ok (atPosition_eq_ok hy)
      have h₅ := addLine_eq_ok hl
      omega
    · obtain ⟨⟨⟩, c₂, hs, h⟩ := bind_eq_ok.mp h
      obtain ⟨⟨⟩, c₃, hl, h⟩ := bind_eq_ok.mp h
      obtain ⟨-, rfl⟩ := pure_eq_ok.mp h
      have h₂ := addBci_eq_ok hs
      have h₃ := addLine_eq_ok hl
      omega

/-- Reads on from a cursor. A pair with the index itself gives its line at once; at the end the
best pair so far gives the line. -/
def scan (s : ByteStream) (bci : Bci) (c : Cursor) (best : LinePair) : Answer SourceLine :=
  match _h : readPair s c with
  | .error e _ => .error e
  | .ok false _ => .ok best.line
  | .ok true c' =>
    if c'.pair.bci = bci then .ok c'.pair.line
    else scan s bci c' (if c'.pair.bci < bci ∧ best.bci ≤ c'.pair.bci then c'.pair else best)
termination_by UInt64.size - c.position
decreasing_by have := readPair_eq_ok _h; omega

theorem scan_eq (s : ByteStream) (bci : Bci) (c : Cursor) (best : LinePair) :
    scan s bci c best =
      match readPair s c with
      | .error e _ => .error e
      | .ok false _ => .ok best.line
      | .ok true c' =>
        if c'.pair.bci = bci then .ok c'.pair.line
        else scan s bci c' (if c'.pair.bci < bci ∧ best.bci ≤ c'.pair.bci then c'.pair else best) := by
  rw [scan]
  split <;> next h => rw [h]

/-- The line of a bytecode index: that of the first pair with the index, or else of the last
pair with the greatest non-negative index below it. Without a table no line is known. -/
def lineAt (m : Memory) (table : Option Address) (bci : Bci) : Answer SourceLine :=
  match table with
  | none => .ok SourceLine.unknown
  | some origin => scan ⟨m, origin⟩ bci Cursor.start ⟨0, SourceLine.unknown⟩

/-- The bytes of a pair that follows another one. The one-byte form gives way where it would be
the terminator or the escape. -/
def encodePair (prev pair : LinePair) : List UInt8 :=
  let bci := pair.bci - prev.bci
  let line := pair.line - prev.line
  let packed := UInt8.ofNat (bci.toInt.toNat * bciWeight + line.toInt.toNat)
  if 0 ≤ bci ∧ bci < 32 ∧ 0 ≤ line ∧ line < 8 ∧ packed ≠ terminator ∧ packed ≠ escape then
    [packed]
  else
    escape :: (Compressed.encodeSigned bci ++ Compressed.encodeSigned line)

/-- The bytes of the pairs that follow another one, without the end of the table. -/
def encodePairs (prev : LinePair) : List LinePair → List UInt8
  | [] => []
  | pair :: pairs => encodePair prev pair ++ encodePairs pair pairs

/-- A whole table. -/
def encode (pairs : List LinePair) : List UInt8 :=
  encodePairs ⟨0, 0⟩ pairs ++ [terminator]

end LineTable

end JitFrames
