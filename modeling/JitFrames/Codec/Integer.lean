import JitFrames.Codec.Stream

namespace JitFrames.Compressed

/-- Bytes below this one end a number. -/
def highCode : Nat := 192

/-- The weight of a byte relative to the one before it. -/
def radix : Nat := 64

/-- How many bytes may follow the first. -/
def maxFollow : Nat := 4

/-- The bytes of a number with room for `room` of them after the first. -/
def digits : Nat → Nat → List UInt8
  | 0, n => [UInt8.ofNat n]
  | room + 1, n =>
    if n < highCode then [UInt8.ofNat n]
    else
      UInt8.ofNat (highCode + (n - highCode) % radix) :: digits room ((n - highCode) / radix)

def encode (v : UInt32) : List UInt8 := digits maxFollow v.toNat

/-- Reads the bytes of a number with room for `room` of them after the first. -/
def readDigits (s : ByteStream) : Nat → Decoder Nat
  | 0 => do return (← s.next).toNat
  | room + 1 => do
    let b ← s.next
    if b.toNat < highCode then return b.toNat
    else return b.toNat + radix * (← readDigits s room)

/-- Reads a number; what five bytes hold beyond 32 bits is dropped. -/
def readInt (s : ByteStream) : Decoder UInt32 := do
  return UInt32.ofNat (← readDigits s maxFollow)

/-- Folds the signed numbers onto the unsigned ones. -/
def foldSign (v : Int32) : UInt32 :=
  if 0 ≤ v.toInt then UInt32.ofNat (2 * v.toInt).toNat
  else UInt32.ofNat (-2 * v.toInt - 1).toNat

/-- Even numbers stand for the non-negative ones, odd numbers for the negative ones. -/
def unfoldSign (v : UInt32) : Int32 :=
  if v.toNat % 2 = 0 then Int32.ofInt (v.toNat / 2)
  else Int32.ofInt (-(v.toNat / 2 : Int) - 1)

def encodeSigned (v : Int32) : List UInt8 := encode (foldSign v)

def readSigned (s : ByteStream) : Decoder Int32 := do
  return unfoldSign (← readInt s)

/-- What a stream is written in and read in: numbers and single bytes. -/
inductive Item where
  | int (v : UInt32)
  | signed (v : Int32)
  | byte (v : UInt8)
  deriving DecidableEq, Repr

inductive Item.Kind where
  | int
  | signed
  | byte
  deriving DecidableEq, Repr

def Item.kind : Item → Item.Kind
  | .int _ => .int
  | .signed _ => .signed
  | .byte _ => .byte

def Item.encode : Item → List UInt8
  | .int v => Compressed.encode v
  | .signed v => encodeSigned v
  | .byte v => [v]

def Item.Kind.read (s : ByteStream) : Item.Kind → Decoder Item
  | .int => do return .int (← readInt s)
  | .signed => do return .signed (← readSigned s)
  | .byte => do return .byte (← s.next)

/-- The bytes of items written one after the other. -/
def encodeAll (items : List Item) : List UInt8 := items.flatMap Item.encode

theorem readDigits_eq_ok {s : ByteStream} {room p q n : Nat}
    (h : readDigits s room p = .ok n q) : p < q := by
  induction room generalizing p q n with
  | zero =>
    obtain ⟨b, p', hb, h⟩ := bind_eq_ok.mp h
    have := ByteStream.next_eq_ok hb
    have := pure_eq_ok.mp h
    omega
  | succ room ih =>
    obtain ⟨b, p', hb, h⟩ := bind_eq_ok.mp h
    have := ByteStream.next_eq_ok hb
    split at h
    · have := pure_eq_ok.mp h
      omega
    · obtain ⟨m, p'', hd, h⟩ := bind_eq_ok.mp h
      have := ih hd
      have := pure_eq_ok.mp h
      omega

theorem readInt_eq_ok {s : ByteStream} {p q : Nat} {v : UInt32}
    (h : readInt s p = .ok v q) : p < q := by
  obtain ⟨n, p', hd, h⟩ := bind_eq_ok.mp h
  have := readDigits_eq_ok hd
  have := pure_eq_ok.mp h
  omega

theorem readSigned_eq_ok {s : ByteStream} {p q : Nat} {v : Int32}
    (h : readSigned s p = .ok v q) : p < q := by
  obtain ⟨n, p', hd, h⟩ := bind_eq_ok.mp h
  have := readInt_eq_ok hd
  have := pure_eq_ok.mp h
  omega

end JitFrames.Compressed
