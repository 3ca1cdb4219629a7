namespace JitFrames.Utf8

/-- Written in place of bytes that encode no character. -/
def replacement : Char := '\uFFFD'

/-- What the first `length` bytes of a text are: a character, or the part of an ill-formed one. -/
structure Head where
  char? : Option Char
  length : Nat
  deriving DecidableEq, Repr

/-- The bytes that may stand at one place of a sequence. -/
structure ByteRange where
  low : UInt8
  high : UInt8
  deriving DecidableEq, Repr

def ByteRange.contains (r : ByteRange) (b : UInt8) : Bool := r.low ≤ b && b ≤ r.high

def continuation : ByteRange := ⟨0x80, 0xBF⟩

/-- The bytes that follow a lead byte; `none` if it starts no character. The second place is
narrower after four of the lead bytes, which cuts off over-long forms, surrogates and values
past U+10FFFF. -/
def tail? (lead : UInt8) : Option (List ByteRange) :=
  if lead < 0x80 then some []
  else if lead < 0xC2 then none
  else if lead < 0xE0 then some [continuation]
  else if lead = 0xE0 then some [⟨0xA0, 0xBF⟩, continuation]
  else if lead = 0xED then some [⟨0x80, 0x9F⟩, continuation]
  else if lead < 0xF0 then some [continuation, continuation]
  else if lead = 0xF0 then some [⟨0x90, 0xBF⟩, continuation, continuation]
  else if lead < 0xF4 then some [continuation, continuation, continuation]
  else if lead = 0xF4 then some [⟨0x80, 0x8F⟩, continuation, continuation]
  else none

/-- The bits of the code point that a lead byte carries. -/
def leadBits (lead : UInt8) : Nat :=
  if lead < 0x80 then lead.toNat
  else if lead < 0xE0 then lead.toNat % 32
  else if lead < 0xF0 then lead.toNat % 16
  else lead.toNat % 8

/-- Takes the following bytes of a character for as long as they fit. -/
def takeTail (value taken : Nat) : List ByteRange → List UInt8 → Head
  | [], _ => ⟨some (Char.ofNat value), taken⟩
  | _ :: _, [] => ⟨none, taken⟩
  | r :: rs, b :: bs =>
    if r.contains b then takeTail (value * 64 + b.toNat % 64) (taken + 1) rs bs
    else ⟨none, taken⟩

def head (lead : UInt8) (rest : List UInt8) : Head :=
  match tail? lead with
  | some ranges => takeTail (leadBits lead) 1 ranges rest
  | none => ⟨none, 1⟩

/-- The heads of a text one after the other, once `skip` more bytes have been passed. -/
def headsAfter : Nat → List UInt8 → List Head
  | _, [] => []
  | skip + 1, _ :: rest => headsAfter skip rest
  | 0, lead :: rest => head lead rest :: headsAfter ((head lead rest).length - 1) rest

def heads (bytes : List UInt8) : List Head := headsAfter 0 bytes

/-- The text of any bytes, each ill-formed part shown as U+FFFD. -/
def decodeLossy (bytes : List UInt8) : String :=
  String.ofList ((heads bytes).map fun h => h.char?.getD replacement)

/-- The text of well-formed bytes. -/
def decode? (bytes : List UInt8) : Option String :=
  ((heads bytes).mapM Head.char?).map String.ofList

end JitFrames.Utf8
