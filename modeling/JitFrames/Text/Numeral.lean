namespace JitFrames.Numeral

/-- The value of a digit character in any base up to 36, in either case. -/
def digitValue? (c : Char) : Option Nat :=
  if '0' ≤ c ∧ c ≤ '9' then some (c.toNat - '0'.toNat)
  else if 'a' ≤ c ∧ c ≤ 'z' then some (c.toNat - 'a'.toNat + 10)
  else if 'A' ≤ c ∧ c ≤ 'Z' then some (c.toNat - 'A'.toNat + 10)
  else none

/-- The value of a digit below `base`. -/
def digitBelow? (base : Nat) (c : Char) : Option Nat :=
  (digitValue? c).filter (· < base)

/-- Reads digits after a number already read. -/
def extend? (base : Nat) : Nat → List Char → Option Nat
  | n, [] => some n
  | n, c :: cs => do extend? base (base * n + (← digitBelow? base c)) cs

/-- The value of one or more digits of `base`. -/
def value? (base : Nat) : List Char → Option Nat
  | [] => none
  | cs => extend? base 0 cs

/-- Digits after at most one plus sign. -/
def unsigned? (base : Nat) : List Char → Option Nat
  | '+' :: cs => value? base cs
  | cs => value? base cs

/-- Decimal digits after at most one sign. -/
def signed? : List Char → Option Int
  | '+' :: cs => (value? 10 cs).map (fun n => (n : Int))
  | '-' :: cs => (value? 10 cs).map (fun n => -(n : Int))
  | cs => (value? 10 cs).map (fun n => (n : Int))

/-- Lower-case hexadecimal digits without leading zeros. -/
def hex (n : Nat) : String := String.ofList (Nat.toDigits 16 n)

/-- Hexadecimal digits, zeros in front up to `width`. -/
def hexPadded (width n : Nat) : String :=
  let digits := Nat.toDigits 16 n
  String.ofList (List.replicate (width - digits.length) '0' ++ digits)

/-- Decimal digits, blanks behind up to `width`. -/
def decimalPadded (width n : Nat) : String :=
  let digits := Nat.toDigits 10 n
  String.ofList (digits ++ List.replicate (width - digits.length) ' ')

end JitFrames.Numeral
