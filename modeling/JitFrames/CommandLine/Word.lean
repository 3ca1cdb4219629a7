namespace JitFrames.CommandLine

inductive Word where
  | long (name : List Char) (attached : Option String)
  /-- A letter and what stands behind it. -/
  | short (letter : Char) (rest : List Char)
  | plain
  deriving DecidableEq, Repr

namespace Word

/-- The value behind the first equals sign. -/
def attached? (chars : List Char) : Option String :=
  match chars.dropWhile (· ≠ '=') with
  | [] => none
  | _ :: value => some (String.ofList value)

def ofText (text : String) : Word :=
  match text.toList with
  | '-' :: '-' :: rest => .long (rest.takeWhile (· ≠ '=')) (attached? rest)
  | '-' :: letter :: rest => .short letter rest
  | _ => .plain

/-- The value behind a one-letter name, where an equals sign may stand between the two. -/
def shortValue? : List Char → Option String
  | [] => none
  | '=' :: value => some (String.ofList value)
  | value => some (String.ofList value)

/-- Numbers after the mark of an exponent: one digit or more. -/
def isExponent (chars : List Char) : Bool := !chars.isEmpty && chars.all Char.isDigit

/-- What may follow the digits before a point: digits, and an exponent after a mark. -/
def isFraction (chars : List Char) : Bool :=
  match chars.dropWhile Char.isDigit with
  | 'e' :: exponent => isExponent exponent
  | 'E' :: exponent => isExponent exponent
  | rest => rest.isEmpty

/-- Whether a word is a number without a sign: digits, at most one point and at most one exponent,
neither of which comes first. -/
def isNumber (chars : List Char) : Bool :=
  match chars with
  | c :: _ =>
    c.isDigit &&
      match chars.dropWhile Char.isDigit with
      | '.' :: fraction => isFraction fraction
      | rest => isFraction rest
  | [] => false

end Word

end JitFrames.CommandLine
