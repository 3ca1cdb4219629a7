import JitFrames.Json.Text

namespace JitFrames.Json

inductive Token where
  | openArray
  | closeArray
  | openObject
  | closeObject
  | comma
  | colon
  | null
  | bool (b : Bool)
  /-- A number as it is written. -/
  | number (digits : List Char)
  | string (t : Text)
  deriving DecidableEq, Repr

namespace Token

/-- What JSON allows between tokens. -/
def isBlank (c : Char) : Bool := c = ' ' || c = '\t' || c = '\n' || c = '\r'

/-- The characters of numbers and of the words `null`, `true` and `false`. -/
def isWordChar (c : Char) : Bool := c.isAlphanum || c = '-' || c = '+' || c = '.'

def isExponent : List Char → Bool
  | [] => true
  | e :: sign :: rest =>
    (e = 'e' || e = 'E') &&
      if sign = '+' || sign = '-' then !rest.isEmpty && rest.all Char.isDigit
      else (sign :: rest).all Char.isDigit
  | _ => false

def isFraction : List Char → Bool
  | '.' :: d :: rest => d.isDigit && isExponent (rest.dropWhile Char.isDigit)
  | rest => isExponent rest

/-- Digits without a needless zero in front, then fraction and exponent. -/
def isMagnitude : List Char → Bool
  | [] => false
  | '0' :: rest => isFraction rest
  | d :: rest => d.isDigit && isFraction (rest.dropWhile Char.isDigit)

def isNumber : List Char → Bool
  | '-' :: rest => isMagnitude rest
  | cs => isMagnitude cs

/-- The token that a run of word characters is. -/
def ofWord? (word : List Char) : Option Token :=
  if word = "null".toList then some .null
  else if word = "true".toList then some (.bool true)
  else if word = "false".toList then some (.bool false)
  else if isNumber word then some (.number word)
  else none

/-- The token that a mark of punctuation is. -/
def ofMark? (c : Char) : Option Token :=
  match c with
  | '[' => some .openArray
  | ']' => some .closeArray
  | '{' => some .openObject
  | '}' => some .closeObject
  | ',' => some .comma
  | ':' => some .colon
  | _ => none

theorem length_dropWhile_le (p : Char → Bool) (cs : List Char) :
    (cs.dropWhile p).length ≤ cs.length := by
  induction cs with
  | nil => simp
  | cons c cs ih =>
    simp only [List.dropWhile_cons]
    split
    · simp only [List.length_cons]; omega
    · simp

/-- The tokens of a text. A word is as long as it can be. -/
def scan? : List Char → Option (List Token)
  | [] => some []
  | c :: rest =>
    if isBlank c then scan? rest
    else if c = '"' then
      match _h : Text.read? rest with
      | some (t, rest) => (scan? rest).map (.string t :: ·)
      | none => none
    else
      match ofMark? c with
      | some mark => (scan? rest).map (mark :: ·)
      | none =>
        if isWordChar c then
          match ofWord? (c :: rest.takeWhile isWordChar) with
          | some token => (scan? (rest.dropWhile isWordChar)).map (token :: ·)
          | none => none
        else none
termination_by cs => cs.length
decreasing_by
  · simp
  · have := Text.length_lt_of_read?_eq_some _h
    simp only [List.length_cons]; omega
  · simp
  · have := length_dropWhile_le isWordChar rest
    simp only [List.length_cons]; omega

end Token

end JitFrames.Json
