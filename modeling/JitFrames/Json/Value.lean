import JitFrames.Text.Numeral

namespace JitFrames.Json

/-- A JSON value. A string is the text that it denotes, if it denotes one: a half of a surrogate
pair does not. Members of an object keep their order and may repeat a key. -/
inductive Value where
  | null
  | bool (b : Bool)
  /-- A number as it is written. -/
  | number (digits : List Char)
  | string (text? : Option String)
  | array (items : List Value)
  | object (members : List (Option String × Value))

/-- How a JSON text is read: the value that it holds, if it holds one and nothing else. -/
abbrev Reader := String → Option Value

namespace Value

def ofNat (n : Nat) : Value := .number (Nat.toDigits 10 n)

def ofString (s : String) : Value := .string (some s)

/-- The object that has the given members. -/
def ofMembers (members : List (String × Value)) : Value :=
  .object (members.map fun m => (some m.1, m.2))

/-- The natural number below `limit` that is written without sign, fraction or exponent. -/
def nat? (limit : Nat) : Value → Option Nat
  | .number digits => (Numeral.value? 10 digits).filter (· < limit)
  | _ => none

def word? (v : Value) : Option UInt64 := (v.nat? UInt64.size).map UInt64.ofNat

def string? : Value → Option String
  | .string text? => text?
  | _ => none

/-- The members of an object with their keys as text. -/
def members? : Value → Option (List (String × Value))
  | .object members => members.mapM fun m => m.1.map (·, m.2)
  | _ => none

/-- The fields of a record, each present or absent. A record is an object that repeats none of
its fields, or an array of the fields in order that may stop early. Other keys are ignored. -/
def record? (fields : List String) : Value → Option (List (Option Value))
  | .array items =>
    if items.length ≤ fields.length then
      some (items.map some ++ List.replicate (fields.length - items.length) none)
    else none
  | v => do
    let members ← v.members?
    fields.mapM fun field =>
      match members.filter (·.1 = field) with
      | [] => some none
      | [(_, v)] => some (some v)
      | _ => none

end Value

end JitFrames.Json
