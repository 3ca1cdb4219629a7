import JitFrames.Memory.Address
import JitFrames.Text.Blank

namespace JitFrames.Address

/-- Base and digits of a literal without blanks around. -/
def splitBase : List Char → Nat × List Char
  | '0' :: 'x' :: body => (16, body)
  | '0' :: 'X' :: body => (16, body)
  | body => (10, body)

/-- The address that a literal denotes. -/
def ofLiteral? (literal : String) : Option Address := do
  let (base, body) := splitBase (Blank.trim literal.toList)
  let value ← Numeral.unsigned? base (body.filter (· ≠ '_'))
  if value < UInt64.size then some (UInt64.ofNat value) else none

end JitFrames.Address
