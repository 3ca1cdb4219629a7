import JitFrames.Json.Token
import JitFrames.Json.Value

namespace JitFrames.Json

/-- An array or object that is still open: what it holds so far, last first. -/
inductive Open where
  | array (items : List Value)
  /-- The key belongs to the member that is being read. -/
  | object (members : List (Option String × Value)) (key : Option String)

mutual

/-- Reads on where a value has to begin, inside the given open ones, innermost first. -/
def beginValue : List Open → List Token → Option Value
  | st, .openArray :: .closeArray :: ts => endValue (.array []) st ts
  | st, .openArray :: ts => beginValue (.array [] :: st) ts
  | st, .openObject :: .closeObject :: ts => endValue (.object []) st ts
  | st, .openObject :: .string key :: .colon :: ts => beginValue (.object [] key.decode? :: st) ts
  | st, .null :: ts => endValue .null st ts
  | st, .bool b :: ts => endValue (.bool b) st ts
  | st, .number digits :: ts => endValue (.number digits) st ts
  | st, .string t :: ts => endValue (.string t.decode?) st ts
  | _, _ => none

/-- Reads on where the value has just ended. -/
def endValue : Value → List Open → List Token → Option Value
  | v, [], [] => some v
  | v, .array items :: st, .comma :: ts => beginValue (.array (v :: items) :: st) ts
  | v, .array items :: st, .closeArray :: ts => endValue (.array (v :: items).reverse) st ts
  | v, .object members key :: st, .comma :: .string key' :: .colon :: ts =>
    beginValue (.object ((key, v) :: members) key'.decode? :: st) ts
  | v, .object members key :: st, .closeObject :: ts =>
    endValue (.object ((key, v) :: members).reverse) st ts
  | _, _, _ => none

end

/-- Reads a text that holds one value and nothing else. -/
def document? : Reader := fun text => (Token.scan? text.toList).bind (beginValue [])

end JitFrames.Json
