import JitFrames.Text.Utf8

namespace JitFrames

/-- A path as the system knows it: any bytes, which need not be text. The names in it are set apart
by slashes. Repeated slashes, and dots that follow a slash, name nothing, so the parent of `a//b`
and of `a/./b` is `a`. -/
structure Path where
  bytes : List UInt8
  deriving DecidableEq, Repr

namespace Path

def slash : UInt8 := 0x2F

def dot : UInt8 := 0x2E

def ofString (text : String) : Path := ⟨text.toUTF8.data.toList⟩

/-- The path as it is shown in a message. -/
def text (p : Path) : String := Utf8.decodeLossy p.bytes

/-- The directory that a path is looked up from. -/
def current : Path := ⟨[dot]⟩

/-- A path whose first byte has a meaning of its own, and the rest: the root, or a dot that names
the current directory. -/
def splitStart : List UInt8 → List UInt8 × List UInt8
  | [] => ([], [])
  | b :: rest =>
    if b = slash then ([slash], rest)
    else if b = dot ∧ (rest.head?.all (· = slash)) then ([dot], rest)
    else ([], b :: rest)

/-- Drops slashes and dots that name nothing, from the end of a path given in reverse. -/
def trimEnd : List UInt8 → List UInt8
  | [] => []
  | b :: rest =>
    if b = slash ∨ b = dot ∧ rest.head?.all (· = slash) then trimEnd rest else b :: rest

/-- The directory in which the last name of a path stands, empty for a lone name. The root and the
empty path stand in none. -/
def parent? (p : Path) : Option Path :=
  let (start, body) := splitStart p.bytes
  match trimEnd body.reverse with
  | [] => if start = [dot] then some ⟨[]⟩ else none
  | trimmed => some ⟨start ++ (trimEnd (trimmed.dropWhile (· ≠ slash))).reverse⟩

def isAbsolute (p : Path) : Bool := p.bytes.head? = some slash

/-- A path as seen from a directory. An absolute path stands for itself. -/
def join (directory p : Path) : Path :=
  if p.isAbsolute then p
  else if directory.bytes.isEmpty || directory.bytes.getLast? = some slash then
    ⟨directory.bytes ++ p.bytes⟩
  else ⟨directory.bytes ++ slash :: p.bytes⟩

/-- What stands between the slashes. -/
def splitSlashes : List UInt8 → List (List UInt8)
  | [] => [[]]
  | b :: rest =>
    match splitSlashes rest with
    | [] => [[b]]
    | name :: names => if b = slash then [] :: name :: names else (b :: name) :: names

def names (p : Path) : List (List UInt8) := splitSlashes p.bytes

end Path

end JitFrames
