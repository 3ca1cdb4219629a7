import JitFrames.Text.Numeral

namespace JitFrames.Json

/-- A character, plain or escaped by a letter, or the UTF-16 unit of a `\u` escape. Units are kept
apart, because a string is well formed whatever units it names. -/
inductive Piece where
  | char (c : Char)
  | unit (n : Nat)
  deriving DecidableEq, Repr

abbrev Text := List Piece

namespace Text

def isHighSurrogate (n : Nat) : Bool := 0xD800 ≤ n && n ≤ 0xDBFF

def isLowSurrogate (n : Nat) : Bool := 0xDC00 ≤ n && n ≤ 0xDFFF

def decodePieces? : Text → Option (List Char)
  | [] => some []
  | .char c :: rest => (decodePieces? rest).map (c :: ·)
  | .unit n :: rest =>
    if isLowSurrogate n then none
    else if isHighSurrogate n then
      match rest with
      | .unit m :: rest =>
        if isLowSurrogate m then
          (decodePieces? rest).map
            (Char.ofNat (0x10000 + (n - 0xD800) * 0x400 + (m - 0xDC00)) :: ·)
        else none
      | _ => none
    else (decodePieces? rest).map (Char.ofNat n :: ·)

/-- The text that a string denotes. -/
def decode? (t : Text) : Option String := (decodePieces? t).map String.ofList

/-- The character that an escape letter stands for. -/
def escaped? (letter : Char) : Option Char :=
  match letter with
  | '"' => some '"'
  | '\\' => some '\\'
  | '/' => some '/'
  | 'b' => some '\x08'
  | 'f' => some '\x0C'
  | 'n' => some '\n'
  | 'r' => some '\r'
  | 't' => some '\t'
  | _ => none

/-- Reads up to the closing quote; gives the string and what follows it. Control characters must
be escaped. -/
def read? : List Char → Option (Text × List Char)
  | [] => none
  | '"' :: rest => some ([], rest)
  | '\\' :: 'u' :: a :: b :: c :: d :: rest => do
    let n ← Numeral.value? 16 [a, b, c, d]
    let (t, rest) ← read? rest
    some (.unit n :: t, rest)
  | '\\' :: letter :: rest => do
    let c ← escaped? letter
    let (t, rest) ← read? rest
    some (.char c :: t, rest)
  | c :: rest => do
    if c.toNat < 0x20 ∨ c = '\\' then none
    else
      let (t, rest) ← read? rest
      some (.char c :: t, rest)

/-- Reading a string takes at least its closing quote. -/
theorem length_lt_of_read?_eq_some {cs rest : List Char} {t : Text}
    (h : read? cs = some (t, rest)) : rest.length < cs.length := by
  fun_induction read? cs generalizing t rest with
  | case1 => simp at h
  | case2 => simp_all
  | case3 a b c d tail ih =>
    simp only [Option.bind_eq_bind, Option.bind_eq_some_iff, Option.some.injEq, Prod.mk.injEq] at h
    obtain ⟨n, -, ⟨t', rest'⟩, hr, -, rfl⟩ := h
    have := ih hr
    simp only [List.length_cons]
    omega
  | case4 letter tail _ ih =>
    simp only [Option.bind_eq_bind, Option.bind_eq_some_iff, Option.some.injEq, Prod.mk.injEq] at h
    obtain ⟨c, -, ⟨t', rest'⟩, hr, -, rfl⟩ := h
    have := ih hr
    simp only [List.length_cons]
    omega
  | case5 => simp at h
  | case6 c tail _ _ _ _ ih =>
    simp only [Option.bind_eq_bind, Option.bind_eq_some_iff, Option.some.injEq, Prod.mk.injEq] at h
    obtain ⟨⟨t', rest'⟩, hr, -, rfl⟩ := h
    have := ih hr
    simp only [List.length_cons]
    omega

end Text

end JitFrames.Json
