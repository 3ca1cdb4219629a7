import JitFrames.Memory.Address

namespace JitFrames

/-- The item of metadata found malformed. -/
inductive Defect where
  | streamPosition
  | fieldAddress
  | cString
  | blobSize
  | instructionsOffset
  | scopesPcsOffset
  | dependenciesOffset
  | scopesDataOffset
  | oopsOffset
  | referenceIndex
  | descriptorTable
  | virtualSpace
  | segmentSize
  | segmentMapIndex
  | segmentIndex
  | segmentMapChain
  | scopeDecodeOffset
  | scopeChain
  | poolSymbol
  | usedOffset
  deriving DecidableEq, Repr

def Defect.text : Defect → String
  | .streamPosition => "compressed stream position"
  | .fieldAddress => "field address"
  | .cString => "C string"
  | .blobSize => "blob size"
  | .instructionsOffset => "instructions offset"
  | .scopesPcsOffset => "scopes pcs offset"
  | .dependenciesOffset => "dependencies offset"
  | .scopesDataOffset => "scopes data offset"
  | .oopsOffset => "oops offset"
  | .referenceIndex => "reference index"
  | .descriptorTable => "descriptor table"
  | .virtualSpace => "virtual space"
  | .segmentSize => "segment size"
  | .segmentMapIndex => "segment map index"
  | .segmentIndex => "segment index"
  | .segmentMapChain => "segment map chain"
  | .scopeDecodeOffset => "scope decode offset"
  | .scopeChain => "scope chain"
  | .poolSymbol => "constant pool symbol"
  | .usedOffset => "HeapBlock::_header._used offset"

/-- Why an inspection stopped. -/
inductive Fault where
  /-- Some of the `length` bytes from `address` on are not in the image. -/
  | unmapped (address : Address) (length : Nat)
  /-- The layout says nothing about an entry of a structure. -/
  | missingLayout (owner entry : String)
  | malformed (what : Defect) (address : Address)
  | notCompiledMethod (address : Address)
  | unsupportedPointerSize (size : UInt8)
  deriving DecidableEq, Repr

def Fault.message : Fault → String
  | .unmapped a n =>
    "Memory at " ++ a.short ++ " (+" ++ toString n ++ " bytes) is not present in the image"
  | .missingLayout owner entry => "Layout has no entry for " ++ owner ++ "::" ++ entry
  | .malformed what a => "Malformed " ++ what.text ++ " at " ++ a.short
  | .notCompiledMethod a => "Blob at " ++ a.short ++ " is not a compiled method"
  | .unsupportedPointerSize n =>
    "Unsupported pointer size " ++ toString n.toNat ++ " (expected 4 or 8)"

/-- The answer of an inspection. -/
abbrev Answer (α : Type) := Except Fault α

end JitFrames
