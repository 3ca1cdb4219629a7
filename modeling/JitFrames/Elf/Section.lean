import JitFrames.Elf.Header

namespace JitFrames.Elf

structure Section where
  kind : Nat
  offset : Nat
  size : Nat
  /-- The section that this one belongs to. -/
  link : Nat
  info : Nat
  deriving DecidableEq, Repr

namespace Section

def symbols : Nat := 2

def strings : Nat := 3

def relocationsWithAddends : Nat := 4

def withoutBytes : Nat := 8

def relocations : Nat := 9

def dynamicSymbols : Nat := 11

def symbolSections : Nat := 18

def parse (m : Machine) (file : Bytes) (start : Nat) : Section :=
  let word := m.pointerWidth.bytes
  { kind := number m file (start + 4) 4
    offset := number m file (start + 8 + 2 * word) word
    size := number m file (start + 8 + 3 * word) word
    link := number m file (start + 8 + 4 * word) 4
    info := number m file (start + 12 + 4 * word) 4 }

def isRelocation (s : Section) : Bool := s.kind == relocations || s.kind == relocationsWithAddends

/-- Whether the section ends at an offset of 64 bits. -/
def endsInRange (s : Section) : Bool := s.kind == withoutBytes || s.offset + s.size < UInt64.size

/-- Whether the section is an array of entries inside the file. -/
def isArray (s : Section) (file : Bytes) (alignment entrySize : Nat) : Bool :=
  holds file s.offset s.size && s.offset % alignment == 0 && s.size % entrySize == 0

end Section

namespace Header

/-- The first section. -/
def firstSection? (h : Header) (file : Bytes) : Option Section :=
  if h.sections.offset != 0 && h.sections.entrySize == sectionHeaderSize h.machine then
    (tableEntries? h.machine file h.sections.offset 1 (sectionHeaderSize h.machine)).map
      fun _ => Section.parse h.machine file h.sections.offset
  else none

/-- A number of the file header, in whose place a mark refers to the first section. -/
def extended? (h : Header) (file : Bytes) (value mark : Nat) (there : Section → Nat) :
    Option Nat :=
  if value = mark then (h.firstSection? file).map there else some value

def sectionCount? (h : Header) (file : Bytes) : Option Nat :=
  h.extended? file h.sections.count 0 Section.size

def nameSection? (h : Header) (file : Bytes) : Option Nat :=
  h.extended? file h.nameSection 0xFFFF Section.link

/-- All sections; a file without a table has none. -/
def sections? (h : Header) (file : Bytes) : Option (Array Section) := do
  if h.sections.offset = 0 then
    return #[]
  let count ← h.sectionCount? file
  if count = 0 then
    return #[]
  if h.sections.entrySize ≠ sectionHeaderSize h.machine then
    none
  let starts ← tableEntries? h.machine file h.sections.offset count (sectionHeaderSize h.machine)
  return (starts.map (Section.parse h.machine file)).toArray

end Header

/-- Whether the section of names is one of the sections. -/
def namesFit (h : Header) (file : Bytes) (sections : Array Section) : Bool :=
  match h.nameSection? file with
  | none => false
  | some index => index != 0 && (sections[index]?).any Section.endsInRange

/-- Whether an index is zero, for no section, or that of a table of strings. -/
def stringsFit (sections : Array Section) (index : Nat) : Bool :=
  index == 0 || (sections[index]?).any fun s => s.kind == Section.strings && s.endsInRange

/-- Whether the first symbol table of a kind, if there is one, can be read. -/
def symbolsFit (m : Machine) (file : Bytes) (sections : Array Section) (kind : Nat) : Bool :=
  match sections.findIdx? (·.kind == kind) with
  | none => true
  | some index =>
    (sections[index]?).all fun s =>
      s.isArray file m.pointerWidth.bytes (8 + 2 * m.pointerWidth.bytes)
        && stringsFit sections s.link
        && sections.all fun t =>
          !(t.kind == Section.symbolSections && t.link == index) || t.isArray file 4 4

/-- Whether relocations of the symbols in a section apply to a section of contents. -/
def relocationsFit (sections : Array Section) (symbolTable : Nat) : Bool :=
  sections.all fun s =>
    !(s.isRelocation && s.link == symbolTable && s.info != 0)
      || (sections[s.info]?).any (!·.isRelocation)

/-- Whether the sections of a file are consistent. -/
def sectionsFit (h : Header) (file : Bytes) (sections : Array Section) : Bool :=
  sections.isEmpty
    || namesFit h file sections
      && symbolsFit h.machine file sections Section.symbols
      && symbolsFit h.machine file sections Section.dynamicSymbols
      && relocationsFit sections ((sections.findIdx? (·.kind == Section.symbols)).getD 0)

end JitFrames.Elf
