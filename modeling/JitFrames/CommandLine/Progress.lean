import JitFrames.CommandLine.Argument
import JitFrames.CommandLine.Word

namespace JitFrames.CommandLine

/-- The names of the commands. -/
inductive CommandName where
  | blob
  | descriptor
  | inlining
  | line
  | help
  deriving DecidableEq, Repr

def CommandName.ofText? : String → Option CommandName
  | "blob" => some .blob
  | "pc-desc" => some .descriptor
  | "inlining" => some .inlining
  | "line" => some .line
  | "help" => some .help
  | _ => none

/-- The arguments that may be given at one place. -/
structure Level where
  named : List (String × Argument)
  letters : List (Char × Argument)
  /-- The arguments without a name, in the order of their positions. -/
  positions : List Argument
  hasCommands : Bool
  deriving Repr

def Level.command? (level : Level) (word : String) : Option CommandName :=
  if level.hasCommands then CommandName.ofText? word else none

/-- The fault of a word for which no position is left. -/
def Level.surplus (level : Level) (afterDashes : Bool) (word : String) : UsageError :=
  if level.hasCommands && !(afterDashes && (level.command? word).isSome) then .unknownCommand
  else .unknownArgument

/-- What has been read so far. -/
structure Progress where
  given : List (Argument × Value)
  /-- The argument read last, with its value if there is one already. -/
  pending : Option (Argument × Option String)
  /-- The positions still open. -/
  positions : List Argument
  deriving Repr

namespace Progress

def start (level : Level) : Progress := ⟨[], none, level.positions⟩

/-- Whether the next plain word is the value of an option. -/
def awaitsValue (p : Progress) : Bool :=
  match p.pending with
  | some (_, none) => true
  | _ => false

/-- Records an argument, which must be the first of its kind. -/
def give (p : Progress) (a : Argument) (text : String) : Except UsageError Progress :=
  if (p.given.lookup a).isSome then .error .conflict
  else (a.valueOf text).map fun v => { p with given := (a, v) :: p.given }

/-- Records the pending argument. -/
def settle (p : Progress) : Except UsageError Progress :=
  match p.pending with
  | none => .ok p
  | some (_, none) => .error .emptyValue
  | some (a, some text) => give { p with pending := none } a text

/-- Reads an option, whose value may be attached to it. -/
def takeOption (p : Progress) (a : Argument) (attached : Option String) :
    Except UsageError Progress := do
  let p ← p.settle
  match attached with
  | some text => p.give a text
  | none => return { p with pending := some (a, none) }

/-- Reads a flag. A request for help ends everything else. -/
def takeFlag (p : Progress) (a : Argument) : Except UsageError Progress := do
  let p ← p.settle
  if a = .help then throw .help
  p.give a ""

/-- Reads a word at the next position. -/
def takePosition (level : Level) (afterDashes : Bool) (p : Progress) (word : String) :
    Except UsageError Progress :=
  match p.positions with
  | [] => .error (level.surplus afterDashes word)
  | a :: rest => do return { (← p.settle) with pending := some (a, some word), positions := rest }

/-- Reads a plain word: the value of an option or else a position. -/
def takePlain (level : Level) (p : Progress) (word : String) : Except UsageError Progress :=
  match p.pending with
  | some (a, none) => .ok { p with pending := some (a, some word) }
  | _ => takePosition level false p word

/-- Whether the next position takes numbers with a minus sign. -/
def admitsNegative (p : Progress) : Bool := p.positions.head?.any Argument.admitsNegative

/-- Reads a word. -/
def take (level : Level) (p : Progress) (word : String) : Except UsageError Progress :=
  match Word.ofText word with
  | .long name attached =>
    match level.named.lookup (String.ofList name) with
    | none => .error .unknownArgument
    | some a =>
      if a.isFlag then
        if attached.isSome then .error .unexpectedValue else p.takeFlag a
      else p.takeOption a attached
  | .short letter rest =>
    if p.admitsNegative && Word.isNumber (letter :: rest) then takePlain level p word
    else
      match level.letters.lookup letter with
      | none => .error .unknownArgument
      | some a => if a.isFlag then p.takeFlag a else p.takeOption a (Word.shortValue? rest)
  | .plain => takePlain level p word

end Progress

/-- Where reading a level ends: at the end of the line or at a command, with the words behind
it. -/
structure Reading where
  progress : Progress
  command : Option (CommandName × List String)
  deriving Repr

/-- Reads a level. A command ends it unless the word is the value of an option; after two dashes
all words are positions. -/
def Level.read (level : Level) (p : Progress) : List String → Except UsageError Reading
  | [] => .ok ⟨p, none⟩
  | word :: words =>
    match if p.awaitsValue then none else level.command? word with
    | some command => .ok ⟨p, some (command, words)⟩
    | none =>
      if word = "--" then do
        return ⟨← words.foldlM (Progress.takePosition level true) p, none⟩
      else
        match p.take level word with
        | .ok p => level.read p words
        | .error e => .error e

end JitFrames.CommandLine
