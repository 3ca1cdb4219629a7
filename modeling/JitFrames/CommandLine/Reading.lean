import JitFrames.CommandLine.Progress
import JitFrames.CommandLine.Run

namespace JitFrames.CommandLine

def helpNamed : String × Argument := ("help", .help)

def helpLetter : Char × Argument := ('h', .help)

/-- What may be given before the command. -/
def optionsLevel : Level where
  named := [("snapshot", .snapshot), ("core", .core), ("layout", .layout),
    ("code-heap", .codeHeap), helpNamed]
  letters := [('l', .layout), helpLetter]
  positions := []
  hasCommands := true

/-- What may be given after a command. -/
def commandLevel (named : List (String × Argument)) (positions : List Argument) : Level where
  named := helpNamed :: named
  letters := [helpLetter]
  positions := positions
  hasCommands := false

namespace Progress

/-- An address that was given. -/
def address (p : Progress) (a : Argument) : Except UsageError Address :=
  match p.given.lookup a with
  | some (.address v) => .ok v
  | _ => .error .missingArgument

def bci (p : Progress) (a : Argument) : Except UsageError Bci :=
  match p.given.lookup a with
  | some (.bci v) => .ok v
  | _ => .error .missingArgument

def path? (p : Progress) (a : Argument) : Option Path :=
  match p.given.lookup a with
  | some (.path v) => some v
  | _ => none

def has (p : Progress) (a : Argument) : Bool := (p.given.lookup a).isSome

end Progress

/-- The arguments of a command, all of them read. -/
def commandArguments (level : Level) (words : List String) : Except UsageError Progress := do
  (← level.read (.start level) words).progress.settle

/-- Asks for help on a command; words behind the name of a command name nothing. -/
def helpOn : List String → UsageError
  | [] => .help
  | [word] => if (CommandName.ofText? word).isSome then .help else .unknownCommand
  | _ => .unknownCommand

def Query.read (words : List String) : CommandName → Except UsageError Query
  | .blob => do
    let p ← commandArguments (commandLevel [] [.address]) words
    return .blob (← p.address .address)
  | .descriptor => do
    let p ← commandArguments (commandLevel [("approximate", .approximate)] [.address]) words
    let precision := if p.has .approximate then Precision.approximate else .exact
    return .descriptor (← p.address .address) precision
  | .inlining => do
    let p ← commandArguments (commandLevel [] [.address]) words
    return .inlining (← p.address .address)
  | .line => do
    let p ← commandArguments (commandLevel [] [.method, .bci]) words
    return .line (← p.address .method) (← p.bci .bci)
  | .help => .error (helpOn words)

/-- The source of the memory, of which there must be exactly one. -/
def Source.ofProgress (p : Progress) : Except UsageError Source :=
  match p.path? .snapshot, p.path? .core with
  | some _, some _ => .error .conflict
  | some path, none => .ok (.manifest path)
  | none, some path => .ok (.core path)
  | none, none => .error .missingArgument

namespace Request

/-- The request that options make of a query. -/
def ofProgress (p : Progress) (query : Query) : Except UsageError Request := do
  let source ← Source.ofProgress p
  match p.path? .layout with
  | none => throw .missingArgument
  | some layout => return ⟨source, layout, (p.address .codeHeap).toOption, query⟩

/-- Reads the words behind the name of the program. The arguments of the command are read before
the last option in front of it is looked at. -/
def parse (words : List String) : Except UsageError Request := do
  let reading ← optionsLevel.read (.start optionsLevel) words
  match reading.command with
  | some (command, rest) =>
    let query ← Query.read rest command
    ofProgress (← reading.progress.settle) query
  | none =>
    let p ← reading.progress.settle
    throw (if p.given.isEmpty then .nothingGiven else .missingCommand)

end Request

namespace Outcome

/-- How the program is called. -/
def usageLines : List String :=
  ["Usage: [OPTIONS] --layout <FILE> <COMMAND>",
   "",
   "Commands:",
   "  blob <ADDRESS>                      Find the code blob containing an address",
   "  pc-desc [--approximate] <ADDRESS>   Find the debug descriptor for an instruction address",
   "  inlining <ADDRESS>                  Print the chain of inlined frames at an address",
   "  line <METHOD> <BCI>                 Look up the source line of a bytecode index",
   "",
   "Options:",
   "      --snapshot <MANIFEST>   JSON manifest of captured memory regions",
   "      --core <FILE>           ELF core file to read memory from",
   "  -l, --layout <FILE>         JSON structure layout of the target binary",
   "      --code-heap <ADDR>      Address of the code heap structure",
   "  -h, --help                  Print help"]

def usage : String := "\n".intercalate usageLines ++ "\n"

def usageReason : UsageError → String
  | .missingArgument => "a required argument was not provided"
  | .unknownArgument => "unexpected argument found"
  | .conflict => "an argument cannot be used twice or with another one that was given"
  | .badValue => "invalid value for an argument"
  | .emptyValue => "a value is required for an argument but none was supplied"
  | .unknownCommand => "unrecognized subcommand"
  | .missingCommand => "a subcommand is required but was not provided"
  | .unexpectedValue => "unexpected value for a flag"
  | .help | .nothingGiven => usage

def ofUsageError : UsageError → Outcome
  | .help => ⟨success, usage, ""⟩
  | .nothingGiven => ⟨misused, "", usage⟩
  | e =>
    ⟨misused, "", "error: " ++ usageReason e ++ "\n\nFor more information, try '--help'.\n"⟩

end Outcome

/-- Reads a command line, or tells why it is not a request. -/
def readRequest (words : List String) : Except Outcome Request :=
  (Request.parse words).mapError .ofUsageError

end JitFrames.CommandLine
