namespace JitFrames.CommandLine

inductive UsageError where
  /-- A required argument is not there. -/
  | missingArgument
  | unknownArgument
  /-- An argument is given twice, or together with one that excludes it. -/
  | conflict
  /-- A value cannot be read as what it stands for. -/
  | badValue
  /-- A value is not there or, where a path is wanted, empty. -/
  | emptyValue
  | unknownCommand
  | missingCommand
  /-- A value for a flag. -/
  | unexpectedValue
  /-- Help was asked for. -/
  | help
  /-- Nothing was given, which is answered like a request for help. -/
  | nothingGiven
  deriving DecidableEq, Repr

end JitFrames.CommandLine
