import JitFrames.CommandLine.Report
import JitFrames.Snapshot.Core
import JitFrames.Snapshot.Manifest

namespace JitFrames

/-- Lower case for the letters of ASCII. -/
def lowered (text : String) : List Char := text.toList.map Char.toLower

/-- Whether a text occurs in another one. -/
def occursIn (part : List Char) : List Char → Bool
  | [] => part.isEmpty
  | c :: cs => part.isPrefixOf (c :: cs) || occursIn part cs

/-- A run that lacks an argument counts as a wrong use of the program. It is told by the headline
alone, whatever the failure is. -/
def Failure.isUsage (f : Failure) : Bool :=
  occursIn "missing required argument".toList (lowered f.headline)

namespace CommandLine

/-- What a run prints, and its exit code. -/
structure Outcome where
  exitCode : UInt32
  output : String
  errors : String
  deriving DecidableEq, Repr

namespace Outcome

def success : UInt32 := 0

def failed : UInt32 := 1

def misused : UInt32 := 2

def ofAnswer : Except Failure String → Outcome
  | .ok text => ⟨success, text ++ "\n", ""⟩
  | .error f => ⟨if f.isUsage then misused else failed, "", "error: " ++ f.message ++ "\n"⟩

end Outcome

/-- The layout table in a file. -/
def tableOfFile (readJson : Json.Reader) (path : Path) (file : Except FileFault Bytes) :
    Except Failure LayoutTable :=
  match textOf file with
  | .error why => .error (.readLayout path why)
  | .ok text =>
    match LayoutTable.parse? readJson text with
    | some table => .ok table
    | none => .error .parseLayout

/-- The layout of the target that a table itself names. -/
def layoutOf (table : LayoutTable) : Except Failure Layout :=
  (Layout.resolve table.source table.target).mapError .incompleteLayout

/-- A symbolizer for the code heap, which the request or else the snapshot locates. -/
def symbolizerFor (t : Target) (codeHeap : Option Address) : Except Failure Symbolizer :=
  match codeHeap with
  | none => .error .noCodeHeap
  | some a => (Symbolizer.ofHeapAt t a).mapError .readCodeHeap

/-- A report that is made with a symbolizer. -/
def onHeap (t : Target) (codeHeap : Option Address) (report : Symbolizer → Answer String) :
    Except Failure String := do
  (report (← symbolizerFor t codeHeap)).mapError .inspection

/-- The report on a query. The code heap is only read if it is needed. -/
def Query.report (t : Target) (codeHeap : Option Address) : Query → Except Failure String
  | .blob a => onHeap t codeHeap fun s => Report.blob s a
  | .descriptor pc precision => onHeap t codeHeap fun s => Report.descriptor s pc precision
  | .inlining pc => onHeap t codeHeap fun s => Report.inlining s pc
  | .line method bci => (Report.line t method bci).mapError .inspection

/-- How a run reads what is outside of the program. -/
structure Readers (m : Type → Type) where
  file : ReadFile m
  json : Json.Reader
  segments : CoreFile.Reader

variable {m : Type → Type} [Monad m]

def Source.load (read : Readers m) : Source → m (Except Failure Snapshot)
  | .manifest path => Manifest.load read.json read.file path
  | .core path => CoreFile.load read.segments read.file path

/-- What is reported once the snapshot and the layout table have been read. -/
def Request.report (r : Request) (snapshot : Snapshot) (table : LayoutTable) :
    Except Failure String := do
  let layout ← layoutOf table
  r.query.report ⟨snapshot.image.memory, layout⟩ (r.codeHeap <|> snapshot.codeHeap)

/-- Answers a request. The snapshot is read before the layout. -/
def Request.answer (read : Readers m) (r : Request) : m (Except Failure String) := do
  match ← r.source.load read with
  | .error e => return .error e
  | .ok snapshot =>
    match tableOfFile read.json r.layout (← read.file r.layout) with
    | .error e => return .error e
    | .ok table => return r.report snapshot table

/-- Runs the program on the words of a command line, which are a request or have an outcome of
their own. -/
def run {Word : Type} (read : Readers m) (readWords : List Word → Except Outcome Request)
    (words : List Word) : m Outcome :=
  match readWords words with
  | .error outcome => return outcome
  | .ok request => return .ofAnswer (← request.answer read)

end CommandLine

end JitFrames
