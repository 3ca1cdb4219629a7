import Mathlib.Control.Monad.Basic
import JitFrames.CommandLine.Reading
import JitFrames.Elf.Segment
import JitFrames.Proofs.Blame.Lookup
import JitFrames.Proofs.CommandLine.Headline
import JitFrames.Proofs.Layout.RoundTrip

namespace JitFrames

open Answer (FailsOnly BlamesTarget bind_eq_error_iff)

/-- The failures of reading the files, which come before the layout is resolved. -/
def Failure.isOfFiles : Failure → Bool
  | .incompleteLayout _ | .noCodeHeap | .readCodeHeap _ | .inspection _ => false
  | _ => true

theorem Failure.sparesLayout_of_isOfFiles (f : Failure) (h : f.isOfFiles = true) :
    f.sparesLayout = true := by
  cases f <;> first | rfl | cases h

theorem Image.addOrFail_failsOnly (image : Image) (r : Region) :
    FailsOnly Failure.isOfFiles (image.addOrFail r) := by
  unfold addOrFail
  cases image.add? r with
  | none => exact .error rfl
  | some next => exact .ok next

theorem ManifestAddress.value_failsOnly (base : ManifestAddress) :
    FailsOnly Failure.isOfFiles base.value := by
  cases base with
  | number a => exact .ok a
  | literal text =>
    rw [value]
    cases Address.ofLiteral? text with
    | none => exact .error rfl
    | some a => exact .ok a

namespace Manifest

theorem ofFile_failsOnly (readJson : Json.Reader) (path : Path) (file : Except FileFault Bytes) :
    FailsOnly Failure.isOfFiles (ofFile readJson path file) := by
  unfold ofFile
  cases textOf file with
  | error why => exact .error rfl
  | ok text =>
    dsimp only
    cases (readJson text).bind ofJson? with
    | none => exact .error rfl
    | some manifest => exact .ok manifest

variable (readJson : Json.Reader) (readFile : ReadFile Id)

theorem addRegions_failsOnly (directory : Path) (image : Image) (entries : List ManifestRegion) :
    FailsOnly Failure.isOfFiles (Id.run (addRegions readFile directory image entries)) := by
  induction entries generalizing image with
  | nil => exact .ok image
  | cons entry entries ih =>
    simp only [addRegions, Id.run, bind, pure]
    cases readFile (directory.join (.ofString entry.file)) with
    | error why => exact .error rfl
    | ok bytes =>
      have hstep : FailsOnly Failure.isOfFiles
          (entry.base.value.bind fun base => image.addOrFail ⟨base, bytes⟩) :=
        entry.base.value_failsOnly.bind fun base => image.addOrFail_failsOnly _
      dsimp only
      cases hadd : entry.base.value.bind fun base => image.addOrFail ⟨base, bytes⟩ with
      | error e => exact .error (hstep e hadd)
      | ok next => exact ih next

theorem load_failsOnly (path : Path) :
    FailsOnly Failure.isOfFiles (Id.run (load readJson readFile path)) := by
  simp only [load, Id.run, bind, pure]
  cases hfile : ofFile readJson path (readFile path) with
  | error e => exact .error (ofFile_failsOnly readJson path _ e hfile)
  | ok manifest =>
    dsimp only
    cases hadd : addRegions readFile (path.parent?.getD .current) .empty manifest.regions with
    | error e => exact .error (addRegions_failsOnly readFile _ _ _ e hadd)
    | ok image =>
      dsimp only
      cases manifest.codeHeap with
      | none => exact .ok _
      | some heap => exact heap.value_failsOnly.map _

end Manifest

namespace CoreFile

theorem addSegments_failsOnly (image : Image) (segments : List Segment) :
    FailsOnly Failure.isOfFiles (addSegments image segments) := by
  induction segments generalizing image with
  | nil => exact .ok image
  | cons s segments ih =>
    rw [addSegments]
    cases s.bytes? with
    | none => exact .error rfl
    | some bytes =>
      dsimp only
      by_cases hempty : bytes.isEmpty = true
      · rw [if_pos hempty]
        exact ih image
      · rw [if_neg hempty]
        cases hadd : image.addOrFail ⟨s.address, bytes⟩ with
        | error e => exact .error (image.addOrFail_failsOnly _ e hadd)
        | ok next => exact ih next

theorem imageOf_failsOnly (readSegments : Reader) (file : Bytes) :
    FailsOnly Failure.isOfFiles (imageOf readSegments file) := by
  unfold imageOf
  cases readSegments file with
  | none => exact .throw rfl
  | some segments =>
    refine (addSegments_failsOnly .empty segments).bind fun image => ?_
    exact .ite (.bind (.throw rfl) fun _ => .pure image) (.pure image)

theorem ofFile_failsOnly (readSegments : Reader) (path : Path) (file : Except FileFault Bytes) :
    FailsOnly Failure.isOfFiles (ofFile readSegments path file) := by
  cases file with
  | error why => exact .error rfl
  | ok bytes => exact (imageOf_failsOnly readSegments bytes).map _

end CoreFile

namespace CommandLine

variable {read : Readers Id} {r : Request}

theorem Source.load_failsOnly (read : Readers Id) (source : Source) :
    FailsOnly Failure.isOfFiles (Id.run (source.load read)) := by
  cases source with
  | manifest path => exact Manifest.load_failsOnly read.json read.file path
  | core path => exact CoreFile.ofFile_failsOnly read.segments path (read.file path)

theorem tableOfFile_failsOnly (readJson : Json.Reader) (path : Path)
    (file : Except FileFault Bytes) :
    FailsOnly Failure.isOfFiles (tableOfFile readJson path file) := by
  unfold tableOfFile
  cases textOf file with
  | error why => exact .error rfl
  | ok text =>
    dsimp only
    cases LayoutTable.parse? readJson text with
    | none => exact .error rfl
    | some table => exact .ok table

theorem layoutOf_eq_error {table : LayoutTable} {f : Failure} (h : layoutOf table = .error f) :
    ∃ e, f = .incompleteLayout e := by
  unfold layoutOf at h
  cases hresolve : Layout.resolve table.source table.target with
  | error e =>
    rw [hresolve] at h
    cases h
    exact ⟨e, rfl⟩
  | ok layout =>
    rw [hresolve] at h
    cases h

theorem mapError_ne_noCodeHeap {α : Type} {x : Answer α} (g : Fault → Failure)
    (hg : ∀ e, g e ≠ .noCodeHeap) : x.mapError g ≠ .error .noCodeHeap := by
  cases x with
  | error e => simpa [Except.mapError] using hg e
  | ok a => simp [Except.mapError]

theorem onHeap_eq_noCodeHeap_iff {t : Target} {codeHeap : Option Address}
    {report : Symbolizer → Answer String} :
    onHeap t codeHeap report = .error .noCodeHeap ↔ codeHeap = none := by
  cases codeHeap with
  | none => exact iff_of_true rfl rfl
  | some a =>
    refine iff_of_false (fun h => ?_) nofun
    obtain hsymbolizer | ⟨s, -, hreport⟩ := bind_eq_error_iff.mp h
    · exact mapError_ne_noCodeHeap .readCodeHeap (fun _ => nofun) hsymbolizer
    · exact mapError_ne_noCodeHeap .inspection (fun _ => nofun) hreport

theorem onHeap_sparesLayout (t : Target) (codeHeap : Option Address)
    {report : Symbolizer → Answer String} (hreport : ∀ s, BlamesTarget (report s)) :
    FailsOnly Failure.sparesLayout (onHeap t codeHeap report) := by
  refine FailsOnly.bind ?_ fun s => (hreport s).mapError fun _ he => he
  cases codeHeap with
  | none => exact .error rfl
  | some a =>
    have hany : FailsOnly (fun _ => true) (Symbolizer.ofHeapAt t a) := fun _ _ => rfl
    exact hany.mapError fun _ _ => rfl

namespace Query

theorem report_eq_noCodeHeap_iff {t : Target} {codeHeap : Option Address} {q : Query} :
    q.report t codeHeap = .error .noCodeHeap ↔ q.needsCodeHeap = true ∧ codeHeap = none := by
  cases q with
  | blob a | descriptor pc precision | inlining pc =>
    simp [report, needsCodeHeap, onHeap_eq_noCodeHeap_iff]
  | line method bci =>
    refine iff_of_false (mapError_ne_noCodeHeap .inspection fun _ => nofun) ?_
    simp [needsCodeHeap]

theorem report_sparesLayout (t : Target) (codeHeap : Option Address) (q : Query) :
    FailsOnly Failure.sparesLayout (q.report t codeHeap) := by
  cases q with
  | blob a => exact onHeap_sparesLayout t codeHeap fun s => Report.blob_blamesTarget s a
  | descriptor pc precision =>
    exact onHeap_sparesLayout t codeHeap fun s => Report.descriptor_blamesTarget s pc precision
  | inlining pc => exact onHeap_sparesLayout t codeHeap fun s => Report.inlining_blamesTarget s pc
  | line method bci => exact (Report.line_blamesTarget t method bci).mapError fun _ he => he

end Query

namespace Request

theorem report_eq_noCodeHeap_iff {snapshot : Snapshot} {table : LayoutTable} :
    r.report snapshot table = .error .noCodeHeap ↔
      (∃ layout, layoutOf table = .ok layout) ∧ r.query.needsCodeHeap = true ∧
        r.codeHeap = none ∧ snapshot.codeHeap = none := by
  rw [report, bind_eq_error_iff]
  cases hlayout : layoutOf table with
  | error e =>
    obtain ⟨why, rfl⟩ := layoutOf_eq_error hlayout
    simp
  | ok layout => simp [Query.report_eq_noCodeHeap_iff]

theorem report_sparesLayout (r : Request) (snapshot : Snapshot) (table : LayoutTable) :
    FailsOnly Failure.sparesLayout (r.report snapshot table) := by
  refine FailsOnly.bind ?_ fun layout => r.query.report_sparesLayout _ _
  intro f hf
  obtain ⟨why, rfl⟩ := layoutOf_eq_error hf
  rfl

/-- An answer over files that stay as they are. -/
theorem answer_eq : Id.run (r.answer read) =
    Id.run (r.source.load read) >>= fun snapshot =>
      tableOfFile read.json r.layout (read.file r.layout) >>= fun table =>
        r.report snapshot table := by
  simp only [answer, bind, pure, Id.run]
  cases r.source.load read with
  | error e => rfl
  | ok snapshot =>
    simp only [Except.bind]
    cases tableOfFile read.json r.layout (read.file r.layout) <;> rfl

/-- The question needs the code heap, and neither the command line nor the snapshot says where it
is, though the snapshot can be loaded and the layout resolved. -/
structure LacksCodeHeap (read : Readers Id) (r : Request) : Prop where
  needed : r.query.needsCodeHeap = true
  notGiven : r.codeHeap = none
  notRecorded : ∃ snapshot, Id.run (r.source.load read) = .ok snapshot ∧
    snapshot.codeHeap = none
  resolved : ∃ table layout,
    tableOfFile read.json r.layout (read.file r.layout) = .ok table ∧ layoutOf table = .ok layout

theorem answer_eq_noCodeHeap_iff :
    Id.run (r.answer read) = .error .noCodeHeap ↔ r.LacksCodeHeap read := by
  rw [answer_eq, bind_eq_error_iff]
  constructor
  · -- A file that cannot be read is another failure, so both files were loaded.
    rintro (hload | ⟨snapshot, hload, h⟩)
    · cases Source.load_failsOnly read r.source _ hload
    · obtain htable | ⟨table, htable, h⟩ := bind_eq_error_iff.mp h
      · cases tableOfFile_failsOnly _ _ _ _ htable
      · obtain ⟨⟨layout, hlayout⟩, hneeded, hgiven, hrecorded⟩ := report_eq_noCodeHeap_iff.mp h
        exact ⟨hneeded, hgiven, ⟨snapshot, hload, hrecorded⟩, table, layout, htable, hlayout⟩
  · intro ⟨hneeded, hgiven, ⟨snapshot, hload, hrecorded⟩, table, layout, htable, hlayout⟩
    refine .inr ⟨snapshot, hload, bind_eq_error_iff.mpr (.inr ⟨table, htable, ?_⟩)⟩
    exact report_eq_noCodeHeap_iff.mpr ⟨⟨layout, hlayout⟩, hneeded, hgiven, hrecorded⟩

theorem answer_sparesLayout (read : Readers Id) (r : Request) :
    FailsOnly Failure.sparesLayout (Id.run (r.answer read)) := by
  have hfiles := Failure.sparesLayout_of_isOfFiles
  rw [answer_eq]
  refine ((Source.load_failsOnly read r.source).mono hfiles).bind fun snapshot => ?_
  refine ((tableOfFile_failsOnly read.json r.layout _).mono hfiles).bind fun table => ?_
  exact r.report_sparesLayout snapshot table

end Request

theorem Outcome.exitCode_ofAnswer_error (f : Failure) :
    (ofAnswer (.error f)).exitCode = if f.isUsage = true then 2 else 1 := rfl

variable {Word : Type} {readWords : List Word → Except Outcome Request} {words : List Word}

theorem run_eq (hrequest : readWords words = .ok r) :
    Id.run (run read readWords words) = .ofAnswer (Id.run (r.answer read)) := by
  rw [run, hrequest]
  rfl

/-- A run on a request exits with 0 exactly if it answers, however files, JSON, core files and
command lines are read. Of the failures, the lack of a code heap exits with 2, and so does one that
quotes a path or a literal in which the phrase occurs; every other one exits with 1. -/
theorem exitCode_iff (read : Readers Id) (hrequest : readWords words = .ok r) :
    ((Id.run (run read readWords words)).exitCode = 0 ↔
      ∃ text, Id.run (r.answer read) = .ok text) ∧
    ((Id.run (run read readWords words)).exitCode = 2 ↔
      r.LacksCodeHeap read ∨
        ∃ f, Id.run (r.answer read) = .error f ∧ f.QuotesUsage) ∧
    ((Id.run (run read readWords words)).exitCode = 1 ↔
      ¬r.LacksCodeHeap read ∧
        ∃ f, Id.run (r.answer read) = .error f ∧ ¬f.QuotesUsage) := by
  rw [run_eq hrequest, ← Request.answer_eq_noCodeHeap_iff]
  cases hanswer : Id.run (r.answer read) with
  | ok text => simp [Outcome.ofAnswer, Outcome.success]
  | error f =>
    have husage : f.isUsage = true ↔ f = .noCodeHeap ∨ f.QuotesUsage :=
      Failure.isUsage_iff (r.answer_sparesLayout read f hanswer)
    simp only [Outcome.exitCode_ofAnswer_error, Except.error.injEq, exists_eq_left', reduceCtorEq,
      exists_false, ← not_or, ← husage]
    by_cases hf : f.isUsage = true
    · simp [hf]
    · simp [hf]

theorem textOf_eq_ok {bytes : List UInt8} {cs : List Char}
    (h : (Utf8.heads bytes).mapM Utf8.Head.char? = some cs) :
    textOf (.ok bytes.toArray) = .ok (String.ofList cs) := by
  simp only [textOf, bind, Except.bind, Utf8.decode?, h]
  rfl

theorem tableOfFile_eq_ok {readJson : Json.Reader} {path : Path} {text : String}
    {file : Except FileFault Bytes} {table : LayoutTable} (htext : textOf file = .ok text)
    (hparse : LayoutTable.parse? readJson text = some table) :
    tableOfFile readJson path file = .ok table := by
  rw [tableOfFile, htext]
  simp only [hparse]

/-- A structure of 16 bytes with all its fields at one offset. -/
def uniform (names : List String)
    (h : (names.map fun name => (name, (8 : UInt64))).Pairwise fun a b => a.1 < b.1) :
    StructureLayout :=
  ⟨some 16, ⟨names.map fun name => (name, 8), h⟩⟩

/-- A table that lacks nothing. -/
def uniformTable : LayoutTable where
  target := .default
  structures := {
    entries := [
      ("CodeBlob", uniform ["_instructions_offset", "_name", "_size"] (by decide +kernel)),
      ("CodeHeap", uniform ["_log2_segment_size", "_memory", "_segmap"] (by decide +kernel)),
      ("ConstMethod", uniform ["_code_size", "_constants", "_flags", "_name_index",
        "_signature_index"] (by decide +kernel)),
      ("ConstantPool", uniform ["_pool_holder"] (by decide +kernel)),
      ("HeapBlock", uniform ["_header"] (by decide +kernel)),
      ("HeapBlock::Header", uniform ["_used"] (by decide +kernel)),
      ("Klass", uniform ["_name"] (by decide +kernel)),
      ("Method", uniform ["_constMethod"] (by decide +kernel)),
      ("PcDesc", uniform ["_pc_offset", "_scope_decode_offset"] (by decide +kernel)),
      ("PcDescCache", uniform ["_last_pc_desc", "_pc_descs"] (by decide +kernel)),
      ("Symbol", uniform ["_body", "_length_and_refcount"] (by decide +kernel)),
      ("VirtualSpace", uniform ["_high", "_low"] (by decide +kernel)),
      ("nmethod", uniform ["_dependencies_offset", "_method", "_oops_offset", "_pc_desc_cache",
        "_scopes_data_offset", "_scopes_pcs_offset"] (by decide +kernel))]
    ascending := by decide +kernel }

def quoted (name : String) : List Char := '"' :: name.toList ++ ['"']

def fieldText (f : String × UInt64) : List Char := quoted f.1 ++ ":8".toList

def structureText (s : String × StructureLayout) : List Char :=
  quoted s.1 ++ ":\x7b\"size\":16,\"fields\":\x7b".toList ++
    [','].intercalate (s.2.fields.entries.map fieldText) ++ "\x7d\x7d".toList

/-- The table as it is printed. -/
def uniformText : List Char :=
  "\x7b\"target\":\x7b\"pointer_size\":8,\"endian\":\"little\"\x7d,\"structures\":\x7b".toList ++
    [','].intercalate (uniformTable.structures.entries.map structureText) ++ "\x7d\x7d".toList

/-- A manifest that records neither regions nor a code heap, and the table. -/
def bareFiles : ReadFile Id := fun path =>
  if path = .ofString "layout.json" then
    .ok (uniformText.map fun c => UInt8.ofNat c.toNat).toArray
  else if path = .ofString "bare.json" then .ok "[[]]".toUTF8.data
  else .error .notFound

/-- The readers of the program on given files. -/
def readersOn (readFile : ReadFile Id) : Readers Id := ⟨readFile, Json.document?, Elf.segments?⟩

/-- The readers on the capture; the text of the table is known beforehand. -/
def bareCapture : Readers Id :=
  { readersOn bareFiles with
    json := fun text =>
      if text = String.ofList uniformText then some uniformTable.toJson else Json.document? text }

theorem parse?_uniformText :
    LayoutTable.parse? bareCapture.json (String.ofList uniformText) = some uniformTable := by
  have hread : bareCapture.json (String.ofList uniformText) = some uniformTable.toJson := by
    simp only [bareCapture, if_true]
  rw [LayoutTable.parse?, hread, Option.bind_some, LayoutTable.ofJson?_toJson]

theorem tableOfFile_bareCapture :
    tableOfFile bareCapture.json (.ofString "layout.json")
      (bareCapture.file (.ofString "layout.json")) = .ok uniformTable := by
  have hheads : (Utf8.heads (uniformText.map fun c => UInt8.ofNat c.toNat)).mapM
      Utf8.Head.char? = some uniformText := by
    decide +kernel
  exact tableOfFile_eq_ok (textOf_eq_ok hheads) parse?_uniformText

/-- Asks for the blob around an address, without saying where the code heap is. -/
def askBlob (path : String) : Request :=
  ⟨.manifest (.ofString path), .ofString "layout.json", none, .blob 0x10⟩

def askBlobWords (path : String) : List String :=
  ["--snapshot", path, "--layout", "layout.json", "blob", "0x10"]

theorem lacksCodeHeap_bareCapture : (askBlob "bare.json").LacksCodeHeap bareCapture := by
  have hlayout : (layoutOf uniformTable).toOption.isSome = true := by decide +kernel
  refine ⟨rfl, rfl, ⟨⟨.empty, none⟩, by decide +kernel, rfl⟩, ?_⟩
  cases hresolve : layoutOf uniformTable with
  | error e =>
    rw [hresolve] at hlayout
    cases hlayout
  | ok layout => exact ⟨uniformTable, layout, tableOfFile_bareCapture, hresolve⟩

/-- The capture is there and says nothing about a code heap, or it is not there. -/
theorem exitCode_iff_bareCapture :
    readRequest (askBlobWords "bare.json") = .ok (askBlob "bare.json") ∧
    (Id.run (run bareCapture readRequest (askBlobWords "bare.json"))).exitCode = 2 ∧
    (Id.run (run bareCapture readRequest (askBlobWords "absent.json"))).exitCode = 1 := by
  have hbare : readRequest (askBlobWords "bare.json") = .ok (askBlob "bare.json") := by
    decide +kernel
  have habsent : readRequest (askBlobWords "absent.json") = .ok (askBlob "absent.json") := by
    decide +kernel
  have hanswer : Id.run ((askBlob "absent.json").answer bareCapture) =
      .error (.readManifest (.ofString "absent.json") .notFound) := by decide +kernel
  refine ⟨hbare, (exitCode_iff bareCapture hbare).2.1.mpr (.inl lacksCodeHeap_bareCapture),
    (exitCode_iff bareCapture habsent).2.2.mpr ⟨fun hlacks => ?_, _, hanswer, ?_⟩⟩
  · rw [← Request.answer_eq_noCodeHeap_iff, hanswer] at hlacks
    cases hlacks
  · rintro ⟨_, ⟨⟩, hphrase⟩
    exact absurd (occursIn_iff.mpr hphrase) (by decide +kernel)

/-- The code 2 does not tell the lack of a code heap: a manifest that cannot be read exits with it
if its name has the phrase in it. -/
theorem exitCode_two_without_lack :
    ¬∀ (readFile : ReadFile Id) (words : List String) (r : Request), readRequest words = .ok r →
      ((Id.run (run (readersOn readFile) readRequest words)).exitCode = 2 ↔
        r.LacksCodeHeap (readersOn readFile)) := by
  intro h
  have hrequest : readRequest (askBlobWords "missing required argument") =
      .ok (askBlob "missing required argument") := by decide +kernel
  have hcode : (Id.run (run (readersOn fun _ => .error .notFound) readRequest
      (askBlobWords "missing required argument"))).exitCode = 2 := by decide +kernel
  obtain ⟨snapshot, hload, -⟩ := ((h _ _ _ hrequest).mp hcode).notRecorded
  cases hload

end CommandLine

end JitFrames
