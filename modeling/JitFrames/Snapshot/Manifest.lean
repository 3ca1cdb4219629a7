import JitFrames.Json.Value
import JitFrames.Memory.Literal
import JitFrames.Snapshot.Basic

namespace JitFrames

/-- An address in a manifest: a number, or a literal that is read later. -/
inductive ManifestAddress where
  | number (a : Address)
  | literal (text : String)
  deriving DecidableEq, Repr

structure ManifestRegion where
  base : ManifestAddress
  file : String
  deriving DecidableEq, Repr

/-- The regions of a capture, each with the file that holds its bytes, named from the directory of
the manifest. -/
structure Manifest where
  regions : List ManifestRegion
  codeHeap : Option ManifestAddress
  deriving DecidableEq, Repr

open Json (Value)

namespace ManifestAddress

def ofJson? (v : Value) : Option ManifestAddress :=
  match v.nat? UInt64.size with
  | some n => some (.number (UInt64.ofNat n))
  | none => v.string?.map .literal

def value : ManifestAddress → Except Failure Address
  | .number a => .ok a
  | .literal text =>
    match Address.ofLiteral? text with
    | some a => .ok a
    | none => .error (.invalidAddress text)

end ManifestAddress

def ManifestRegion.ofJson? (v : Value) : Option ManifestRegion := do
  match ← v.record? ["base", "file"] with
  | [some base, some file] => some ⟨← ManifestAddress.ofJson? base, ← file.string?⟩
  | _ => none

namespace Manifest

def ofJson? (v : Value) : Option Manifest := do
  match ← v.record? ["regions", "code_heap"] with
  | [some (.array regions), codeHeap] =>
    let regions ← regions.mapM ManifestRegion.ofJson?
    let codeHeap ← match codeHeap with
      | some .null => some none
      | some v => (ManifestAddress.ofJson? v).map some
      | none => some none
    some ⟨regions, codeHeap⟩
  | _ => none

/-- The manifest in a file. -/
def ofFile (readJson : Json.Reader) (path : Path) (file : Except FileFault Bytes) :
    Except Failure Manifest :=
  match textOf file with
  | .error why => .error (.readManifest path why)
  | .ok text =>
    match (readJson text).bind ofJson? with
    | some manifest => .ok manifest
    | none => .error .parseManifest

variable {m : Type → Type} [Monad m]

/-- Adds regions to an image, one file after the other. -/
def addRegions (readFile : ReadFile m) (directory : Path) :
    Image → List ManifestRegion → m (Except Failure Image)
  | image, [] => return .ok image
  | image, entry :: entries => do
    let path := directory.join (.ofString entry.file)
    match ← readFile path with
    | .error why => return .error (.readRegion path why)
    | .ok bytes =>
      match entry.base.value.bind fun base => image.addOrFail ⟨base, bytes⟩ with
      | .error e => return .error e
      | .ok image => addRegions readFile directory image entries

/-- Loads the snapshot that a manifest describes. The address of the code heap is read last. -/
def load (readJson : Json.Reader) (readFile : ReadFile m) (path : Path) :
    m (Except Failure Snapshot) := do
  match ofFile readJson path (← readFile path) with
  | .error e => return .error e
  | .ok manifest =>
    match ← addRegions readFile (path.parent?.getD .current) Image.empty manifest.regions with
    | .error e => return .error e
    | .ok image =>
      match manifest.codeHeap with
      | none => return .ok ⟨image, none⟩
      | some heap => return heap.value.map fun a => ⟨image, some a⟩

end Manifest

end JitFrames
