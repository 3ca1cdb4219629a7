import JitFrames.Proofs.DenseLayout
import JitFrames.Proofs.Growth.Scope
import JitFrames.Proofs.Image.History
import JitFrames.Proofs.Symbolizer

namespace JitFrames

open Answer (Persists)

namespace Image

variable {image next : Image} {r : Region}

/-- The image with more regions, if none of them is refused. -/
def addAll? (image : Image) (rs : List Region) : Option Image := rs.foldlM add? image

/-- A region that is there keeps serving its reads, wherever the new one stands. -/
theorem WellFormed.extends_add? (h : image.WellFormed) (hadd : image.add? r = some next) :
    image.memory.Extends next.memory := by
  intro a n bytes hbytes
  rw [h.bytes?_eq_some_iff] at hbytes
  rw [(h.add? hadd).bytes?_eq_some_iff]
  obtain ⟨s, hmem, hbytes⟩ := hbytes
  refine ⟨s, ?_, hbytes⟩
  by_cases hr : r.bytes.isEmpty = true
  · rw [add?_empty hr] at hadd
    cases hadd
    exact hmem
  · have hr : r.bytes.isEmpty = false := by simpa using hr
    exact (mem_add? hr hadd).mpr (.inr hmem)

theorem WellFormed.extends_addAll? (h : image.WellFormed) {rs : List Region}
    (hadd : image.addAll? rs = some next) : image.memory.Extends next.memory := by
  induction rs generalizing image with
  | nil =>
    cases hadd
    exact .refl _
  | cons r rs ih =>
    obtain ⟨step, hstep, hrest⟩ := Option.bind_eq_some_iff.mp hadd
    exact (h.extends_add? hstep).trans (ih (h.add? hstep) hrest)

end Image

/-- The questions that can be asked about a target, each with the type of its answer. -/
inductive Query : Type → Type where
  | codeHeap (a : Address) : Query CodeHeap
  | blobStart (heap : CodeHeap) (p : Address) : Query (Option Address)
  | blobAround (heap : CodeHeap) (p : Address) : Query (Option CodeBlob)
  | blob (a : Address) : Query CodeBlob
  | compiledMethod (b : CodeBlob) : Query CompiledMethod
  | descriptorTable (m : CompiledMethod) : Query DescriptorTable
  | descriptor (m : CompiledMethod) (pc : Address) (precision : Precision) :
    Query (Option Descriptor)
  | descriptorAt (m : CompiledMethod) (pc : Address) : Query (Option Descriptor)
  | frames (m : CompiledMethod) (desc : Descriptor) : Query (List Frame)
  | method (a : Address) : Query Method
  | qualifiedName (m : Method) : Query String
  | methodLine (m : Method) (bci : Bci) : Query SourceLine
  | tableLine (table : Option Address) (bci : Bci) : Query SourceLine
  | cString (a : Address) : Query String
  | symbol (a : Address) : Query String
  /-- What a new symbolizer for the code heap at an address says about another address. -/
  | resolution (heap p : Address) : Query (Option Resolution)

namespace Query

def ask {α : Type} (t : Target) : Query α → Answer α
  | .codeHeap a => CodeHeap.read t a
  | .blobStart heap p => heap.findStart t p
  | .blobAround heap p => heap.findBlob t p
  | .blob a => CodeBlob.read t a
  | .compiledMethod b => CompiledMethod.read t b
  | .descriptorTable m => m.descriptorTable t
  | .descriptor m pc precision => m.findDescriptor t pc precision
  | .descriptorAt m pc => m.descriptorAt t pc
  | .frames m desc => m.frames t desc
  | .method a => Method.read t a
  | .qualifiedName m => m.qualifiedName t
  | .methodLine m bci => m.lineAt t bci
  | .tableLine table bci => LineTable.lineAt t.memory table bci
  | .cString a => t.readCString a
  | .symbol a => t.readSymbol a
  | .resolution heap p => do ((← Symbolizer.ofHeapAt t heap).resolve p).1

variable {α : Type} {m m' : Memory} {layout : Layout}

theorem ask_resolution (t : Target) (heap p : Address) :
    (resolution heap p).ask t = (do Resolution.ofAddress t (← CodeHeap.read t heap) p) := by
  simp only [ask, Symbolizer.ofHeapAt, bind_assoc, pure_bind, Symbolizer.resolve_unasked]

theorem ask_persists (h : m.Extends m') (q : Query α) :
    Persists (q.ask ⟨m, layout⟩) (q.ask ⟨m', layout⟩) := by
  cases q with
  | codeHeap a => exact CodeHeap.read_persists h a
  | blobStart heap p => exact heap.findStart_persists h p
  | blobAround heap p => exact heap.findBlob_persists h p
  | blob a => exact CodeBlob.read_persists h a
  | compiledMethod b => exact CompiledMethod.read_persists h b
  | descriptorTable m => exact .refl _
  | descriptor m pc precision => exact m.findDescriptor_persists h pc precision
  | descriptorAt m pc => exact m.descriptorAt_persists h pc
  | frames m desc => exact m.frames_persists h desc
  | method a => exact Method.read_persists h a
  | qualifiedName m => exact m.qualifiedName_persists h
  | methodLine m bci => exact m.lineAt_persists h bci
  | tableLine table bci => exact LineTable.lineAt_persists h table bci
  | cString a => exact Target.readCString_persists h a
  | symbol a => exact Target.readSymbol_persists h a
  | resolution heap p =>
    rw [ask_resolution, ask_resolution]
    exact (CodeHeap.read_persists h heap).bind fun heap => Resolution.ofAddress_persists h heap p

/-- Whatever image was put together, an answer over it stays the same when further regions are
added to it, unless it is for want of bytes. -/
theorem answers_persist (rs more : List Region) (image : Image)
    (hadd : (Image.history rs).addAll? more = some image) (layout : Layout) (q : Query α)
    (hmapped : ∀ a n, q.ask ⟨(Image.history rs).memory, layout⟩ ≠ .error (.unmapped a n)) :
    q.ask ⟨image.memory, layout⟩ = q.ask ⟨(Image.history rs).memory, layout⟩ := by
  have hextends := (Image.wellFormed_history rs).extends_addAll? hadd
  have hpersists :
      Persists (q.ask ⟨(Image.history rs).memory, layout⟩) (q.ask ⟨image.memory, layout⟩) :=
    q.ask_persists hextends
  obtain ⟨a, n, hunmapped⟩ | hsame := hpersists
  · exact absurd hunmapped (hmapped a n)
  · exact hsame

/-- A code heap of eight segments at 0x200 with its map at 0x300, neither of them captured. -/
def heapRecord : Region :=
  ⟨0x100, (wordBytes 0x200 ++ wordBytes 0x240 ++ wordBytes 0x300 ++ wordBytes 0x308 ++
    wordBytes 3).toArray⟩

def heapMap : Region := ⟨0x300, #[0, 1, 0xFF, 0xFF, 0xFF, 0xFF, 0xFF, 0xFF]⟩

/-- The record with the map and with regions right before and right behind it. -/
def heapImage : Image := ⟨[⟨0xFF, #[4]⟩, heapRecord, ⟨0x114, #[1, 2, 3]⟩, heapMap]⟩

/-- An address outside the heap is found outside, and a record that is none stays malformed,
whatever stands beside it. An address inside the heap has to wait for the map. -/
theorem answers_persist_beside :
    (Image.history [heapRecord]).addAll? [⟨0x114, #[1, 2, 3]⟩, ⟨0xFF, #[4]⟩, heapMap] =
      some heapImage ∧
    (resolution 0x100 0x240).ask ⟨heapImage.memory, .dense⟩ = .ok none ∧
    (codeHeap 0x104).ask ⟨heapImage.memory, .dense⟩ = .error (.malformed .virtualSpace 0x10C) ∧
    (resolution 0x100 0x210).ask ⟨(Image.history [heapRecord]).memory, .dense⟩ =
      .error (.unmapped 0x302 1) ∧
    (resolution 0x100 0x210).ask ⟨heapImage.memory, .dense⟩ = .ok none := by
  have hadd : (Image.history [heapRecord]).addAll? [⟨0x114, #[1, 2, 3]⟩, ⟨0xFF, #[4]⟩, heapMap] =
      some heapImage := by decide
  have houtside : (resolution 0x100 0x240).ask ⟨(Image.history [heapRecord]).memory, .dense⟩ =
      .ok none := rfl
  have hmalformed : (codeHeap 0x104).ask ⟨(Image.history [heapRecord]).memory, .dense⟩ =
      .error (.malformed .virtualSpace 0x10C) := rfl
  refine ⟨hadd, ?_, ?_, rfl, rfl⟩
  · rw [answers_persist _ _ _ hadd .dense (resolution 0x100 0x240) (by rw [houtside]; nofun),
      houtside]
  · rw [answers_persist _ _ _ hadd .dense (codeHeap 0x104) (by rw [hmalformed]; nofun),
      hmalformed]

end Query

end JitFrames
