import JitFrames.Code.Descriptor.Table

namespace JitFrames

/-- Four-byte pointers, low bytes first, and every field right behind the one before it. -/
def Layout.dense : Layout where
  machine := ⟨.four, .little⟩
  blob := { name := 0, size := 4, instructionsOffset := 8 }
  compiled := {
    method := 12
    scopesPcsOffset := 16
    dependenciesOffset := 20
    scopesDataOffset := 24
    oopsOffset := 28
    descriptorCache := 32 }
  descriptorCache := { recent := 0, slots := 4 }
  descriptor := { size := 8, pcOffset := 0, scopeOffset := 4 }
  codeHeap := { memory := 0, segmentMap := 8, log2SegmentSize := 16 }
  virtualSpace := { low := 0, high := 4 }
  heapBlock := { size := 1, used := 0 }
  methodConst := 0
  constMethod := {
    size := 12
    constants := 0
    codeSize := 4
    flags := 6
    nameIndex := 8
    signatureIndex := 10 }
  constantPool := { size := 4, holder := 0 }
  klassName := 0
  symbol := { lengthAndRefcount := 0, body := 4 }

/-- The four bytes of a word, the lowest first. -/
def wordBytes (w : UInt32) : List UInt8 :=
  [w.toUInt8, (w >>> 8).toUInt8, (w >>> 16).toUInt8, (w >>> 24).toUInt8]

/-- A target whose memory holds some words and nothing else. -/
def Target.ofWords (words : List UInt32) : Target :=
  ⟨.ofBytes (words.flatMap wordBytes).toArray, .dense⟩

/-- A method at the start of the address space, where its instructions begin as well: the cache of
five words, a word left out, and the table of descriptors up to `descriptorsEnd`. -/
def CompiledMethod.compact (descriptorsEnd : Address) : CompiledMethod where
  blob := ⟨0, descriptorsEnd.toNat, 0, "", by simpa using descriptorsEnd.toNat_lt_size⟩
  method := 0
  descriptorsBegin := 24
  descriptorsEnd
  scopesData := descriptorsEnd
  oops := descriptorsEnd
  descriptorCache := 0

/-- The table of two entries and the closing one that a compact method up to 48 has. -/
def DescriptorTable.compact : DescriptorTable := ⟨24, 8, 3, Nat.zero_lt_succ _, by decide⟩

def DescriptorTable.compactEntries : List Descriptor := [⟨24, 5, 1⟩, ⟨32, 9, 2⟩]

/-- That table in memory, between the words of the cache and whatever follows. -/
def Target.compact (cache behind : List UInt32) : Target :=
  .ofWords (cache ++ [0, 5, 1, 9, 2, 12, 0] ++ behind)

end JitFrames
