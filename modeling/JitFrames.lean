import JitFrames.Codec.LineTable
import JitFrames.Memory.Image
import JitFrames.Layout.Basic
import JitFrames.Code.Heap
import JitFrames.Code.Scope
import JitFrames.Code.Descriptor.Lookup
import JitFrames.Resolution
import JitFrames.Symbolizer
import JitFrames.Elf.Segment
import JitFrames.Snapshot.Core
import JitFrames.Snapshot.Manifest
import JitFrames.CommandLine.Run
import JitFrames.CommandLine.Reading
import JitFrames.Json.Document
import JitFrames.Main
import JitFrames.Proofs.Codec.RoundTrip
import JitFrames.Proofs.Descriptor.Bracket
import JitFrames.Proofs.Descriptor.Search
import JitFrames.Proofs.Descriptor.Cache
import JitFrames.Proofs.Descriptor.Lookup
import JitFrames.Proofs.Descriptor.Scan
import JitFrames.Proofs.DenseLayout
import JitFrames.Proofs.Codec.Within
import JitFrames.Proofs.Scope.Record
import JitFrames.Proofs.Scope.Chain
import JitFrames.Proofs.Heap.Segment
import JitFrames.Proofs.Heap.Blocks
import JitFrames.Proofs.Image.Regions
import JitFrames.Proofs.Image.History
import JitFrames.Proofs.Image.Accepted
import JitFrames.Proofs.Image.Reading
import JitFrames.Proofs.Image.Buffer
import JitFrames.Proofs.Codec.Pairs
import JitFrames.Proofs.Scope.Tree
import JitFrames.Proofs.Symbolizer
import JitFrames.Proofs.Layout.RoundTrip
import JitFrames.Proofs.Growth.Answer
import JitFrames.Proofs.Growth.Codec
import JitFrames.Proofs.Growth.Descriptor
import JitFrames.Proofs.Growth.Heap
import JitFrames.Proofs.Growth.Scope
import JitFrames.Proofs.Growth.Query
import JitFrames.Proofs.Blame.Answer
import JitFrames.Proofs.Blame.Target
import JitFrames.Proofs.Blame.Lookup
import JitFrames.Proofs.CommandLine.Headline
import JitFrames.Proofs.CommandLine.ExitCode
import JitFrames.Proofs.Descriptor.Genuine
import JitFrames.Proofs.Descriptor.Stray
import JitFrames.Proofs.Descriptor.Covering
import JitFrames.Proofs.Codec.Lookup
import JitFrames.Proofs.Codec.Canonical
import JitFrames.Proofs.Codec.Calls
import JitFrames.Proofs.Codec.Truncation
import JitFrames.Proofs.Codec.Reads
import JitFrames.Proofs.Codec.Confined
import JitFrames.Proofs.Heap.Search
import JitFrames.Proofs.Heap.Index
import JitFrames.Proofs.Heap.Walk
import JitFrames.Proofs.Heap.Header
import JitFrames.Proofs.Heap.Marks
import JitFrames.Proofs.Resolution
import JitFrames.Proofs.Overflow.Derived
import JitFrames.Proofs.Descriptor.Reach
import JitFrames.Proofs.Scope.Replay
import JitFrames.Proofs.Overflow.Unchecked
import JitFrames.Proofs.Image.Cuts
import JitFrames.Proofs.Text.Numeral
import JitFrames.Proofs.Text.Blank
import JitFrames.Proofs.Literal
import JitFrames.Proofs.Layout.Source
import JitFrames.Proofs.Scope.Bounds
import JitFrames.Proofs.Descriptor.Span
import JitFrames.Proofs.Descriptor.Room
import JitFrames.Proofs.Descriptor.Course
import JitFrames.Proofs.Codec.Progress
import JitFrames.Proofs.Image.Extent
import JitFrames.Proofs.Image.Text
