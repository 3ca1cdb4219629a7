import Mathlib.Control.Monad.Basic
import JitFrames.Proofs.Image.Accepted
import JitFrames.Json.Document
import JitFrames.Snapshot.Manifest

namespace JitFrames

namespace Region

variable {r : Region} {a p : Address} {n i : Nat} {bytes : Bytes}

/-- Of the regions exactly this one is around `a`, and it goes on for `n` bytes from there. -/
def Serves (rs : List Region) (r : Region) (a : Address) (n : Nat) : Prop :=
  rs.filter (·.contains a) = [r] ∧ a.toNat + n ≤ r.stop

theorem bytes?_eq_some_iff :
    r.bytes? a n = some bytes ↔ r.contains a = true ∧ a.toNat + n ≤ r.stop ∧
      bytes = r.bytes.extract (a.toNat - r.base.toNat) (a.toNat - r.base.toNat + n) := by
  unfold bytes?
  by_cases h : (r.contains a && decide (a.toNat + n ≤ r.stop)) = true
  · rw [if_pos h]
    obtain ⟨hcontains, hstop⟩ : r.contains a = true ∧ a.toNat + n ≤ r.stop := by simpa using h
    simp only [Option.some.injEq, hcontains, hstop, true_and]
    exact eq_comm
  · rw [if_neg h]
    refine iff_of_false nofun fun hh => h ?_
    simp [hh.1, hh.2.1]

theorem size_of_bytes? (h : r.bytes? a n = some bytes) : bytes.size = n := by
  obtain ⟨hcontains, hstop, rfl⟩ := bytes?_eq_some_iff.mp h
  obtain ⟨hbase, hlt⟩ := contains_iff.mp hcontains
  unfold stop at hstop
  rw [Array.size_extract]
  omega

/-- A byte of a run, read at its own address. -/
theorem byte_of_bytes? (h : r.bytes? a n = some bytes) (hi : i < n)
    (hp : a.toNat + i = p.toNat) : ∃ one, r.bytes? p 1 = some one ∧ one[0]? = bytes[i]? := by
  obtain ⟨hcontains, hstop, rfl⟩ := bytes?_eq_some_iff.mp h
  obtain ⟨hbase, hlt⟩ := contains_iff.mp hcontains
  refine ⟨_, bytes?_eq_some_iff.mpr ⟨contains_iff.mpr ⟨by omega, by omega⟩, by omega, rfl⟩, ?_⟩
  unfold stop at hstop
  have hfirst : 0 < min (p.toNat - r.base.toNat + 1) r.bytes.size - (p.toNat - r.base.toNat) := by
    omega
  have hinside :
      i < min (a.toNat - r.base.toNat + n) r.bytes.size - (a.toNat - r.base.toNat) := by
    omega
  rw [Array.getElem?_extract, if_pos hfirst, Array.getElem?_extract, if_pos hinside]
  congr 1
  omega

end Region

namespace Image

variable {image : Image} {r : Region} {rs : List Region} {a p : Address} {n i : Nat} {bytes : Bytes}

namespace WellFormed

/-- No other region of the image is around an address that lies in one. -/
theorem filter_contains (h : image.WellFormed) (hr : r ∈ image.regions)
    (ha : r.contains a = true) : image.regions.filter (·.contains a) = [r] := by
  have hmem : r ∈ image.regions.filter (·.contains a) := List.mem_filter.mpr ⟨hr, ha⟩
  have hascending := h.ascending.filter (·.contains a)
  have haround : ∀ s ∈ image.regions.filter (·.contains a), s.contains a = true :=
    fun s hs => (List.mem_filter.mp hs).2
  cases hfilter : image.regions.filter (·.contains a) with
  | nil =>
    rw [hfilter] at hmem
    exact absurd hmem List.not_mem_nil
  | cons s others =>
    rw [hfilter] at hmem hascending haround
    cases others with
    | nil => rw [List.mem_singleton.mp hmem]
    | cons s' others =>
      have hfirst := Region.contains_iff.mp (haround s (by simp))
      have hsecond := Region.contains_iff.mp (haround s' (by simp))
      have hle := ((List.pairwise_cons.mp hascending).1 s' (by simp)).stop_le
      omega

theorem byte?_of_bytes? (h : image.WellFormed) (hbytes : image.memory.bytes? a n = some bytes)
    (hi : i < n) (hp : a.toNat + i = p.toNat) : image.memory.byte? p = bytes[i]? := by
  obtain ⟨r, hr, hrbytes⟩ := h.bytes?_eq_some_iff.mp hbytes
  obtain ⟨one, hone, hfirst⟩ := Region.byte_of_bytes? hrbytes hi hp
  unfold Memory.byte?
  rw [h.bytes?_eq_some_iff.mpr ⟨r, hr, hone⟩, Option.bind_some, hfirst]

theorem bytes?_eq_some_iff_serves (h : image.WellFormed) :
    image.memory.bytes? a n = some bytes ↔ ∃ r, Region.Serves image.regions r a n ∧
      bytes = r.bytes.extract (a.toNat - r.base.toNat) (a.toNat - r.base.toNat + n) := by
  rw [h.bytes?_eq_some_iff]
  constructor
  · intro hh
    obtain ⟨r, hr, hbytes⟩ := hh
    obtain ⟨hcontains, hstop, hextract⟩ := Region.bytes?_eq_some_iff.mp hbytes
    exact ⟨r, ⟨h.filter_contains hr hcontains, hstop⟩, hextract⟩
  · intro hh
    obtain ⟨r, ⟨hfilter, hstop⟩, hextract⟩ := hh
    have hmem : r ∈ image.regions.filter (·.contains a) := by
      rw [hfilter]
      exact List.mem_singleton_self r
    obtain ⟨hr, hcontains⟩ := List.mem_filter.mp hmem
    exact ⟨r, hr, Region.bytes?_eq_some_iff.mpr ⟨hcontains, hstop, hextract⟩⟩

end WellFormed

/-- What is around an address in the image was accepted, and the other way round. -/
theorem filter_contains_history (rs : List Region) (a : Address) :
    ((history rs).regions.filter (·.contains a)).Perm
      ((empty.accepted rs).filter (·.contains a)) := by
  have hsome (r : Region) : (r.contains a && !r.bytes.isEmpty) = r.contains a := by
    cases hcontains : r.contains a with
    | false => rfl
    | true =>
      obtain ⟨hbase, hstop⟩ := Region.contains_iff.mp hcontains
      unfold Region.stop at hstop
      have hsize : r.bytes.size ≠ 0 := by omega
      simpa [Array.isEmpty] using hsize
  have hperm := (perm_history rs).filter (·.contains a)
  simpa only [List.filter_filter, hsome] using hperm

theorem serves_history : Region.Serves (history rs).regions r a n ↔
    Region.Serves (empty.accepted rs) r a n := by
  have hperm := filter_contains_history rs a
  refine and_congr_left fun _ => ?_
  rw [← List.perm_singleton, ← List.perm_singleton]
  exact ⟨hperm.symm.trans, hperm.trans⟩

theorem read_history_eq_ok_iff : (history rs).memory.read a n = .ok bytes ↔
    ∃ r, Region.Serves (empty.accepted rs) r a n ∧
      bytes = r.bytes.extract (a.toNat - r.base.toNat) (a.toNat - r.base.toNat + n) := by
  rw [Memory.read_eq_ok_iff, (wellFormed_history rs).bytes?_eq_some_iff_serves]
  simp only [serves_history]

/-- The bytes of a read are as many as were asked for, and each of them is the byte at its own
address, which lies in the address space. -/
theorem bytes_of_read_history (h : (history rs).memory.read a n = .ok bytes) :
    bytes.size = n ∧ ∀ i < n, ∃ p b, a.add? i = some p ∧ bytes[i]? = some b ∧
      (history rs).memory.readByte p = .ok b := by
  have hw := wellFormed_history rs
  have hbytes := Memory.read_eq_ok_iff.mp h
  obtain ⟨r, hr, hrbytes⟩ := hw.bytes?_eq_some_iff.mp hbytes
  have hsize := Region.size_of_bytes? hrbytes
  refine ⟨hsize, fun i hi => ?_⟩
  have hstop := (Region.bytes?_eq_some_iff.mp hrbytes).2.1
  have hend := hw.bounded r hr
  have hroom : a.toNat + i < UInt64.size := by
    have hpos : 0 < UInt64.size := by decide
    omega
  obtain ⟨p, hp⟩ := Address.exists_add? hroom
  refine ⟨p, bytes[i], hp, Array.getElem?_eq_getElem _, ?_⟩
  rw [Memory.readByte_eq_ok_iff, hw.byte?_of_bytes? hbytes hi (Address.add?_eq_some_iff.mp hp)]
  exact Array.getElem?_eq_getElem _

end Image

namespace Manifest

variable {readJson : Json.Reader} {readFile : ReadFile Id} {directory : Path} {image next : Image}
  {entries entries' : List ManifestRegion}

/-- The region that an entry stands for, if its file and its base can be read. -/
def regionOf? (readFile : ReadFile Id) (directory : Path) (entry : ManifestRegion) :
    Option Region := do
  let bytes ← (readFile (directory.join (.ofString entry.file))).toOption
  let base ← entry.base.value.toOption
  return ⟨base, bytes⟩

/-- Whether two manifests stand in one directory, name the same code heap and list the same regions,
in whatever order. -/
def SameEntries (readJson : Json.Reader) (readFile : ReadFile Id) (path path' : Path) : Prop :=
  path.parent? = path'.parent? ∧ ∃ manifest manifest',
    ofFile readJson path (readFile path) = .ok manifest ∧
    ofFile readJson path' (readFile path') = .ok manifest' ∧
    manifest.codeHeap = manifest'.codeHeap ∧ manifest.regions.Perm manifest'.regions

theorem SameEntries.symm {path path' : Path} (h : SameEntries readJson readFile path path') :
    SameEntries readJson readFile path' path := by
  obtain ⟨hdirectory, manifest, manifest', hfile, hfile', hheap, hperm⟩ := h
  exact ⟨hdirectory.symm, manifest', manifest, hfile', hfile, hheap.symm, hperm.symm⟩

theorem addRegions_cons_eq_ok_iff {entry : ManifestRegion} :
    addRegions readFile directory image (entry :: entries) = .ok next ↔
      ∃ r step, regionOf? readFile directory entry = some r ∧ image.add? r = some step ∧
        addRegions readFile directory step entries = .ok next := by
  rw [addRegions]
  simp only [regionOf?, bind, pure]
  cases hfile : readFile (directory.join (.ofString entry.file)) with
  | error why => simp [Except.toOption]
  | ok bytes =>
    cases hbase : entry.base.value with
    | error e => simp [Except.toOption, Except.bind]
    | ok base =>
      cases hadd : image.add? ⟨base, bytes⟩ with
      | none => simp [Except.toOption, Except.bind, Image.addOrFail, hadd]
      | some step => simp [Except.toOption, Except.bind, Image.addOrFail, hadd]

/-- The regions of a manifest, in the order of its entries. -/
def regionsOf (readFile : ReadFile Id) (directory : Path) (entries : List ManifestRegion) :
    List Region :=
  entries.filterMap (regionOf? readFile directory)

/-- Entries are loaded exactly if each of them stands for a region and all regions are taken. -/
theorem addRegions_eq_ok_iff :
    addRegions readFile directory image entries = .ok next ↔
      (∀ entry ∈ entries, ∃ r, regionOf? readFile directory entry = some r) ∧
      image.accepted (regionsOf readFile directory entries) =
        regionsOf readFile directory entries ∧
      (regionsOf readFile directory entries).foldl (fun image r => (image.add r).2) image =
        next := by
  induction entries generalizing image with
  | nil =>
    refine ⟨fun h => ⟨nofun, rfl, ?_⟩, fun h => ?_⟩
    · cases h
      rfl
    · obtain ⟨-, -, rfl⟩ := h
      rfl
  | cons entry entries ih =>
    rw [addRegions_cons_eq_ok_iff, List.forall_mem_cons]
    cases hr : regionOf? readFile directory entry with
    | none => simp
    | some r =>
      have hregions : regionsOf readFile directory (entry :: entries) =
          r :: regionsOf readFile directory entries := List.filterMap_cons_some hr
      rw [hregions, Image.accepted_cons_eq_iff, List.foldl_cons]
      constructor
      · intro h
        obtain ⟨r', step, hr', hadd, hrest⟩ := h
        cases hr'
        obtain ⟨hall, haccepted, hnext⟩ := ih.mp hrest
        rw [Image.add_of_add?_some hadd]
        exact ⟨⟨⟨r, rfl⟩, hall⟩, ⟨step, hadd, haccepted⟩, hnext⟩
      · intro h
        obtain ⟨⟨-, hall⟩, ⟨step, hadd, haccepted⟩, hnext⟩ := h
        rw [Image.add_of_add?_some hadd] at hnext
        exact ⟨r, step, rfl, hadd, ih.mpr ⟨hall, haccepted, hnext⟩⟩

/-- Regions that were all taken are all taken in any other order, and give the same image. -/
theorem addRegions_perm (hp : entries.Perm entries')
    (h : addRegions readFile directory .empty entries = .ok next) :
    addRegions readFile directory .empty entries' = .ok next := by
  obtain ⟨hall, haccepted, rfl⟩ := addRegions_eq_ok_iff.mp h
  have hapart := Image.accepted_empty_eq_iff.mp haccepted
  have hperm : (regionsOf readFile directory entries').Perm
      (regionsOf readFile directory entries) := hp.symm.filterMap _
  refine addRegions_eq_ok_iff.mpr ⟨fun entry hentry => ?_, ?_, ?_⟩
  · exact hall entry (hp.mem_iff.mpr hentry)
  · exact Image.accepted_empty_eq_iff.mpr (hapart.perm hperm)
  · exact Image.history_perm hapart hperm

/-- The image of a manifest comes from its entries alone, and its code heap from the rest. -/
theorem load_eq_ok_iff {path : Path} {manifest : Manifest} {snapshot : Snapshot}
    (hfile : ofFile readJson path (readFile path) = .ok manifest) :
    load readJson readFile path = .ok snapshot ↔
      addRegions readFile (path.parent?.getD .current) .empty manifest.regions =
          .ok snapshot.image ∧
        manifest.codeHeap.mapM ManifestAddress.value = .ok snapshot.codeHeap := by
  obtain ⟨image, codeHeap⟩ := snapshot
  simp only [load, bind, pure, hfile]
  cases addRegions readFile (path.parent?.getD .current) .empty manifest.regions with
  | error e => simp
  | ok loaded =>
    have hok (found : Option Address) :
        (.ok ⟨loaded, found⟩ : Except Failure Snapshot) = .ok ⟨image, codeHeap⟩ ↔
          (.ok loaded : Except Failure Image) = .ok image ∧
            (.ok found : Except Failure (Option Address)) = .ok codeHeap := by simp
    cases manifest.codeHeap with
    | none => exact hok none
    | some heap =>
      cases hvalue : heap.value with
      | error e => simp [Option.mapM_some, hvalue, Except.map, Functor.map]
      | ok a =>
        simp only [Option.mapM_some, hvalue]
        exact hok (some a)

theorem load_of_sameEntries {path path' : Path} {snapshot : Snapshot}
    (hsame : SameEntries readJson readFile path path')
    (h : load readJson readFile path = .ok snapshot) :
    load readJson readFile path' = .ok snapshot := by
  obtain ⟨hdirectory, manifest, manifest', hfile, hfile', hheap, hperm⟩ := hsame
  obtain ⟨himage, hcodeHeap⟩ := (load_eq_ok_iff hfile).mp h
  rw [hdirectory] at himage
  rw [hheap] at hcodeHeap
  exact (load_eq_ok_iff hfile').mpr ⟨addRegions_perm hperm himage, hcodeHeap⟩

end Manifest

namespace Image

/-- A read is answered by the one accepted region around its address, if that holds all of it, and
is unmapped otherwise. Regions that keep apart are accepted in every order and make the same image,
so manifests that list the same regions describe the same snapshot. -/
theorem history_reads :
    (∀ (rs : List Region) (a : Address) (n : Nat),
      (∀ bytes, (history rs).memory.read a n = .ok bytes ↔
        ∃ r, Region.Serves (empty.accepted rs) r a n ∧
          bytes = r.bytes.extract (a.toNat - r.base.toNat) (a.toNat - r.base.toNat + n)) ∧
      (∀ bytes, (history rs).memory.read a n = .ok bytes →
        bytes.size = n ∧ ∀ i < n, ∃ p b, a.add? i = some p ∧ bytes[i]? = some b ∧
          (history rs).memory.readByte p = .ok b) ∧
      ((¬∃ r, Region.Serves (empty.accepted rs) r a n) →
        (history rs).memory.read a n = .error (.unmapped a n))) ∧
    (∀ rs rs' : List Region, Region.Apart rs → rs'.Perm rs →
      empty.accepted rs' = rs' ∧ history rs' = history rs) ∧
    ∀ (readJson : Json.Reader) (readFile : ReadFile Id) (path path' : Path),
      Manifest.SameEntries readJson readFile path path' →
      ∀ snapshot, Manifest.load readJson readFile path = .ok snapshot ↔
        Manifest.load readJson readFile path' = .ok snapshot := by
  refine ⟨fun rs a n => ⟨fun bytes => read_history_eq_ok_iff, fun bytes => bytes_of_read_history,
    fun hnone => ?_⟩, fun rs rs' hrs hp => ⟨?_, history_perm hrs hp⟩,
    fun readJson readFile path path' hsame snapshot => ⟨?_, ?_⟩⟩
  · cases hread : (history rs).memory.bytes? a n with
    | none =>
      unfold Memory.read
      rw [hread]
    | some bytes =>
      obtain ⟨r, hr, -⟩ := read_history_eq_ok_iff.mp (Memory.read_eq_ok_iff.mpr hread)
      exact absurd ⟨r, hr⟩ hnone
  · exact accepted_empty_eq_iff.mpr (hrs.perm hp)
  · exact Manifest.load_of_sameEntries hsame
  · exact Manifest.load_of_sameEntries hsame.symm

def ascendingPath : Path := .ofString "in/ascending"

def descendingPath : Path := .ofString "in/descending"

/-- Two manifests that list the same two regions, the first one in ascending order. -/
def capture : ReadFile Id :=
  let ascending := "[[[16, \"low\"], [18, \"high\"]]]"
  let descending := "[[[18, \"high\"], [16, \"low\"]]]"
  (((FileTree.empty.write ascendingPath ascending.toUTF8.data).write descendingPath
    descending.toUTF8.data).write (.ofString "in/low") #[1, 2]).write (.ofString "in/high") #[3]
    |>.read

/-- A read that runs on into the next region is unmapped although every byte of it is there. -/
theorem history_reads_reordered :
    (history touching).memory.read 0x1000 2 = .ok #[1, 2] ∧
    (∃ p b, Address.add? 0x1000 1 = some p ∧ #[(1 : UInt8), 2][1]? = some b ∧
      (history touching).memory.readByte p = .ok b) ∧
    (history touching).memory.read 0x1001 2 = .error (.unmapped 0x1001 2) ∧
    history [⟨18, #[3]⟩, ⟨16, #[1, 2]⟩] = history [⟨16, #[1, 2]⟩, ⟨18, #[3]⟩] ∧
    Manifest.load Json.document? capture descendingPath =
      .ok ⟨history [⟨16, #[1, 2]⟩, ⟨18, #[3]⟩], none⟩ := by
  have haround : (empty.accepted touching).filter (·.contains 0x1001) = [⟨0x1000, #[1, 2]⟩] := by
    decide
  have hapart : Region.Apart [⟨16, #[1, 2]⟩, ⟨18, #[3]⟩] := by
    rw [← accepted_empty_eq_iff]
    decide
  have hsame : Manifest.SameEntries Json.document? capture ascendingPath descendingPath := by
    refine ⟨by decide +kernel, ⟨[⟨.number 16, "low"⟩, ⟨.number 18, "high"⟩], none⟩,
      ⟨[⟨.number 18, "high"⟩, ⟨.number 16, "low"⟩], none⟩, ?_, ?_, rfl, .swap _ _ _⟩
    · decide +kernel
    · decide +kernel
  have hloaded : Id.run (Manifest.load Json.document? capture ascendingPath) =
      .ok ⟨history [⟨16, #[1, 2]⟩, ⟨18, #[3]⟩], none⟩ := by
    decide +kernel
  have hread : (history touching).memory.read 0x1000 2 = .ok #[1, 2] :=
    ((history_reads.1 touching 0x1000 2).1 _).mpr
      ⟨⟨0x1000, #[1, 2]⟩, ⟨by decide, by decide⟩, by decide⟩
  refine ⟨hread, ((history_reads.1 touching 0x1000 2).2.1 _ hread).2 1 (by decide), ?_, ?_, ?_⟩
  · refine (history_reads.1 touching 0x1001 2).2.2 fun hserves => ?_
    obtain ⟨r, hfilter, hstop⟩ := hserves
    rw [haround] at hfilter
    obtain rfl := List.cons.inj hfilter |>.1
    exact absurd hstop (by decide)
  · exact (history_reads.2.1 _ _ hapart (.swap _ _ _)).2
  · exact (history_reads.2.2 _ _ _ _ hsame _).mp hloaded

end Image

end JitFrames
