import JitFrames.Proofs.Codec.Progress
import JitFrames.Proofs.Image.Cuts

namespace JitFrames

variable {s : ByteStream} {m : Memory} {image : Image} {rs : List Region} {r : Region} {a : Address}
  {p : Nat}

namespace Memory

/-- How many addresses from `p` on have a byte. -/
def mappedFrom (m : Memory) (p : Nat) : Nat :=
  (List.range' p (UInt64.size - p)).countP fun i => (m.byte? (UInt64.ofNat i)).isSome

theorem mappedFrom_of_size_le (h : UInt64.size ≤ p) : m.mappedFrom p = 0 := by
  unfold mappedFrom
  rw [Nat.sub_eq_zero_of_le h]
  rfl

theorem mappedFrom_toNat (m : Memory) (a : Address) :
    m.mappedFrom a.toNat = m.mappedFrom (a.toNat + 1) + if (m.byte? a).isSome then 1 else 0 := by
  have hlt := a.toNat_lt_size
  have hroom : UInt64.size - a.toNat = (UInt64.size - (a.toNat + 1)) + 1 := by omega
  unfold mappedFrom
  rw [hroom, List.range'_succ, List.countP_cons, UInt64.ofNat_toNat]

/-- A count that drops by one at the addresses that have a byte, by nothing at the others, and is 0
past the last address. -/
theorem mappedFrom_eq {count : Nat → Nat} (hend : ∀ p, UInt64.size ≤ p → count p = 0)
    (hstep : ∀ a : Address,
      count a.toNat = count (a.toNat + 1) + if (m.byte? a).isSome then 1 else 0)
    (p : Nat) : m.mappedFrom p = count p := by
  -- downwards from the end of the address space
  induction hroom : UInt64.size - p generalizing p with
  | zero =>
    have hle : UInt64.size ≤ p := by omega
    rw [mappedFrom_of_size_le hle, hend p hle]
  | succ room ih =>
    have hp : (UInt64.ofNat p).toNat = p := UInt64.toNat_ofNat_of_lt' (by omega)
    have hrest := ih (p + 1) (by omega)
    rw [← hp] at hrest ⊢
    rw [mappedFrom_toNat, hstep, hrest]

end Memory

/-- Bytes that stand in a row are at addresses of their own. -/
theorem ByteStream.Holds.length_le {bytes : List UInt8} (h : s.Holds p bytes) :
    bytes.length ≤ s.memory.mappedFrom (s.origin.toNat + p) := by
  induction bytes generalizing p with
  | nil => exact Nat.zero_le _
  | cons b bytes ih =>
    obtain ⟨hnext, hrest⟩ := holds_cons.mp h
    obtain ⟨-, a, ha, hb⟩ := next_eq_ok_iff.mp hnext
    have hle := ih hrest
    have hdrop := s.memory.mappedFrom_toNat a
    rw [hb, Option.isSome_some, if_pos rfl, ← Address.add?_eq_some_iff.mp ha] at hdrop
    rw [← Nat.add_assoc] at hle
    rw [List.length_cons]
    omega

namespace Region

/-- The address lies in the region. -/
def Reaches (r : Region) (p : Nat) : Prop := r.base.toNat ≤ p ∧ p < r.stop

/-- How many bytes of the region are at `p` or behind it. -/
def bytesFrom (r : Region) (p : Nat) : Nat := r.stop - max r.base.toNat p

theorem bytesFrom_of_stop_le (h : r.stop ≤ p) : r.bytesFrom p = 0 := by
  unfold bytesFrom
  omega

theorem bytesFrom_of_reaches (h : r.Reaches p) : r.bytesFrom p = r.bytesFrom (p + 1) + 1 := by
  obtain ⟨hbase, hstop⟩ := h
  unfold bytesFrom
  omega

theorem bytesFrom_of_not_reaches (h : ¬r.Reaches p) : r.bytesFrom p = r.bytesFrom (p + 1) := by
  have houtside : p < r.base.toNat ∨ r.stop ≤ p := by
    unfold Reaches at h
    omega
  unfold bytesFrom
  omega

/-- A region that an address lies in has a byte for it. -/
theorem exists_byte_iff :
    (∃ b i, r.base.toNat + i = p ∧ r.bytes[i]? = some b) ↔ r.Reaches p := by
  have hstop : r.stop = r.base.toNat + r.bytes.size := rfl
  constructor
  · intro h
    obtain ⟨b, i, hi, hb⟩ := h
    obtain ⟨hlt, -⟩ := Array.getElem?_eq_some_iff.mp hb
    exact ⟨by omega, by omega⟩
  · intro h
    obtain ⟨hbase, hlt⟩ := h
    have hi : p - r.base.toNat < r.bytes.size := by omega
    exact ⟨r.bytes[p - r.base.toNat], _, Nat.add_sub_cancel' hbase, Array.getElem?_eq_getElem hi⟩

/-- How many bytes of the regions are at `p` or behind it. -/
def sumFrom (p : Nat) : List Region → Nat
  | [] => 0
  | r :: rs => r.bytesFrom p + sumFrom p rs

theorem sumFrom_of_stop_le (h : ∀ r ∈ rs, r.stop ≤ p) : sumFrom p rs = 0 := by
  induction rs with
  | nil => rfl
  | cons r rs ih =>
    obtain ⟨hr, hrs⟩ := List.forall_mem_cons.mp h
    rw [sumFrom, bytesFrom_of_stop_le hr, ih hrs]

theorem sumFrom_of_not_reaches (h : ∀ r ∈ rs, ¬r.Reaches p) :
    sumFrom p rs = sumFrom (p + 1) rs := by
  induction rs with
  | nil => rfl
  | cons r rs ih =>
    obtain ⟨hr, hrs⟩ := List.forall_mem_cons.mp h
    rw [sumFrom, sumFrom, bytesFrom_of_not_reaches hr, ih hrs]

/-- Regions in order have no address twice. -/
theorem sumFrom_of_reaches (hascending : rs.Pairwise Precedes) (hr : r ∈ rs) (h : r.Reaches p) :
    sumFrom p rs = sumFrom (p + 1) rs + 1 := by
  induction hascending with
  | nil => exact absurd hr List.not_mem_nil
  | @cons first rs hfirst hascending ih =>
    rw [sumFrom, sumFrom]
    obtain rfl | hrest := List.mem_cons.mp hr
    · -- the regions behind this one begin past the address
      have hbehind (t : Region) (ht : t ∈ rs) : ¬t.Reaches p := by
        intro hreaches
        have hle := (hfirst t ht).stop_le
        have hlt := h.2
        have hbase := hreaches.1
        omega
      rw [bytesFrom_of_reaches h, sumFrom_of_not_reaches hbehind]
      omega
    · -- the region begins past the end of the first one
      have hahead : ¬first.Reaches p := by
        intro hreaches
        have hle := (hfirst r hrest).stop_le
        have hlt := hreaches.2
        have hbase := h.1
        omega
      rw [bytesFrom_of_not_reaches hahead, ih hrest]
      omega

end Region

namespace Image

/-- How many bytes of the image are at `p` or behind it. -/
def bytesFrom (image : Image) (p : Nat) : Nat := Region.sumFrom p image.regions

theorem WellFormed.isSome_byte?_iff (h : image.WellFormed) :
    (image.memory.byte? a).isSome = true ↔ ∃ r ∈ image.regions, r.Reaches a.toNat := by
  simp only [Option.isSome_iff_exists, h.byte?_eq_some_iff, ← Region.exists_byte_iff]
  constructor
  · intro hh
    obtain ⟨b, r, hr, i, hi⟩ := hh
    exact ⟨r, hr, b, i, hi⟩
  · intro hh
    obtain ⟨r, hr, b, i, hi⟩ := hh
    exact ⟨b, r, hr, i, hi⟩

theorem WellFormed.mappedFrom_eq (h : image.WellFormed) (p : Nat) :
    image.memory.mappedFrom p = image.bytesFrom p := by
  refine Memory.mappedFrom_eq (fun p hp => ?_) (fun a => ?_) p
  · refine Region.sumFrom_of_stop_le fun r hr => ?_
    have hstop := h.bounded r hr
    omega
  · split
    · next hbyte =>
      obtain ⟨r, hr, hreaches⟩ := h.isSome_byte?_iff.mp hbyte
      exact Region.sumFrom_of_reaches h.ascending hr hreaches
    · next hbyte =>
      refine Region.sumFrom_of_not_reaches fun r hr hreaches => hbyte ?_
      exact h.isSome_byte?_iff.mpr ⟨r, hr, hreaches⟩

end Image

theorem Memory.mappedFrom_ofBytes (bytes : Bytes) (p : Nat) :
    (Memory.ofBytes bytes).mappedFrom p = min bytes.size (UInt64.size - 1) - p := by
  have hsize : 0 < UInt64.size := by decide
  refine mappedFrom_eq (fun p hp => by omega) (fun a => ?_) p
  have hlast := a.toNat_lt_size
  have hbyte : ((ofBytes bytes).byte? a).isSome = true ↔
      a.toNat + 1 < UInt64.size ∧ a.toNat < bytes.size := by
    rw [Memory.byte?_ofBytes]
    split
    · next hlt => rw [isSome_getElem?, and_iff_right hlt]
    · next hle => exact iff_of_false nofun fun hh => hle hh.1
  split
  · next hsome =>
    have hlt := hbyte.mp hsome
    omega
  · next hnone =>
    have hge := mt hbyte.mpr hnone
    omega

namespace LineTable

/-- A call for a pair that succeeds passes over one to eleven bytes, and none goes back. So on any
memory a look-up ends, with the answer of `lineAt`, after at most one call more than there are mapped
bytes at the table's address or behind it. In an image these are the bytes of all its regions from
there on, whether or not a region ends on the way, and in a buffer what is left of it. -/
theorem lookUps_bounded (table : Address) (bci : Bci) :
    (∀ s c c' more, readPair s c = .ok more c' →
      c.position + 1 ≤ c'.position ∧ c'.position ≤ c.position + 11) ∧
    (∀ s c, c.position ≤ (Cursor.ofCall (readPair s c)).position) ∧
    (∀ m, (∃ n answer, LooksUp m table bci n answer) ∧
      ∀ n answer, LooksUp m table bci n answer →
        lineAt m (some table) bci = answer ∧ n ≤ m.mappedFrom table.toNat + 1) ∧
    (∀ rs, (Image.history rs).memory.mappedFrom table.toNat =
      (Image.history rs).bytesFrom table.toNat) ∧
    ∀ bytes, (Memory.ofBytes bytes).mappedFrom table.toNat =
      min bytes.size (UInt64.size - 1) - table.toNat := by
  refine ⟨fun s c c' more h => ?_, readPair_position_le, fun m => ⟨exists_looksUp m table bci, ?_⟩,
    fun rs => ?_, fun bytes => ?_⟩
  · obtain ⟨bytes, -, hposition, hlength⟩ := readPair_holds h
    omega
  · intro n answer h
    obtain ⟨bytes, hholds, hn⟩ := h.exists_holds
    have hle := hholds.length_le
    exact ⟨h.eq_lineAt, Nat.le_trans hn (Nat.add_le_add_right hle 1)⟩
  · exact (Image.wellFormed_history rs).mappedFrom_eq _
  · exact Memory.mappedFrom_ofBytes bytes _

/-- An escaped pair of two numbers with five bytes each. -/
def longPair : ByteStream := ⟨.ofBytes #[0xFF, 255, 255, 255, 255, 1, 255, 255, 255, 255, 1], 0⟩

/-- Three pairs of one byte each and no end, the first of them in a region of its own. -/
def unterminated : List Region := [⟨0x11, #[9, 9]⟩, ⟨0x10, #[9]⟩]

theorem unterminated_looksUp :
    LooksUp (Image.history unterminated).memory 0x10 7 4 (.error (.unmapped 0x13 1)) := by
  have hfirst : readPair ⟨(Image.history unterminated).memory, 0x10⟩ Cursor.start =
      .ok true ⟨1, ⟨1, 1⟩⟩ := rfl
  have hsecond : readPair ⟨(Image.history unterminated).memory, 0x10⟩ ⟨1, ⟨1, 1⟩⟩ =
      .ok true ⟨2, ⟨2, 2⟩⟩ := rfl
  have hthird : readPair ⟨(Image.history unterminated).memory, 0x10⟩ ⟨2, ⟨2, 2⟩⟩ =
      .ok true ⟨3, ⟨3, 3⟩⟩ := rfl
  have hfails : readPair ⟨(Image.history unterminated).memory, 0x10⟩ ⟨3, ⟨3, 3⟩⟩ =
      .error (.unmapped 0x13 1) ⟨3, ⟨3, 3⟩⟩ := rfl
  exact .onward hfirst (by decide)
    (.onward hsecond (by decide) (.onward hthird (by decide) (.failed hfails)))

/-- A pair of eleven bytes, and a look-up that makes one call more than there are bytes. -/
theorem lookUps_bounded_unterminated :
    (∃ c, readPair longPair Cursor.start = .ok true c ∧ c.position = 11 ∧ c.position ≤ 0 + 11) ∧
      lineAt (Image.history unterminated).memory (some 0x10) 7 = .error (.unmapped 0x13 1) ∧
      (Image.history unterminated).memory.mappedFrom 0x10 = 3 ∧
      4 ≤ (Image.history unterminated).memory.mappedFrom 0x10 + 1 := by
  have hpair : readPair longPair Cursor.start =
      .ok true ⟨11, ⟨-42342496, -42342496⟩⟩ := rfl
  obtain ⟨hadvance, -, hcalls, hmapped, -⟩ := lookUps_bounded 0x10 7
  obtain ⟨hanswer, hbound⟩ := (hcalls _).2 _ _ unterminated_looksUp
  exact ⟨⟨_, hpair, rfl, (hadvance _ _ _ _ hpair).2⟩, hanswer, hmapped unterminated, hbound⟩

end LineTable

end JitFrames
