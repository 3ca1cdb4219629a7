import Mathlib.Logic.Basic
import Mathlib.Tactic.ByContra
import JitFrames.Memory.Image

namespace JitFrames

section Split

variable {α : Type} {p : α → Bool} {l : List α}

theorem takeWhile_eq_filter (h : l.Pairwise fun x y => p y = true → p x = true) :
    l.takeWhile p = l.filter p := by
  induction h with
  | nil => rfl
  | @cons x l hx _ ih =>
    by_cases hp : p x = true
    · simp [hp, ih]
    · have hl : l.filter p = [] := List.filter_eq_nil_iff.mpr fun y hy hpy => hp (hx y hy hpy)
      simp [hp, hl]

theorem dropWhile_eq_filter (h : l.Pairwise fun x y => p y = true → p x = true) :
    l.dropWhile p = l.filter (fun x => !p x) := by
  induction h with
  | nil => rfl
  | @cons x l hx _ ih =>
    by_cases hp : p x = true
    · simp [hp, ih]
    · have hl : l.filter (fun x => !p x) = l := by
        refine List.filter_eq_self.mpr fun y hy => ?_
        have hpy := mt (hx y hy) hp
        simpa using hpy
      simp [hp, hl]

theorem all_head? (h : l.Pairwise fun x y => p x = true → p y = true) :
    l.head?.all p = true ↔ ∀ x ∈ l, p x = true := by
  cases h with
  | nil => simp
  | @cons x l hx _ =>
    simp only [List.head?_cons, Option.all_some, List.forall_mem_cons]
    exact ⟨fun hpx => ⟨hpx, fun y hy => hx y hy hpx⟩, fun hh => hh.1⟩

theorem all_getLast? (h : l.Pairwise fun x y => p y = true → p x = true) :
    l.getLast?.all p = true ↔ ∀ x ∈ l, p x = true := by
  have hr : l.reverse.Pairwise fun x y => p x = true → p y = true := List.pairwise_reverse.mpr h
  have hall := all_head? hr
  rw [List.head?_reverse] at hall
  simpa using hall

end Split

namespace Region

/-- Some address lies in both regions. -/
def Meets (r s : Region) : Prop :=
  ∃ a : Nat, (r.base.toNat ≤ a ∧ a < r.stop) ∧ s.base.toNat ≤ a ∧ a < s.stop

/-- The region begins before the other one and ends where that begins, or before it. -/
structure Precedes (r s : Region) : Prop where
  base_lt : r.base.toNat < s.base.toNat
  stop_le : r.stop ≤ s.base.toNat

variable {r s : Region} {a : Address}

theorem base_le_stop (r : Region) : r.base.toNat ≤ r.stop := Nat.le_add_right _ _

theorem base_lt_stop (h : r.bytes.isEmpty = false) : r.base.toNat < r.stop := by
  have hsize : r.bytes.size ≠ 0 := by simpa [Array.isEmpty] using h
  unfold stop
  omega

theorem contains_iff : r.contains a = true ↔ r.base.toNat ≤ a.toNat ∧ a.toNat < r.stop := by
  simp [contains, UInt64.le_iff_toNat_le]

theorem not_meets_iff (hr : r.bytes.isEmpty = false) (hs : s.bytes.isEmpty = false) :
    ¬r.Meets s ↔ r.stop ≤ s.base.toNat ∨ s.stop ≤ r.base.toNat := by
  have hr' := base_lt_stop hr
  have hs' := base_lt_stop hs
  constructor
  · intro h
    by_contra hlt
    exact h ⟨max r.base.toNat s.base.toNat, by omega, by omega⟩
  · intro h hh
    obtain ⟨b, hb, hb'⟩ := hh
    omega

end Region

namespace Image

variable {image : Image} {r s : Region} {a : Address}

/-- No region is empty, each ends before the next one begins, and the last one ends inside the
address space. -/
structure WellFormed (image : Image) : Prop where
  nonempty : ∀ r ∈ image.regions, r.bytes.isEmpty = false
  ascending : image.regions.Pairwise Region.Precedes
  bounded : ∀ r ∈ image.regions, r.stop ≤ UInt64.size - 1

theorem wellFormed_empty : empty.WellFormed where
  nonempty _ hr := absurd hr List.not_mem_nil
  ascending := List.Pairwise.nil
  bounded _ hr := absurd hr List.not_mem_nil

theorem add?_empty (hr : r.bytes.isEmpty = true) : image.add? r = some image := if_pos hr

theorem add?_eq_some_iff {next : Image} (hr : r.bytes.isEmpty = false) :
    image.add? r = some next ↔
      image.admits r = true ∧ next = ⟨image.before r.base ++ r :: image.after r.base⟩ := by
  unfold add?
  rw [hr]
  by_cases hadmits : image.admits r = true
  · simp [hadmits, eq_comm]
  · simp [hadmits]

theorem before_append_after (image : Image) (a : Address) :
    image.before a ++ image.after a = image.regions := List.takeWhile_append_dropWhile

theorem mem_add? {next : Image} (hr : r.bytes.isEmpty = false) (hadd : image.add? r = some next) :
    s ∈ next.regions ↔ s = r ∨ s ∈ image.regions := by
  obtain ⟨-, rfl⟩ := (add?_eq_some_iff hr).mp hadd
  rw [← image.before_append_after r.base]
  simp only [List.mem_append, List.mem_cons]
  exact or_left_comm

namespace WellFormed

theorem before_eq (h : image.WellFormed) :
    image.before a = image.regions.filter (·.base < a) := by
  refine takeWhile_eq_filter (h.ascending.imp fun hrs => ?_)
  have hlt := hrs.base_lt
  simp only [decide_eq_true_eq, UInt64.lt_iff_toNat_lt]
  omega

theorem after_eq (h : image.WellFormed) :
    image.after a = image.regions.filter (fun r => !decide (r.base < a)) := by
  refine dropWhile_eq_filter (h.ascending.imp fun hrs => ?_)
  have hlt := hrs.base_lt
  simp only [decide_eq_true_eq, UInt64.lt_iff_toNat_lt]
  omega

theorem mem_before (h : image.WellFormed) :
    s ∈ image.before a ↔ s ∈ image.regions ∧ s.base.toNat < a.toNat := by
  rw [h.before_eq]
  simp [UInt64.lt_iff_toNat_lt]

theorem mem_after (h : image.WellFormed) :
    s ∈ image.after a ↔ s ∈ image.regions ∧ a.toNat ≤ s.base.toNat := by
  rw [h.after_eq]
  simp [UInt64.le_iff_toNat_le]

/-- The neighbours speak for all regions on their side: whatever stands before the region's left
neighbour ends earlier still, whatever stands behind its right neighbour begins later. -/
theorem admits_iff (h : image.WellFormed) :
    image.admits r = true ↔ r.stop ≤ UInt64.size - 1 ∧
      (∀ s ∈ image.before r.base, s.stop ≤ r.base.toNat) ∧
      ∀ s ∈ image.after r.base, r.stop ≤ s.base.toNat := by
  have hbefore : (image.before r.base).Pairwise fun s s' =>
      decide (s'.stop ≤ r.base.toNat) = true → decide (s.stop ≤ r.base.toNat) = true := by
    rw [h.before_eq]
    refine (h.ascending.filter _).imp fun {s s'} hs => ?_
    have hle := hs.stop_le
    have hle' := s'.base_le_stop
    simp only [decide_eq_true_eq]
    omega
  have hafter : (image.after r.base).Pairwise fun s s' =>
      decide (r.stop ≤ s.base.toNat) = true → decide (r.stop ≤ s'.base.toNat) = true := by
    rw [h.after_eq]
    refine (h.ascending.filter _).imp fun {s s'} hs => ?_
    have hlt := hs.base_lt
    simp only [decide_eq_true_eq]
    omega
  have hsize : r.stop < UInt64.size ↔ r.stop ≤ UInt64.size - 1 := Nat.lt_iff_le_pred (by decide)
  simp only [admits, Bool.and_eq_true, all_getLast? hbefore, all_head? hafter, decide_eq_true_eq,
    hsize, and_assoc]

theorem admits_iff_not_meets (h : image.WellFormed) (hr : r.bytes.isEmpty = false) :
    image.admits r = true ↔ r.stop ≤ UInt64.size - 1 ∧ ∀ s ∈ image.regions, ¬r.Meets s := by
  rw [h.admits_iff]
  refine and_congr_right fun _ => ?_
  constructor
  · intro hh s hs
    obtain ⟨hbefore, hafter⟩ := hh
    rw [Region.not_meets_iff hr (h.nonempty s hs)]
    by_cases hlt : s.base.toNat < r.base.toNat
    · exact .inr (hbefore s (h.mem_before.mpr ⟨hs, hlt⟩))
    · exact .inl (hafter s (h.mem_after.mpr ⟨hs, by omega⟩))
  · intro hmeets
    have hapart (s : Region) (hs : s ∈ image.regions) :=
      (Region.not_meets_iff hr (h.nonempty s hs)).mp (hmeets s hs)
    refine ⟨fun s hs => ?_, fun s hs => ?_⟩
    · obtain ⟨hs, hlt⟩ := h.mem_before.mp hs
      have hstop := r.base_le_stop
      have hdisjoint := hapart s hs
      omega
    · obtain ⟨hs, hle⟩ := h.mem_after.mp hs
      have hstop := Region.base_lt_stop (h.nonempty s hs)
      have hdisjoint := hapart s hs
      omega

theorem add?_eq_none_iff (h : image.WellFormed) (hr : r.bytes.isEmpty = false) :
    image.add? r = none ↔ UInt64.size - 1 < r.stop ∨ ∃ s ∈ image.regions, r.Meets s := by
  have hadd : image.add? r = none ↔ ¬image.admits r = true := by
    unfold Image.add?
    simp [hr]
  rw [hadd, h.admits_iff_not_meets hr, not_and_or, Nat.not_le]
  simp only [not_forall, not_not, exists_prop]

/-- The new region stands behind all that begin before it and ahead of all others. -/
theorem add? {next : Image} (h : image.WellFormed) (hadd : image.add? r = some next) :
    next.WellFormed := by
  by_cases hr : r.bytes.isEmpty = true
  · rw [add?_empty hr] at hadd
    cases hadd
    exact h
  · have hr : r.bytes.isEmpty = false := by simpa using hr
    have hmem {s : Region} := mem_add? (s := s) hr hadd
    obtain ⟨hadmits, rfl⟩ := (add?_eq_some_iff hr).mp hadd
    obtain ⟨hstop, hbefore, hafter⟩ := h.admits_iff.mp hadmits
    refine ⟨fun s hs => ?_, ?_, fun s hs => ?_⟩
    · obtain rfl | hs := hmem.mp hs
      · exact hr
      · exact h.nonempty s hs
    · have hbehind (s : Region) (hs : s ∈ image.after r.base) : r.base.toNat < s.base.toNat :=
        Nat.lt_of_lt_of_le (Region.base_lt_stop hr) (hafter s hs)
      refine List.pairwise_append.mpr ⟨?_, List.pairwise_cons.mpr ⟨fun s hs => ?_, ?_⟩, ?_⟩
      · exact h.ascending.sublist (List.takeWhile_sublist _)
      · exact ⟨hbehind s hs, hafter s hs⟩
      · exact h.ascending.sublist (List.dropWhile_sublist _)
      · -- From one side of the new region to the other the order goes through it.
        intro s hs s' hs'
        have hlt : s.base.toNat < r.base.toNat := (h.mem_before.mp hs).2
        have hle := hbefore s hs
        obtain rfl | hs' := List.mem_cons.mp hs'
        · exact ⟨hlt, hle⟩
        · have hlt' := hbehind s' hs'
          exact ⟨by omega, by omega⟩
    · obtain rfl | hs := hmem.mp hs
      · exact hstop
      · exact h.bounded s hs

/-- An address leads to the region that holds it: a region that begins later begins past it. -/
theorem regionAt?_eq_some_iff (h : image.WellFormed) :
    image.regionAt? a = some r ↔ r ∈ image.regions ∧ r.contains a = true := by
  have hfilter : image.regions.takeWhile (·.base ≤ a) = image.regions.filter (·.base ≤ a) := by
    refine takeWhile_eq_filter (h.ascending.imp fun hrs => ?_)
    have hlt := hrs.base_lt
    simp only [decide_eq_true_eq, UInt64.le_iff_toNat_le]
    omega
  unfold regionAt?
  rw [hfilter, Option.filter_eq_some_iff]
  constructor
  · intro hh
    obtain ⟨hlast, hcontains⟩ := hh
    exact ⟨(List.mem_filter.mp (List.mem_of_getLast? hlast)).1, hcontains⟩
  · intro hh
    obtain ⟨hmem, hcontains⟩ := hh
    obtain ⟨hbase, hstop⟩ := Region.contains_iff.mp hcontains
    refine ⟨?_, hcontains⟩
    -- No region behind this one begins at or before the address, so the last that does is this one.
    obtain ⟨earlier, later, hsplit⟩ := List.append_of_mem hmem
    have hascending := h.ascending
    rw [hsplit] at hascending
    obtain ⟨hlater, -⟩ := List.pairwise_cons.mp (List.pairwise_append.mp hascending).2.1
    have hnone : later.filter (·.base ≤ a) = [] := by
      refine List.filter_eq_nil_iff.mpr fun s hs hle => ?_
      have hle' := (hlater s hs).stop_le
      simp only [decide_eq_true_eq, UInt64.le_iff_toNat_le] at hle
      omega
    have hr : r.base ≤ a := UInt64.le_iff_toNat_le.mpr hbase
    simp only [hsplit, List.filter_append, List.filter_cons, hr, hnone, decide_true, if_true]
    exact List.getLast?_concat

/-- A read comes from the one region that holds all of it. -/
theorem bytes?_eq_some_iff (h : image.WellFormed) {n : Nat} {bytes : Bytes} :
    image.memory.bytes? a n = some bytes ↔ ∃ r ∈ image.regions, r.bytes? a n = some bytes := by
  unfold memory
  simp only [Option.bind_eq_bind, Option.bind_eq_some_iff, h.regionAt?_eq_some_iff]
  constructor
  · intro hh
    obtain ⟨r, ⟨hmem, -⟩, hbytes⟩ := hh
    exact ⟨r, hmem, hbytes⟩
  · intro hh
    obtain ⟨r, hmem, hbytes⟩ := hh
    refine ⟨r, ⟨hmem, ?_⟩, hbytes⟩
    by_contra hcontains
    simp [Region.bytes?, hcontains] at hbytes

end WellFormed

end Image

end JitFrames
