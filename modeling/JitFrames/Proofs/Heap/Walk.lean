import Mathlib.Data.List.Chain
import JitFrames.Proofs.Answer
import JitFrames.Proofs.Heap.Segment

namespace JitFrames.CodeHeap

variable {h : CodeHeap} {t t' : Target} {own s s' : Nat} {later : List Nat} {d : UInt8}

/-- The map byte of a segment is a distance that leads back to another one. -/
def StepsBack (h : CodeHeap) (t : Target) (s s' : Nat) : Prop :=
  ∃ d, h.MapHolds t s d ∧ d ≠ 0 ∧ s' + d.toNat = s

theorem StepsBack.lt (hs : h.StepsBack t s s') : s' < s := by
  obtain ⟨d, -, hd, hback⟩ := hs
  have hpos : d.toNat ≠ 0 := fun h0 => hd (UInt8.toNat_inj.mp h0)
  omega

/-- Where a walk from a segment ends: at the first segment of a block, or with a fault. -/
def blockStart (h : CodeHeap) (t : Target) (s : Nat) : Answer Nat := do
  h.firstSegment t s (← h.mapByte t s)

theorem blockStart_of_stepsBack (hs : h.StepsBack t s s') :
    h.blockStart t s = h.blockStart t s' := by
  obtain ⟨d, hmap, hd, hback⟩ := hs
  have hprev : s - d.toNat = s' := by omega
  have hle : ¬s < d.toNat := by omega
  simp only [blockStart]
  rw [mapByte_eq_ok_iff.mpr hmap, Answer.ok_bind, firstSegment, dif_neg hd, dif_neg hle, hprev]
  cases h.mapByte t s' with
  | ok next => rfl
  | error e => rfl

/-- A byte from which no step leads back begins a block or reaches past the map's beginning. -/
theorem blockStart_of_stays (hs : ∀ s', ¬h.StepsBack t s s') :
    h.blockStart t s = (do
      let d ← h.mapByte t s
      if d = 0 then .ok s
      else .error (.malformed .segmentMapChain h.segmentMap.start)) := by
  simp only [blockStart]
  cases hmap : h.mapByte t s with
  | error e => rfl
  | ok d =>
    rw [Answer.ok_bind, Answer.ok_bind, firstSegment]
    by_cases hd : d = 0
    · rw [dif_pos hd, if_pos hd]
    · have hshort : s < d.toNat := by
        apply Nat.lt_of_not_le
        intro hle
        exact hs (s - d.toNat) ⟨d, mapByte_eq_ok_iff.mp hmap, hd, Nat.sub_add_cancel hle⟩
      rw [dif_neg hd, if_neg hd, dif_pos hshort]

/-- A walk ends where it ends from the last segment that it comes to. -/
theorem blockStart_of_isChain (hsteps : (own :: later).IsChain (h.StepsBack t)) :
    h.blockStart t own = h.blockStart t (later.getLastD own) := by
  induction later generalizing own with
  | nil => rfl
  | cons s later ih =>
    obtain ⟨hstep, hrest⟩ := List.isChain_cons_cons.mp hsteps
    rw [List.getLastD_cons, blockStart_of_stepsBack hstep]
    exact ih hrest

theorem pairwise_of_isChain (hsteps : (own :: later).IsChain (h.StepsBack t)) :
    (own :: later).Pairwise (· > ·) := by
  have hdecreasing : (own :: later).IsChain (· > ·) := hsteps.imp fun _ _ hs => hs.lt
  exact hdecreasing.pairwise

/-- Each step leads to an earlier segment, so that no walk has more steps than there are segments
before its first one. -/
theorem length_le_of_isChain (hsteps : (own :: later).IsChain (h.StepsBack t)) :
    later.length ≤ own := by
  induction later generalizing own with
  | nil => exact Nat.zero_le own
  | cons s later ih =>
    obtain ⟨hstep, hrest⟩ := List.isChain_cons_cons.mp hsteps
    have hlt := hstep.lt
    have hlength := ih hrest
    simp only [List.length_cons]
    omega

/-- From every segment of a walk but the last one it goes on to the next. -/
theorem last_or_stepsBack (hsteps : (own :: later).IsChain (h.StepsBack t))
    (hs : s ∈ own :: later) :
    s = later.getLastD own ∨ ∃ s' ∈ later, h.StepsBack t s s' := by
  induction later generalizing own with
  | nil => exact .inl (List.mem_singleton.mp hs)
  | cons s' later ih =>
    obtain ⟨hstep, hrest⟩ := List.isChain_cons_cons.mp hsteps
    obtain rfl | hlater := List.mem_cons.mp hs
    · exact .inr ⟨s', List.mem_cons_self, hstep⟩
    · rw [List.getLastD_cons]
      obtain hlast | ⟨next, hnext, hback⟩ := ih hrest hlater
      · exact .inl hlast
      · exact .inr ⟨next, List.mem_cons_of_mem s' hnext, hback⟩

/-- The segments whose map bytes a search asks for: the one that it begins in, and behind it those
that the walk back comes to, as far as it goes. In a segment of no block it does not set out. -/
structure Visits (h : CodeHeap) (t : Target) (own : Nat) (later : List Nat) : Prop where
  steps : (own :: later).IsChain (h.StepsBack t)
  unused : h.MapHolds t own freeMark → later = []
  ends : ¬h.MapHolds t own freeMark → ∀ s, ¬h.StepsBack t (later.getLastD own) s

theorem exists_walk (h : CodeHeap) (t : Target) (own : Nat) :
    ∃ later, (own :: later).IsChain (h.StepsBack t) ∧
      ∀ s, ¬h.StepsBack t (later.getLastD own) s := by
  induction own using Nat.strongRecOn with
  | ind own ih =>
    by_cases hback : ∃ s, h.StepsBack t own s
    · obtain ⟨s, hs⟩ := hback
      obtain ⟨later, hsteps, hends⟩ := ih s hs.lt
      refine ⟨s :: later, List.isChain_cons_cons.mpr ⟨hs, hsteps⟩, ?_⟩
      rw [List.getLastD_cons]
      exact hends
    · exact ⟨[], List.isChain_singleton own, fun s hs => hback ⟨s, hs⟩⟩

theorem exists_visits (h : CodeHeap) (t : Target) (own : Nat) : ∃ later, h.Visits t own later := by
  by_cases hown : h.MapHolds t own freeMark
  · exact ⟨[], List.isChain_singleton own, fun _ => rfl, fun hother => absurd hown hother⟩
  · obtain ⟨later, hsteps, hends⟩ := h.exists_walk t own
    exact ⟨later, hsteps, fun hmark => absurd hmark hown, fun _ => hends⟩

namespace Visits

theorem lt_own (hv : h.Visits t own later) (hs : s ∈ later) : s < own :=
  List.rel_of_pairwise_cons (pairwise_of_isChain hv.steps) hs

theorem last_le (hv : h.Visits t own later) : later.getLastD own ≤ own := by
  have hmem : later.getLastD own ∈ own :: later := List.getLastD_mem_cons
  obtain heq | hlater := List.mem_cons.mp hmem
  · exact Nat.le_of_eq heq
  · exact Nat.le_of_lt (hv.lt_own hlater)

/-- A distance in the byte of a visited segment is followed or reaches past the map's beginning. -/
theorem prev_mem (hv : h.Visits t own later) (hown : ¬h.MapHolds t own freeMark)
    (hs : s ∈ own :: later) (hmap : h.MapHolds t s d) (hd : d ≠ 0) (hle : d.toNat ≤ s) :
    s - d.toNat ∈ later := by
  obtain rfl | ⟨s', hs', d', hmap', -, hback⟩ := last_or_stepsBack hv.steps hs
  · exact absurd ⟨d, hmap, hd, Nat.sub_add_cancel hle⟩ (hv.ends hown _)
  · have heq : s - d.toNat = s' := by
      rw [hmap.unique hmap']
      omega
    rw [heq]
    exact hs'

/-- Only from the last segment that it comes to can a walk reach past the map's beginning. -/
theorem eq_last (hv : h.Visits t own later) (hs : s ∈ own :: later) (hmap : h.MapHolds t s d)
    (hd : s < d.toNat) : s = later.getLastD own := by
  obtain hlast | ⟨s', -, d', hmap', -, hback⟩ := last_or_stepsBack hv.steps hs
  · exact hlast
  · rw [hmap.unique hmap'] at hd
    omega

/-- If the last byte can be read, so can the first. -/
theorem own_lt_size (hv : h.Visits t own later)
    (hlast : later.getLastD own < h.segmentMap.size) : own < h.segmentMap.size := by
  cases later with
  | nil => exact hlast
  | cons s later =>
    obtain ⟨d, hmap, -⟩ := (List.isChain_cons_cons.mp hv.steps).1
    exact hmap.1

/-- What the walk does hangs on nothing but the map bytes of the segments that it comes to. -/
theorem congr (hv : h.Visits t own later)
    (hbytes : ∀ s ∈ own :: later, h.mapByte t' s = h.mapByte t s) : h.Visits t' own later := by
  have hholds {s : Nat} {d : UInt8} (hs : s ∈ own :: later) :
      h.MapHolds t' s d ↔ h.MapHolds t s d := by
    rw [← mapByte_eq_ok_iff, ← mapByte_eq_ok_iff, hbytes s hs]
  have hback {s s' : Nat} (hs : s ∈ own :: later) :
      h.StepsBack t' s s' ↔ h.StepsBack t s s' :=
    exists_congr fun d => and_congr_left fun _ => hholds hs
  refine ⟨?_, fun hmark => hv.unused ((hholds List.mem_cons_self).mp hmark), fun hmark s hs => ?_⟩
  · have hsteps := hv.steps
    rw [List.isChain_iff_getElem] at hsteps ⊢
    intro i hi
    exact (hback (List.getElem_mem _)).mpr (hsteps i hi)
  · have hmark' : ¬h.MapHolds t own freeMark :=
      fun hown => hmark ((hholds List.mem_cons_self).mpr hown)
    exact hv.ends hmark' s ((hback List.getLastD_mem_cons).mp hs)

end Visits

end JitFrames.CodeHeap
