import JitFrames.Proofs.Image.History

namespace JitFrames

namespace Region

variable {r s : Region} {rs rs' : List Region}

theorem Meets.symm (h : r.Meets s) : s.Meets r := by
  obtain ⟨a, hr, hs⟩ := h
  exact ⟨a, hs, hr⟩

theorem not_meets_empty (hs : s.bytes.isEmpty = true) : ¬r.Meets s := by
  intro h
  obtain ⟨a, -, hbase, hstop⟩ := h
  have hsize : s.bytes.size = 0 := by simpa [Array.isEmpty] using hs
  unfold stop at hstop
  omega

/-- Regions that end inside the address space and no two of which share an address. -/
structure Apart (rs : List Region) : Prop where
  bounded : ∀ r ∈ rs, r.stop ≤ UInt64.size - 1
  disjoint : rs.Pairwise fun r s => ¬r.Meets s

theorem Apart.perm (h : Apart rs) (hp : rs'.Perm rs) : Apart rs' where
  bounded r hr := h.bounded r (hp.mem_iff.mp hr)
  disjoint := (hp.pairwise_iff fun hrs hsr => hrs hsr.symm).mpr h.disjoint

theorem apart_cons : Apart (r :: rs) ↔
    (r.stop ≤ UInt64.size - 1 ∧ ∀ s ∈ rs, ¬r.Meets s) ∧ Apart rs := by
  constructor
  · intro h
    obtain ⟨hr, hrs⟩ := List.pairwise_cons.mp h.disjoint
    obtain ⟨hstop, hstops⟩ := List.forall_mem_cons.mp h.bounded
    exact ⟨⟨hstop, hr⟩, hstops, hrs⟩
  · intro h
    obtain ⟨⟨hstop, hr⟩, hrs⟩ := h
    exact ⟨List.forall_mem_cons.mpr ⟨hstop, hrs.bounded⟩, List.pairwise_cons.mpr ⟨hr, hrs.disjoint⟩⟩

end Region

open Region (Apart)

namespace Image

variable {image next : Image} {r s : Region} {rs rs' : List Region}

/-- Of regions that are offered to an image one after the other, those that are not refused. -/
def accepted (image : Image) : List Region → List Region
  | [] => []
  | r :: rs =>
    match image.add r with
    | (.ok (), next) => r :: accepted next rs
    | (.error _, next) => accepted next rs

theorem accepted_cons_some (h : image.add? r = some next) :
    image.accepted (r :: rs) = r :: next.accepted rs := by
  rw [accepted, add_of_add?_some h]

theorem accepted_cons_none (h : image.add? r = none) :
    image.accepted (r :: rs) = image.accepted rs := by
  rw [accepted, add_of_add?_none h]

theorem accepted_sublist (image : Image) (rs : List Region) : (image.accepted rs).Sublist rs := by
  induction rs generalizing image with
  | nil => exact .slnil
  | cons r rs ih =>
    cases hadd : image.add? r with
    | none =>
      rw [accepted_cons_none hadd]
      exact (ih image).cons r
    | some next =>
      rw [accepted_cons_some hadd]
      exact (ih next).cons_cons r

theorem accepted_cons_eq_iff :
    image.accepted (r :: rs) = r :: rs ↔
      ∃ next, image.add? r = some next ∧ next.accepted rs = rs := by
  cases hadd : image.add? r with
  | none =>
    rw [accepted_cons_none hadd]
    refine iff_of_false (fun h => ?_) nofun
    have hlength := (image.accepted_sublist rs).length_le
    rw [h, List.length_cons] at hlength
    omega
  | some next => simp [accepted_cons_some hadd]

theorem perm_add? (hr : r.bytes.isEmpty = false) (hadd : image.add? r = some next) :
    next.regions.Perm (r :: image.regions) := by
  obtain ⟨-, rfl⟩ := (add?_eq_some_iff hr).mp hadd
  rw [← image.before_append_after r.base]
  exact List.perm_middle

/-- An image holds what it held before and the regions that it took, those without bytes apart. -/
theorem perm_accepted (image : Image) (rs : List Region) :
    (rs.foldl (fun image r => (image.add r).2) image).regions.Perm
      ((image.accepted rs).filter (fun r => !r.bytes.isEmpty) ++ image.regions) := by
  induction rs generalizing image with
  | nil => exact .refl _
  | cons r rs ih =>
    rw [List.foldl_cons]
    cases hadd : image.add? r with
    | none =>
      rw [accepted_cons_none hadd, add_of_add?_none hadd]
      exact ih image
    | some next =>
      rw [accepted_cons_some hadd, add_of_add?_some hadd]
      by_cases hr : r.bytes.isEmpty = true
      · rw [add?_empty hr] at hadd
        cases hadd
        rw [List.filter_cons_of_neg (by simp [hr])]
        exact ih image
      · have hr : r.bytes.isEmpty = false := by simpa using hr
        rw [List.filter_cons_of_pos (by simp [hr])]
        exact (ih next).trans (((perm_add? hr hadd).append_left _).trans List.perm_middle)

namespace WellFormed

/-- A region without bytes fits everywhere and shares no address with any. -/
theorem exists_add?_iff (h : image.WellFormed) :
    (∃ next, image.add? r = some next) ↔
      r.stop ≤ UInt64.size - 1 ∧ ∀ s ∈ image.regions, ¬r.Meets s := by
  by_cases hr : r.bytes.isEmpty = true
  · refine iff_of_true ⟨image, add?_empty hr⟩ ⟨?_, fun s _ hmeets => ?_⟩
    · have hsize : r.bytes.size = 0 := by simpa [Array.isEmpty] using hr
      have hbase := r.base.toNat_lt_size
      unfold Region.stop
      omega
    · exact Region.not_meets_empty hr hmeets.symm
  · have hr : r.bytes.isEmpty = false := by simpa using hr
    have hnone := h.add?_eq_none_iff hr
    cases hadd : image.add? r with
    | none =>
      refine iff_of_false nofun fun hh => ?_
      obtain hstop | ⟨s, hs, hmeets⟩ := hnone.mp hadd
      · omega
      · exact hh.2 s hs hmeets
    | some next =>
      refine iff_of_true ⟨next, rfl⟩ ⟨?_, fun s hs hmeets => ?_⟩
      · by_contra hstop
        rw [hnone.mpr (.inl (by omega))] at hadd
        cases hadd
      · rw [hnone.mpr (.inr ⟨s, hs, hmeets⟩)] at hadd
        cases hadd

theorem not_meets_add? (hadd : image.add? r = some next) :
    (∀ q ∈ next.regions, ¬s.Meets q) ↔ ¬s.Meets r ∧ ∀ q ∈ image.regions, ¬s.Meets q := by
  by_cases hr : r.bytes.isEmpty = true
  · rw [add?_empty hr] at hadd
    cases hadd
    simp [Region.not_meets_empty hr]
  · have hr : r.bytes.isEmpty = false := by simpa using hr
    simp only [mem_add? hr hadd, forall_eq_or_imp]

/-- Regions are taken without exception exactly if they keep apart from each other and from what
is there. -/
theorem accepted_eq_iff (h : image.WellFormed) :
    image.accepted rs = rs ↔ Apart rs ∧ ∀ r ∈ rs, ∀ s ∈ image.regions, ¬r.Meets s := by
  induction rs generalizing image with
  | nil => exact iff_of_true rfl ⟨⟨nofun, .nil⟩, nofun⟩
  | cons r rs ih =>
    rw [accepted_cons_eq_iff, Region.apart_cons, List.forall_mem_cons]
    constructor
    · intro hh
      obtain ⟨next, hadd, hrest⟩ := hh
      obtain ⟨hstop, hr⟩ := h.exists_add?_iff.mp ⟨next, hadd⟩
      obtain ⟨hrs, hnew⟩ := (ih (h.add? hadd)).mp hrest
      have hmeets (s : Region) (hs : s ∈ rs) := (not_meets_add? hadd).mp (hnew s hs)
      exact ⟨⟨⟨hstop, fun s hs hrs => (hmeets s hs).1 hrs.symm⟩, hrs⟩, hr,
        fun s hs => (hmeets s hs).2⟩
    · intro hh
      obtain ⟨⟨⟨hstop, hapart⟩, hrs⟩, hr, hnew⟩ := hh
      obtain ⟨next, hadd⟩ := h.exists_add?_iff.mpr ⟨hstop, hr⟩
      refine ⟨next, hadd, (ih (h.add? hadd)).mpr ⟨hrs, fun s hs => ?_⟩⟩
      exact (not_meets_add? hadd).mpr ⟨fun hsr => hapart s hs hsr.symm, hnew s hs⟩

/-- The order of the regions in an image is determined by the regions. -/
theorem eq_of_perm (h : image.WellFormed) (h' : next.WellFormed)
    (hp : image.regions.Perm next.regions) : image = next := by
  have hregions : image.regions = next.regions := by
    refine hp.eq_of_pairwise (fun r s _ _ hrs hsr => ?_) h.ascending h'.ascending
    have hlt := hrs.base_lt
    have hlt' := hsr.base_lt
    omega
  cases image
  cases next
  cases hregions
  rfl

end WellFormed

theorem accepted_empty_eq_iff : empty.accepted rs = rs ↔ Apart rs := by
  rw [wellFormed_empty.accepted_eq_iff]
  exact and_iff_left fun _ _ _ hs => absurd hs List.not_mem_nil

theorem perm_history (rs : List Region) :
    (history rs).regions.Perm ((empty.accepted rs).filter fun r => !r.bytes.isEmpty) := by
  have hperm := perm_accepted empty rs
  rw [show empty.regions = [] from rfl, List.append_nil] at hperm
  exact hperm

theorem history_perm (hrs : Apart rs) (hp : rs'.Perm rs) : history rs' = history rs := by
  refine (wellFormed_history rs').eq_of_perm (wellFormed_history rs) ?_
  have hperm := perm_history rs
  have hperm' := perm_history rs'
  rw [accepted_empty_eq_iff.mpr hrs] at hperm
  rw [accepted_empty_eq_iff.mpr (hrs.perm hp)] at hperm'
  exact hperm'.trans ((hp.filter _).trans hperm.symm)

end Image

end JitFrames
