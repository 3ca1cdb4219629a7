import JitFrames.Proofs.Image.Regions
import JitFrames.Snapshot.Basic

namespace JitFrames.Image

variable {image : Image} {r : Region}

/-- Adds a region to the image that is being put together. A refused region leaves it as it was. -/
def add (image : Image) (r : Region) : Except Failure Unit × Image :=
  match image.addOrFail r with
  | .ok next => (.ok (), next)
  | .error e => (.error e, image)

/-- The image after attempts to add regions, the first of them to an image without regions. -/
def history (rs : List Region) : Image := rs.foldl (fun image r => (image.add r).2) empty

theorem add_of_add?_some {next : Image} (h : image.add? r = some next) :
    image.add r = (.ok (), next) := by
  unfold add addOrFail
  rw [h]

theorem add_of_add?_none (h : image.add? r = none) :
    image.add r = (.error (.overlappingRegion r.base), image) := by
  unfold add addOrFail
  rw [h]

theorem add_eq_error_iff {e : Failure} :
    (image.add r).1 = .error e ↔ image.add? r = none ∧ e = .overlappingRegion r.base := by
  cases h : image.add? r with
  | none => simp [add_of_add?_none h, eq_comm]
  | some next => simp [add_of_add?_some h]

theorem add_eq_ok_iff : (image.add r).1 = .ok () ↔ image.add? r = some (image.add r).2 := by
  cases h : image.add? r with
  | none => simp [add_of_add?_none h]
  | some next => simp [add_of_add?_some h]

theorem WellFormed.add (h : image.WellFormed) (r : Region) : (image.add r).2.WellFormed := by
  cases hadd : image.add? r with
  | none =>
    rw [add_of_add?_none hadd]
    exact h
  | some next =>
    rw [add_of_add?_some hadd]
    exact h.add? hadd

theorem WellFormed.foldl_add (h : image.WellFormed) (rs : List Region) :
    (rs.foldl (fun image r => (image.add r).2) image).WellFormed := by
  induction rs generalizing image with
  | nil => exact h
  | cons r rs ih => exact ih (h.add r)

theorem wellFormed_history (rs : List Region) : (history rs).WellFormed :=
  wellFormed_empty.foldl_add rs

/-- After any attempts the regions are in order. A region without bytes changes nothing; any other
one is refused exactly if it passes the end of the address space or meets a region of the image,
which then stays as it is; one that is accepted is a region of the image from then on. -/
theorem history_regions (rs : List Region) :
    (history rs).WellFormed ∧
    ∀ r : Region,
      (r.bytes.isEmpty = true → (history rs).add r = (.ok (), history rs)) ∧
      (r.bytes.isEmpty = false →
        ((∃ e, ((history rs).add r).1 = .error e) ↔
          UInt64.size - 1 < r.base.toNat + r.bytes.size ∨
            ∃ s ∈ (history rs).regions, r.Meets s) ∧
        (((history rs).add r).1 = .ok () →
          ∀ s, s ∈ ((history rs).add r).2.regions ↔ s = r ∨ s ∈ (history rs).regions)) ∧
      ∀ e, ((history rs).add r).1 = .error e →
        e = .overlappingRegion r.base ∧ ((history rs).add r).2 = history rs := by
  have h := wellFormed_history rs
  refine ⟨h, fun r => ⟨fun hr => ?_, fun hr => ⟨?_, fun hok s => ?_⟩, fun e he => ?_⟩⟩
  · exact add_of_add?_some (add?_empty hr)
  · have hnone := h.add?_eq_none_iff hr
    simp only [add_eq_error_iff, exists_and_left, exists_eq, and_true]
    exact hnone
  · exact mem_add? hr (add_eq_ok_iff.mp hok)
  · obtain ⟨hnone, rfl⟩ := add_eq_error_iff.mp he
    rw [add_of_add?_none hnone]
    exact ⟨rfl, rfl⟩

/-- A region, one that begins before it and overlaps it, one that ends where it begins, and one that
ends at the last address. The second one is refused. -/
def touching : List Region :=
  [⟨0x1002, #[3]⟩, ⟨0x1000, #[1, 2, 9]⟩, ⟨0x1000, #[1, 2]⟩, ⟨0xFFFFFFFFFFFFFFFE, #[4]⟩]

/-- The last address there is cannot be captured, a region around others is refused, and one that
fills the gap up to a region is accepted. -/
theorem history_regions_touching :
    (∃ e, ((history touching).add ⟨0xFFFFFFFFFFFFFFFF, #[5]⟩).1 = .error e) ∧
    (∃ e, ((history touching).add ⟨0xFFF, #[0, 0, 0, 0, 0]⟩).1 = .error e) ∧
    (∀ s, s ∈ ((history touching).add ⟨0xFFE, #[6, 7]⟩).2.regions ↔
      s = ⟨0xFFE, #[6, 7]⟩ ∨ s ∈ (history touching).regions) ∧
    (history touching).add ⟨0x1000, #[]⟩ = (.ok (), history touching) := by
  have h := (history_regions touching).2
  refine ⟨?_, ?_, ?_, (h ⟨0x1000, #[]⟩).1 rfl⟩
  · exact ((h ⟨0xFFFFFFFFFFFFFFFF, #[5]⟩).2.1 rfl).1.mpr (.inl (by decide))
  · refine ((h ⟨0xFFF, #[0, 0, 0, 0, 0]⟩).2.1 rfl).1.mpr (.inr ⟨⟨0x1002, #[3]⟩, by decide, ?_⟩)
    exact ⟨0x1002, ⟨by decide, by decide⟩, by decide, by decide⟩
  · exact ((h ⟨0xFFE, #[6, 7]⟩).2.1 rfl).2 rfl

end JitFrames.Image
