import Mathlib.Data.List.TakeWhile
import JitFrames.Text.Blank

namespace JitFrames.Blank

variable {cs front text back : List Char} {c : Char}

/-- The text stands between blanks, and neither begins nor ends with one. -/
structure Trims (cs text : List Char) : Prop where
  around : ∃ front back, cs = front ++ text ++ back ∧ (∀ c ∈ front, isBlank c = true) ∧
    ∀ c ∈ back, isBlank c = true
  first : ∀ c ∈ text.head?, isBlank c = false
  last : ∀ c ∈ text.getLast?, isBlank c = false

/-- No blank stands between the space and U+0085, where the digits and letters are. -/
theorem isBlank_of_visible (hlow : 0x20 < c.toNat) (hhigh : c.toNat < 0x85) :
    isBlank c = false := by
  rw [isBlank, List.any_eq_false]
  intro r hr
  rw [decide_eq_true_iff]
  simp only [ranges, List.mem_cons, List.not_mem_nil, or_false] at hr
  obtain rfl | rfl | rfl | rfl | rfl | rfl | rfl | rfl | rfl | rfl := hr <;> omega

theorem first_dropWhile (h : c ∈ (cs.dropWhile isBlank).head?) : isBlank c = false := by
  have hfirst := List.head?_dropWhile_not isBlank cs
  rw [Option.mem_def.mp h] at hfirst
  exact hfirst

theorem dropWhile_of_first (h : ∀ c ∈ cs.head?, isBlank c = false) : cs.dropWhile isBlank = cs := by
  cases cs with
  | nil => rfl
  | cons c cs => exact List.dropWhile_cons_of_neg (by simpa using h c rfl)

theorem trims_trim (cs : List Char) : Trims cs (trim cs) := by
  let rest := cs.dropWhile isBlank
  have hrest : rest = trim cs ++ (rest.reverse.takeWhile isBlank).reverse := by
    rw [trim, ← List.reverse_append, List.takeWhile_append_dropWhile, List.reverse_reverse]
  have hcs : cs = cs.takeWhile isBlank ++ rest := List.takeWhile_append_dropWhile.symm
  refine ⟨⟨cs.takeWhile isBlank, (rest.reverse.takeWhile isBlank).reverse, ?_, ?_, ?_⟩, ?_, ?_⟩
  · rw [List.append_assoc, ← hrest]
    exact hcs
  · exact fun c hc => List.mem_takeWhile_imp hc
  · exact fun c hc => List.mem_takeWhile_imp (List.mem_reverse.mp hc)
  · intro c hc
    have hfirst : c ∈ rest.head? := by
      rw [hrest, List.head?_append, Option.mem_def.mp hc]
      rfl
    exact first_dropWhile hfirst
  · intro c hc
    rw [trim, List.getLast?_reverse] at hc
    exact first_dropWhile hc

/-- What is cut off in front, and then at the end, goes up to the text and not into it. -/
theorem trim_eq_of_trims (h : Trims cs text) : trim cs = text := by
  obtain ⟨⟨front, back, rfl, hfront, hback⟩, hfirst, hlast⟩ := h
  have hreverse : text.reverse.dropWhile isBlank = text.reverse :=
    dropWhile_of_first fun c hc => hlast c (by rwa [List.head?_reverse] at hc)
  rw [trim, List.append_assoc, List.dropWhile_append_of_pos hfront]
  cases text with
  | nil =>
    rw [List.nil_append, List.dropWhile_eq_nil_iff.mpr hback]
    rfl
  | cons c text =>
    have hkeep : (c :: text ++ back).dropWhile isBlank = c :: text ++ back :=
      dropWhile_of_first hfirst
    rw [hkeep, List.reverse_append, List.dropWhile_append_of_pos (by simpa using hback), hreverse,
      List.reverse_reverse]

theorem trim_eq_iff : trim cs = text ↔ Trims cs text :=
  ⟨fun h => h ▸ trims_trim cs, trim_eq_of_trims⟩

end JitFrames.Blank
