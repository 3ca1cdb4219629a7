import Mathlib.Logic.Basic
import JitFrames.Code.Descriptor.Lookup
import JitFrames.Proofs.Descriptor.Bracket
import JitFrames.Proofs.Descriptor.Table

namespace JitFrames.DescriptorTable

variable {d : DescriptorTable} {t : Target} {entries : List Descriptor} {offset i : Nat}
  {precision : Precision} {desc : Descriptor}

/-- The entry at an index, and it answers for an instruction offset. -/
def Answering (entries : List Descriptor) (offset : Nat) (precision : Precision) (i : Nat)
    (e : Descriptor) : Prop :=
  entries[i]? = some e ∧
    match precision with
    | .exact => e.pcOffset.toInt = offset
    | .approximate => ∃ j x, i = j + 1 ∧ entries[j]? = some x ∧ x.pcOffset.toInt < offset ∧
        offset ≤ e.pcOffset.toInt

theorem exists_answering_approximate_iff {e : Descriptor} :
    (∃ i, Answering entries offset .approximate i e) ↔
      ∃ (i : Nat) (x : Descriptor), entries[i]? = some x ∧ entries[i + 1]? = some e ∧
        x.pcOffset.toInt < offset ∧ offset ≤ e.pcOffset.toInt := by
  constructor
  · rintro ⟨_, he, i, x, rfl, hx, hlt, hle⟩
    exact ⟨i, x, hx, he, hlt, hle⟩
  · rintro ⟨i, x, hx, he, hlt, hle⟩
    exact ⟨i + 1, he, i, x, rfl, hx, hlt, hle⟩

theorem answers_sentinel (h : d.indexOf? desc.address = some d.sentinel) :
    d.answers t desc offset precision = .ok false := by
  simp only [answers]
  rw [if_pos h]
  rfl

theorem answers_exact (h : d.indexOf? desc.address ≠ some d.sentinel) :
    d.answers t desc offset .exact = .ok (desc.pcOffset.toInt == offset) := by
  simp only [answers]
  rw [if_neg h]
  rfl

theorem answers_first (h : d.indexOf? desc.address = some 0) :
    d.answers t desc offset .approximate = .ok false := by
  simp only [answers]
  rw [h]
  dsimp only
  split <;> rfl

theorem answers_after {x : Descriptor} (h : d.indexOf? desc.address = some (i + 1))
    (hlast : i + 1 ≠ d.sentinel) (hx : d.entry t i = .ok x) :
    d.answers t desc offset .approximate =
      .ok (x.pcOffset.toInt < offset && offset ≤ desc.pcOffset.toInt) := by
  simp only [answers]
  rw [h, if_neg (by simpa using hlast)]
  exact Answer.bind_eq_ok.mpr ⟨x, hx, rfl⟩

/-- The matching rule at its success: never the closing entry; exactly at the offset, or at the
first entry of the table that reaches it. -/
theorem answers_eq_true (h : d.answers t desc offset precision = .ok true) :
    d.indexOf? desc.address ≠ some d.sentinel ∧
      (precision = .exact → desc.pcOffset.toInt = offset) ∧
      (precision = .approximate → ∃ i x, d.indexOf? desc.address = some (i + 1) ∧
        d.entry t i = .ok x ∧ x.pcOffset.toInt < offset ∧ offset ≤ desc.pcOffset.toInt) := by
  have hlast : d.indexOf? desc.address ≠ some d.sentinel := by
    intro hlast
    rw [answers_sentinel hlast] at h
    cases h
  refine ⟨hlast, ?_, ?_⟩
  · rintro rfl
    rw [answers_exact hlast] at h
    exact beq_iff_eq.mp (Except.ok.inj h)
  · rintro rfl
    simp only [answers] at h
    rw [if_neg hlast] at h
    cases hindex : d.indexOf? desc.address with
    | none => rw [hindex] at h; cases h
    | some i =>
      cases i with
      | zero => rw [hindex] at h; cases h
      | succ i =>
        rw [hindex] at h
        obtain ⟨x, hx, h⟩ := Answer.bind_eq_ok.mp h
        have hboth := Answer.pure_eq_ok.mp h
        rw [Bool.and_eq_true, decide_eq_true_eq, decide_eq_true_eq] at hboth
        exact ⟨i, x, rfl, hx, hboth⟩

/-- An entry of the table gets its verdict from the entries alone; the closing one never answers. -/
theorem Lists.answers_entry (hl : d.Lists t entries) (offset : Nat) (precision : Precision)
    (hi : i < d.length) (hr : d.entry t i = .ok desc) :
    ∃ r, d.answers t desc offset precision = .ok r ∧
      (r = true ↔ Answering entries offset precision i desc) := by
  have haddress : desc.address = d.addressOf i := Descriptor.address_of_read hr
  have hindex : d.indexOf? desc.address = some i := by rw [haddress, indexOf?_addressOf hi]
  rw [hl.length] at hi
  by_cases hlast : i = entries.length
  · have hnone : entries[i]? = none := List.getElem?_eq_none (Nat.le_of_eq hlast.symm)
    exact ⟨false, answers_sentinel (by rw [hindex, hl.sentinel, hlast]), by simp [Answering, hnone]⟩
  · have hget : entries[i]? = some desc := by
      have hlt : i < entries.length := by omega
      have h := hl.entry i entries[i] (List.getElem?_eq_getElem hlt)
      rw [hr] at h
      rw [List.getElem?_eq_getElem hlt, Except.ok.inj h]
    have hne : d.indexOf? desc.address ≠ some d.sentinel := by
      rw [hindex, hl.sentinel]
      simpa using hlast
    cases precision with
    | exact => exact ⟨_, answers_exact hne, by simp [Answering, hget]⟩
    | approximate =>
      cases i with
      | zero => exact ⟨false, answers_first hindex, by simp [Answering]⟩
      | succ i =>
        have hlt : i < entries.length := by omega
        have hx := List.getElem?_eq_getElem hlt
        refine ⟨_, answers_after hindex (by rw [hl.sentinel]; exact hlast) (hl.entry i _ hx), ?_⟩
        simp [Answering, hget, hx]

/-- The probe of a readable entry. -/
theorem Lists.below_eq (hl : d.Lists t entries) (offset : Nat) (hi : i < entries.length) :
    d.below t offset i = .ok (decide (entries[i].pcOffset.toInt < offset)) :=
  Answer.bind_eq_ok.mpr ⟨_, hl.entry i _ (List.getElem?_eq_getElem hi), rfl⟩

/-- Whatever pivot it starts from, and on any table, the bracket shows only what was probed. -/
theorem startBracket_eq_ok {pivot : Option Address} {b : Bracket}
    (h : d.startBracket t offset pivot = .ok b) : b.Valid (d.below t offset) d.sentinel := by
  have hall := Bracket.valid_all (d.below t offset) d.sentinel
  simp only [startBracket] at h
  cases hpivot : pivot.bind d.indexOf? with
  | none =>
    rw [hpivot] at h
    cases h
    exact hall
  | some p =>
    rw [hpivot] at h
    dsimp only at h
    split at h
    · next hp =>
      obtain ⟨isBelow, hb, h⟩ := Answer.bind_eq_ok.mp h
      cases h
      exact hall.probed (Nat.zero_le p) hp hb
    · cases h
      exact hall

/-- On any table, sorted or not, what the search finds is an entry before the closing one that
answers. -/
theorem search_eq_some {pivot : Option Address}
    (h : d.search t offset precision pivot = .ok (some desc)) :
    ∃ i < d.sentinel, d.entry t i = .ok desc ∧
      d.answers t desc offset precision = .ok true := by
  simp only [search] at h
  split at h
  · cases h
  · obtain ⟨start, hstart, h⟩ := Answer.bind_eq_ok.mp h
    obtain ⟨b, hb, h⟩ := Answer.bind_eq_ok.mp h
    have hle := (Bracket.close_eq_ok (startBracket_eq_ok hstart) hb).1.ceiling_le
    split at h
    · cases h
    · next hlast =>
      obtain ⟨e, he, h⟩ := Answer.bind_eq_ok.mp h
      obtain ⟨r, hr, h⟩ := Answer.bind_eq_ok.mp h
      cases r with
      | false => cases h
      | true =>
        cases h
        exact ⟨b.ceiling, Nat.lt_of_le_of_ne hle hlast, he, hr⟩

theorem Lists.startBracket_ok (hl : d.Lists t entries) (offset : Nat) (pivot : Option Address) :
    ∃ b, d.startBracket t offset pivot = .ok b ∧
      b.Valid (d.below t offset) entries.length := by
  have hok : ∃ b, d.startBracket t offset pivot = .ok b := by
    simp only [startBracket]
    cases pivot.bind d.indexOf? with
    | none => exact ⟨_, rfl⟩
    | some p =>
      by_cases hp : p < d.sentinel
      · have hb := hl.below_eq offset (hl.sentinel ▸ hp)
        simp only [if_pos hp]
        exact ⟨_, Answer.bind_eq_ok.mpr ⟨_, hb, rfl⟩⟩
      · exact ⟨_, by simp only [if_neg hp]; rfl⟩
  obtain ⟨b, hb⟩ := hok
  have hv := startBracket_eq_ok hb
  rw [hl.sentinel] at hv
  exact ⟨b, hb, hv⟩

/-- How many entries lie below the offset; they stand in front of the others. -/
structure Boundary (entries : List Descriptor) (offset c : Nat) : Prop where
  le_length : c ≤ entries.length
  below_iff : ∀ i (e : Descriptor), entries[i]? = some e → (e.pcOffset.toInt < offset ↔ i < c)

theorem Boundary.unique {c c' : Nat} (hc : Boundary entries offset c)
    (hc' : Boundary entries offset c') : c = c' := by
  have hle := hc.le_length
  have hle' := hc'.le_length
  rcases Nat.lt_trichotomy c c' with hlt | heq | hlt
  · have hget := List.getElem?_eq_getElem (Nat.lt_of_lt_of_le hlt hle')
    exact absurd ((hc.below_iff c _ hget).mp ((hc'.below_iff c _ hget).mpr hlt)) (Nat.lt_irrefl c)
  · exact heq
  · have hget := List.getElem?_eq_getElem (Nat.lt_of_lt_of_le hlt hle)
    exact absurd ((hc'.below_iff c' _ hget).mp ((hc.below_iff c' _ hget).mpr hlt))
      (Nat.lt_irrefl c')

/-- Only the entry at the boundary can answer approximately. -/
theorem Boundary.eq_of_approximate {c : Nat} {e : Descriptor} (hc : Boundary entries offset c)
    (h : Answering entries offset .approximate i e) : i = c := by
  obtain ⟨he, j, x, rfl, hx, hlt, hle⟩ := h
  have hj := (hc.below_iff j x hx).mp hlt
  have hi := (hc.below_iff (j + 1) e he).not.mp (by omega)
  omega

/-- If any entry answers exactly, then the one at the boundary does, and it is the first. -/
theorem Boundary.exact {c : Nat} {e : Descriptor} (hs : Ascending entries)
    (hc : Boundary entries offset c) (h : Answering entries offset .exact i e) :
    c ≤ i ∧ ∃ first, Answering entries offset .exact c first := by
  obtain ⟨he, heq⟩ := h
  have hi : c ≤ i := Nat.le_of_not_lt ((hc.below_iff i e he).not.mp (by omega))
  have hlt : c < entries.length := Nat.lt_of_le_of_lt hi (List.getElem?_eq_some_iff.mp he).1
  have hget := List.getElem?_eq_getElem hlt
  have hle := hs.le hi hget he
  have hge := (hc.below_iff c _ hget).not.mpr (Nat.lt_irrefl c)
  refine ⟨hi, entries[c], hget, ?_⟩
  dsimp only
  omega

/-- The rounds of probes end at the boundary, whatever the pivot. -/
theorem Lists.close_ok (hl : d.Lists t entries) (hs : Ascending entries) (offset : Nat)
    (pivot : Option Address) :
    ∃ start b, d.startBracket t offset pivot = .ok start ∧
      start.close (d.below t offset) = .ok b ∧ Boundary entries offset b.ceiling := by
  have hbelow (i : Nat) (e : Descriptor) (he : entries[i]? = some e) :
      d.below t offset i = .ok true ↔ e.pcOffset.toInt < offset := by
    obtain ⟨hi, rfl⟩ := List.getElem?_eq_some_iff.mp he
    rw [hl.below_eq offset hi]
    simp
  have hmono (i j : Nat) (hij : i ≤ j) (hj : j < entries.length)
      (h : d.below t offset j = .ok true) : d.below t offset i = .ok true := by
    have hx := List.getElem?_eq_getElem (Nat.lt_of_le_of_lt hij hj)
    have hy := List.getElem?_eq_getElem hj
    have hle := hs.le hij hx hy
    rw [hbelow j _ hy] at h
    exact (hbelow i _ hx).mpr (by omega)
  obtain ⟨start, hstart, hv⟩ := hl.startBracket_ok offset pivot
  obtain ⟨b, hb⟩ := Bracket.close_ok (fun i hi => ⟨_, hl.below_eq offset hi⟩) hv
  obtain ⟨hv, hclosed⟩ := Bracket.close_eq_ok hv hb
  refine ⟨start, b, hstart, hb, hv.ceiling_le, fun i e he => ?_⟩
  rw [← hbelow i e he]
  exact hv.boundary hclosed hmono i (List.getElem?_eq_some_iff.mp he).1

/-- The search gives the entry at the boundary, if that one answers. -/
theorem Lists.search_ok (hl : d.Lists t entries) (hs : Ascending entries) (offset : Nat)
    (precision : Precision) (pivot : Option Address) :
    ∃ c r, Boundary entries offset c ∧ d.search t offset precision pivot = .ok r ∧
      ∀ e, r = some e ↔ Answering entries offset precision c e := by
  obtain ⟨start, b, hstart, hb, hc⟩ := hl.close_ok hs offset pivot
  have hle := hc.le_length
  simp only [search]
  by_cases hempty : d.isEmpty = true
  · have hnil : entries = [] := by
      have hlen := hl.length
      simp only [isEmpty, decide_eq_true_eq] at hempty
      exact List.eq_nil_of_length_eq_zero (by omega)
    subst hnil
    exact ⟨b.ceiling, none, hc, by rw [if_pos hempty]; rfl, by simp [Answering]⟩
  · rw [if_neg hempty]
    by_cases hlast : b.ceiling = entries.length
    · refine ⟨b.ceiling, none, hc, ?_, by simp [Answering, hlast]⟩
      refine Answer.bind_eq_ok.mpr ⟨start, hstart, Answer.bind_eq_ok.mpr ⟨b, hb, ?_⟩⟩
      rw [if_pos (by rw [hlast, hl.sentinel])]
      rfl
    · have hlt : b.ceiling < entries.length := by omega
      have hget := List.getElem?_eq_getElem hlt
      have hread := hl.entry _ _ hget
      obtain ⟨r, hr, hanswer⟩ := hl.answers_entry offset precision
        (by rw [hl.length]; omega) hread
      refine ⟨b.ceiling, if r then some entries[b.ceiling] else none, hc, ?_, fun e => ?_⟩
      · refine Answer.bind_eq_ok.mpr ⟨start, hstart, Answer.bind_eq_ok.mpr ⟨b, hb, ?_⟩⟩
        rw [if_neg (by rw [hl.sentinel]; exact hlast)]
        exact Answer.bind_eq_ok.mpr ⟨_, hread, Answer.bind_eq_ok.mpr ⟨r, hr, rfl⟩⟩
      · constructor
        · intro h
          cases r with
          | false => cases h
          | true =>
            cases h
            exact hanswer.mp rfl
        · intro h
          have he : entries[b.ceiling] = e := Option.some.inj (hget.symm.trans h.1)
          rw [he] at hanswer ⊢
          rw [if_pos (hanswer.mpr h)]

/-- An approximate search finds the one entry that answers, if there is one. -/
theorem Lists.search_approximate (hl : d.Lists t entries) (hs : Ascending entries) (offset : Nat)
    (pivot : Option Address) :
    ∃ r, d.search t offset .approximate pivot = .ok r ∧
      ∀ e, r = some e ↔ ∃ i, Answering entries offset .approximate i e := by
  obtain ⟨c, r, hc, hr, hiff⟩ := hl.search_ok hs offset .approximate pivot
  refine ⟨r, hr, fun e => (hiff e).trans ⟨fun he => ⟨c, he⟩, ?_⟩⟩
  rintro ⟨i, hi⟩
  rwa [hc.eq_of_approximate hi] at hi

/-- An exact search finds the first entry at the offset. -/
theorem Lists.search_exact (hl : d.Lists t entries) (hs : Ascending entries) (offset : Nat)
    (pivot : Option Address) :
    d.search t offset .exact pivot =
      .ok (entries.find? fun e => e.pcOffset.toInt == offset) := by
  obtain ⟨c, r, hc, hsearch, hr⟩ := hl.search_ok hs offset .exact pivot
  rw [hsearch]
  refine congrArg Except.ok (Option.ext fun e => ?_)
  rw [hr e, List.find?_eq_some_iff_getElem, beq_iff_eq]
  constructor
  · intro hh
    obtain ⟨he, heq⟩ := hh
    obtain ⟨hlt, rfl⟩ := List.getElem?_eq_some_iff.mp he
    refine ⟨heq, c, hlt, rfl, fun j hj => ?_⟩
    have hbelow := (hc.below_iff j _ (List.getElem?_eq_getElem (Nat.lt_trans hj hlt))).mpr hj
    rw [Bool.not_eq_true', beq_eq_false_iff_ne]
    omega
  · intro hh
    obtain ⟨heq, i, hlt, rfl, hbefore⟩ := hh
    have hi : Answering entries offset .exact i entries[i] :=
      ⟨List.getElem?_eq_getElem hlt, heq⟩
    obtain ⟨hle, first, hget, hfirst⟩ := hc.exact hs hi
    rcases Nat.eq_or_lt_of_le hle with rfl | hlt'
    · exact hi
    · have hno := hbefore c hlt'
      obtain ⟨_, rfl⟩ := List.getElem?_eq_some_iff.mp hget
      rw [Bool.not_eq_true', beq_eq_false_iff_ne] at hno
      exact absurd hfirst hno

/-- What the search finds depends on the entries only. -/
theorem Lists.search_eq {t' : Target} (hl : d.Lists t entries) (hl' : d.Lists t' entries)
    (hs : Ascending entries) (pivot pivot' : Option Address) :
    d.search t' offset precision pivot' = d.search t offset precision pivot := by
  obtain ⟨c, r, hc, hr, hiff⟩ :=
    hl.search_ok hs offset precision pivot
  obtain ⟨c', r', hc', hr', hiff'⟩ :=
    hl'.search_ok hs offset precision pivot'
  have heq : r' = r := by
    apply Option.ext
    intro e
    rw [hiff e, hiff' e, hc.unique hc']
  rw [hr, hr', heq]

end JitFrames.DescriptorTable
