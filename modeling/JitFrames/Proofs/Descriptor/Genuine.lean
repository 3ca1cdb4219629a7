import JitFrames.Proofs.DenseLayout
import JitFrames.Proofs.Descriptor.Lookup

namespace JitFrames

theorem Descriptor.pc_eq {m : CompiledMethod} {desc : Descriptor} {pc : Address} {offset : Nat}
    (hpc : m.blob.instructionsBegin.toNat + offset = pc.toNat)
    (hoffset : desc.pcOffset.toInt = offset) : desc.pc m = pc := by
  have hsum : (m.blob.instructionsBegin.toNat : Int) + desc.pcOffset.toInt = pc.toNat := by omega
  have hlt := pc.toNat_lt_size
  simp only [Descriptor.pc, UInt64.ofInt]
  rw [hsum]
  apply UInt64.toNat_inj.mp
  rw [UInt64.toNat_ofNat']
  simp only [UInt64.size] at hlt
  omega

namespace DescriptorTable

variable {d : DescriptorTable} {t : Target} {cache : DescriptorCache} {offset i : Nat}
  {precision : Precision} {desc : Descriptor}

/-- A descriptor that stands in memory where it says and passes the matching rule. -/
structure Matched (d : DescriptorTable) (t : Target) (offset : Nat) (precision : Precision)
    (desc : Descriptor) : Prop where
  read : Descriptor.read t desc.address = .ok desc
  answers : d.answers t desc offset precision = .ok true

theorem Matched.of_read {a : Address} (hread : Descriptor.read t a = .ok desc)
    (hanswers : d.answers t desc offset precision = .ok true) :
    desc.address = a ∧ d.Matched t offset precision desc := by
  have ha := Descriptor.address_of_read hread
  exact ⟨ha, ha ▸ hread, hanswers⟩

/-- A hit among the older descriptors is at one of their pointers. -/
theorem matched_of_findInSlots {slots : List (Option Address)}
    (h : d.findInSlots t offset precision slots = .ok (some desc)) :
    some desc.address ∈ slots ∧ d.Matched t offset precision desc := by
  induction slots with
  | nil => cases h
  | cons slot slots ih =>
    cases slot with
    | none => cases h
    | some a =>
      obtain ⟨e, hread, h⟩ := Answer.bind_eq_ok.mp h
      split at h
      · cases h
      · obtain ⟨r, hanswers, h⟩ := Answer.bind_eq_ok.mp h
        cases r with
        | true =>
          cases h
          have hm := Matched.of_read hread hanswers
          exact ⟨by simp [hm.1], hm.2⟩
        | false =>
          have hm := ih h
          exact ⟨List.mem_cons_of_mem _ hm.1, hm.2⟩

theorem matched_of_findCached (h : d.findCached t cache offset precision = .ok (some desc)) :
    some desc.address ∈ cache.recent :: cache.slots ∧ d.Matched t offset precision desc := by
  simp only [findCached] at h
  cases hrecent : cache.recent with
  | none =>
    rw [hrecent] at h
    cases h
  | some a =>
    rw [hrecent] at h
    obtain ⟨e, hread, h⟩ := Answer.bind_eq_ok.mp h
    obtain ⟨r, hanswers, h⟩ := Answer.bind_eq_ok.mp h
    cases r with
    | true =>
      cases h
      have hm := Matched.of_read hread hanswers
      exact ⟨by simp [hm.1], hm.2⟩
    | false =>
      have hm := matched_of_findInSlots h
      exact ⟨List.mem_cons_of_mem _ hm.1, hm.2⟩

theorem matched_of_search {pivot : Option Address}
    (h : d.search t offset precision pivot = .ok (some desc)) :
    (∃ i < d.sentinel, d.entry t i = .ok desc) ∧ d.Matched t offset precision desc := by
  obtain ⟨i, hi, hentry, hanswers⟩ := search_eq_some h
  exact ⟨⟨i, hi, hentry⟩, (Matched.of_read hentry hanswers).2⟩

theorem Matched.ne_sentinel (h : d.Matched t offset precision desc) (hpos : 0 < d.length) :
    desc.address ≠ d.addressOf d.sentinel := by
  intro heq
  apply (answers_eq_true h.answers).1
  exact indexOf?_eq_sentinel_iff.mpr ⟨hpos, heq⟩

/-- An approximate match is an entry of the table, with another one before it. -/
theorem Matched.between (h : d.Matched t offset .approximate desc) :
    ∃ i x, i + 1 < d.sentinel ∧ d.entry t (i + 1) = .ok desc ∧ d.entry t i = .ok x ∧
      x.pcOffset.toInt < offset ∧ offset ≤ desc.pcOffset.toInt := by
  obtain ⟨hlast, -, happroximate⟩ := answers_eq_true h.answers
  obtain ⟨i, x, hindex, hx, hlt, hle⟩ := happroximate rfl
  obtain ⟨hi, haddress⟩ := indexOf?_eq_some_iff.mp hindex
  have hne : i + 1 ≠ d.sentinel := by
    intro heq
    exact hlast (heq ▸ hindex)
  have hs : i + 1 < d.sentinel := by
    simp only [sentinel] at hne ⊢
    omega
  have hentry : d.entry t (i + 1) = .ok desc := by
    simp only [entry]
    rw [haddress, h.read]
  exact ⟨i, x, hs, hentry, hx, hlt, hle⟩

end DescriptorTable

namespace CompiledMethod

open DescriptorTable

variable {m : CompiledMethod} {t : Target} {pc : Address} {precision : Precision}
  {desc : Descriptor}

theorem matched_of_findDescriptor (h : m.findDescriptor t pc precision = .ok (some desc)) :
    ∃ offset d cache, m.instructionOffset? pc = some offset ∧ m.descriptorTable t = .ok d ∧
      m.cache t = .ok cache ∧
      ((∃ i < d.sentinel, d.entry t i = .ok desc) ∨
        some desc.address ∈ cache.recent :: cache.slots) ∧
      d.Matched t offset precision desc := by
  obtain ⟨offset, d, cache, hoffset, htable, hcache, hfound⟩ := findDescriptor_eq_some_iff.mp h
  refine ⟨offset, d, cache, hoffset, htable, hcache, ?_⟩
  rcases hfound with hcached | ⟨-, hsearch⟩
  · have hm := matched_of_findCached hcached
    exact ⟨.inr hm.1, hm.2⟩
  · have hm := matched_of_search hsearch
    exact ⟨.inl hm.1, hm.2⟩

/-- What is found stands in memory, is never the closing entry and lies at the instruction asked
for: exactly there, from the table or from the cache, or approximately, and then it is an entry of
the table whose predecessor lies below. -/
theorem findDescriptor_genuine (h : m.findDescriptor t pc precision = .ok (some desc)) :
    ∃ offset d cache, m.blob.instructionsBegin.toNat + offset = pc.toNat ∧ offset < 0x7FFFFFFF ∧
      m.descriptorTable t = .ok d ∧ m.cache t = .ok cache ∧
      Descriptor.read t desc.address = .ok desc ∧
      (0 < d.length → desc.address ≠ d.addressOf d.sentinel) ∧
      (precision = .exact → desc.pcOffset.toInt = offset ∧ desc.pc m = pc ∧
        ((∃ i < d.sentinel, d.entry t i = .ok desc) ∨
          some desc.address ∈ cache.recent :: cache.slots)) ∧
      (precision = .approximate → ∃ i x, 1 ≤ i ∧ i < d.sentinel ∧ d.entry t i = .ok desc ∧
        d.entry t (i - 1) = .ok x ∧ x.pcOffset.toInt < offset ∧
        offset ≤ desc.pcOffset.toInt) := by
  obtain ⟨offset, d, cache, hoffset, htable, hcache, hplace, hm⟩ := matched_of_findDescriptor h
  obtain ⟨hpc, hlt⟩ := instructionOffset?_eq_some_iff.mp hoffset
  refine ⟨offset, d, cache, hpc, hlt, htable, hcache, hm.read, hm.ne_sentinel, ?_, ?_⟩
  · intro hexact
    have heq := (answers_eq_true hm.answers).2.1 hexact
    exact ⟨heq, Descriptor.pc_eq hpc heq, hplace⟩
  · rintro rfl
    obtain ⟨i, x, hi, hentry, hx, hbelow, hle⟩ := hm.between
    exact ⟨i + 1, x, Nat.succ_pos i, hi, hentry, hx, hbelow, hle⟩

/-- Three entries out of order and the closing one. The cache names the second entry, then an
address inside the first one. -/
def unorderedTarget : Target :=
  .ofWords [32, 28, 0, 0, 0, 0, 9, 1, 5, 2, 7, 3, 12, 0]

/-- A pivot brings up the third entry for an instruction between it and the second; what the
address inside the first entry shows is found exactly. -/
theorem findDescriptor_genuine_unordered :
    (compact 56).findDescriptor unorderedTarget 6 .approximate = .ok (some ⟨40, 7, 3⟩) ∧
    (∃ d i x, (compact 56).descriptorTable unorderedTarget = .ok d ∧ i < d.sentinel ∧
      d.entry unorderedTarget i = .ok ⟨40, 7, 3⟩ ∧ d.entry unorderedTarget (i - 1) = .ok x ∧
      x.pcOffset.toInt < 6) ∧
    (compact 56).findDescriptor unorderedTarget 1 .exact = .ok (some ⟨28, 1, 5⟩) ∧
    (⟨28, 1, 5⟩ : Descriptor).pc (compact 56) = 1 := by
  have happroximate :
      (compact 56).findDescriptor unorderedTarget 6 .approximate = .ok (some ⟨40, 7, 3⟩) := by
    with_unfolding_all rfl
  have hexact : (compact 56).findDescriptor unorderedTarget 1 .exact = .ok (some ⟨28, 1, 5⟩) := rfl
  refine ⟨happroximate, ?_, hexact, ?_⟩
  · obtain ⟨offset, d, cache, hpc, -, htable, -, -, -, -, hbetween⟩ :=
      findDescriptor_genuine happroximate
    obtain ⟨i, x, -, hi, hentry, hx, hbelow, -⟩ := hbetween rfl
    have hoffset : offset = 6 := (Nat.zero_add offset).symm.trans hpc
    exact ⟨d, i, x, htable, hi, hentry, hx, by rwa [hoffset] at hbelow⟩
  · obtain ⟨offset, d, cache, -, -, -, -, -, -, hat, -⟩ := findDescriptor_genuine hexact
    exact (hat rfl).2.1

end CompiledMethod

end JitFrames
