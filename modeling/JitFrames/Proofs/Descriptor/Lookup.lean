import JitFrames.Proofs.Descriptor.Cache

namespace JitFrames.CompiledMethod

open DescriptorTable

/-- A method with an ascending table of readable descriptors and a readable cache. -/
structure Searchable (m : CompiledMethod) (t : Target) (d : DescriptorTable)
    (entries : List Descriptor) (cache : DescriptorCache) : Prop where
  table_eq : m.descriptorTable t = .ok d
  lists : d.Lists t entries
  ascending : Ascending entries
  cache_eq : m.cache t = .ok cache

variable {m : CompiledMethod} {t : Target} {d : DescriptorTable} {entries : List Descriptor}
  {cache : DescriptorCache} {pc : Address} {offset : Nat} {precision : Precision}
  {desc : Descriptor}

theorem instructionOffset?_eq_some_iff :
    m.instructionOffset? pc = some offset ↔
      m.blob.instructionsBegin.toNat + offset = pc.toNat ∧ offset < offsetLimit := by
  simp only [instructionOffset?]
  rw [Option.filter_eq_some_iff, Address.distance?_eq_some_iff, decide_eq_true_eq]

theorem findDescriptor_eq_none (h : m.instructionOffset? pc = none) :
    m.findDescriptor t pc precision = .ok none := by
  simp only [findDescriptor]
  rw [h]
  rfl

theorem findDescriptor_of_cached (htable : m.descriptorTable t = .ok d)
    (hcache : m.cache t = .ok cache) (hoffset : m.instructionOffset? pc = some offset)
    (hcached : d.findCached t cache offset precision = .ok (some desc)) :
    m.findDescriptor t pc precision = .ok (some desc) := by
  simp only [findDescriptor]
  rw [hoffset]
  dsimp only
  rw [htable, hcache, Answer.ok_bind, Answer.ok_bind, hcached]
  rfl

theorem findDescriptor_of_not_cached (htable : m.descriptorTable t = .ok d)
    (hcache : m.cache t = .ok cache) (hoffset : m.instructionOffset? pc = some offset)
    (hcached : d.findCached t cache offset precision = .ok none) :
    m.findDescriptor t pc precision = d.search t offset precision cache.recent := by
  simp only [findDescriptor]
  rw [hoffset]
  dsimp only
  rw [htable, hcache, Answer.ok_bind, Answer.ok_bind, hcached]
  rfl

/-- A descriptor is found exactly if the cache answers, or it does not and the search does. -/
theorem findDescriptor_eq_some_iff :
    m.findDescriptor t pc precision = .ok (some desc) ↔
      ∃ offset d cache, m.instructionOffset? pc = some offset ∧ m.descriptorTable t = .ok d ∧
        m.cache t = .ok cache ∧
        (d.findCached t cache offset precision = .ok (some desc) ∨
          d.findCached t cache offset precision = .ok none ∧
            d.search t offset precision cache.recent = .ok (some desc)) := by
  constructor
  · intro h
    simp only [findDescriptor] at h
    cases hoffset : m.instructionOffset? pc with
    | none =>
      rw [hoffset] at h
      cases h
    | some offset =>
      rw [hoffset] at h
      obtain ⟨d, htable, h⟩ := Answer.bind_eq_ok.mp h
      obtain ⟨cache, hcache, h⟩ := Answer.bind_eq_ok.mp h
      obtain ⟨found, hcached, h⟩ := Answer.bind_eq_ok.mp h
      refine ⟨offset, d, cache, rfl, htable, hcache, ?_⟩
      cases found with
      | some e =>
        cases h
        exact .inl hcached
      | none => exact .inr ⟨hcached, h⟩
  · rintro ⟨offset, d, cache, hoffset, htable, hcache, hcached | ⟨hcached, hsearch⟩⟩
    · exact findDescriptor_of_cached htable hcache hoffset hcached
    · rw [findDescriptor_of_not_cached htable hcache hoffset hcached, hsearch]

theorem descriptorAt_of_exact (h : m.findDescriptor t pc .exact = .ok (some desc)) :
    m.descriptorAt t pc = .ok (some desc) :=
  Answer.bind_eq_ok.mpr ⟨some desc, h, rfl⟩

theorem descriptorAt_of_not_exact (h : m.findDescriptor t pc .exact = .ok none) :
    m.descriptorAt t pc = m.findDescriptor t pc .approximate := by
  simp only [descriptorAt]
  rw [h]
  rfl

theorem descriptorAt_eq_some_iff :
    m.descriptorAt t pc = .ok (some desc) ↔
      m.findDescriptor t pc .exact = .ok (some desc) ∨
        m.findDescriptor t pc .exact = .ok none ∧
          m.findDescriptor t pc .approximate = .ok (some desc) := by
  constructor
  · intro h
    obtain ⟨found, hexact, h⟩ := Answer.bind_eq_ok.mp h
    cases found with
    | some e =>
      cases h
      exact .inl hexact
    | none => exact .inr ⟨hexact, h⟩
  · rintro (hexact | ⟨hexact, happroximate⟩)
    · exact descriptorAt_of_exact hexact
    · rw [descriptorAt_of_not_exact hexact, happroximate]

/-- An approximate answer is the same from the cache and from the search. -/
theorem Searchable.approximate_ok (h : m.Searchable t d entries cache)
    (hoffset : m.instructionOffset? pc = some offset)
    (hj : ∀ a, some a ∈ cache.recent :: cache.slots →
      d.Judged t offset .approximate (Hit entries offset .approximate) a) :
    ∃ r, m.findDescriptor t pc .approximate = .ok r ∧
      ∀ e, r = some e ↔ ∃ i, Answering entries offset .approximate i e := by
  obtain ⟨hit, hcached, hhit⟩ := findCached_ok hj
  obtain ⟨r, hsearch, hr⟩ := h.lists.search_approximate h.ascending offset cache.recent
  cases hit with
  | some e =>
    have hre : r = some e := (hr e).mpr (hhit e rfl)
    exact ⟨r, hre ▸ findDescriptor_of_cached h.table_eq h.cache_eq hoffset hcached, hr⟩
  | none =>
    rw [findDescriptor_of_not_cached h.table_eq h.cache_eq hoffset hcached]
    exact ⟨r, hsearch, hr⟩

/-- When the cache does not answer, the first entry at the offset is found. -/
theorem Searchable.exact_of_not_cached (h : m.Searchable t d entries cache)
    (hoffset : m.instructionOffset? pc = some offset)
    (hcached : d.findCached t cache offset .exact = .ok none) :
    m.findDescriptor t pc .exact =
      .ok (entries.find? fun e => e.pcOffset.toInt == offset) := by
  rw [findDescriptor_of_not_cached h.table_eq h.cache_eq hoffset hcached,
    h.lists.search_exact h.ascending offset cache.recent]

/-- Without a latest descriptor nothing is cached, and only the search is left. -/
theorem Searchable.findDescriptor_of_recent_none (h : m.Searchable t d entries cache)
    (hoffset : m.instructionOffset? pc = some offset) (hrecent : cache.recent = none) :
    m.findDescriptor t pc precision = d.search t offset precision none := by
  have hcached : d.findCached t cache offset precision = .ok none := by
    simp only [findCached]
    rw [hrecent]
    rfl
  rw [findDescriptor_of_not_cached h.table_eq h.cache_eq hoffset hcached, hrecent]

theorem Searchable.exact_ok (h : m.Searchable t d entries cache)
    (hoffset : m.instructionOffset? pc = some offset)
    (hj : ∀ a, some a ∈ cache.recent :: cache.slots →
      d.Judged t offset .exact (Hit entries offset .exact) a) :
    ∃ r, m.findDescriptor t pc .exact = .ok r ∧
      (∀ e, r = some e → ∃ i, Answering entries offset .exact i e) ∧
      (r = none → ∀ i e, ¬Answering entries offset .exact i e) := by
  obtain ⟨hit, hcached, hhit⟩ := findCached_ok hj
  cases hit with
  | some e =>
    exact ⟨some e, findDescriptor_of_cached h.table_eq h.cache_eq hoffset hcached, hhit, nofun⟩
  | none =>
    refine ⟨_, h.exact_of_not_cached hoffset hcached, fun e he => ?_, fun hnone i e hi => ?_⟩
    · obtain ⟨i, hi⟩ := List.mem_iff_getElem?.mp (List.mem_of_find?_eq_some he)
      have heq := List.find?_some he
      exact ⟨i, hi, beq_iff_eq.mp heq⟩
    · have hno := List.find?_eq_none.mp hnone e (List.mem_of_getElem? hi.1)
      exact hno (beq_iff_eq.mpr hi.2)

end JitFrames.CompiledMethod
