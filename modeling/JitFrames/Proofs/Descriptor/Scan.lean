import JitFrames.Proofs.DenseLayout
import JitFrames.Proofs.Descriptor.Lookup

namespace JitFrames

open DescriptorTable

namespace CompiledMethod

/-- A method with an ascending table of readable descriptors and a cache of pointers into it. -/
structure Indexed (m : CompiledMethod) (t : Target) (d : DescriptorTable)
    (entries : List Descriptor) (cache : DescriptorCache) : Prop where
  table_eq : m.descriptorTable t = .ok d
  lists : d.Lists t entries
  ascending : Ascending entries
  cache_eq : m.cache t = .ok cache
  names : cache.Names d t

variable {m : CompiledMethod} {t t' : Target} {d : DescriptorTable} {entries : List Descriptor}
  {cache : DescriptorCache} {pc : Address} {offset : Nat} {precision : Precision}

theorem Indexed.searchable (h : m.Indexed t d entries cache) : m.Searchable t d entries cache :=
  ⟨h.table_eq, h.lists, h.ascending, h.cache_eq⟩

theorem Indexed.judged (h : m.Indexed t d entries cache) (offset : Nat) (precision : Precision)
    (a : Address) (ha : some a ∈ cache.recent :: cache.slots) :
    d.Judged t offset precision (Hit entries offset precision) a :=
  h.lists.judged_of_names offset precision (h.names a ha)

theorem Indexed.findDescriptor_eq (h : m.Indexed t d entries cache)
    (hoffset : m.instructionOffset? pc = some offset) :
    m.findDescriptor t pc precision =
      (d.findCached t cache offset precision >>= fun
        | some desc => .ok (some desc)
        | none => d.search t offset precision cache.recent) := by
  simp only [findDescriptor]
  rw [hoffset]
  dsimp only
  rw [h.table_eq, h.cache_eq]
  rfl

theorem Indexed.approximate_ok (h : m.Indexed t d entries cache)
    (hoffset : m.instructionOffset? pc = some offset) :
    ∃ r, m.findDescriptor t pc .approximate = .ok r ∧
      ∀ e, r = some e ↔ ∃ i, Answering entries offset .approximate i e :=
  h.searchable.approximate_ok hoffset (h.judged offset .approximate)

theorem Indexed.exact_ok (h : m.Indexed t d entries cache)
    (hoffset : m.instructionOffset? pc = some offset) :
    ∃ r, m.findDescriptor t pc .exact = .ok r ∧
      (∀ e, r = some e → ∃ i, Answering entries offset .exact i e) ∧
      (r = none → ∀ i e, ¬Answering entries offset .exact i e) :=
  h.searchable.exact_ok hoffset (h.judged offset .exact)

theorem Indexed.exact_of_not_cached (h : m.Indexed t d entries cache)
    (hoffset : m.instructionOffset? pc = some offset)
    (hcached : d.findCached t cache offset .exact = .ok none) :
    m.findDescriptor t pc .exact =
      .ok (entries.find? fun e => e.pcOffset.toInt == offset) :=
  h.searchable.exact_of_not_cached hoffset hcached

theorem Indexed.exact_of_recent_none (h : m.Indexed t d entries cache)
    (hoffset : m.instructionOffset? pc = some offset) (hrecent : cache.recent = none) :
    m.findDescriptor t pc .exact =
      .ok (entries.find? fun e => e.pcOffset.toInt == offset) := by
  rw [h.searchable.findDescriptor_of_recent_none hoffset hrecent,
    h.lists.search_exact h.ascending offset none]

/-- Where the closing entry does not decide how far the cache is tried, it decides nothing. -/
theorem Indexed.findDescriptor_congr (h : m.Indexed t d entries cache)
    (h' : m.Indexed t' d entries cache)
    (hstop : some (d.addressOf d.sentinel) ∈ cache.slots → ∀ last last',
      d.entry t d.sentinel = .ok last → d.entry t' d.sentinel = .ok last' →
        (last.pcOffset < 0 ↔ last'.pcOffset < 0)) :
    m.findDescriptor t' pc precision = m.findDescriptor t pc precision := by
  cases hoffset : m.instructionOffset? pc with
  | none => rw [findDescriptor_eq_none hoffset, findDescriptor_eq_none hoffset]
  | some offset =>
    rw [h.findDescriptor_eq hoffset, h'.findDescriptor_eq hoffset,
      h.lists.findCached_eq h'.lists h.names h'.names hstop,
      h.lists.search_eq h'.lists h.ascending cache.recent cache.recent]

theorem Indexed.approximate_congr (h : m.Indexed t d entries cache)
    (h' : m.Indexed t' d entries cache) (hoffset : m.instructionOffset? pc = some offset) :
    m.findDescriptor t' pc .approximate = m.findDescriptor t pc .approximate := by
  obtain ⟨r, hr, hiff⟩ := h.approximate_ok hoffset
  obtain ⟨r', hr', hiff'⟩ := h'.approximate_ok hoffset
  rw [hr, hr', Option.ext fun e => (hiff' e).trans (hiff e).symm]

/-- A single entry at the offset is found whatever the cache holds. -/
theorem Indexed.exact_congr_of_unique (h : m.Indexed t d entries cache)
    (h' : m.Indexed t' d entries cache) (hoffset : m.instructionOffset? pc = some offset)
    (hunique : ∀ x ∈ entries, ∀ y ∈ entries,
      x.pcOffset.toInt = offset → y.pcOffset.toInt = offset → x = y) :
    m.findDescriptor t' pc .exact = m.findDescriptor t pc .exact := by
  obtain ⟨r, hr, hsome, hnone⟩ := h.exact_ok hoffset
  obtain ⟨r', hr', hsome', hnone'⟩ := h'.exact_ok hoffset
  rw [hr, hr']
  cases r with
  | none =>
    cases r' with
    | none => rfl
    | some e =>
      obtain ⟨i, hi⟩ := hsome' e rfl
      exact absurd hi (hnone rfl i e)
  | some e =>
    obtain ⟨i, hi, heq⟩ := hsome e rfl
    cases r' with
    | none => exact absurd ⟨hi, heq⟩ (hnone' rfl i e)
    | some e' =>
      obtain ⟨j, hj, heq'⟩ := hsome' e' rfl
      rw [hunique e' (List.mem_of_getElem? hj) e (List.mem_of_getElem? hi) heq' heq]

/-- A lookup agrees with a scan of the entries before the closing one. The closing entry decides
nothing but, by the sign of its offset and if an older pointer of the cache names it, whether the
pointers behind it are tried, which matters only where several entries are at the exact offset. -/
theorem findDescriptor_eq_scan (h : m.Indexed t d entries cache) (pc : Address) :
    (pc.toNat < m.blob.instructionsBegin.toNat ∨
        m.blob.instructionsBegin.toNat + 0x7FFFFFFF ≤ pc.toNat →
      ∀ precision, m.findDescriptor t pc precision = .ok none) ∧
    ∀ offset, m.blob.instructionsBegin.toNat + offset = pc.toNat → offset < 0x7FFFFFFF →
      (∃ r, m.findDescriptor t pc .approximate = .ok r ∧
        ∀ e, r = some e ↔ ∃ (i : Nat) (x : Descriptor), entries[i]? = some x ∧
          entries[i + 1]? = some e ∧ x.pcOffset.toInt < offset ∧ offset ≤ e.pcOffset.toInt) ∧
      (∃ r, m.findDescriptor t pc .exact = .ok r ∧
        (∀ e, r = some e → e ∈ entries ∧ e.pcOffset.toInt = offset) ∧
        (r = none → ∀ e ∈ entries, e.pcOffset.toInt ≠ offset) ∧
        (StrictlyAscending entries → ∀ e ∈ entries, e.pcOffset.toInt = offset → r = some e) ∧
        (cache.recent = none → r = entries.find? fun e : Descriptor => e.pcOffset.toInt == offset)) ∧
      ∀ t', m.Indexed t' d entries cache →
        m.findDescriptor t' pc .approximate = m.findDescriptor t pc .approximate ∧
        ((∀ x ∈ entries, ∀ y ∈ entries,
            x.pcOffset.toInt = offset → y.pcOffset.toInt = offset → x = y) ∨
          (some (d.addressOf d.sentinel) ∈ cache.slots → ∀ last last',
            d.entry t d.sentinel = .ok last → d.entry t' d.sentinel = .ok last' →
              (last.pcOffset < 0 ↔ last'.pcOffset < 0)) →
          m.findDescriptor t' pc .exact = m.findDescriptor t pc .exact) := by
  constructor
  · intro hout precision
    refine findDescriptor_eq_none (Option.eq_none_iff_forall_ne_some.mpr fun offset ho => ?_)
    have hin := instructionOffset?_eq_some_iff.mp ho
    simp only [offsetLimit] at hin
    omega
  · intro offset hpc hlt
    have ho : m.instructionOffset? pc = some offset :=
      instructionOffset?_eq_some_iff.mpr ⟨hpc, hlt⟩
    refine ⟨?_, ?_, fun t' h' => ⟨?_, ?_⟩⟩
    · obtain ⟨r, hr, hiff⟩ := h.approximate_ok ho
      refine ⟨r, hr, fun e => (hiff e).trans ⟨?_, ?_⟩⟩
      · intro hh
        obtain ⟨_, he, i, x, rfl, hx, hbelow, hle⟩ := hh
        exact ⟨i, x, hx, he, hbelow, hle⟩
      · intro hh
        obtain ⟨i, x, hx, he, hbelow, hle⟩ := hh
        exact ⟨i + 1, he, i, x, rfl, hx, hbelow, hle⟩
    · obtain ⟨r, hr, hsome, hnone⟩ := h.exact_ok ho
      refine ⟨r, hr, ?_, ?_, ?_, ?_⟩
      · intro e he
        obtain ⟨i, hi, heq⟩ := hsome e he
        exact ⟨List.mem_of_getElem? hi, heq⟩
      · intro hr e he heq
        obtain ⟨i, hi⟩ := List.mem_iff_getElem?.mp he
        exact hnone hr i e ⟨hi, heq⟩
      · intro hstrict e he heq
        cases r with
        | none =>
          obtain ⟨i, hi⟩ := List.mem_iff_getElem?.mp he
          exact absurd ⟨hi, heq⟩ (hnone rfl i e)
        | some e' =>
          obtain ⟨i, hi, heq'⟩ := hsome e' rfl
          rw [hstrict.eq (List.mem_of_getElem? hi) he (heq'.trans heq.symm)]
      · intro hrecent
        rw [h.exact_of_recent_none ho hrecent] at hr
        exact (Except.ok.inj hr).symm
    · exact h.approximate_congr h' ho
    · rintro (hunique | hstop)
      · exact h.exact_congr_of_unique h' ho hunique
      · exact h.findDescriptor_congr h' hstop

/-- A method at the start of the address space: the cache, and behind it a table of three entries,
the first two of them at one offset. The cache names the closing entry twice, then the second. -/
def repeatedOffset : CompiledMethod where
  blob := ⟨0, 56, 0, "", by decide⟩
  method := 0
  descriptorsBegin := 24
  descriptorsEnd := 56
  scopesData := 56
  oops := 56
  descriptorCache := 0

/-- The memory in front of the offset of the closing entry. -/
def repeatedOffsetBytes : List UInt8 :=
  [48, 48, 32, 0, 0, 0, 5, 1, 5, 2, 9, 3].flatMap wordBytes

def repeatedOffsetTarget (last : List UInt8) : Target :=
  ⟨.ofBytes (repeatedOffsetBytes ++ last ++ wordBytes 0).toArray, .dense⟩

def repeatedOffsetTable : DescriptorTable := ⟨24, 8, 4, by decide, by decide⟩

def repeatedOffsetEntries : List Descriptor := [⟨24, 5, 1⟩, ⟨32, 5, 2⟩, ⟨40, 9, 3⟩]

def repeatedOffsetCache : DescriptorCache := ⟨some 48, [some 48, some 32, none, none]⟩

theorem repeatedOffset_indexed {last : List UInt8}
    (hlast : last = wordBytes 12 ∨ last = wordBytes 0xFFFFFFFF) :
    repeatedOffset.Indexed (repeatedOffsetTarget last) repeatedOffsetTable repeatedOffsetEntries
      repeatedOffsetCache := by
  rcases hlast with rfl | rfl
  all_goals
    refine ⟨rfl, ⟨rfl, ?_⟩, by decide, rfl, ?_⟩
    · intro i e he
      match i with
      | 0 | 1 | 2 => cases he; rfl
      | i + 3 => simp [repeatedOffsetEntries] at he
    · intro a ha
      simp only [repeatedOffsetCache, List.mem_cons, Option.some.injEq, reduceCtorEq,
        List.not_mem_nil, or_false, or_self] at ha
      rcases ha with rfl | rfl | rfl
      · exact ⟨3, _, by decide, rfl, rfl⟩
      · exact ⟨3, _, by decide, rfl, rfl⟩
      · exact ⟨1, _, by decide, rfl, rfl⟩

/-- The third entry answers approximately behind the repeated offset, and exactly at its own one
whatever closes the table. -/
theorem findDescriptor_eq_scan_repeated :
    let t := repeatedOffsetTarget (wordBytes 0xFFFFFFFF)
    let t' := repeatedOffsetTarget (wordBytes 12)
    (repeatedOffset.Indexed t repeatedOffsetTable repeatedOffsetEntries repeatedOffsetCache ∧
      repeatedOffset.Indexed t' repeatedOffsetTable repeatedOffsetEntries repeatedOffsetCache) ∧
    repeatedOffset.findDescriptor t 0x7FFFFFFF .exact = .ok none ∧
    repeatedOffset.findDescriptor t 7 .approximate = .ok (some ⟨40, 9, 3⟩) ∧
    repeatedOffset.findDescriptor t' 9 .exact = repeatedOffset.findDescriptor t 9 .exact := by
  intro t t'
  have h := repeatedOffset_indexed (.inr rfl)
  have h' := repeatedOffset_indexed (.inl rfl)
  refine ⟨⟨h, h'⟩, (findDescriptor_eq_scan h 0x7FFFFFFF).1 (.inr (by decide)) .exact, ?_, ?_⟩
  · obtain ⟨⟨r, hr, hiff⟩, -, -⟩ := (findDescriptor_eq_scan h 7).2 7 rfl (by decide)
    rw [hr, (hiff ⟨40, 9, 3⟩).mpr ⟨1, _, rfl, rfl, by decide, by decide⟩]
  · exact (((findDescriptor_eq_scan h 9).2 9 rfl (by decide)).2.2 t' h').2 (.inl (by decide))

/-- The offset stored in the closing entry decides which of two entries at one offset is found:
behind a positive one the cache is tried on and names the second, a negative one ends the trying
and leaves it to the search, which finds the first. -/
theorem closing_offset_decides :
    let t := repeatedOffsetTarget (wordBytes 12)
    let t' := repeatedOffsetTarget (wordBytes 0xFFFFFFFF)
    repeatedOffset.Indexed t repeatedOffsetTable repeatedOffsetEntries repeatedOffsetCache ∧
    repeatedOffset.Indexed t' repeatedOffsetTable repeatedOffsetEntries repeatedOffsetCache ∧
    (∃ last, repeatedOffsetTable.entry t repeatedOffsetTable.sentinel = .ok last ∧
      0 ≤ last.pcOffset) ∧
    (∃ last, repeatedOffsetTable.entry t' repeatedOffsetTable.sentinel = .ok last ∧
      last.pcOffset < 0) ∧
    repeatedOffset.findDescriptor t 5 .exact = .ok (some ⟨32, 5, 2⟩) ∧
    repeatedOffset.findDescriptor t' 5 .exact = .ok (some ⟨24, 5, 1⟩) := by
  intro t t'
  have h := repeatedOffset_indexed (.inl rfl)
  have h' := repeatedOffset_indexed (.inr rfl)
  have hoffset : repeatedOffset.instructionOffset? 5 = some 5 := rfl
  have hcached : repeatedOffsetTable.findCached (repeatedOffsetTarget (wordBytes 0xFFFFFFFF))
      repeatedOffsetCache 5 .exact = .ok none := rfl
  have hsecond : repeatedOffset.findDescriptor (repeatedOffsetTarget (wordBytes 12)) 5 .exact =
      .ok (some ⟨32, 5, 2⟩) := rfl
  exact ⟨h, h', ⟨_, rfl, by decide⟩, ⟨_, rfl, by decide⟩, hsecond,
    h'.exact_of_not_cached hoffset hcached⟩

end CompiledMethod

end JitFrames
