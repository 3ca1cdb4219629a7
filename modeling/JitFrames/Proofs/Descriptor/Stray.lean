import JitFrames.Proofs.DenseLayout
import JitFrames.Proofs.Descriptor.Genuine

namespace JitFrames

/-- The descriptor at an address, if it can be read. -/
def Descriptor.read? (t : Target) (a : Address) : Option Descriptor :=
  (Descriptor.read t a).toOption

namespace DescriptorCache

/-- The descriptors that pointers show, up to the first pointer that is null or unreadable. -/
def shown (t : Target) (slots : List (Option Address)) : List Descriptor :=
  ((slots.map (·.bind (Descriptor.read? t))).takeWhile Option.isSome).filterMap id

/-- The descriptors that an exact lookup scans: the latest one, then the older ones in front of the
first one with a negative offset. -/
def scanned (t : Target) (cache : DescriptorCache) : List Descriptor :=
  match cache.recent.bind (Descriptor.read? t) with
  | none => []
  | some latest => latest :: (shown t cache.slots).takeWhile (0 ≤ ·.pcOffset)

variable {t : Target} {slots : List (Option Address)} {a : Address} {desc : Descriptor} {e : Fault}

theorem shown_none : shown t (none :: slots) = [] := rfl

theorem shown_unreadable (h : Descriptor.read t a = .error e) : shown t (some a :: slots) = [] := by
  have hread : Descriptor.read? t a = none := by simp only [Descriptor.read?, h, Except.toOption]
  simp [shown, hread]

theorem shown_readable (h : Descriptor.read t a = .ok desc) :
    shown t (some a :: slots) = desc :: shown t slots := by
  have hread : Descriptor.read? t a = some desc := by
    simp only [Descriptor.read?, h, Except.toOption]
  simp [shown, hread]

end DescriptorCache

open DescriptorCache (shown)

namespace DescriptorTable

variable {d : DescriptorTable} {t : Target} {cache : DescriptorCache} {offset : Nat}
  {slots : List (Option Address)} {desc : Descriptor}

/-- Whether a descriptor is the one at an offset. The closing entry never is. -/
def exactlyAt (d : DescriptorTable) (offset : Nat) (desc : Descriptor) : Bool :=
  desc.pcOffset.toInt == offset && (d.length == 0 || desc.address != d.addressOf d.sentinel)

theorem answers_exact_eq : d.answers t desc offset .exact = .ok (d.exactlyAt offset desc) := by
  by_cases hlast : d.indexOf? desc.address = some d.sentinel
  · have hclosing := indexOf?_eq_sentinel_iff.mp hlast
    have hlength : d.length ≠ 0 := Nat.ne_of_gt hclosing.1
    rw [answers_sentinel hlast]
    simp [exactlyAt, hclosing.2, hlength]
  · rw [answers_exact hlast]
    by_cases hlength : d.length = 0
    · simp [exactlyAt, hlength]
    · have haddress : desc.address ≠ d.addressOf d.sentinel := by
        intro heq
        apply hlast
        exact indexOf?_eq_sentinel_iff.mpr ⟨Nat.pos_of_ne_zero hlength, heq⟩
      simp [exactlyAt, haddress]

/-- One older pointer in front of the others: its descriptor ends the trying if it is negative, else
it is taken or passed over. -/
theorem findInSlots_exact_readable {a : Address} (h : Descriptor.read t a = .ok desc) :
    d.findInSlots t offset .exact (some a :: slots) =
      if desc.pcOffset < 0 then .ok none
      else if d.exactlyAt offset desc then .ok (some desc)
      else d.findInSlots t offset .exact slots := by
  rw [findInSlots, h, Answer.ok_bind, answers_exact_eq]
  rfl

theorem findInSlots_exact_eq_some_iff :
    d.findInSlots t offset .exact slots = .ok (some desc) ↔
      ((shown t slots).takeWhile (0 ≤ ·.pcOffset)).find? (d.exactlyAt offset) = some desc := by
  induction slots with
  | nil => simp [findInSlots, shown]
  | cons slot slots ih =>
    cases slot with
    | none => simp [findInSlots, DescriptorCache.shown_none]
    | some a =>
      cases hread : Descriptor.read t a with
      | error e =>
        -- the lookup fails here, and the list of what is shown ends: neither side gives anything
        rw [DescriptorCache.shown_unreadable hread, findInSlots, hread]
        simp [bind, Except.bind]
      | ok other =>
        rw [DescriptorCache.shown_readable hread, findInSlots_exact_readable hread,
          List.takeWhile_cons]
        by_cases hneg : other.pcOffset < 0
        · have hnot : ¬(0 ≤ other.pcOffset) := Int32.not_le.mpr hneg
          simp [hneg, hnot]
        · have hnonneg : 0 ≤ other.pcOffset := Int32.not_lt.mp hneg
          by_cases hat : d.exactlyAt offset other
          · simp [hneg, hnonneg, hat]
          · simp [hneg, hnonneg, hat, ih]

/-- An exact lookup in the cache gives the first descriptor at the offset among those scanned. -/
theorem findCached_exact_eq_some_iff :
    d.findCached t cache offset .exact = .ok (some desc) ↔
      (cache.scanned t).find? (d.exactlyAt offset) = some desc := by
  simp only [findCached, DescriptorCache.scanned]
  cases cache.recent with
  | none => simp [pure, Except.pure]
  | some a =>
    cases hread : Descriptor.read t a with
    | error e => simp [bind, Except.bind, hread, Descriptor.read?, Except.toOption]
    | ok latest =>
      have hread? : Descriptor.read? t a = some latest := by
        simp only [Descriptor.read?, hread, Except.toOption]
      dsimp only [Option.bind_some]
      rw [hread, Answer.ok_bind, answers_exact_eq, Answer.ok_bind, hread?]
      by_cases hat : d.exactlyAt offset latest
      · simp [hat, pure, Except.pure]
      · simp [hat, findInSlots_exact_eq_some_iff]

/-- With readable pointers an exact lookup in the cache does not fail. -/
theorem findCached_exact_eq (d : DescriptorTable) (offset : Nat)
    (hread : ∀ a, some a ∈ cache.recent :: cache.slots → ∃ desc, Descriptor.read t a = .ok desc) :
    d.findCached t cache offset .exact =
      .ok ((cache.scanned t).find? (d.exactlyAt offset)) := by
  have hj : ∀ a, some a ∈ cache.recent :: cache.slots →
      d.Judged t offset .exact (fun _ => True) a := by
    intro a ha
    obtain ⟨desc, hdesc⟩ := hread a ha
    exact ⟨desc, _, hdesc, answers_exact_eq, fun _ => trivial⟩
  obtain ⟨r, hr, -⟩ := findCached_ok hj
  rw [hr]
  apply congrArg Except.ok
  apply Option.ext
  intro desc
  rw [← findCached_exact_eq_some_iff, hr, Except.ok.injEq]

theorem search_of_length_le_one {precision : Precision} {pivot : Option Address}
    (h : d.length ≤ 1) : d.search t offset precision pivot = .ok none := by
  simp only [search]
  rw [if_pos (by simpa [isEmpty] using h)]
  rfl

end DescriptorTable

namespace CompiledMethod

open DescriptorTable

variable {m : CompiledMethod} {t : Target} {d : DescriptorTable} {entries : List Descriptor}
  {cache : DescriptorCache} {pc : Address} {offset : Nat}

/-- Readable pointers, wherever they lead, change an approximate lookup in nothing, and an exact one
only by a descriptor at the offset that they show first. `t'` is any target in which the table holds
the same entries and nothing is cached. -/
theorem findDescriptor_stray (h : m.Searchable t d entries cache)
    (hread : ∀ a, some a ∈ cache.recent :: cache.slots → ∃ desc, Descriptor.read t a = .ok desc)
    (hpc : m.blob.instructionsBegin.toNat + offset = pc.toNat) (hlt : offset < 0x7FFFFFFF) :
    ∃ approximate exact : Option Descriptor,
      (∀ t' cache', m.Searchable t' d entries cache' → cache'.recent = none →
        m.findDescriptor t' pc .approximate = .ok approximate ∧
        m.findDescriptor t' pc .exact = .ok exact) ∧
      m.findDescriptor t pc .approximate = .ok approximate ∧
      m.findDescriptor t pc .exact =
        .ok (((cache.scanned t).find? (d.exactlyAt offset)).or exact) ∧
      (∀ e, approximate = some e ↔ ∃ (i : Nat) (x : Descriptor), entries[i]? = some x ∧
        entries[i + 1]? = some e ∧ x.pcOffset.toInt < offset ∧ offset ≤ e.pcOffset.toInt) ∧
      exact = entries.find? fun e : Descriptor => e.pcOffset.toInt == offset := by
  have hoffset := instructionOffset?_eq_some_iff.mpr ⟨hpc, hlt⟩
  obtain ⟨approximate, happroximate, hiff⟩ := h.lists.search_approximate h.ascending offset none
  have hexact := h.lists.search_exact h.ascending offset none
  refine ⟨approximate, _, ?_, ?_, ?_, ?_, rfl⟩
  · -- both targets hold the same entries, and the pivot decides nothing
    intro t' cache' h' hrecent
    have hsearch (precision : Precision) :
        d.search t' offset precision none = d.search t offset precision none :=
      h.lists.search_eq h'.lists h.ascending none none
    constructor
    · rw [h'.findDescriptor_of_recent_none hoffset hrecent, hsearch, happroximate]
    · rw [h'.findDescriptor_of_recent_none hoffset hrecent, hsearch, hexact]
  · -- a cached answer is one of the entries, and among them the answer is unique
    have hj : ∀ a, some a ∈ cache.recent :: cache.slots →
        d.Judged t offset .approximate (Hit entries offset .approximate) a := by
      intro a ha
      obtain ⟨desc, hdesc⟩ := hread a ha
      exact h.lists.judged_approximate offset hdesc
    obtain ⟨r, hr, hiff'⟩ := h.approximate_ok hoffset hj
    rw [hr, Option.ext fun e => (hiff' e).trans (hiff e).symm]
  · have hcached := d.findCached_exact_eq offset hread
    cases hhit : (cache.scanned t).find? (d.exactlyAt offset) with
    | some e =>
      rw [hhit] at hcached
      exact findDescriptor_of_cached h.table_eq h.cache_eq hoffset hcached
    | none =>
      rw [hhit] at hcached
      exact h.exact_of_not_cached hoffset hcached
  · intro e
    rw [hiff e, exists_answering_approximate_iff]

/-- The closing entry, an address inside the first entry, a descriptor behind the table, one with a
negative offset, and the first entry. -/
def strayCache : DescriptorCache := ⟨some 40, [some 28, some 48, some 56, some 24]⟩

def strayTarget : Target := .compact [40, 28, 48, 56, 24] [9, 7, 0xFFFFFFFF, 0]

def uncachedTarget : Target := .compact [0, 0, 0, 0, 0] []

theorem stray_searchable : (compact 48).Searchable strayTarget .compact compactEntries strayCache :=
  ⟨rfl, lists_pair rfl rfl rfl, by decide, rfl⟩

theorem uncached_searchable :
    (compact 48).Searchable uncachedTarget .compact compactEntries
      ⟨none, [none, none, none, none]⟩ :=
  ⟨rfl, lists_pair rfl rfl rfl, by decide, rfl⟩

theorem stray_readable (a : Address) (ha : some a ∈ strayCache.recent :: strayCache.slots) :
    ∃ desc, Descriptor.read strayTarget a = .ok desc := by
  simp only [strayCache, List.mem_cons, Option.some.injEq, List.not_mem_nil, or_false] at ha
  rcases ha with rfl | rfl | rfl | rfl | rfl
  all_goals exact ⟨_, rfl⟩

/-- Exactly at the second entry the descriptor behind the table is found in its place; at the first
entry and approximately the lookups agree with those where nothing is cached. -/
theorem findDescriptor_stray_behind :
    (compact 48).Searchable strayTarget .compact compactEntries strayCache ∧
    (∀ a, some a ∈ strayCache.recent :: strayCache.slots →
      ∃ desc, Descriptor.read strayTarget a = .ok desc) ∧
    (compact 48).Searchable uncachedTarget .compact compactEntries
      ⟨none, [none, none, none, none]⟩ ∧
    (compact 48).findDescriptor strayTarget 7 .approximate = .ok (some ⟨32, 9, 2⟩) ∧
    (compact 48).findDescriptor uncachedTarget 7 .approximate = .ok (some ⟨32, 9, 2⟩) ∧
    (compact 48).findDescriptor strayTarget 9 .exact = .ok (some ⟨48, 9, 7⟩) ∧
    (compact 48).findDescriptor uncachedTarget 9 .exact = .ok (some ⟨32, 9, 2⟩) ∧
    (compact 48).findDescriptor strayTarget 5 .exact =
      (compact 48).findDescriptor uncachedTarget 5 .exact := by
  have h := stray_searchable
  have h' := uncached_searchable
  have hseven : (compact 48).blob.instructionsBegin.toNat + 7 = (7 : Address).toNat := rfl
  have hnine : (compact 48).blob.instructionsBegin.toNat + 9 = (9 : Address).toNat := rfl
  have hfive : (compact 48).blob.instructionsBegin.toNat + 5 = (5 : Address).toNat := rfl
  obtain ⟨found, _, huncached, happroximate, -, hfound, -⟩ :=
    findDescriptor_stray h stray_readable hseven (by decide)
  have heq : found = some ⟨32, 9, 2⟩ :=
    (hfound _).mpr ⟨0, _, rfl, rfl, by decide, by decide⟩
  subst heq
  obtain ⟨_, second, huncached', -, hsecond, -, hscan⟩ :=
    findDescriptor_stray h stray_readable hnine (by decide)
  subst hscan
  obtain ⟨_, first, huncached'', -, hfirst, -⟩ :=
    findDescriptor_stray h stray_readable hfive (by decide)
  refine ⟨h, stray_readable, h', happroximate, (huncached _ _ h' rfl).1, hsecond,
    (huncached' _ _ h' rfl).2, ?_⟩
  rw [(huncached'' _ _ h' rfl).2]
  exact hfirst

/-- A table without entries gives no approximate answer. An exact one it does not prevent: what the
pointers of the cache show at the offset is found all the same. -/
theorem findDescriptor_of_length_le_one (htable : m.descriptorTable t = .ok d)
    (hempty : d.length ≤ 1) (pc : Address) (desc : Descriptor) :
    m.findDescriptor t pc .approximate ≠ .ok (some desc) ∧
    (m.findDescriptor t pc .exact = .ok (some desc) ↔
      ∃ offset cache, m.blob.instructionsBegin.toNat + offset = pc.toNat ∧ offset < 0x7FFFFFFF ∧
        m.cache t = .ok cache ∧ (cache.scanned t).find? (d.exactlyAt offset) = some desc) ∧
    (m.descriptorAt t pc = .ok (some desc) ↔ m.findDescriptor t pc .exact = .ok (some desc)) := by
  have happroximate : m.findDescriptor t pc .approximate ≠ .ok (some desc) := by
    intro hfound
    obtain ⟨offset, d', cache, -, htable', -, -, hm⟩ := matched_of_findDescriptor hfound
    rw [htable] at htable'
    cases htable'
    obtain ⟨i, x, hi, -⟩ := hm.between
    simp only [sentinel] at hi
    omega
  refine ⟨happroximate, ?_, ?_⟩
  · constructor
    · intro hfound
      obtain ⟨offset, d', cache, hoffset, htable', hcache, hfound⟩ :=
        findDescriptor_eq_some_iff.mp hfound
      rw [htable] at htable'
      cases htable'
      obtain ⟨hpc, hlt⟩ := instructionOffset?_eq_some_iff.mp hoffset
      rcases hfound with hcached | ⟨-, hsearch⟩
      · exact ⟨offset, cache, hpc, hlt, hcache, findCached_exact_eq_some_iff.mp hcached⟩
      · rw [search_of_length_le_one hempty] at hsearch
        cases hsearch
    · rintro ⟨offset, cache, hpc, hlt, hcache, hscanned⟩
      have hoffset := instructionOffset?_eq_some_iff.mpr ⟨hpc, hlt⟩
      have hcached := findCached_exact_eq_some_iff.mpr hscanned
      exact findDescriptor_of_cached htable hcache hoffset hcached
  · constructor
    · intro hat
      rcases descriptorAt_eq_some_iff.mp hat with hexact | ⟨-, hfound⟩
      · exact hexact
      · exact absurd hfound happroximate
    · exact descriptorAt_of_exact

/-- The closing entry alone, and behind it a descriptor that the cache names. -/
def closedTarget : Target := .ofWords [32, 0, 0, 0, 0, 0, 0x7FFFFFFF, 0, 5, 7]

theorem findDescriptor_of_length_le_one_behind :
    (∃ d, (compact 32).descriptorTable closedTarget = .ok d ∧ d.length ≤ 1) ∧
    (compact 32).findDescriptor closedTarget 5 .approximate ≠ .ok (some ⟨32, 5, 7⟩) ∧
    (compact 32).findDescriptor closedTarget 5 .exact = .ok (some ⟨32, 5, 7⟩) ∧
    (compact 32).descriptorAt closedTarget 5 = .ok (some ⟨32, 5, 7⟩) := by
  have htable : (compact 32).descriptorTable closedTarget =
      .ok ⟨24, 8, 1, by decide, by decide⟩ := rfl
  obtain ⟨happroximate, hexact, hat⟩ :=
    findDescriptor_of_length_le_one htable (by decide) 5 ⟨32, 5, 7⟩
  have hfound := hexact.mpr ⟨5, ⟨some 32, [none, none, none, none]⟩, rfl, by decide, rfl, rfl⟩
  exact ⟨⟨_, htable, by decide⟩, happroximate, hfound, hat.mpr hfound⟩

/-- A descriptor is found although the table holds none: neither with the closing entry alone nor
without any entry is the cache passed over. -/
theorem found_beside_empty_table :
    (∃ d, (compact 32).descriptorTable closedTarget = .ok d ∧ d.length = 1) ∧
    (compact 32).findDescriptor closedTarget 5 .exact = .ok (some ⟨32, 5, 7⟩) ∧
    (compact 32).descriptorAt closedTarget 5 = .ok (some ⟨32, 5, 7⟩) ∧
    (∃ d, (compact 24).descriptorTable closedTarget = .ok d ∧ d.length = 0) ∧
    (compact 24).findDescriptor closedTarget 5 .exact = .ok (some ⟨32, 5, 7⟩) :=
  ⟨⟨_, rfl, rfl⟩, rfl, rfl, ⟨_, rfl, rfl⟩, rfl⟩

end CompiledMethod

end JitFrames
