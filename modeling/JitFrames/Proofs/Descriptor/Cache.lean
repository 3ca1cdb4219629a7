import JitFrames.Proofs.Descriptor.Search

namespace JitFrames

/-- An address of a readable entry of the table, be it the closing one. -/
def DescriptorTable.Names (d : DescriptorTable) (t : Target) (a : Address) : Prop :=
  ∃ i desc, i < d.length ∧ a = d.addressOf i ∧ d.entry t i = .ok desc

/-- Every pointer of the cache is null or names a readable entry of the table. -/
def DescriptorCache.Names (cache : DescriptorCache) (d : DescriptorTable) (t : Target) : Prop :=
  ∀ a, some a ∈ cache.recent :: cache.slots → d.Names t a

namespace DescriptorTable

variable {d : DescriptorTable} {t t' : Target} {entries : List Descriptor} {offset : Nat}
  {precision : Precision} {cache : DescriptorCache} {a : Address}

/-- A pointer that is no obstacle: its descriptor can be read and judged, and `P` holds of it if it
answers. -/
def Judged (d : DescriptorTable) (t : Target) (offset : Nat) (precision : Precision)
    (P : Descriptor → Prop) (a : Address) : Prop :=
  ∃ desc r, Descriptor.read t a = .ok desc ∧ d.answers t desc offset precision = .ok r ∧
    (r = true → P desc)

/-- The descriptor is an entry of the table that answers. -/
def Hit (entries : List Descriptor) (offset : Nat) (precision : Precision)
    (e : Descriptor) : Prop :=
  ∃ i, Answering entries offset precision i e

theorem Lists.judged_entry (hl : d.Lists t entries) (offset : Nat) (precision : Precision)
    {i : Nat} {desc : Descriptor} (hi : i < d.length) (hr : d.entry t i = .ok desc) :
    d.Judged t offset precision (Hit entries offset precision) (d.addressOf i) := by
  obtain ⟨r, hanswers, hiff⟩ := hl.answers_entry offset precision hi hr
  exact ⟨desc, r, hr, hanswers, fun htrue => ⟨i, hiff.mp htrue⟩⟩

theorem Lists.judged_of_names (hl : d.Lists t entries) (offset : Nat) (precision : Precision)
    (ha : d.Names t a) : d.Judged t offset precision (Hit entries offset precision) a := by
  obtain ⟨i, desc, hi, rfl, hr⟩ := ha
  exact hl.judged_entry offset precision hi hr

/-- A descriptor outside the table never answers approximately, so any pointer will do. -/
theorem Lists.judged_approximate (hl : d.Lists t entries) (offset : Nat) {desc : Descriptor}
    (hr : Descriptor.read t a = .ok desc) :
    d.Judged t offset .approximate (Hit entries offset .approximate) a := by
  cases hindex : d.indexOf? a with
  | none =>
    refine ⟨desc, false, hr, ?_, nofun⟩
    simp only [answers]
    rw [Descriptor.address_of_read hr, hindex]
    rfl
  | some i =>
    obtain ⟨hi, rfl⟩ := indexOf?_eq_some_iff.mp hindex
    exact hl.judged_entry offset .approximate hi hr

theorem findInSlots_ok {P : Descriptor → Prop} {slots : List (Option Address)}
    (hj : ∀ a, some a ∈ slots → d.Judged t offset precision P a) :
    ∃ r, d.findInSlots t offset precision slots = .ok r ∧ ∀ e, r = some e → P e := by
  induction slots with
  | nil => exact ⟨none, rfl, fun _ h => nomatch h⟩
  | cons slot slots ih =>
    cases slot with
    | none => exact ⟨none, rfl, fun _ h => nomatch h⟩
    | some a =>
      obtain ⟨desc, r, hread, hanswers, hhit⟩ := hj a (by simp)
      simp only [findInSlots]
      rw [hread, Answer.ok_bind]
      by_cases hneg : desc.pcOffset < 0
      · exact ⟨none, if_pos hneg, fun _ h => nomatch h⟩
      · rw [if_neg hneg, hanswers, Answer.ok_bind]
        cases r with
        | true =>
          refine ⟨some desc, rfl, fun e he => ?_⟩
          cases he
          exact hhit rfl
        | false => exact ih fun a ha => hj a (List.mem_cons_of_mem _ ha)

theorem findCached_ok {P : Descriptor → Prop}
    (hj : ∀ a, some a ∈ cache.recent :: cache.slots → d.Judged t offset precision P a) :
    ∃ r, d.findCached t cache offset precision = .ok r ∧ ∀ e, r = some e → P e := by
  simp only [findCached]
  cases hrecent : cache.recent with
  | none => exact ⟨none, rfl, fun _ h => nomatch h⟩
  | some a =>
    obtain ⟨desc, r, hread, hanswers, hhit⟩ := hj a (by simp [hrecent])
    dsimp only
    rw [hread, Answer.ok_bind, hanswers, Answer.ok_bind]
    cases r with
    | true =>
      refine ⟨some desc, rfl, fun e he => ?_⟩
      cases he
      exact hhit rfl
    | false => exact findInSlots_ok fun a ha => hj a (List.mem_cons_of_mem _ ha)

theorem Lists.answers_eq (hl : d.Lists t entries) (hl' : d.Lists t' entries) {i : Nat}
    {desc : Descriptor} (he : entries[i]? = some desc) :
    d.answers t' desc offset precision = d.answers t desc offset precision := by
  have hi : i < d.length := by
    rw [hl.length]
    exact Nat.lt_succ_of_lt (List.getElem?_eq_some_iff.mp he).1
  obtain ⟨r, hr, hiff⟩ := hl.answers_entry offset precision hi
    (hl.entry i desc he)
  obtain ⟨r', hr', hiff'⟩ := hl'.answers_entry offset precision hi
    (hl'.entry i desc he)
  rw [hr, hr', Bool.eq_iff_iff.mpr (hiff'.trans hiff.symm)]

/-- Two targets with the same entries can differ at a pointer only if it names the closing entry,
which answers in neither. -/
theorem Lists.named_cases (hl : d.Lists t entries) (hl' : d.Lists t' entries) (offset : Nat)
    (precision : Precision) (ha : d.Names t a) (ha' : d.Names t' a) :
    (∃ desc, Descriptor.read t a = .ok desc ∧ Descriptor.read t' a = .ok desc ∧
      d.answers t' desc offset precision = d.answers t desc offset precision) ∨
    (a = d.addressOf d.sentinel ∧ ∃ last last', Descriptor.read t a = .ok last ∧
      Descriptor.read t' a = .ok last' ∧ d.answers t last offset precision = .ok false ∧
      d.answers t' last' offset precision = .ok false) := by
  obtain ⟨i, desc, hi, rfl, hr⟩ := ha
  by_cases hlt : i < entries.length
  · have he := List.getElem?_eq_getElem hlt
    exact .inl ⟨_, hl.entry i _ he, hl'.entry i _ he, hl.answers_eq hl' he⟩
  · have hlen := hl.length
    have hs : i = d.sentinel := by
      rw [hl.sentinel]
      omega
    subst hs
    obtain ⟨j, desc', hj, hij, hr'⟩ := ha'
    have hr' : Descriptor.read t' (d.addressOf j) = .ok desc' := hr'
    rw [← hij] at hr'
    have hindex := indexOf?_addressOf hi
    exact .inr ⟨rfl, desc, desc', hr, hr',
      answers_sentinel (by rw [Descriptor.address_of_read hr, hindex]),
      answers_sentinel (by rw [Descriptor.address_of_read hr', hindex])⟩

/-- The closing entry decides nothing among the older pointers but where they stop. -/
theorem Lists.findInSlots_eq (hl : d.Lists t entries) (hl' : d.Lists t' entries) (offset : Nat)
    (precision : Precision) {slots : List (Option Address)} (hn : ∀ a, some a ∈ slots → d.Names t a)
    (hn' : ∀ a, some a ∈ slots → d.Names t' a)
    (hstop : some (d.addressOf d.sentinel) ∈ slots → ∀ last last',
      d.entry t d.sentinel = .ok last → d.entry t' d.sentinel = .ok last' →
        (last.pcOffset < 0 ↔ last'.pcOffset < 0)) :
    d.findInSlots t' offset precision slots = d.findInSlots t offset precision slots := by
  induction slots with
  | nil => rfl
  | cons slot slots ih =>
    cases slot with
    | none => rfl
    | some a =>
      have ih := ih (fun a ha => hn a (List.mem_cons_of_mem _ ha))
        (fun a ha => hn' a (List.mem_cons_of_mem _ ha))
        (fun h => hstop (List.mem_cons_of_mem _ h))
      simp only [findInSlots]
      rcases hl.named_cases hl' offset precision (hn a (by simp))
        (hn' a (by simp)) with ⟨desc, hr, hr', heq⟩ | ⟨rfl, last, last', hr, hr', hf, hf'⟩
      · rw [hr, hr', Answer.ok_bind, Answer.ok_bind, heq, ih]
      · have hsign := hstop (by simp) last last' hr hr'
        rw [hr, hr', Answer.ok_bind, Answer.ok_bind, hf, hf', Answer.ok_bind, Answer.ok_bind, ih]
        by_cases hneg : last.pcOffset < 0
        · rw [if_pos hneg, if_pos (hsign.mp hneg)]
        · rw [if_neg hneg, if_neg (hsign.not.mp hneg)]
          rfl

theorem Lists.findCached_eq (hl : d.Lists t entries) (hl' : d.Lists t' entries)
    (hn : cache.Names d t) (hn' : cache.Names d t')
    (hstop : some (d.addressOf d.sentinel) ∈ cache.slots → ∀ last last',
      d.entry t d.sentinel = .ok last → d.entry t' d.sentinel = .ok last' →
        (last.pcOffset < 0 ↔ last'.pcOffset < 0)) :
    d.findCached t' cache offset precision = d.findCached t cache offset precision := by
  have hslots := hl.findInSlots_eq hl' offset precision
    (fun a ha => hn a (List.mem_cons_of_mem _ ha))
    (fun a ha => hn' a (List.mem_cons_of_mem _ ha)) hstop
  simp only [findCached]
  cases hrecent : cache.recent with
  | none => rfl
  | some a =>
    dsimp only
    rcases hl.named_cases hl' offset precision
      (hn a (by simp [hrecent])) (hn' a (by simp [hrecent]))
      with ⟨desc, hr, hr', heq⟩ | ⟨rfl, last, last', hr, hr', hf, hf'⟩
    · rw [hr, hr', Answer.ok_bind, Answer.ok_bind, heq, hslots]
    · rw [hr, hr', Answer.ok_bind, Answer.ok_bind, hf, hf', Answer.ok_bind, Answer.ok_bind]
      exact hslots

end DescriptorTable

end JitFrames
