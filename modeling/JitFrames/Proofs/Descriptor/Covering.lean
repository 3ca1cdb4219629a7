import JitFrames.Proofs.DenseLayout
import JitFrames.Proofs.Descriptor.Scan

namespace JitFrames

namespace DescriptorTable

variable {entries : List Descriptor} {offset offset' : Nat} {e e' : Descriptor}

/-- The entry that serves an offset: the first one at it or behind it, provided that one stands at
it or before it. -/
structure Covers (entries : List Descriptor) (offset : Nat) (e : Descriptor) : Prop where
  mem : e ∈ entries
  le : offset ≤ e.pcOffset.toInt
  least : ∀ x ∈ entries, offset ≤ x.pcOffset.toInt → e.pcOffset.toInt ≤ x.pcOffset.toInt
  reached : ∃ x ∈ entries, x.pcOffset.toInt ≤ offset

theorem Covers.mono (h : Covers entries offset e) (h' : Covers entries offset' e')
    (hle : offset ≤ offset') : e.pcOffset.toInt ≤ e'.pcOffset.toInt := by
  have hle' := h'.le
  apply h.least e' h'.mem
  omega

theorem covers_of_eq (he : e ∈ entries) (heq : e.pcOffset.toInt = offset) :
    Covers entries offset e where
  mem := he
  le := by omega
  least := fun x _ hx => by omega
  reached := ⟨e, he, by omega⟩

theorem StrictlyAscending.ascending (hs : StrictlyAscending entries) : Ascending entries :=
  List.Pairwise.imp Int.le_of_lt hs

theorem Ascending.lt_of_lt {i j : Nat} (hs : Ascending entries) (he : entries[i]? = some e)
    (he' : entries[j]? = some e') (hlt : e.pcOffset.toInt < e'.pcOffset.toInt) : i < j := by
  apply Nat.lt_of_not_le
  intro hji
  have hle := hs.le hji he' he
  omega

/-- Where no entry stands at the offset itself, the entry that serves it is the one behind a gap that
holds the offset. -/
theorem StrictlyAscending.covers_iff (hs : StrictlyAscending entries)
    (hno : ∀ x ∈ entries, x.pcOffset.toInt ≠ offset) :
    Covers entries offset e ↔ ∃ i, Answering entries offset .approximate i e := by
  rw [exists_answering_approximate_iff]
  constructor
  · intro h
    obtain ⟨x, hx, hxle⟩ := h.reached
    have hxne := hno x hx
    have hreach := h.le
    obtain ⟨j, hj⟩ := List.mem_iff_getElem?.mp hx
    obtain ⟨i, hi⟩ := List.mem_iff_getElem?.mp h.mem
    have hji : j < i := hs.ascending.lt_of_lt hj hi (by omega)
    obtain ⟨k, rfl⟩ : ∃ k, i = k + 1 := ⟨i - 1, by omega⟩
    obtain ⟨hlt, rfl⟩ := List.getElem?_eq_some_iff.mp hi
    have hk : k < entries.length := Nat.lt_of_succ_lt hlt
    have hprev := List.pairwise_iff_getElem.mp hs k (k + 1) hk hlt (Nat.lt_succ_self k)
    refine ⟨k, entries[k], List.getElem?_eq_getElem hk, hi, ?_, hreach⟩
    -- otherwise the entry before would be an earlier one at the offset or behind it
    apply Int.lt_of_not_ge
    intro hge
    have hleast := h.least entries[k] (List.getElem_mem hk) hge
    omega
  · rintro ⟨i, x, hx, he, hlt, hreach⟩
    refine ⟨List.mem_of_getElem? he, hreach, ?_, x, List.mem_of_getElem? hx, Int.le_of_lt hlt⟩
    intro y hy hyreach
    obtain ⟨j, hj⟩ := List.mem_iff_getElem?.mp hy
    have hij : i < j := hs.ascending.lt_of_lt hx hj (by omega)
    exact hs.ascending.le hij he hj

/-- An offset that some entry reaches has a first entry at it or behind it. -/
theorem Ascending.exists_least (hs : Ascending entries) (he : e ∈ entries)
    (hle : offset ≤ e.pcOffset.toInt) :
    ∃ x ∈ entries, offset ≤ x.pcOffset.toInt ∧
      ∀ y ∈ entries, offset ≤ y.pcOffset.toInt → x.pcOffset.toInt ≤ y.pcOffset.toInt := by
  have hsome : (entries.find? fun x => decide ((offset : Int) ≤ x.pcOffset.toInt)).isSome :=
    List.find?_isSome.mpr ⟨e, he, decide_eq_true hle⟩
  obtain ⟨x, hx⟩ := Option.isSome_iff_exists.mp hsome
  obtain ⟨hreach, i, hi, rfl, hbefore⟩ := List.find?_eq_some_iff_getElem.mp hx
  refine ⟨entries[i], List.getElem_mem hi, of_decide_eq_true hreach, fun y hy hyle => ?_⟩
  obtain ⟨j, hj, rfl⟩ := List.mem_iff_getElem.mp hy
  have hij : i ≤ j := by
    apply Nat.le_of_not_lt
    intro hlt
    have hnot := hbefore j hlt
    simp [hyle] at hnot
  exact hs.le hij (List.getElem?_eq_getElem hi) (List.getElem?_eq_getElem hj)

theorem Ascending.head_le (hs : Ascending entries) {first : Descriptor}
    (hfirst : entries.head? = some first) (he : e ∈ entries) :
    first.pcOffset.toInt ≤ e.pcOffset.toInt := by
  rw [List.head?_eq_getElem?] at hfirst
  obtain ⟨i, hi⟩ := List.mem_iff_getElem?.mp he
  exact hs.le (Nat.zero_le i) hfirst hi

theorem Ascending.le_getLast (hs : Ascending entries) {last : Descriptor}
    (hlast : entries.getLast? = some last) (he : e ∈ entries) :
    e.pcOffset.toInt ≤ last.pcOffset.toInt := by
  rw [List.getLast?_eq_getElem?] at hlast
  obtain ⟨i, hi⟩ := List.mem_iff_getElem?.mp he
  have hlt := (List.getElem?_eq_some_iff.mp hi).1
  exact hs.le (Nat.le_sub_one_of_lt hlt) hi hlast

end DescriptorTable

open DescriptorTable

namespace CompiledMethod

variable {m : CompiledMethod} {t : Target} {d : DescriptorTable} {entries : List Descriptor}
  {cache : DescriptorCache} {pc : Address} {offset : Nat} {e : Descriptor}

/-- The combined lookup never fails, and finds the entry that serves the offset. -/
theorem Indexed.descriptorAt_ok (h : m.Indexed t d entries cache)
    (hs : StrictlyAscending entries) (hoffset : m.instructionOffset? pc = some offset) :
    ∃ r, m.descriptorAt t pc = .ok r ∧ ∀ e, r = some e ↔ Covers entries offset e := by
  obtain ⟨exact, hexact, hhit, hmiss⟩ := h.exact_ok hoffset
  cases exact with
  | some x =>
    obtain ⟨i, hi, hat⟩ := hhit x rfl
    have hx := covers_of_eq (List.mem_of_getElem? hi) hat
    refine ⟨some x, descriptorAt_of_exact hexact, fun e => ?_⟩
    constructor
    · intro he
      cases he
      exact hx
    · intro he
      have hle := hx.mono he (Nat.le_refl _)
      have hle' := he.mono hx (Nat.le_refl _)
      rw [hs.eq hx.mem he.mem (Int.le_antisymm hle hle')]
  | none =>
    have hno : ∀ x ∈ entries, x.pcOffset.toInt ≠ offset := by
      intro x hx hat
      obtain ⟨i, hi⟩ := List.mem_iff_getElem?.mp hx
      exact hmiss rfl i x ⟨hi, hat⟩
    obtain ⟨r, hr, hiff⟩ := h.approximate_ok hoffset
    refine ⟨r, ?_, fun e => ?_⟩
    · rw [descriptorAt_of_not_exact hexact, hr]
    · rw [hiff e, hs.covers_iff hno]

theorem Indexed.covers_of_descriptorAt (h : m.Indexed t d entries cache)
    (hs : StrictlyAscending entries) (hfound : m.descriptorAt t pc = .ok (some e)) :
    ∃ offset, m.blob.instructionsBegin.toNat + offset = pc.toNat ∧ Covers entries offset e := by
  cases hoffset : m.instructionOffset? pc with
  | none =>
    rw [descriptorAt_of_not_exact (findDescriptor_eq_none hoffset),
      findDescriptor_eq_none hoffset] at hfound
    cases hfound
  | some offset =>
    obtain ⟨r, hr, hiff⟩ := h.descriptorAt_ok hs hoffset
    rw [hr] at hfound
    exact ⟨offset, (instructionOffset?_eq_some_iff.mp hoffset).1,
      (hiff e).mp (Except.ok.inj hfound)⟩

/-- Every instruction from the first entry to the last one is served by the first entry at it or
behind it, every other one by none, and later instructions by the same entry or a later one. -/
theorem descriptorAt_covers (h : m.Indexed t d entries cache) (hs : StrictlyAscending entries)
    {first last : Descriptor} (hfirst : entries.head? = some first)
    (hlast : entries.getLast? = some last) :
    (∀ pc offset, m.blob.instructionsBegin.toNat + offset = pc.toNat → offset < 0x7FFFFFFF →
      (first.pcOffset.toInt ≤ offset ∧ offset ≤ last.pcOffset.toInt →
        ∃ e ∈ entries, m.descriptorAt t pc = .ok (some e) ∧ offset ≤ e.pcOffset.toInt ∧
          ∀ x ∈ entries, offset ≤ x.pcOffset.toInt → e.pcOffset.toInt ≤ x.pcOffset.toInt) ∧
      (offset < first.pcOffset.toInt ∨ last.pcOffset.toInt < offset →
        m.descriptorAt t pc = .ok none)) ∧
    ∀ pc pc' e e', pc ≤ pc' → m.descriptorAt t pc = .ok (some e) →
      m.descriptorAt t pc' = .ok (some e') → e.pcOffset.toInt ≤ e'.pcOffset.toInt := by
  constructor
  · intro pc offset hpc hlt
    obtain ⟨r, hr, hiff⟩ :=
      h.descriptorAt_ok hs (instructionOffset?_eq_some_iff.mpr ⟨hpc, hlt⟩)
    constructor
    · intro hcovered
      obtain ⟨e, he, hle, hleast⟩ :=
        h.ascending.exists_least (List.mem_of_getLast? hlast) hcovered.2
      have hcovers : Covers entries offset e :=
        ⟨he, hle, hleast, first, List.mem_of_mem_head? hfirst, hcovered.1⟩
      refine ⟨e, he, ?_, hle, hleast⟩
      rw [hr, (hiff e).mpr hcovers]
    · intro hout
      rw [hr]
      apply congrArg Except.ok
      apply Option.eq_none_iff_forall_ne_some.mpr
      intro e he
      have hcovers := (hiff e).mp he
      have hle := hcovers.le
      obtain ⟨x, hx, hxle⟩ := hcovers.reached
      have hhead := h.ascending.head_le hfirst hx
      have hend := h.ascending.le_getLast hlast hcovers.mem
      omega
  · intro pc pc' e e' hle hfound hfound'
    obtain ⟨offset, hpc, hcovers⟩ := h.covers_of_descriptorAt hs hfound
    obtain ⟨offset', hpc', hcovers'⟩ := h.covers_of_descriptorAt hs hfound'
    have hle := UInt64.le_iff_toNat_le.mp hle
    exact hcovers.mono hcovers' (by omega)

/-- The cache names the closing entry, then the second one. -/
def coveredTarget : Target := .compact [40, 32, 0, 0, 0] []

theorem covered_indexed :
    (compact 48).Indexed coveredTarget .compact compactEntries
      ⟨some 40, [some 32, none, none, none]⟩ := by
  refine ⟨rfl, lists_pair rfl rfl rfl, by decide, rfl, fun a ha => ?_⟩
  simp only [List.mem_cons, Option.some.injEq, reduceCtorEq, List.not_mem_nil, or_false] at ha
  rcases ha with rfl | rfl
  · exact ⟨2, _, by decide, rfl, rfl⟩
  · exact ⟨1, _, by decide, rfl, rfl⟩

/-- The first entry serves its own offset only, the second one all offsets from there to its own. -/
theorem descriptorAt_covers_pair :
    (compact 48).Indexed coveredTarget .compact compactEntries
      ⟨some 40, [some 32, none, none, none]⟩ ∧
    StrictlyAscending compactEntries ∧
    (compact 48).descriptorAt coveredTarget 4 = .ok none ∧
    (compact 48).descriptorAt coveredTarget 5 = .ok (some ⟨24, 5, 1⟩) ∧
    (compact 48).descriptorAt coveredTarget 6 = .ok (some ⟨32, 9, 2⟩) ∧
    (compact 48).descriptorAt coveredTarget 10 = .ok none := by
  have h := covered_indexed
  have hs : StrictlyAscending compactEntries := by decide
  have hcovers := (descriptorAt_covers h hs rfl rfl).1
  have hbefore := (hcovers 4 4 rfl (by decide)).2 (.inl (by decide))
  have hbehind := (hcovers 10 10 rfl (by decide)).2 (.inr (by decide))
  obtain ⟨e, he, hfirst, -, hleast⟩ := (hcovers 5 5 rfl (by decide)).1 (by decide)
  obtain ⟨e', he', hsecond, hreach, -⟩ := (hcovers 6 6 rfl (by decide)).1 (by decide)
  simp only [compactEntries, List.mem_cons, List.not_mem_nil, or_false] at he he'
  have heq : e = ⟨24, 5, 1⟩ := by
    have hle := hleast ⟨24, 5, 1⟩ (by decide) (by decide)
    rcases he with rfl | rfl
    · rfl
    · exact absurd hle (by decide)
  have heq' : e' = ⟨32, 9, 2⟩ := by
    rcases he' with rfl | rfl
    · exact absurd hreach (by decide)
    · rfl
  exact ⟨h, hs, hbefore, heq ▸ hfirst, heq' ▸ hsecond, hbehind⟩

end CompiledMethod

end JitFrames
