import JitFrames.Proofs.Layout.Resolve

namespace JitFrames

namespace LayoutSource

/-- The second source gives the answers of the first one to all that a layout needs. -/
structure Agrees (source other : LayoutSource) : Prop where
  size : ∀ owner, .size owner ∈ Layout.needs → other.typeSize? owner = source.typeSize? owner
  field : ∀ owner name, .field owner name ∈ Layout.needs →
    other.fieldOffset? owner name = source.fieldOffset? owner name
  descriptorSize : other.typeSize? "PcDesc" = source.typeSize? "PcDesc"

/-- The second source keeps the answers of the first one and may have others besides. -/
structure Extends (source other : LayoutSource) : Prop where
  size : ∀ owner n, source.typeSize? owner = some n → other.typeSize? owner = some n
  field : ∀ owner name n, source.fieldOffset? owner name = some n →
    other.fieldOffset? owner name = some n

end LayoutSource

namespace Layout

variable {source other : LayoutSource} {target : TargetInfo}

/-- The sum for the used byte is checked only once the header has been found. -/
theorem header_of_unmet (h : unmet? source target = some (.answered .usedOffset)) :
    ∃ header, source.fieldOffset? "HeapBlock" "_header" = some header := by
  -- Nothing before the sum is the sum, so what fails first is not among what comes before it.
  let before := requirements.take (requirements.idxOf (.answered .usedOffset))
  let behind := requirements.drop (requirements.idxOf (.answered .usedOffset))
  have hsplit : requirements = before ++ behind := (List.take_append_drop _ _).symm
  have hbefore : before.find? (fun q => !q.met source target) = none := by
    cases hfirst : before.find? fun q => !q.met source target with
    | none => rfl
    | some q =>
      rw [unmet?, hsplit, List.find?_append, hfirst, Option.some_or] at h
      obtain rfl := Option.some.inj h
      exact absurd (List.mem_of_find?_eq_some hfirst) (by decide)
  have hmet := List.find?_eq_none.mp hbefore (.answered (.field "HeapBlock" "_header")) (by decide)
  rw [Bool.not_eq_true', Bool.not_eq_false] at hmet
  exact Option.isSome_iff_exists.mp hmet

section

variable (hkeep : ∀ need ∈ needs, ∀ n, need.answer? source = some n → need.answer? other = some n)

include hkeep

/-- The only answer that a fault quotes is one that is kept. -/
theorem fault_eq_of_unmet {q : Requirement} (h : unmet? source target = some q) :
    q.fault other target = q.fault source target := by
  cases q with
  | pointerSize => rfl
  | answered need =>
    cases need with
    | size owner => rfl
    | field owner name => rfl
    | descriptorSize => rfl
    | usedOffset =>
      obtain ⟨header, hheader⟩ := header_of_unmet h
      have hother := hkeep (.field "HeapBlock" "_header") (by decide) header hheader
      rw [Need.answer?] at hother
      rw [Requirement.fault, Requirement.fault, Need.fault, Need.fault, hheader, hother]

theorem metFirst_le : metFirst source target ≤ metFirst other target := by
  refine List.findIdx_le_findIdx fun q hq hunmet => ?_
  cases q with
  | pointerSize => exact hunmet
  | answered need =>
    rw [Bool.not_eq_true', Requirement.met, Option.isSome_eq_false_iff, Option.isNone_iff_eq_none]
      at hunmet ⊢
    cases hanswer : need.answer? source with
    | none => rfl
    | some n =>
      rw [hkeep need (mem_requirements.mp hq) n hanswer] at hunmet
      cases hunmet

theorem resolve_eq_of_metFirst_eq
    (h : metFirst other target = metFirst source target) :
    resolve other target = resolve source target := by
  have hunmet : unmet? other target = unmet? source target := by
    unfold unmet?
    rw [List.find?_eq_getElem?_findIdx, List.find?_eq_getElem?_findIdx]
    exact congrArg (requirements[·]?) h
  cases hresult : resolve source target with
  | ok layout =>
    have hlayout := resolve_eq_ok_iff.mp hresult
    refine resolve_eq_ok_iff.mpr ⟨hlayout.pointerWidth, hlayout.endian, fun o ho => ?_⟩
    have hneed : o.1 ∈ needs := List.mem_flatMap.mpr ⟨o, ho, o.1.mem_steps⟩
    exact hkeep o.1 hneed _ (hlayout.offset o ho)
  | error e =>
    obtain ⟨q, hq, rfl⟩ := resolve_eq_error_iff.mp hresult
    rw [← fault_eq_of_unmet hkeep hq]
    exact resolve_eq_error_iff.mpr ⟨q, hunmet.trans hq, rfl⟩

end

theorem answer?_of_agrees (h : source.Agrees other) {need : Need} (hneed : need ∈ needs) :
    need.answer? other = need.answer? source := by
  cases need with
  | size owner => exact h.size owner hneed
  | field owner name => exact h.field owner name hneed
  | descriptorSize =>
    rw [Need.answer?, Need.answer?, h.descriptorSize]
  | usedOffset =>
    rw [Need.answer?, Need.answer?, h.field _ _ (by decide), h.field _ _ (by decide)]

theorem answer?_of_extends (h : source.Extends other) {need : Need} {n : UInt64}
    (hanswer : need.answer? source = some n) : need.answer? other = some n := by
  cases need with
  | size owner => exact h.size owner n hanswer
  | field owner name => exact h.field owner name n hanswer
  | descriptorSize =>
    obtain ⟨hsize, hpos⟩ := Option.filter_eq_some_iff.mp hanswer
    exact Option.filter_eq_some_iff.mpr ⟨h.size "PcDesc" n hsize, hpos⟩
  | usedOffset =>
    simp only [Need.answer?, Option.bind_eq_bind, Option.bind_eq_some_iff] at hanswer ⊢
    obtain ⟨header, hheader, used, hused, hsum⟩ := hanswer
    exact ⟨header, h.field _ _ header hheader, used, h.field _ _ used hused, hsum⟩

/-- A layout is resolved exactly if the target has pointers of four or eight bytes and the source
says all that is needed, and then each offset is what the source says about its own need. Otherwise
the first requirement that is not met gives the fault. Nothing but the answers to the needs matters;
with more answers the result stays or a later requirement is the first that is not met, if any. -/
theorem resolve_decided (source : LayoutSource) (target : TargetInfo) :
    ((∃ layout, resolve source target = .ok layout) ↔ Complete source target) ∧
    (∀ layout, resolve source target = .ok layout ↔ Resolves source target layout) ∧
    (∀ e, resolve source target = .error e ↔
      ∃ q, unmet? source target = some q ∧ e = q.fault source target) ∧
    (∀ other, source.Agrees other → resolve other target = resolve source target) ∧
    ∀ other, source.Extends other → resolve other target = resolve source target ∨
      metFirst source target < metFirst other target := by
  refine ⟨?_, fun layout => resolve_eq_ok_iff, fun e => resolve_eq_error_iff, fun other h => ?_,
    fun other h => ?_⟩
  · rw [← met_iff_complete]
    constructor
    · intro hh
      obtain ⟨layout, hlayout⟩ := hh
      exact (resolve_eq_ok_iff.mp hlayout).met
    · intro hmet
      obtain ⟨layout, hlayout, -⟩ := decided_resolve.ok (unmet?_eq_none_iff.mpr hmet)
      exact ⟨layout, hlayout⟩
  · have hkeep : ∀ need ∈ needs, ∀ n, need.answer? source = some n →
        need.answer? other = some n :=
      fun need hneed n hn => (answer?_of_agrees h hneed).trans hn
    have hback : ∀ need ∈ needs, ∀ n, need.answer? other = some n →
        need.answer? source = some n :=
      fun need hneed n hn => (answer?_of_agrees h hneed).symm.trans hn
    exact resolve_eq_of_metFirst_eq hkeep (Nat.le_antisymm (metFirst_le hback) (metFirst_le hkeep))
  · have hkeep : ∀ need ∈ needs, ∀ n, need.answer? source = some n →
        need.answer? other = some n := fun need _ n hn => answer?_of_extends h hn
    have hle : metFirst source target ≤ metFirst other target := metFirst_le hkeep
    obtain hlater | hsame := Nat.lt_or_eq_of_le hle
    · exact .inr hlater
    · exact .inl (resolve_eq_of_metFirst_eq hkeep hsame.symm)

/-- A source that answers everything else with the same number. -/
def lacking (n : UInt64) (sizes : List String) (fields : List (String × String)) : LayoutSource :=
  ⟨fun owner name => if (owner, name) ∈ fields then none else some n,
    fun owner => if owner ∈ sizes then none else some n⟩

theorem lacking_extends (n : UInt64) (sizes : List String) (fields : List (String × String)) :
    (lacking n sizes fields).Extends (lacking n [] fields) := by
  refine ⟨fun owner k h => ?_, fun owner name k h => h⟩
  simp only [lacking] at h
  split at h
  · cases h
  · exact h

/-- With the size that is missing the field that is missing as well is the first, which entries that
no layout needs do not change; without the gap and with small numbers there is a layout, and with
large ones the sum is found to be too large. -/
theorem resolve_decided_lacking :
    resolve (lacking 8 ["ConstMethod"] [("Symbol", "_body")]) .default =
        .error (.missingLayout "ConstMethod" "<size>") ∧
      resolve (lacking 8 [] [("Symbol", "_body")]) .default =
        .error (.missingLayout "Symbol" "_body") ∧
      metFirst (lacking 8 ["ConstMethod"] [("Symbol", "_body")]) .default <
        metFirst (lacking 8 [] [("Symbol", "_body")]) .default ∧
      resolve (lacking 8 ["CodeBlob"] [("Symbol", "_body"), ("Klass", "_size")]) .default =
        .error (.missingLayout "Symbol" "_body") ∧
      Complete (lacking 8 [] []) .default ∧
      resolve (lacking 0xFFFFFFFFFFFFFFFF [] []) .default =
        .error (.malformed .usedOffset 0xFFFFFFFFFFFFFFFF) := by
  have hgaps : resolve (lacking 8 ["ConstMethod"] [("Symbol", "_body")]) .default =
      .error (.missingLayout "ConstMethod" "<size>") :=
    ((resolve_decided _ _).2.2.1 _).mpr ⟨.answered (.size "ConstMethod"), by decide, rfl⟩
  have hfield : resolve (lacking 8 [] [("Symbol", "_body")]) .default =
      .error (.missingLayout "Symbol" "_body") :=
    ((resolve_decided _ _).2.2.1 _).mpr ⟨.answered (.field "Symbol" "_body"), by decide, rfl⟩
  have hagrees : (lacking 8 [] [("Symbol", "_body")]).Agrees
      (lacking 8 ["CodeBlob"] [("Symbol", "_body"), ("Klass", "_size")]) := by
    refine ⟨fun owner h => ?_, fun owner name h => ?_, rfl⟩
    · have hne : owner ≠ "CodeBlob" := by
        rintro rfl
        exact absurd h (by decide)
      simp [lacking, hne]
    · have hne : (owner, name) ≠ ("Klass", "_size") := by
        intro hh
        cases hh
        exact absurd h (by decide)
      simp only [lacking, List.mem_cons, hne, List.not_mem_nil, or_false]
  refine ⟨hgaps, hfield, ?_, ?_, ?_, ?_⟩
  · obtain hsame | hlater := (resolve_decided (lacking 8 ["ConstMethod"] [("Symbol", "_body")])
      .default).2.2.2.2 _ (lacking_extends 8 _ _)
    · rw [hgaps, hfield] at hsame
      exact absurd hsame (by decide)
    · exact hlater
  · rw [(resolve_decided _ _).2.2.2.1 _ hagrees]
    exact hfield
  · exact (resolve_decided _ _).1.mp ⟨_, rfl⟩
  · exact ((resolve_decided _ _).2.2.1 _).mpr ⟨.answered .usedOffset, by decide, rfl⟩

end Layout

end JitFrames
