import JitFrames.Code.Descriptor.Lookup
import JitFrames.Proofs.Growth.Target

namespace JitFrames

open Answer (Persists)

variable {m m' : Memory} {layout : Layout}

namespace Bracket

theorem stride_persists {below below' : Nat → Answer Bool}
    (h : ∀ index, Persists (below index) (below' index)) (skip : Nat) (b : Bracket) :
    Persists (stride below skip b) (stride below' skip b) := by
  induction hroom : b.ceiling - b.floor using Nat.strongRecOn generalizing b with
  | ind room ih =>
    rw [stride.eq_def below, stride.eq_def below']
    by_cases hopen : b.floor + skip < b.ceiling
    · rw [dif_pos hopen, dif_pos hopen]
      obtain ⟨a, n, hprobe⟩ | hsame := h (b.floor + skip)
      · rw [hprobe]
        exact .inl ⟨a, n, rfl⟩
      · rw [hsame]
        cases below (b.floor + skip) with
        | error e => exact .refl _
        | ok isBelow =>
          cases isBelow with
          | false => exact .refl _
          | true => exact ih _ (by simp only; omega) ⟨b.floor + skip + 1, b.ceiling⟩ rfl
    · rw [dif_neg hopen, dif_neg hopen]
      exact .refl _

theorem close_persists {below below' : Nat → Answer Bool}
    (h : ∀ index, Persists (below index) (below' index)) (b : Bracket) :
    Persists (b.close below) (b.close below') :=
  .foldlM (fun b skip => stride_persists h skip b) b skips

end Bracket

theorem Descriptor.read_persists (h : m.Extends m') (a : Address) :
    Persists (Descriptor.read ⟨m, layout⟩ a) (Descriptor.read ⟨m', layout⟩ a) := by
  refine (Target.i32Field_persists h a _).bind fun pcOffset => ?_
  exact (Target.i32Field_persists h a _).bind fun _ => .refl _

theorem DescriptorCache.read_persists (h : m.Extends m') (a : Address) :
    Persists (DescriptorCache.read ⟨m, layout⟩ a) (DescriptorCache.read ⟨m', layout⟩ a) := by
  refine (Target.pointerField_persists h a _).bind fun recent => ?_
  refine Persists.bind ?_ fun _ => .refl _
  exact .mapM (fun i => Target.pointerField_persists h a _) (List.range slotCount)

namespace DescriptorTable

variable {offset : Nat} {precision : Precision}

theorem entry_persists (h : m.Extends m') (d : DescriptorTable) (index : Nat) :
    Persists (d.entry ⟨m, layout⟩ index) (d.entry ⟨m', layout⟩ index) :=
  Descriptor.read_persists h (d.addressOf index)

theorem below_persists (h : m.Extends m') (d : DescriptorTable) (index : Nat) :
    Persists (d.below ⟨m, layout⟩ offset index) (d.below ⟨m', layout⟩ offset index) :=
  (d.entry_persists h index).bind fun _ => .refl _

theorem answers_persists (h : m.Extends m') (d : DescriptorTable) (desc : Descriptor) :
    Persists (d.answers ⟨m, layout⟩ desc offset precision)
      (d.answers ⟨m', layout⟩ desc offset precision) := by
  refine .ite (fun _ => .refl _) fun _ => ?_
  cases precision with
  | exact => exact .refl _
  | approximate =>
    cases d.indexOf? desc.address with
    | none => exact .refl _
    | some index =>
      cases index with
      | zero => exact .refl _
      | succ i => exact (d.entry_persists h i).bind fun _ => .refl _

theorem startBracket_persists (h : m.Extends m') (d : DescriptorTable) (pivot : Option Address) :
    Persists (d.startBracket ⟨m, layout⟩ offset pivot)
      (d.startBracket ⟨m', layout⟩ offset pivot) := by
  unfold startBracket
  dsimp only
  cases pivot.bind d.indexOf? with
  | none => exact .refl _
  | some p =>
    exact .ite (fun _ => (d.below_persists h p).bind fun _ => .refl _) fun _ => .refl _

theorem search_persists (h : m.Extends m') (d : DescriptorTable) (pivot : Option Address) :
    Persists (d.search ⟨m, layout⟩ offset precision pivot)
      (d.search ⟨m', layout⟩ offset precision pivot) := by
  refine .ite (fun _ => .refl _) fun _ => ?_
  refine (d.startBracket_persists h pivot).bind fun start => ?_
  refine (Bracket.close_persists (d.below_persists h) start).bind fun bracket => ?_
  refine .ite (fun _ => .refl _) fun _ => ?_
  refine (d.entry_persists h bracket.ceiling).bind fun desc => ?_
  exact (d.answers_persists h desc).bind fun _ => .refl _

theorem findInSlots_persists (h : m.Extends m') (d : DescriptorTable)
    (slots : List (Option Address)) :
    Persists (d.findInSlots ⟨m, layout⟩ offset precision slots)
      (d.findInSlots ⟨m', layout⟩ offset precision slots) := by
  induction slots with
  | nil => exact .refl _
  | cons slot slots ih =>
    cases slot with
    | none => exact .refl _
    | some a =>
      refine (Descriptor.read_persists h a).bind fun desc => ?_
      refine .ite (fun _ => .refl _) fun _ => ?_
      exact (d.answers_persists h desc).bind fun _ => .ite (fun _ => .refl _) fun _ => ih

theorem findCached_persists (h : m.Extends m') (d : DescriptorTable) (cache : DescriptorCache) :
    Persists (d.findCached ⟨m, layout⟩ cache offset precision)
      (d.findCached ⟨m', layout⟩ cache offset precision) := by
  unfold findCached
  cases cache.recent with
  | none => exact .refl _
  | some a =>
    refine (Descriptor.read_persists h a).bind fun desc => ?_
    refine (d.answers_persists h desc).bind fun _ => .ite (fun _ => .refl _) fun _ => ?_
    exact d.findInSlots_persists h cache.slots

end DescriptorTable

namespace CompiledMethod

theorem findDescriptor_persists (h : m.Extends m') (method : CompiledMethod) (pc : Address)
    (precision : Precision) :
    Persists (method.findDescriptor ⟨m, layout⟩ pc precision)
      (method.findDescriptor ⟨m', layout⟩ pc precision) := by
  unfold findDescriptor
  cases method.instructionOffset? pc with
  | none => exact .refl _
  | some offset =>
    refine (Persists.refl (method.descriptorTable ⟨m, layout⟩)).bind fun table => ?_
    refine (DescriptorCache.read_persists h method.descriptorCache).bind fun cache => ?_
    refine (table.findCached_persists h cache).bind fun found => ?_
    cases found with
    | some desc => exact .refl _
    | none => exact table.search_persists h cache.recent

theorem descriptorAt_persists (h : m.Extends m') (method : CompiledMethod) (pc : Address) :
    Persists (method.descriptorAt ⟨m, layout⟩ pc) (method.descriptorAt ⟨m', layout⟩ pc) := by
  refine (method.findDescriptor_persists h pc .exact).bind fun found => ?_
  cases found with
  | some desc => exact .refl _
  | none => exact method.findDescriptor_persists h pc .approximate

end CompiledMethod

end JitFrames
