import JitFrames.Proofs.Answer
import JitFrames.Proofs.Layout.Requirement

namespace JitFrames

variable {source : LayoutSource} {target : TargetInfo} {qs rs : List Requirement} {α β : Type}

/-- The computation succeeds with a right value if the requirements are met, and fails with the
fault of the first one that is not. -/
structure Decided (source : LayoutSource) (target : TargetInfo) (qs : List Requirement)
    (x : Answer α) (Right : α → Prop) : Prop where
  ok : qs.find? (fun q => !q.met source target) = none → ∃ a, x = .ok a ∧ Right a
  error : ∀ q, qs.find? (fun q => !q.met source target) = some q →
    x = .error (q.fault source target)

namespace Decided

theorem pure {a : α} {Right : α → Prop} (h : Right a) :
    Decided source target [] (pure a) Right :=
  ⟨fun _ => ⟨a, rfl, h⟩, nofun⟩

theorem bind {x : Answer α} {f : α → Answer β} {Right : α → Prop} {Right' : β → Prop}
    (hx : Decided source target qs x Right)
    (hf : ∀ a, Right a → Decided source target rs (f a) Right') :
    Decided source target (qs ++ rs) (x >>= f) Right' := by
  constructor
  · intro h
    rw [List.find?_append, Option.or_eq_none_iff] at h
    obtain ⟨a, rfl, ha⟩ := hx.ok h.1
    exact (hf a ha).ok h.2
  · intro q h
    rw [List.find?_append] at h
    cases hqs : qs.find? (fun q => !q.met source target) with
    | some first =>
      rw [hqs, Option.some_or] at h
      obtain rfl := Option.some.inj h
      rw [hx.error first hqs]
      rfl
    | none =>
      rw [hqs, Option.none_or] at h
      obtain ⟨a, rfl, ha⟩ := hx.ok hqs
      exact (hf a ha).error q h

theorem of_eq_ask {need : Need} {x : Answer UInt64} (hx : x = need.ask source) :
    Decided source target [.answered need] x fun n => need.answer? source = some n := by
  rw [hx]
  unfold Need.ask
  cases hanswer : need.answer? source with
  | some n =>
    have hmet : (Requirement.answered need).met source target = true := by
      rw [Requirement.met, hanswer]
      rfl
    refine ⟨fun _ => ⟨n, rfl, rfl⟩, fun q h => ?_⟩
    rw [List.find?_singleton, hmet] at h
    cases h
  | none =>
    have hunmet : (Requirement.answered need).met source target = false := by
      rw [Requirement.met, hanswer]
      rfl
    constructor
    · intro h
      rw [List.find?_singleton, hunmet] at h
      cases h
    · intro q h
      rw [List.find?_singleton, hunmet] at h
      obtain rfl := Option.some.inj h
      rfl

theorem of_pointerSize : Decided source target [.pointerSize]
    (Layout.pointerWidth target.pointerSize) fun w => w.bytes = target.pointerSize.toNat := by
  have hmet : Requirement.pointerSize.met source target = true ↔
      target.pointerSize = 4 ∨ target.pointerSize = 8 := decide_eq_true_iff
  unfold Layout.pointerWidth
  constructor
  · intro h
    have hsize : target.pointerSize = 4 ∨ target.pointerSize = 8 := by
      simpa [hmet] using h
    obtain hsize | hsize := hsize
    · rw [hsize]
      exact ⟨.four, rfl, rfl⟩
    · rw [hsize]
      exact ⟨.eight, rfl, rfl⟩
  · intro q h
    have hq := List.find?_some h
    obtain rfl := List.mem_singleton.mp (List.mem_of_find?_eq_some h)
    rw [Bool.not_eq_true', ← Bool.not_eq_true, hmet, not_or] at hq
    rw [if_neg hq.1, if_neg hq.2]
    rfl

end Decided

/-- The question settles the need, and before it whatever the need takes for that. -/
abbrev Settles (source : LayoutSource) (target : TargetInfo) (need : Need) (x : Answer UInt64) :
    Prop :=
  Decided source target (need.steps.map .answered) x fun n => need.answer? source = some n

theorem settles_field (owner name : String) :
    Settles source target (.field owner name) (source.field owner name) := .of_eq_ask rfl

theorem settles_size (owner : String) :
    Settles source target (.size owner) (source.size owner) := .of_eq_ask rfl

theorem settles_descriptorSize :
    Settles source target .descriptorSize (source.positiveSize "PcDesc") := by
  apply Decided.of_eq_ask
  unfold LayoutSource.positiveSize LayoutSource.size Need.ask Need.answer?
  cases source.typeSize? "PcDesc" with
  | none => rfl
  | some n =>
    by_cases hn : n = 0
    · rw [Option.filter_some_neg (by simpa using hn), Answer.ok_bind, if_pos hn]
      rfl
    · rw [Option.filter_some_pos (by simpa using hn), Answer.ok_bind, if_neg hn]
      rfl

theorem settles_usedOffset : Settles source target .usedOffset source.usedOffset := by
  refine .bind (settles_field "HeapBlock" "_header") fun header hheader => ?_
  refine .bind (settles_field "HeapBlock::Header" "_used") fun used hused => ?_
  apply Decided.of_eq_ask
  rw [Need.answer?] at hheader hused
  rw [Need.ask, Need.answer?, Need.fault, hheader, hused]
  rfl

namespace Layout

/-- The layout is that of the target, with the offsets that the source gives. -/
structure Resolves (source : LayoutSource) (target : TargetInfo) (layout : Layout) : Prop where
  pointerWidth : layout.machine.pointerWidth.bytes = target.pointerSize.toNat
  endian : layout.machine.endian = target.endian
  offset : ∀ o ∈ offsets, o.1.answer? source = some (o.2 layout)

/-- One step for each question of the resolution, in its order. -/
theorem decided_resolve :
    Decided source target requirements (resolve source target) (Resolves source target) := by
  unfold resolve
  refine .bind .of_pointerSize fun width hwidth => ?_
  refine .bind settles_descriptorSize fun descriptorSize hdescriptorSize => ?_
  refine .bind (settles_field _ _) fun blobName hblobName => ?_
  refine .bind (settles_field _ _) fun blobSize hblobSize => ?_
  refine .bind (settles_field _ _) fun instructions hinstructions => ?_
  refine .bind (settles_field _ _) fun method hmethod => ?_
  refine .bind (settles_field _ _) fun pcs hpcs => ?_
  refine .bind (settles_field _ _) fun dependencies hdependencies => ?_
  refine .bind (settles_field _ _) fun scopes hscopes => ?_
  refine .bind (settles_field _ _) fun oops hoops => ?_
  refine .bind (settles_field _ _) fun cache hcache => ?_
  refine .bind (settles_field _ _) fun recent hrecent => ?_
  refine .bind (settles_field _ _) fun slots hslots => ?_
  refine .bind (settles_field _ _) fun pc hpc => ?_
  refine .bind (settles_field _ _) fun scope hscope => ?_
  refine .bind (settles_field _ _) fun memory hmemory => ?_
  refine .bind (settles_field _ _) fun map hmap => ?_
  refine .bind (settles_field _ _) fun log2 hlog2 => ?_
  refine .bind (settles_field _ _) fun low hlow => ?_
  refine .bind (settles_field _ _) fun high hhigh => ?_
  refine .bind (settles_size _) fun block hblock => ?_
  refine .bind settles_usedOffset fun used hused => ?_
  refine .bind (settles_field _ _) fun const hconst => ?_
  refine .bind (settles_size _) fun constSize hconstSize => ?_
  refine .bind (settles_field _ _) fun constants hconstants => ?_
  refine .bind (settles_field _ _) fun code hcode => ?_
  refine .bind (settles_field _ _) fun flags hflags => ?_
  refine .bind (settles_field _ _) fun nameIndex hnameIndex => ?_
  refine .bind (settles_field _ _) fun signature hsignature => ?_
  refine .bind (settles_size _) fun poolSize hpoolSize => ?_
  refine .bind (settles_field _ _) fun holder hholder => ?_
  refine .bind (settles_field _ _) fun klass hklass => ?_
  refine .bind (settles_field _ _) fun length hlength => ?_
  refine .bind (settles_field _ _) fun body hbody => ?_
  refine .pure ⟨hwidth, rfl, ?_⟩
  simp only [offsets, List.forall_mem_cons]
  exact ⟨hdescriptorSize, hblobName, hblobSize, hinstructions, hmethod, hpcs, hdependencies,
    hscopes, hoops, hcache, hrecent, hslots, hpc, hscope, hmemory, hmap, hlog2, hlow, hhigh, hblock,
    hused, hconst, hconstSize, hconstants, hcode, hflags, hnameIndex, hsignature, hpoolSize,
    hholder, hklass, hlength, hbody, nofun⟩

theorem Resolves.unique {layout layout' : Layout} (h : Resolves source target layout)
    (h' : Resolves source target layout') : layout = layout' := by
  have hwidth : layout.machine.pointerWidth = layout'.machine.pointerWidth := by
    have hbytes := h.pointerWidth.trans h'.pointerWidth.symm
    revert hbytes
    cases layout.machine.pointerWidth <;> cases layout'.machine.pointerWidth <;> decide
  have hendian := h.endian.trans h'.endian.symm
  have hoffset : ∀ o ∈ offsets, o.2 layout = o.2 layout' := by
    intro o ho
    exact Option.some.inj ((h.offset o ho).symm.trans (h'.offset o ho))
  simp only [offsets, List.forall_mem_cons] at hoffset
  obtain ⟨⟨_, _⟩, ⟨_, _, _⟩, ⟨_, _, _, _, _, _⟩, ⟨_, _⟩, ⟨_, _, _⟩, ⟨_, _, _⟩, ⟨_, _⟩, ⟨_, _⟩, _,
    ⟨_, _, _, _, _, _⟩, ⟨_, _⟩, _, ⟨_, _⟩⟩ := layout
  simp_all

theorem Resolves.met {layout : Layout} (h : Resolves source target layout) :
    ∀ q ∈ requirements, q.met source target = true := by
  intro q hq
  cases q with
  | pointerSize =>
    rw [Requirement.met, decide_eq_true_iff, ← UInt8.toNat_inj, ← UInt8.toNat_inj, ← h.pointerWidth]
    cases layout.machine.pointerWidth <;> decide
  | answered need =>
    obtain ⟨o, ho, hneed⟩ := List.mem_flatMap.mp (mem_requirements.mp hq)
    exact Need.answered_of_mem_steps hneed (Option.isSome_of_eq_some (h.offset o ho))

theorem resolve_eq_ok_iff {layout : Layout} :
    resolve source target = .ok layout ↔ Resolves source target layout := by
  constructor
  · intro h
    cases hunmet : unmet? source target with
    | some q =>
      rw [decided_resolve.error q hunmet] at h
      cases h
    | none =>
      obtain ⟨layout', hok, hlayout'⟩ := decided_resolve.ok hunmet
      obtain rfl := Except.ok.inj (hok.symm.trans h)
      exact hlayout'
  · intro h
    obtain ⟨layout', hok, hlayout'⟩ := decided_resolve.ok (unmet?_eq_none_iff.mpr h.met)
    rw [hok, h.unique hlayout']

theorem resolve_eq_error_iff {e : Fault} : resolve source target = .error e ↔
    ∃ q, unmet? source target = some q ∧ e = q.fault source target := by
  cases hunmet : unmet? source target with
  | some q =>
    rw [decided_resolve.error q hunmet]
    simp [eq_comm]
  | none =>
    obtain ⟨layout, hok, -⟩ := decided_resolve.ok hunmet
    rw [hok]
    simp

end Layout

end JitFrames
