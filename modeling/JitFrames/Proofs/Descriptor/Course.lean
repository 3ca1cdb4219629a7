import JitFrames.Proofs.Descriptor.Genuine
import JitFrames.Proofs.Descriptor.Reach
import JitFrames.Proofs.Descriptor.Room

namespace JitFrames

namespace Bracket

variable {ε : Type} {below : Nat → Except ε Bool} {size : Nat} {b b' : Bracket} {e : ε}
  {rounds : List Nat} {passed : List Bracket} {r : Except ε Bracket}

/-- The brackets that rounds of probes come to from a bracket on, and how they end: with the bracket
that the last round leaves, or with the fault of a probe. -/
inductive Course (below : Nat → Except ε Bool) :
    List Nat → Bracket → List Bracket → Except ε Bracket → Prop where
  | closed {b : Bracket} : Course below [] b [b] (.ok b)
  | raised {skip : Nat} {rounds : List Nat} {b : Bracket} {passed : List Bracket}
      {r : Except ε Bracket} : b.floor + skip < b.ceiling → below (b.floor + skip) = .ok true →
      Course below (skip :: rounds) (b.probed (b.floor + skip) true) passed r →
      Course below (skip :: rounds) b (b :: passed) r
  | lowered {skip : Nat} {rounds : List Nat} {b : Bracket} {passed : List Bracket}
      {r : Except ε Bracket} : b.floor + skip < b.ceiling → below (b.floor + skip) = .ok false →
      Course below rounds (b.probed (b.floor + skip) false) passed r →
      Course below (skip :: rounds) b (b :: passed) r
  | left {skip : Nat} {rounds : List Nat} {b : Bracket} {passed : List Bracket}
      {r : Except ε Bracket} : b.ceiling ≤ b.floor + skip → Course below rounds b passed r →
      Course below (skip :: rounds) b passed r
  | failed {skip : Nat} {rounds : List Nat} {b : Bracket} {e : ε} :
      b.floor + skip < b.ceiling → below (b.floor + skip) = .error e →
      Course below (skip :: rounds) b [b] (.error e)

/-- What the first round leaves is where the other rounds go on. -/
theorem exists_course_cons (skip : Nat)
    (hrest : ∀ b, ∃ passed r, Course below rounds b passed r) (b : Bracket) :
    ∃ passed r, Course below (skip :: rounds) b passed r := by
  fun_induction stride below skip b with
  | case1 b hin hb ih =>
    obtain ⟨passed, r, hcourse⟩ := ih
    exact ⟨b :: passed, r, .raised hin hb hcourse⟩
  | case2 b hin hb =>
    obtain ⟨passed, r, hcourse⟩ := hrest (b.probed (b.floor + skip) false)
    exact ⟨b :: passed, r, .lowered hin hb hcourse⟩
  | case3 b hin e hb => exact ⟨[b], .error e, .failed hin hb⟩
  | case4 b hin =>
    obtain ⟨passed, r, hcourse⟩ := hrest b
    exact ⟨passed, r, .left (Nat.le_of_not_lt hin) hcourse⟩

theorem exists_course (below : Nat → Except ε Bool) (rounds : List Nat) (b : Bracket) :
    ∃ passed r, Course below rounds b passed r := by
  induction rounds generalizing b with
  | nil => exact ⟨[b], .ok b, .closed⟩
  | cons skip rounds ih => exact exists_course_cons skip ih b

namespace Course

/-- The rounds end as their course does. -/
theorem eq_strides (h : Course below rounds b passed r) :
    rounds.foldlM (fun b skip => stride below skip b) b = r := by
  induction h with
  | closed => rfl
  | raised hin hb _ ih =>
    rw [List.foldlM_cons] at ih ⊢
    rw [stride, dif_pos hin, hb]
    exact ih
  | lowered hin hb _ ih =>
    rw [List.foldlM_cons, stride, dif_pos hin, hb]
    exact ih
  | left hout _ ih =>
    rw [List.foldlM_cons, stride, dif_neg (Nat.not_lt.mpr hout)]
    exact ih
  | failed hin hb =>
    rw [List.foldlM_cons, stride, dif_pos hin, hb]
    rfl

/-- Every bracket on the way shows what the probes before it have shown. -/
theorem valid (h : Course below rounds b passed r) (hv : Valid below size b) :
    ∀ b' ∈ passed, Valid below size b' := by
  induction h with
  | closed => exact List.forall_mem_singleton.mpr hv
  | raised hin hb _ ih =>
    have hnext := hv.probed (Nat.le_add_right _ _) hin hb
    exact List.forall_mem_cons.mpr ⟨hv, ih hnext⟩
  | lowered hin hb _ ih =>
    have hnext := hv.probed (Nat.le_add_right _ _) hin hb
    exact List.forall_mem_cons.mpr ⟨hv, ih hnext⟩
  | left _ _ ih => exact ih hv
  | failed => exact List.forall_mem_singleton.mpr hv

/-- Every probe leaves fewer entries open, so there are no more probes than entries. -/
theorem length_le (h : Course below rounds b passed r) :
    passed.length ≤ b.ceiling - b.floor + 1 := by
  induction h with
  | closed => exact Nat.le_add_left 1 _
  | @raised skip _ b _ _ hin _ _ ih =>
    have hopen : (b.probed (b.floor + skip) true).ceiling -
        (b.probed (b.floor + skip) true).floor < b.ceiling - b.floor := by
      simp only [Bracket.probed, if_true]
      omega
    rw [List.length_cons]
    omega
  | @lowered skip _ b _ _ hin _ _ ih =>
    have hopen : (b.probed (b.floor + skip) false).ceiling -
        (b.probed (b.floor + skip) false).floor < b.ceiling - b.floor := by
      simp only [Bracket.probed, Bool.false_eq_true, if_false]
      omega
    rw [List.length_cons]
    omega
  | left _ _ ih => exact ih
  | failed => exact Nat.le_add_left 1 _

theorem mem_of_ok (h : Course below rounds b passed (.ok b')) : b' ∈ passed := by
  generalize hr : (Except.ok b' : Except ε Bracket) = r at h
  induction h with
  | closed =>
    cases hr
    exact List.mem_singleton_self _
  | raised _ _ _ ih => exact List.mem_cons_of_mem _ (ih hr)
  | lowered _ _ _ ih => exact List.mem_cons_of_mem _ (ih hr)
  | left _ _ ih => exact ih hr
  | failed => cases hr

/-- Only the probe of an entry can fail. -/
theorem exists_of_error (h : Course below rounds b passed (.error e)) (hv : Valid below size b) :
    ∃ i < size, below i = .error e := by
  generalize hr : (Except.error e : Except ε Bracket) = r at h
  induction h with
  | closed => cases hr
  | raised hin hb _ ih => exact ih (hv.probed (Nat.le_add_right _ _) hin hb) hr
  | lowered hin hb _ ih => exact ih (hv.probed (Nat.le_add_right _ _) hin hb) hr
  | left _ _ ih => exact ih hv hr
  | failed hin hb =>
    cases hr
    exact ⟨_, Nat.lt_of_lt_of_le hin hv.ceiling_le, hb⟩

end Course

end Bracket

open JitFrames.Bracket (Course Valid)

namespace DescriptorTable

variable {d : DescriptorTable} {t t' : Target} {offset i : Nat} {pivot : Option Address}
  {precision : Precision} {b start : Bracket} {e : Fault} {passed : List Bracket}
  {r : Answer Bracket}

/-- What a search knows of the entries at a bracket: the one before the floor lies below the offset,
and the one at the ceiling, unless that is the closing entry, does not. -/
structure Brackets (d : DescriptorTable) (t : Target) (offset : Nat) (b : Bracket) : Prop where
  floor_le : b.floor ≤ b.ceiling
  ceiling_le : b.ceiling ≤ d.sentinel
  below : ∀ lower, b.floor = lower + 1 →
    ∃ desc, d.entry t lower = .ok desc ∧ desc.pcOffset.toInt < offset
  reaching : b.ceiling < d.sentinel →
    ∃ desc, d.entry t b.ceiling = .ok desc ∧ offset ≤ desc.pcOffset.toInt

/-- The brackets that a search comes to, at first all entries, then what the pivot leaves of them. -/
inductive Narrows (d : DescriptorTable) (t : Target) (offset : Nat) (pivot : Option Address) :
    List Bracket → Answer Bracket → Prop where
  | searched {start : Bracket} {passed : List Bracket} {r : Answer Bracket} :
      d.startBracket t offset pivot = .ok start →
      Course (d.below t offset) Bracket.skips start passed r →
      Narrows d t offset pivot (⟨0, d.sentinel⟩ :: passed) r
  | failed {e : Fault} : d.startBracket t offset pivot = .error e →
      Narrows d t offset pivot [⟨0, d.sentinel⟩] (.error e)

theorem below_eq_ok_iff {isBelow : Bool} :
    d.below t offset i = .ok isBelow ↔
      ∃ desc, d.entry t i = .ok desc ∧ decide (desc.pcOffset.toInt < offset) = isBelow := by
  unfold below
  rw [Answer.bind_eq_ok]
  simp only [Answer.pure_eq_ok]

theorem entry_eq_error_of_below (h : d.below t offset i = .error e) : d.entry t i = .error e := by
  unfold below at h
  obtain h | ⟨desc, -, h⟩ := Answer.bind_eq_error_iff.mp h
  · exact h
  · cases h

theorem brackets_of_valid (hv : Valid (d.below t offset) d.sentinel b) : d.Brackets t offset b where
  floor_le := hv.floor_le
  ceiling_le := hv.ceiling_le
  below lower hlower := by
    obtain ⟨desc, hentry, hlt⟩ := below_eq_ok_iff.mp (hv.floor_below lower hlower)
    exact ⟨desc, hentry, of_decide_eq_true hlt⟩
  reaching hceiling := by
    obtain ⟨desc, hentry, hge⟩ := below_eq_ok_iff.mp (hv.ceiling_not_below hceiling)
    exact ⟨desc, hentry, Int.not_lt.mp (of_decide_eq_false hge)⟩

/-- The pivot is an entry before the closing one if it is read at all. -/
theorem exists_of_startBracket_error (h : d.startBracket t offset pivot = .error e) :
    ∃ i < d.sentinel, d.entry t i = .error e := by
  simp only [startBracket] at h
  cases hpivot : pivot.bind d.indexOf? with
  | none =>
    rw [hpivot] at h
    cases h
  | some p =>
    rw [hpivot] at h
    dsimp only at h
    split at h
    · next hp =>
      obtain hbelow | ⟨isBelow, -, h⟩ := Answer.bind_eq_error_iff.mp h
      · exact ⟨p, hp, entry_eq_error_of_below hbelow⟩
      · cases h
    · cases h

theorem exists_narrows (d : DescriptorTable) (t : Target) (offset : Nat) (pivot : Option Address) :
    ∃ passed r, d.Narrows t offset pivot passed r := by
  cases hstart : d.startBracket t offset pivot with
  | error e => exact ⟨_, _, .failed hstart⟩
  | ok start =>
    obtain ⟨passed, r, hcourse⟩ :=
      Bracket.exists_course (d.below t offset) Bracket.skips start
    exact ⟨_, r, .searched hstart hcourse⟩

namespace Narrows

/-- The loops of a search end as its course does. -/
theorem eq_close (h : d.Narrows t offset pivot passed r) :
    (d.startBracket t offset pivot >>= fun start => start.close (d.below t offset)) = r := by
  cases h with
  | searched hstart hcourse =>
    rw [hstart]
    exact hcourse.eq_strides
  | failed hstart =>
    rw [hstart]
    rfl

theorem brackets (h : d.Narrows t offset pivot passed r) :
    ∀ b ∈ passed, d.Brackets t offset b := by
  have hall := brackets_of_valid (Bracket.valid_all (d.below t offset) d.sentinel)
  cases h with
  | searched hstart hcourse =>
    refine List.forall_mem_cons.mpr ⟨hall, fun b hb => brackets_of_valid ?_⟩
    exact hcourse.valid (startBracket_eq_ok hstart) b hb
  | failed => exact List.forall_mem_singleton.mpr hall

/-- No step on the way loses a carry. -/
theorem step_lt (h : d.Narrows t offset pivot passed r) (hroom : d.Roomy) :
    ∀ b ∈ passed, ∀ skip ∈ Bracket.skips, b.floor + skip < UInt64.size := by
  intro b hb skip hskip
  have hbracket := h.brackets b hb
  exact hroom.step_lt (Nat.le_trans hbracket.floor_le hbracket.ceiling_le) hskip

theorem length_le (h : d.Narrows t offset pivot passed r) : passed.length ≤ d.sentinel + 2 := by
  cases h with
  | @searched start _ _ hstart hcourse =>
    have hopen := hcourse.length_le
    have hceiling := (startBracket_eq_ok hstart).ceiling_le
    rw [List.length_cons]
    omega
  | failed =>
    rw [List.length_singleton]
    omega

theorem mem_of_ok (h : d.Narrows t offset pivot passed (.ok b)) : b ∈ passed := by
  cases h with
  | searched _ hcourse => exact List.mem_cons_of_mem _ hcourse.mem_of_ok

theorem closed_of_ok (h : d.Narrows t offset pivot passed (.ok b)) : b.floor = b.ceiling := by
  obtain ⟨start, hstart, hclose⟩ := Answer.bind_eq_ok.mp h.eq_close
  exact (Bracket.close_eq_ok (startBracket_eq_ok hstart) hclose).2

theorem exists_of_error (h : d.Narrows t offset pivot passed (.error e)) :
    ∃ i < d.sentinel, d.entry t i = .error e := by
  cases h with
  | searched hstart hcourse =>
    obtain ⟨i, hi, hbelow⟩ := hcourse.exists_of_error (startBracket_eq_ok hstart)
    exact ⟨i, hi, entry_eq_error_of_below hbelow⟩
  | failed hstart => exact exists_of_startBracket_error hstart

end Narrows

/-- What a search does with the bracket that its loops leave. -/
def conclude (d : DescriptorTable) (t : Target) (offset : Nat) (precision : Precision)
    (b : Bracket) : Answer (Option Descriptor) := do
  if b.ceiling = d.sentinel then
    return none
  let desc ← d.entry t b.ceiling
  return if ← d.answers t desc offset precision then some desc else none

theorem search_eq_conclude (hlength : 2 ≤ d.length) (h : d.Narrows t offset pivot passed r) :
    d.search t offset precision pivot = r >>= d.conclude t offset precision := by
  have hnonempty : ¬d.isEmpty = true := by
    simp only [isEmpty, decide_eq_true_eq]
    omega
  rw [← h.eq_close]
  unfold search
  rw [if_neg hnonempty]
  cases d.startBracket t offset pivot with
  | error e => rfl
  | ok start =>
    cases start.close (d.below t offset) with
    | error e => rfl
    | ok b => rfl

/-- A closed bracket holds all that the matching rule asks for: the entry at its ceiling and the one
before that have been read by the probes. -/
theorem conclude_of_closed (hb : d.Brackets t offset b) (hclosed : b.floor = b.ceiling) :
    (∀ precision, ∃ found, d.conclude t offset precision b = .ok found ∧
      ∀ desc, found = some desc → d.entry t b.ceiling = .ok desc) ∧
    (d.conclude t offset .approximate b = .ok none ↔ b.ceiling = 0 ∨ b.ceiling = d.sentinel) := by
  by_cases hlast : b.ceiling = d.sentinel
  · have hnone (precision : Precision) : d.conclude t offset precision b = .ok none := by
      unfold conclude
      rw [if_pos hlast]
      rfl
    exact ⟨fun precision => ⟨none, hnone precision, nofun⟩, iff_of_true (hnone _) (.inr hlast)⟩
  · have hlt : b.ceiling < d.sentinel := Nat.lt_of_le_of_ne hb.ceiling_le hlast
    obtain ⟨desc, hentry, hreaches⟩ := hb.reaching hlt
    have hindex : d.indexOf? desc.address = some b.ceiling := by
      rw [Descriptor.address_of_read hentry]
      exact indexOf?_addressOf (Nat.lt_of_lt_of_le hlt (Nat.sub_le _ _))
    have hne : d.indexOf? desc.address ≠ some d.sentinel := by
      rw [hindex]
      simpa using hlast
    have hconclude {precision : Precision} {answer : Bool}
        (h : d.answers t desc offset precision = .ok answer) :
        d.conclude t offset precision b = .ok (if answer then some desc else none) := by
      unfold conclude
      rw [if_neg hlast]
      exact Answer.bind_eq_ok.mpr ⟨desc, hentry, Answer.bind_eq_ok.mpr ⟨answer, h, rfl⟩⟩
    have happroximate : d.answers t desc offset .approximate = .ok (decide (b.ceiling ≠ 0)) := by
      cases hceiling : b.ceiling with
      | zero => exact answers_first (hindex.trans (congrArg some hceiling))
      | succ lower =>
        obtain ⟨prev, hprev, hbelow⟩ := hb.below lower (hclosed.trans hceiling)
        rw [hceiling] at hindex hlast
        rw [answers_after hindex hlast hprev]
        simp [hbelow, hreaches]
    have hfound (answer : Bool) :
        ∀ e, (if answer then some desc else none) = some e → d.entry t b.ceiling = .ok e := by
      intro e he
      cases answer with
      | true =>
        cases he
        exact hentry
      | false => cases he
    refine ⟨fun precision => ?_, ?_⟩
    · cases precision with
      | exact => exact ⟨_, hconclude (answers_exact hne), hfound _⟩
      | approximate => exact ⟨_, hconclude happroximate, hfound _⟩
    · rw [hconclude happroximate]
      by_cases hzero : b.ceiling = 0
      · simp [hzero]
      · simp [hzero, hlast]

/-- A search only looks at entries before the closing one. -/
theorem Consults.lt_sentinel (h : d.Consults t offset pivot i) : i < d.sentinel := by
  cases h with
  | pivot _ hp => exact hp
  | probed hstart hprobes => exact hprobes.lt_size (startBracket_eq_ok hstart)
  | ended hstart hclose hne =>
    have hle := (Bracket.close_eq_ok (startBracket_eq_ok hstart) hclose).1.ceiling_le
    exact Nat.lt_of_le_of_ne hle hne
  | before hindex =>
    have hlt := (indexOf?_eq_some_iff.mp hindex).1
    unfold sentinel
    omega

/-- The table of a compiled method has room for the steps of a search. On every table with such room
and an entry before the closing one, in any order, a search ends, and nothing but the entries before
the closing one has an influence on it. Each bracket that it comes to lies in the table, with an
entry below the offset before its floor and none below it at its ceiling; no step from there loses a
carry; and there are at most two more of them than entries before the closing one. Unless a read of
such an entry fails, and with it the search, the last bracket is closed and the search answers; an
approximate one then finds nothing exactly if the ceiling is the first entry or the closing one. -/
theorem search_bracketed (hlength : 2 ≤ d.length) :
    (∀ t blob m, CompiledMethod.read t blob = .ok m → m.descriptorTable t = .ok d → d.Roomy) ∧
    (d.Roomy → ∀ (t : Target) (offset : Nat) (pivot : Option Address),
      (∀ t', (∀ i < d.sentinel, d.entry t' i = d.entry t i) → ∀ precision,
        d.search t' offset precision pivot = d.search t offset precision pivot) ∧
      (∃ passed r, d.Narrows t offset pivot passed r) ∧
      ∀ passed r, d.Narrows t offset pivot passed r →
        (d.startBracket t offset pivot >>= fun start => start.close (d.below t offset)) = r ∧
        passed.length ≤ d.sentinel + 2 ∧
        (∀ b ∈ passed, d.Brackets t offset b) ∧
        (∀ b ∈ passed, ∀ skip ∈ Bracket.skips, b.floor + skip < UInt64.size) ∧
        (∀ e, r = .error e → (∃ i < d.sentinel, d.entry t i = .error e) ∧
          ∀ precision, d.search t offset precision pivot = .error e) ∧
        ∀ b, r = .ok b → b ∈ passed ∧ b.floor = b.ceiling ∧
          (∀ precision, ∃ found, d.search t offset precision pivot = .ok found ∧
            ∀ desc, found = some desc → d.entry t b.ceiling = .ok desc) ∧
          (d.search t offset .approximate pivot = .ok none ↔
            b.ceiling = 0 ∨ b.ceiling = d.sentinel)) := by
  refine ⟨fun t blob m => roomy_of_read, fun hroom t offset pivot => ?_⟩
  refine ⟨fun t' hsame precision => search_congr fun i hi => hsame i hi.lt_sentinel,
    exists_narrows d t offset pivot, fun passed r h => ?_⟩
  refine ⟨h.eq_close, h.length_le, h.brackets, h.step_lt hroom, fun e he => ?_, fun b hb => ?_⟩
  · subst he
    refine ⟨h.exists_of_error, fun precision => ?_⟩
    rw [search_eq_conclude hlength h]
    rfl
  · subst hb
    have hsearch (precision : Precision) :
        d.search t offset precision pivot = d.conclude t offset precision b := by
      rw [search_eq_conclude hlength h]
      rfl
    simp only [hsearch]
    have hclosed := h.closed_of_ok
    exact ⟨h.mem_of_ok, hclosed, conclude_of_closed (h.brackets b h.mem_of_ok) hclosed⟩

theorem unorderedTable_fits : (24 : Address).toNat + 4 * 8 < UInt64.size := by decide

/-- Entries at 9, 5 and 7, and the closing one, which stands in the first target only. -/
def unorderedTable : DescriptorTable := ⟨24, 8, 4, compact.stride_pos, unorderedTable_fits⟩

def unorderedEntries : List Descriptor := [⟨24, 9, 1⟩, ⟨32, 5, 2⟩, ⟨40, 7, 3⟩]

def unclosedTarget : Target := .ofWords [32, 28, 0, 0, 0, 0, 9, 1, 5, 2, 7, 3]

theorem unorderedTable_lists
    (ht : t = CompiledMethod.unorderedTarget ∨ t = unclosedTarget) :
    unorderedTable.Lists t unorderedEntries := by
  rcases ht with rfl | rfl
  all_goals
    refine ⟨rfl, fun i e he => ?_⟩
    match i with
    | 0 | 1 | 2 => cases he; rfl
    | i + 3 => simp [unorderedEntries] at he

/-- From the second entry on, which lies below 6, the last round comes to the third. -/
theorem unorderedTable_narrows :
    unorderedTable.Narrows CompiledMethod.unorderedTarget 6 (some 32) [⟨0, 3⟩, ⟨2, 3⟩, ⟨2, 2⟩]
      (.ok ⟨2, 2⟩) := by
  have hstart :
      unorderedTable.startBracket CompiledMethod.unorderedTarget 6 (some 32) = .ok ⟨2, 3⟩ := rfl
  have hthird : unorderedTable.below CompiledMethod.unorderedTarget 6 2 = .ok false := rfl
  have hlast : Course (unorderedTable.below CompiledMethod.unorderedTarget 6) [0] ⟨2, 3⟩
      [⟨2, 3⟩, ⟨2, 2⟩] (.ok ⟨2, 2⟩) := .lowered (by decide) hthird .closed
  exact .searched hstart (.left (by decide) (.left (by decide) (.left (by decide) hlast)))

theorem unorderedTable_roomy : unorderedTable.Roomy := by
  have hsentinel : unorderedTable.sentinel = 3 := rfl
  unfold Roomy
  rw [hsentinel]
  decide

/-- The third entry is found, and just so without a closing entry to read. -/
theorem search_bracketed_unordered :
    2 ≤ unorderedTable.length ∧ unorderedTable.Roomy ∧ (Bracket.mk 2 3).floor + 511 < UInt64.size ∧
      (∃ found, unorderedTable.search CompiledMethod.unorderedTarget 6 .approximate (some 32) =
        .ok (some found) ∧ unorderedTable.entry CompiledMethod.unorderedTarget 2 = .ok found) ∧
      unorderedTable.search unclosedTarget 6 .approximate (some 32) =
        unorderedTable.search CompiledMethod.unorderedTarget 6 .approximate (some 32) := by
  have hlength : 2 ≤ unorderedTable.length := by decide
  obtain ⟨hreads, -, hcourses⟩ :=
    (search_bracketed hlength).2 unorderedTable_roomy CompiledMethod.unorderedTarget 6 (some 32)
  obtain ⟨-, -, -, hsteps, -, hends⟩ := hcourses _ _ unorderedTable_narrows
  obtain ⟨-, -, hanswers, hnone⟩ := hends ⟨2, 2⟩ rfl
  have hstep := hsteps ⟨2, 3⟩ (by decide) 511 (by decide)
  refine ⟨hlength, unorderedTable_roomy, hstep, ?_, hreads unclosedTarget ?_ .approximate⟩
  · obtain ⟨found, hfound, hentry⟩ := hanswers .approximate
    cases found with
    | none => exact absurd (hnone.mp hfound) (by decide)
    | some desc => exact ⟨desc, hfound, hentry desc rfl⟩
  · intro i hi
    have hget : unorderedEntries[i]? = some unorderedEntries[i] := List.getElem?_eq_getElem hi
    rw [(unorderedTable_lists (.inl rfl)).entry i _ hget,
      (unorderedTable_lists (.inr rfl)).entry i _ hget]

end DescriptorTable

end JitFrames
