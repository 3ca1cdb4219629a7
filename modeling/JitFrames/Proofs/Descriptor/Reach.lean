import Mathlib.Logic.Relation
import JitFrames.Proofs.Descriptor.Search

namespace JitFrames

namespace Bracket

variable {ε : Type} {below below' : Nat → Except ε Bool} {size skip i : Nat} {b b' : Bracket}
  {rounds : List Nat}

/-- A probe of one of the rounds. -/
inductive Probe (below : Nat → Except ε Bool) : Bracket → Bracket → Prop where
  | moved {b : Bracket} {skip : Nat} {r : Bool} : skip ∈ skips → b.floor + skip < b.ceiling →
      below (b.floor + skip) = .ok r → Probe below b (b.probed (b.floor + skip) r)

/-- Some probes lead from one bracket to the other. -/
abbrev Reached (below : Nat → Except ε Bool) : Bracket → Bracket → Prop :=
  Relation.ReflTransGen (Probe below)

/-- The probes from a bracket on come to an index. -/
def Probes (below : Nat → Except ε Bool) (b : Bracket) (i : Nat) : Prop :=
  ∃ b' skip, Reached below b b' ∧ skip ∈ skips ∧ i = b'.floor + skip ∧ i < b'.ceiling

theorem Probe.valid (h : Probe below b b') (hv : Valid below size b) : Valid below size b' := by
  obtain ⟨-, hin, hr⟩ := h
  exact hv.probed (Nat.le_add_right _ _) hin hr

theorem Reached.valid (h : Reached below b b') (hv : Valid below size b) :
    Valid below size b' := by
  induction h with
  | refl => exact hv
  | tail _ hprobe ih => exact hprobe.valid ih

theorem Probes.lt_size (h : Probes below b i) (hv : Valid below size b) : i < size := by
  obtain ⟨b', skip, hreached, -, -, hin⟩ := h
  exact Nat.lt_of_lt_of_le hin (hreached.valid hv).ceiling_le

theorem Probes.of_reached (hreached : Reached below b b') (h : Probes below b' i) :
    Probes below b i := by
  obtain ⟨c, skip, hc, hh⟩ := h
  exact ⟨c, skip, hreached.trans hc, hh⟩

theorem probes_here (hskip : skip ∈ skips) (hin : b.floor + skip < b.ceiling) :
    Probes below b (b.floor + skip) := ⟨b, skip, .refl, hskip, rfl, hin⟩

theorem stride_reached (hskip : skip ∈ skips) (h : stride below skip b = .ok b') :
    Reached below b b' := by
  fun_induction stride below skip b with
  | case1 b hin hb ih => exact .head (.moved hskip hin hb) (ih h)
  | case2 b hin hb =>
    cases h
    exact .single (.moved hskip hin hb)
  | case3 b hin e hb => cases h
  | case4 b hin =>
    cases h
    exact .refl

/-- A round depends only on the entries that it comes to. -/
theorem stride_congr (hskip : skip ∈ skips)
    (h : ∀ i, Probes below b i → below' i = below i) :
    stride below' skip b = stride below skip b := by
  fun_induction stride below skip b with
  | case1 b hin hb ih =>
    have hsame := h _ (probes_here hskip hin)
    rw [stride, dif_pos hin, hsame, hb]
    exact ih fun i hi => h i (hi.of_reached (.single (.moved hskip hin hb)))
  | case2 b hin hb =>
    have hsame := h _ (probes_here hskip hin)
    rw [stride, dif_pos hin, hsame, hb]
  | case3 b hin e hb =>
    have hsame := h _ (probes_here hskip hin)
    rw [stride, dif_pos hin, hsame, hb]
  | case4 b hin => rw [stride, dif_neg hin]

theorem strides_congr (hrounds : ∀ skip ∈ rounds, skip ∈ skips)
    (h : ∀ i, Probes below b i → below' i = below i) :
    rounds.foldlM (fun b skip => stride below' skip b) b =
      rounds.foldlM (fun b skip => stride below skip b) b := by
  induction rounds generalizing b with
  | nil => rfl
  | cons skip rounds ih =>
    obtain ⟨hskip, hrest⟩ := List.forall_mem_cons.mp hrounds
    rw [List.foldlM_cons, List.foldlM_cons, stride_congr hskip h]
    cases hstride : stride below skip b with
    | error e => rfl
    | ok b₁ => exact ih hrest fun i hi => h i (hi.of_reached (stride_reached hskip hstride))

theorem close_congr (h : ∀ i, Probes below b i → below' i = below i) :
    b.close below' = b.close below := strides_congr (fun _ hskip => hskip) h

end Bracket

open JitFrames.Bracket (Reached Probes Valid)

namespace DescriptorTable

variable {d : DescriptorTable} {t t' : Target} {offset i : Nat} {pivot : Option Address}
  {precision : Precision} {b : Bracket} {desc : Descriptor}

/-- The indices that a search and the matching rule look at: the pivot, what the probes come to, the
entry that the search ends on, and the one before a descriptor that is to be matched. -/
inductive Consults (d : DescriptorTable) (t : Target) (offset : Nat) (pivot : Option Address) :
    Nat → Prop where
  | pivot {p : Nat} : pivot.bind d.indexOf? = some p → p < d.sentinel →
      Consults d t offset pivot p
  | probed {b : Bracket} {i : Nat} : d.startBracket t offset pivot = .ok b →
      Probes (d.below t offset) b i → Consults d t offset pivot i
  | ended {b b' : Bracket} : d.startBracket t offset pivot = .ok b →
      b.close (d.below t offset) = .ok b' → b'.ceiling ≠ d.sentinel →
      Consults d t offset pivot b'.ceiling
  | before {a : Address} {i : Nat} : d.indexOf? a = some (i + 1) → Consults d t offset pivot i

theorem Consults.lt_length (h : d.Consults t offset pivot i) : i < d.length := by
  have hsentinel : d.sentinel ≤ d.length := Nat.sub_le _ _
  cases h with
  | pivot _ hp => omega
  | probed hstart hprobes =>
    have hlt := hprobes.lt_size (startBracket_eq_ok hstart)
    omega
  | ended hstart hclose hne =>
    have hle := (Bracket.close_eq_ok (startBracket_eq_ok hstart) hclose).1.ceiling_le
    omega
  | before hindex =>
    have hlt := (indexOf?_eq_some_iff.mp hindex).1
    omega

theorem below_congr (h : d.entry t' i = d.entry t i) :
    d.below t' offset i = d.below t offset i := by
  unfold below
  rw [h]

theorem startBracket_congr (h : ∀ i, d.Consults t offset pivot i → d.entry t' i = d.entry t i) :
    d.startBracket t' offset pivot = d.startBracket t offset pivot := by
  simp only [startBracket]
  cases hpivot : pivot.bind d.indexOf? with
  | none => rfl
  | some p =>
    dsimp only
    by_cases hp : p < d.sentinel
    · rw [if_pos hp, if_pos hp, below_congr (h p (.pivot hpivot hp))]
    · rw [if_neg hp, if_neg hp]

theorem answers_congr (h : ∀ i, d.Consults t offset pivot i → d.entry t' i = d.entry t i)
    (desc : Descriptor) :
    d.answers t' desc offset precision = d.answers t desc offset precision := by
  simp only [answers]
  cases precision with
  | exact => rfl
  | approximate =>
    cases hindex : d.indexOf? desc.address with
    | none => rfl
    | some i =>
      cases i with
      | zero => rfl
      | succ i =>
        dsimp only
        rw [h i (.before hindex)]

/-- A search sees of the target only the entries that it looks at. -/
theorem search_congr (h : ∀ i, d.Consults t offset pivot i → d.entry t' i = d.entry t i) :
    d.search t' offset precision pivot = d.search t offset precision pivot := by
  unfold search
  by_cases hempty : d.isEmpty = true
  · rw [if_pos hempty, if_pos hempty]
  · rw [if_neg hempty, if_neg hempty, startBracket_congr h]
    cases hstart : d.startBracket t offset pivot with
    | error e => rfl
    | ok b =>
      have hsame : b.close (d.below t' offset) = b.close (d.below t offset) :=
        Bracket.close_congr fun i hi => below_congr (h i (.probed hstart hi))
      rw [Answer.ok_bind, Answer.ok_bind, hsame]
      cases hclose : b.close (d.below t offset) with
      | error e => rfl
      | ok b' =>
        rw [Answer.ok_bind, Answer.ok_bind]
        by_cases hend : b'.ceiling = d.sentinel
        · rw [if_pos hend, if_pos hend]
        · rw [if_neg hend, if_neg hend, h _ (.ended hstart hclose hend)]
          simp only [answers_congr h]

end DescriptorTable

end JitFrames
