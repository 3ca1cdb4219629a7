import Mathlib.Control.Monad.Basic
import JitFrames.Proofs.Answer
import JitFrames.Memory.Image
import JitFrames.Proofs.DenseLayout
import JitFrames.Symbolizer

namespace JitFrames.Symbolizer

variable {t : Target} {a p : Address} {r : Option Resolution} {e : Fault} {s new : Symbolizer}

/-- What is known about an address is what it resolves to, and it is known once. -/
structure Faithful (s : Symbolizer) : Prop where
  answers : ∀ entry ∈ s.known, Resolution.ofAddress s.target s.heap entry.1 = .ok entry.2
  once : (s.known.map Prod.fst).Nodup

theorem mem_of_lookup {known : List (Address × Option Resolution)} (h : known.lookup p = some r) :
    (p, r) ∈ known := by
  obtain ⟨before, after, hsplit, -⟩ := List.lookup_eq_some_iff.mp h
  simp [hsplit]

theorem not_mem_of_lookup {known : List (Address × Option Resolution)}
    (h : known.lookup p = none) : p ∉ known.map Prod.fst := by
  intro hmem
  obtain ⟨entry, hentry, rfl⟩ := List.mem_map.mp hmem
  exact absurd (List.lookup_eq_none_iff.mp h entry hentry) (by simp)

theorem resolve_known (h : s.known.lookup p = some r) : s.resolve p = (.ok r, s) := by
  unfold resolve
  rw [h]

theorem resolve_ok (h : s.known.lookup p = none)
    (hok : Resolution.ofAddress s.target s.heap p = .ok r) :
    s.resolve p = (.ok r, { s with known := (p, r) :: s.known }) := by
  unfold resolve
  rw [h, hok]

theorem resolve_error (h : s.known.lookup p = none)
    (herror : Resolution.ofAddress s.target s.heap p = .error e) :
    s.resolve p = (.error e, s) := by
  unfold resolve
  rw [h, herror]

theorem resolve_target (s : Symbolizer) (p : Address) : (s.resolve p).2.target = s.target := by
  unfold resolve
  split
  · rfl
  · split <;> rfl

theorem resolve_heap (s : Symbolizer) (p : Address) : (s.resolve p).2.heap = s.heap := by
  unfold resolve
  split
  · rfl
  · split <;> rfl

namespace Faithful

theorem answer (h : s.Faithful) (p : Address) :
    (s.resolve p).1 = Resolution.ofAddress s.target s.heap p := by
  cases hknown : s.known.lookup p with
  | some r =>
    rw [resolve_known hknown]
    exact (h.answers _ (mem_of_lookup hknown)).symm
  | none =>
    cases hanswer : Resolution.ofAddress s.target s.heap p with
    | ok r => rw [resolve_ok hknown hanswer]
    | error e => rw [resolve_error hknown hanswer]

/-- A call leaves the symbolizer as it was or with one more answer, for an address that it did not
know. -/
theorem resolve (h : s.Faithful) (p : Address) : (s.resolve p).2.Faithful := by
  cases hknown : s.known.lookup p with
  | some r =>
    rw [resolve_known hknown]
    exact h
  | none =>
    cases hanswer : Resolution.ofAddress s.target s.heap p with
    | error e =>
      rw [resolve_error hknown hanswer]
      exact h
    | ok r =>
      rw [resolve_ok hknown hanswer]
      refine ⟨List.forall_mem_cons.mpr ⟨hanswer, h.answers⟩, ?_⟩
      rw [List.map_cons, List.nodup_cons]
      exact ⟨not_mem_of_lookup hknown, h.once⟩

end Faithful

theorem ofHeapAt_eq_ok_iff :
    ofHeapAt t a = .ok s ↔ ∃ heap, CodeHeap.read t a = .ok heap ∧ s = ⟨t, heap, []⟩ := by
  unfold ofHeapAt
  simp only [Answer.bind_eq_ok, Answer.pure_eq_ok]
  exact exists_congr fun _ => and_congr_right fun _ => eq_comm

theorem faithful_unasked (t : Target) (heap : CodeHeap) :
    (⟨t, heap, []⟩ : Symbolizer).Faithful where
  answers _ hentry := absurd hentry List.not_mem_nil
  once := .nil

theorem resolve_unasked (t : Target) (heap : CodeHeap) (p : Address) :
    ((⟨t, heap, []⟩ : Symbolizer).resolve p).1 = Resolution.ofAddress t heap p :=
  (faithful_unasked t heap).answer p

/-- A symbolizer as it is made, and as calls leave it. -/
inductive InUse (t : Target) (a : Address) : Symbolizer → Prop where
  | made {s : Symbolizer} (h : ofHeapAt t a = .ok s) : InUse t a s
  | asked {s : Symbolizer} (h : InUse t a s) (p : Address) : InUse t a (s.resolve p).2

namespace InUse

theorem faithful (h : InUse t a s) : s.Faithful := by
  induction h with
  | made h =>
    obtain ⟨heap, -, rfl⟩ := ofHeapAt_eq_ok_iff.mp h
    exact faithful_unasked t heap
  | asked _ p ih => exact ih.resolve p

theorem same_target (h : InUse t a s) (hnew : ofHeapAt t a = .ok new) :
    s.target = t ∧ s.heap = new.heap := by
  obtain ⟨heap, hheap, rfl⟩ := ofHeapAt_eq_ok_iff.mp hnew
  induction h with
  | made h =>
    obtain ⟨heap', hheap', rfl⟩ := ofHeapAt_eq_ok_iff.mp h
    rw [hheap] at hheap'
    cases hheap'
    exact ⟨rfl, rfl⟩
  | asked _ p ih => exact ⟨(resolve_target _ p).trans ih.1, (resolve_heap _ p).trans ih.2⟩

end InUse

/-- The answers to calls that are made one after the other, and the symbolizer after them. -/
def resolveAll (s : Symbolizer) : List Address → List (Answer (Option Resolution)) × Symbolizer
  | [] => ([], s)
  | p :: ps =>
    let (answers, last) := resolveAll (s.resolve p).2 ps
    ((s.resolve p).1 :: answers, last)

theorem InUse.resolveAll (h : InUse t a s) (ps : List Address) : InUse t a (s.resolveAll ps).2 := by
  induction ps generalizing s with
  | nil => exact h
  | cons p ps ih => exact ih (h.asked p)

theorem Faithful.answerAll (h : s.Faithful) (ps : List Address) :
    (s.resolveAll ps).1 = ps.map (Resolution.ofAddress s.target s.heap) := by
  induction ps generalizing s with
  | nil => rfl
  | cons p ps ih =>
    have hrest := ih (h.resolve p)
    rw [resolve_target, resolve_heap] at hrest
    simp only [Symbolizer.resolveAll, List.map_cons, h.answer p, hrest]

/-- A fault is never one of the known answers, so the look-up behind it was made. -/
theorem Faithful.resolve_of_error (h : s.Faithful) (herror : (s.resolve p).1 = .error e) :
    (s.resolve p).2 = s := by
  have hanswer := (h.answer p).symm.trans herror
  cases hknown : s.known.lookup p with
  | some r => rw [resolve_known hknown]
  | none => rw [resolve_error hknown hanswer]

theorem Faithful.mem_resolve (h : s.Faithful) (hok : (s.resolve p).1 = .ok r) :
    (p, r) ∈ (s.resolve p).2.known := by
  have hanswer := (h.answer p).symm.trans hok
  cases hknown : s.known.lookup p with
  | some r' =>
    have hmem := mem_of_lookup hknown
    have hsame := (h.answers _ hmem).symm.trans hanswer
    rw [resolve_known hknown]
    cases hsame
    exact hmem
  | none =>
    rw [resolve_ok hknown hanswer]
    exact List.mem_cons_self

/-- Every call is answered as by a new symbolizer for the same code heap. Whatever is remembered
after any calls is the answer that is found without help, and it is remembered once; a call that
fails is not remembered, any other one is. -/
theorem resolveAll_as_new (hs : InUse t a s) (hnew : ofHeapAt t a = .ok new) (ps : List Address) :
    (s.resolveAll ps).1 = ps.map (fun p => (new.resolve p).1) ∧
    (∀ entry ∈ (s.resolveAll ps).2.known,
      Resolution.ofAddress t new.heap entry.1 = .ok entry.2) ∧
    ((s.resolveAll ps).2.known.map Prod.fst).Nodup ∧
    (∀ p e, (s.resolve p).1 = .error e → (s.resolve p).2 = s) ∧
    ∀ p r, (s.resolve p).1 = .ok r → (p, r) ∈ (s.resolve p).2.known := by
  obtain ⟨htarget, hheap⟩ := hs.same_target hnew
  have hnewTarget : new.target = t := ((InUse.made hnew).same_target hnew).1
  have hlast := hs.resolveAll ps
  refine ⟨?_, fun entry hentry => ?_, hlast.faithful.once, fun p e => hs.faithful.resolve_of_error,
    fun p r => hs.faithful.mem_resolve⟩
  · rw [hs.faithful.answerAll ps, htarget, hheap]
    refine List.map_congr_left fun p _ => ?_
    rw [(InUse.made hnew).faithful.answer p, hnewTarget]
  · have hanswer := hlast.faithful.answers entry hentry
    obtain ⟨htarget', hheap'⟩ := hlast.same_target hnew
    rw [htarget', hheap'] at hanswer
    exact hanswer

/-- A code heap of eight segments with a blob in the first two. The header of the block in the last
one was not captured. -/
def stubs : Target where
  layout := .dense
  memory := Image.memory ⟨[
    ⟨0x100, (wordBytes 0x200 ++ wordBytes 0x240 ++ wordBytes 0x300 ++ wordBytes 0x308 ++
      wordBytes 3).toArray⟩,
    ⟨0x200, (1 :: (wordBytes 0x400 ++ wordBytes 12 ++ wordBytes 12)).toArray⟩,
    ⟨0x300, #[0, 1, 0xFF, 0xFF, 0xFF, 0xFF, 0xFF, 0]⟩,
    ⟨0x400, #[0x73, 0x74, 0x75, 0x62, 0]⟩]⟩

/-- Addresses in a blob, in a segment of no block and in the block without a header, some of them
more than once. -/
theorem resolveAll_as_new_repeated :
    ∃ new, ofHeapAt stubs 0x100 = .ok new ∧
      (new.resolveAll [0x205, 0x23F, 0x220, 0x205, 0x23F, 0x220]).1 =
        [.ok (some ⟨0x205, "stub", none, [⟨"stub", none⟩]⟩), .error (.unmapped 0x238 1), .ok none,
          .ok (some ⟨0x205, "stub", none, [⟨"stub", none⟩]⟩), .error (.unmapped 0x238 1), .ok none] ∧
      (new.resolve 0x23F).2 = new ∧ (0x220, none) ∈ (new.resolve 0x220).2.known := by
  have hnew : ofHeapAt stubs 0x100 = .ok ⟨stubs, ⟨0x100, ⟨0x200, 0x240⟩, ⟨0x300, 0x308⟩, 3⟩, []⟩ :=
    rfl
  have hall := resolveAll_as_new (.made hnew) hnew
  refine ⟨_, hnew, ?_, ?_, ?_⟩
  · rw [(hall _).1]
    decide +kernel
  · exact (hall []).2.2.2.1 0x23F (.unmapped 0x238 1) (by decide +kernel)
  · exact (hall []).2.2.2.2 0x220 none rfl

end JitFrames.Symbolizer
