import JitFrames.Codec.LineTable
import JitFrames.Proofs.Answer

namespace JitFrames

variable {α β σ : Type}

/-- The bytes of the first memory are bytes of the second one. -/
def Memory.Extends (m m' : Memory) : Prop :=
  ∀ a n bytes, m.bytes? a n = some bytes → m'.bytes? a n = some bytes

namespace Answer

/-- The answer of an inspection that misses bytes. -/
def IsUnmapped (x : Answer α) : Prop := ∃ a n, x = .error (.unmapped a n)

/-- The second answer is the first one, unless that misses bytes. -/
def Persists (x y : Answer α) : Prop := IsUnmapped x ∨ y = x

namespace Persists

variable {x y : Answer α}

theorem refl (x : Answer α) : Persists x x := .inr rfl

/-- A fault that is raised stops both sequences. -/
theorem throw_bind (e : Fault) (f g : α → Answer β) :
    Persists ((throw e : Answer α) >>= f) ((throw e : Answer α) >>= g) := .inr rfl

/-- What the second steps are given is the same value, or they are never taken. -/
theorem bind {f g : α → Answer β} (h : Persists x y) (hf : ∀ a, Persists (f a) (g a)) :
    Persists (x >>= f) (y >>= g) := by
  obtain ⟨a, n, rfl⟩ | rfl := h
  · exact .inl ⟨a, n, rfl⟩
  · cases y with
    | error e => exact .inr rfl
    | ok v => exact hf v

theorem ite {c : Prop} [Decidable c] {x' y' : Answer α} (h : c → Persists x y)
    (h' : ¬c → Persists x' y') : Persists (if c then x else x') (if c then y else y') := by
  by_cases hc : c
  · rw [if_pos hc, if_pos hc]
    exact h hc
  · rw [if_neg hc, if_neg hc]
    exact h' hc

theorem mapM {f g : α → Answer β} (h : ∀ a, Persists (f a) (g a)) (xs : List α) :
    Persists (xs.mapM f) (xs.mapM g) := by
  induction xs with
  | nil => exact .refl _
  | cons a xs ih =>
    rw [List.mapM_cons, List.mapM_cons]
    exact (h a).bind fun _ => ih.bind fun _ => .refl _

theorem foldlM {f g : β → α → Answer β} (h : ∀ b a, Persists (f b a) (g b a)) (b : β)
    (xs : List α) : Persists (xs.foldlM f b) (xs.foldlM g b) := by
  induction xs generalizing b with
  | nil => exact .refl _
  | cons a xs ih =>
    rw [List.foldlM_cons, List.foldlM_cons]
    exact (h b a).bind ih

end Persists

end Answer

open Answer (Persists)

/-- From any state the second sequence of steps ends as the first one does, unless that misses
bytes. -/
def Step.Persists (f g : EStateM Fault σ α) : Prop :=
  ∀ s, (∃ a n s', f s = .error (.unmapped a n) s') ∨ g s = f s

namespace Step.Persists

variable {f g : EStateM Fault σ α}

theorem refl (f : EStateM Fault σ α) : Step.Persists f f := fun _ => .inr rfl

theorem bind {f' g' : α → EStateM Fault σ β} (h : Step.Persists f g)
    (h' : ∀ a, Step.Persists (f' a) (g' a)) : Step.Persists (f >>= f') (g >>= g') := by
  intro s
  simp only [Bind.bind, EStateM.bind]
  obtain ⟨a, n, s', hf⟩ | hg := h s
  · rw [hf]
    exact .inl ⟨a, n, s', rfl⟩
  · rw [hg]
    cases f s with
    | error e s' => exact .inr rfl
    | ok v s' => exact h' v s'

theorem ite {c : Prop} [Decidable c] {f' g' : EStateM Fault σ α} (h : Step.Persists f g)
    (h' : Step.Persists f' g') :
    Step.Persists (if c then f else f') (if c then g else g') := by
  by_cases hc : c
  · rw [if_pos hc, if_pos hc]
    exact h
  · rw [if_neg hc, if_neg hc]
    exact h'

end Step.Persists

namespace Memory.Extends

variable {m m' m'' : Memory}

theorem refl (m : Memory) : m.Extends m := fun _ _ _ h => h

theorem trans (h : m.Extends m') (h' : m'.Extends m'') : m.Extends m'' :=
  fun a n bytes hbytes => h' a n bytes (h a n bytes hbytes)

theorem within (h : m.Extends m') (r : AddressRange) : (m.within r).Extends (m'.within r) := by
  intro a n bytes hbytes
  unfold Memory.within at hbytes ⊢
  simp only at hbytes ⊢
  split at hbytes
  · next hinside =>
    rw [if_pos hinside]
    exact h a n bytes hbytes
  · cases hbytes

theorem read (h : m.Extends m') (a : Address) (n : Nat) : Persists (m.read a n) (m'.read a n) := by
  unfold Memory.read
  cases hbytes : m.bytes? a n with
  | none => exact .inl ⟨a, n, rfl⟩
  | some bytes =>
    rw [h a n bytes hbytes]
    exact .refl _

theorem byte? (h : m.Extends m') {a : Address} {b : UInt8} (hb : m.byte? a = some b) :
    m'.byte? a = some b := by
  unfold Memory.byte? at hb ⊢
  obtain ⟨bytes, hbytes, hb⟩ := Option.bind_eq_some_iff.mp hb
  exact Option.bind_eq_some_iff.mpr ⟨bytes, h a 1 bytes hbytes, hb⟩

theorem readByte (h : m.Extends m') (a : Address) : Persists (m.readByte a) (m'.readByte a) := by
  unfold Memory.readByte
  cases hb : m.byte? a with
  | none => exact .inl ⟨a, 1, rfl⟩
  | some b =>
    rw [h.byte? hb]
    exact .refl _

end Memory.Extends

end JitFrames
