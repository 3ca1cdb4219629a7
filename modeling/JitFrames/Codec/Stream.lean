import JitFrames.Memory.Reader

namespace JitFrames

/-- A computation on a stream at a position, which can stop with a fault and then stays at the
position that it has reached. -/
abbrev Decoder := EStateM Fault Nat

/-- A sequence of steps succeeds if each of them does. -/
theorem bind_eq_ok {σ α β : Type} {x : EStateM Fault σ α} {f : α → EStateM Fault σ β}
    {s t : σ} {b : β} :
    (x >>= f) s = .ok b t ↔ ∃ a u, x s = .ok a u ∧ f a u = .ok b t := by
  simp only [bind, EStateM.bind]
  cases x s with
  | ok a u =>
    refine ⟨fun h => ⟨a, u, rfl, h⟩, ?_⟩
    rintro ⟨_, _, hx, h⟩
    cases hx
    exact h
  | error => simp

theorem pure_eq_ok {σ α : Type} {a b : α} {s t : σ} :
    (pure a : EStateM Fault σ α) s = .ok b t ↔ a = b ∧ s = t := by
  simp [pure, EStateM.pure]

/-- The bytes of a memory from `origin` on. -/
structure ByteStream where
  memory : Memory
  origin : Address

namespace ByteStream

/-- The byte at the position, which moves past it. Positions are words; `ByteStream.Roomy` keeps the
one behind a byte from being lost. -/
def next (s : ByteStream) : Decoder UInt8 := fun position =>
  match s.origin.add? position with
  | none => .error (.malformed .streamPosition s.origin) position
  | some a =>
    match s.memory.readByte a with
    | .ok b => .ok b (position + 1)
    | .error e => .error e position

/-- A byte that was read lies in the address space. -/
theorem next_eq_ok {s : ByteStream} {p q : Nat} {b : UInt8} (h : s.next p = .ok b q) :
    q = p + 1 ∧ s.origin.toNat + p < UInt64.size := by
  unfold next at h
  split at h
  · simp at h
  · next a ha =>
    have := Address.add?_eq_some_iff.mp ha
    have := a.toNat_lt_size
    split at h <;> simp_all

end ByteStream

end JitFrames
