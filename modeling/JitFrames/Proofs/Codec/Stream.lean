import JitFrames.Codec.Stream

namespace JitFrames

/-- A sequence of steps fails where the first of them fails. -/
theorem bind_eq_error {σ α β : Type} {x : EStateM Fault σ α} {f : α → EStateM Fault σ β}
    {s t : σ} {e : Fault} :
    (x >>= f) s = .error e t ↔
      x s = .error e t ∨ ∃ a u, x s = .ok a u ∧ f a u = .error e t := by
  simp only [bind, EStateM.bind]
  cases x s with
  | ok a u =>
    refine ⟨fun h => .inr ⟨a, u, rfl, h⟩, ?_⟩
    rintro (hx | ⟨_, _, hx, h⟩)
    · cases hx
    · cases hx
      exact h
  | error => simp

theorem bind_of_ok {σ α β : Type} {x : EStateM Fault σ α} {f : α → EStateM Fault σ β} {s u : σ}
    {a : α} (h : x s = .ok a u) : (x >>= f) s = f a u := by
  simp only [bind, EStateM.bind]
  rw [h]

theorem bind_of_error {σ α β : Type} {x : EStateM Fault σ α} {f : α → EStateM Fault σ β} {s u : σ}
    {e : Fault} (h : x s = .error e u) : (x >>= f) s = .error e u :=
  bind_eq_error.mpr (.inl h)

theorem pure_ne_error {σ α : Type} {a : α} {s t : σ} {e : Fault} :
    (pure a : EStateM Fault σ α) s ≠ .error e t := by
  simp [pure, EStateM.pure]

/-- A step whose value is only passed on fails by itself. -/
theorem bind_pure_eq_error {σ α β : Type} {x : EStateM Fault σ α} {g : α → β} {s t : σ}
    {e : Fault} : (x >>= fun a => pure (g a)) s = .error e t ↔ x s = .error e t := by
  rw [bind_eq_error]
  constructor
  · rintro (h | ⟨a, u, -, h⟩)
    · exact h
    · exact absurd h pure_ne_error
  · exact .inl

theorem Address.add?_zero {n : Nat} (h : n < UInt64.size) :
    (0 : Address).add? n = some (UInt64.ofNat n) := by
  simp [Address.add?, h]

/-- The last byte of the address space is in no buffer: a read of it would end behind the last
address. -/
theorem Memory.byte?_ofBytes (bytes : Bytes) (a : Address) :
    (Memory.ofBytes bytes).byte? a =
      if a.toNat + 1 < UInt64.size then bytes[a.toNat]? else none := by
  unfold Memory.byte? Memory.ofBytes
  cases ha : a.add? 1 with
  | none =>
    have hlast : ¬a.toNat + 1 < UInt64.size := Nat.not_lt.mpr (Address.add?_eq_none_iff.mp ha)
    simp [ha, hlast]
  | some stop =>
    have hs := Address.add?_eq_some_iff.mp ha
    have hlt : a.toNat + 1 < UInt64.size := by
      rw [hs]
      exact stop.toNat_lt_size
    by_cases hin : stop.toNat ≤ bytes.size
    · rw [← hs] at hin
      simp [ha, ← hs, hin, hlt]
    · rw [← hs] at hin
      simp [ha, ← hs, hin, hlt, Array.getElem?_eq_none (show bytes.size ≤ a.toNat by omega)]

namespace ByteStream

/-- The bytes stand one after the other from a position on, all of them in the address space. -/
def Holds (s : ByteStream) (p : Nat) (bytes : List UInt8) : Prop :=
  ∀ i (h : i < bytes.length),
    ∃ a, s.origin.add? (p + i) = some a ∧ s.memory.byte? a = some bytes[i]

/-- There is a position behind every byte. Only the last byte of the address space can lack one,
when positions are counted from the first address. -/
def Roomy (s : ByteStream) : Prop := s.origin = 0 → s.memory.byte? 0xFFFFFFFFFFFFFFFF = none

theorem next_eq_ok_iff {s : ByteStream} {p q : Nat} {b : UInt8} :
    s.next p = .ok b q ↔
      q = p + 1 ∧ ∃ a, s.origin.add? p = some a ∧ s.memory.byte? a = some b := by
  simp only [next]
  cases ha : s.origin.add? p with
  | none => simp
  | some a =>
    cases hb : s.memory.byte? a with
    | none => simp [Memory.readByte, hb]
    | some c => simp [Memory.readByte, hb, eq_comm, and_comm]

theorem next_eq_error {s : ByteStream} {p q : Nat} {e : Fault} (h : s.next p = .error e q) :
    q = p := by
  simp only [next] at h
  split at h
  · cases h
    rfl
  · split at h
    · cases h
    · cases h
      rfl

theorem holds_cons {s : ByteStream} {p : Nat} {b : UInt8} {bytes : List UInt8} :
    s.Holds p (b :: bytes) ↔ s.next p = .ok b (p + 1) ∧ s.Holds (p + 1) bytes := by
  rw [next_eq_ok_iff]
  constructor
  · intro h
    refine ⟨⟨rfl, h 0 (by simp)⟩, fun i hi => ?_⟩
    obtain ⟨a, ha, hb⟩ := h (i + 1) (by simpa using hi)
    exact ⟨a, by rw [← ha]; congr 1; omega, by simpa using hb⟩
  · rintro ⟨⟨-, h0⟩, h⟩ i hi
    cases i with
    | zero => simpa using h0
    | succ i =>
      obtain ⟨a, ha, hb⟩ := h i (by simpa using hi)
      exact ⟨a, by rw [← ha]; congr 1; omega, by simpa using hb⟩

theorem holds_nil (s : ByteStream) (p : Nat) : s.Holds p [] := by
  intro i hi
  exact absurd hi (Nat.not_lt_zero i)

theorem holds_singleton {s : ByteStream} {p q : Nat} {b : UInt8} (h : s.next p = .ok b q) :
    s.Holds p [b] := by
  obtain ⟨rfl, -⟩ := next_eq_ok h
  exact holds_cons.mpr ⟨h, s.holds_nil (p + 1)⟩

theorem holds_append {s : ByteStream} {p : Nat} {xs ys : List UInt8} :
    s.Holds p (xs ++ ys) ↔ s.Holds p xs ∧ s.Holds (p + xs.length) ys := by
  induction xs generalizing p with
  | nil => simp [Holds]
  | cons b xs ih =>
    rw [List.cons_append, holds_cons, holds_cons, ih, and_assoc, List.length_cons,
      Nat.add_comm xs.length, ← Nat.add_assoc]

/-- The position behind bytes that are there is a word. -/
theorem Holds.stop_lt {s : ByteStream} {p : Nat} {bytes : List UInt8} (h : s.Holds p bytes)
    (hroom : s.Roomy) (hp : p < UInt64.size) : p + bytes.length < UInt64.size := by
  refine Nat.lt_of_not_le fun hpast => ?_
  -- The byte in front of the position that is no word would be the last of the address space.
  have hword : UInt64.size = 0xFFFFFFFFFFFFFFFF + 1 := rfl
  obtain ⟨a, ha, hbyte⟩ := h (bytes.length - 1) (by omega)
  have hsum := Address.add?_eq_some_iff.mp ha
  have hlt := a.toNat_lt_size
  have horigin : s.origin = 0 := UInt64.toNat_inj.mp (show s.origin.toNat = 0 by omega)
  have hlast : a = 0xFFFFFFFFFFFFFFFF :=
    UInt64.toNat_inj.mp (show a.toNat = 0xFFFFFFFFFFFFFFFF by omega)
  rw [hlast, hroom horigin] at hbyte
  cases hbyte

/-- A position can be counted from the start of the address space. -/
theorem holds_rebase {m : Memory} {origin : Address} {p : Nat} {bytes : List UInt8} :
    (ByteStream.mk m 0).Holds (origin.toNat + p) bytes ↔ (ByteStream.mk m origin).Holds p bytes := by
  simp only [Holds, Address.add?_eq_some_iff]
  simp [Nat.add_assoc]

/-- A buffer holds what stands in it from a position on, except for the last address. -/
theorem ofBytes_holds_of_getElem? {buffer : Bytes} {p : Nat} {bytes : List UInt8}
    (hroom : p + bytes.length < UInt64.size)
    (h : ∀ i (hi : i < bytes.length), buffer[p + i]? = some bytes[i]) :
    (ByteStream.mk (.ofBytes buffer) 0).Holds p bytes := by
  intro i hi
  have hlt : p + i < UInt64.size := by omega
  refine ⟨UInt64.ofNat (p + i), Address.add?_zero hlt, ?_⟩
  rw [Memory.byte?_ofBytes, UInt64.toNat_ofNat_of_lt' hlt, if_pos (by omega)]
  exact h i hi

/-- A buffer holds any part of itself. -/
theorem ofBytes_holds (before bytes after : List UInt8)
    (h : (before ++ bytes ++ after).length < UInt64.size) :
    (ByteStream.mk (Memory.ofBytes (before ++ bytes ++ after).toArray) 0).Holds
      before.length bytes := by
  apply ofBytes_holds_of_getElem?
  · simp only [List.length_append] at h
    omega
  · intro i hi
    simp [List.getElem?_append, hi]

end ByteStream

end JitFrames
