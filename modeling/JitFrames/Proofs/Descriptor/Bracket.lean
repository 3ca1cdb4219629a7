import JitFrames.Code.Descriptor.Bracket
import JitFrames.Proofs.Answer

namespace JitFrames.Bracket

variable {ε : Type} {below : Nat → Except ε Bool} {size skip : Nat} {b b' : Bracket}

/-- What probes have shown: the entry before the floor lies below the target and the one at the
ceiling does not. A floor at the first entry and a ceiling past the last one show nothing. -/
structure Valid (below : Nat → Except ε Bool) (size : Nat) (b : Bracket) : Prop where
  floor_le : b.floor ≤ b.ceiling
  ceiling_le : b.ceiling ≤ size
  floor_below : ∀ i, b.floor = i + 1 → below i = .ok true
  ceiling_not_below : b.ceiling < size → below b.ceiling = .ok false

theorem valid_all (below : Nat → Except ε Bool) (size : Nat) : Valid below size ⟨0, size⟩ where
  floor_le := Nat.zero_le size
  ceiling_le := Nat.le_refl size
  floor_below := fun _ h => nomatch h
  ceiling_not_below := fun h => absurd h (Nat.lt_irrefl size)

/-- One probe between the ends keeps what is known. -/
theorem Valid.probed {i : Nat} {r : Bool} (hv : Valid below size b) (hfloor : b.floor ≤ i)
    (hceiling : i < b.ceiling) (hr : below i = .ok r) : Valid below size (b.probed i r) := by
  cases r with
  | true =>
    refine ⟨hceiling, hv.ceiling_le, ?_, hv.ceiling_not_below⟩
    intro j hj
    have hij : i = j := Nat.succ.inj hj
    exact hij ▸ hr
  | false =>
    exact ⟨hfloor, Nat.le_trans (Nat.le_of_lt hceiling) hv.ceiling_le, hv.floor_below, fun _ => hr⟩

/-- A round of probes keeps what is known and leaves at most `skip` entries open. -/
theorem stride_eq_ok (hv : Valid below size b) (h : stride below skip b = .ok b') :
    Valid below size b' ∧ b'.ceiling ≤ b'.floor + skip := by
  fun_induction stride below skip b with
  | case1 b hin hb ih => exact ih (hv.probed (Nat.le_add_right _ _) hin hb) h
  | case2 b hin hb =>
    cases h
    exact ⟨hv.probed (Nat.le_add_right _ _) hin hb, Nat.le_refl _⟩
  | case3 b hin e hb => cases h
  | case4 b hin =>
    cases h
    exact ⟨hv, Nat.le_of_not_lt hin⟩

/-- A round of probes fails only if a probe does. -/
theorem stride_ok (skip : Nat) (htotal : ∀ i < size, ∃ r, below i = .ok r) (hv : Valid below size b) :
    ∃ b', stride below skip b = .ok b' := by
  fun_induction stride below skip b with
  | case1 b hin hb ih => exact ih (hv.probed (Nat.le_add_right _ _) hin hb)
  | case2 b hin hb => exact ⟨_, rfl⟩
  | case3 b hin e hb =>
    obtain ⟨r, hr⟩ := htotal _ (Nat.lt_of_lt_of_le hin hv.ceiling_le)
    rw [hr] at hb
    cases hb
  | case4 b hin => exact ⟨b, rfl⟩

/-- Rounds one after the other; the last one decides how many entries stay open. -/
theorem strides_eq_ok {rounds : List Nat} (hv : Valid below size b)
    (h : rounds.foldlM (fun b skip => stride below skip b) b = .ok b') :
    Valid below size b' ∧ ∀ last, rounds.getLast? = some last → b'.ceiling ≤ b'.floor + last := by
  induction rounds generalizing b with
  | nil =>
    cases h
    exact ⟨hv, fun _ hl => nomatch hl⟩
  | cons skip rounds ih =>
    rw [List.foldlM_cons] at h
    obtain ⟨b₁, h₁, h₂⟩ := Answer.bind_eq_ok.mp h
    obtain ⟨hv₁, hopen⟩ := stride_eq_ok hv h₁
    cases rounds with
    | nil =>
      cases h₂
      exact ⟨hv₁, fun last hl => by cases hl; exact hopen⟩
    | cons skip' rounds =>
      obtain ⟨hv', hlast⟩ := ih hv₁ h₂
      exact ⟨hv', fun last hl => hlast last (by rwa [List.getLast?_cons_cons] at hl)⟩

theorem strides_ok {rounds : List Nat} (htotal : ∀ i < size, ∃ r, below i = .ok r)
    (hv : Valid below size b) :
    ∃ b', rounds.foldlM (fun b skip => stride below skip b) b = .ok b' := by
  induction rounds generalizing b with
  | nil => exact ⟨b, rfl⟩
  | cons skip rounds ih =>
    obtain ⟨b₁, h₁⟩ := stride_ok skip htotal hv
    obtain ⟨b', h'⟩ := ih (stride_eq_ok hv h₁).1
    exact ⟨b', by rw [List.foldlM_cons]; exact Answer.bind_eq_ok.mpr ⟨b₁, h₁, h'⟩⟩

/-- The search ends with no entry open. -/
theorem close_eq_ok (hv : Valid below size b) (h : b.close below = .ok b') :
    Valid below size b' ∧ b'.floor = b'.ceiling := by
  obtain ⟨hv', hlast⟩ := strides_eq_ok hv h
  exact ⟨hv', Nat.le_antisymm hv'.floor_le (hlast 0 rfl)⟩

theorem close_ok (htotal : ∀ i < size, ∃ r, below i = .ok r) (hv : Valid below size b) :
    ∃ b', b.close below = .ok b' :=
  strides_ok htotal hv

/-- In an ascending sequence a closed bracket is the boundary of what lies below the target. -/
theorem Valid.boundary (hv : Valid below size b) (hclosed : b.floor = b.ceiling)
    (hmono : ∀ i j, i ≤ j → j < size → below j = .ok true → below i = .ok true) :
    ∀ i < size, below i = .ok true ↔ i < b.ceiling := by
  have hsize := hv.ceiling_le
  intro i hi
  constructor
  · intro htrue
    apply Nat.lt_of_not_le
    intro hle
    have hc := hmono b.ceiling i hle hi htrue
    rw [hv.ceiling_not_below (by omega)] at hc
    cases hc
  · intro hlt
    obtain ⟨j, hj⟩ : ∃ j, b.floor = j + 1 := ⟨b.floor - 1, by omega⟩
    exact hmono i j (by omega) (by omega) (hv.floor_below j hj)

end JitFrames.Bracket
