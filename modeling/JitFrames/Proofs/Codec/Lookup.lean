import Mathlib.Data.List.Induction
import JitFrames.Proofs.Codec.Pairs

namespace JitFrames.LineTable

/-- Whether a pair can stand for an index that no pair has. Negative indices never do. -/
def Precedes (bci : Bci) (pair : LinePair) : Prop := 0 ≤ pair.bci ∧ pair.bci < bci

/-- The `i`-th pair is the last one with the greatest index of those that precede an index. -/
structure Nearest (bci : Bci) (pairs : List LinePair) (i : Nat) (pair : LinePair) : Prop where
  entry : pairs[i]? = some pair
  precedes : Precedes bci pair
  greatest : ∀ (j : Nat) (other : LinePair), pairs[j]? = some other → Precedes bci other →
    other.bci ≤ pair.bci
  last : ∀ (j : Nat) (other : LinePair), pairs[j]? = some other → other.bci = pair.bci → j ≤ i

/-- What the pairs of a table, and the fault that ended them if there is one, say of an index. -/
inductive Tells (bci : Bci) (pairs : List LinePair) : Option Fault → Answer SourceLine → Prop where
  | exact {pair : LinePair} {fault : Option Fault}
      (h : pairs.find? (·.bci = bci) = some pair) : Tells bci pairs fault (.ok pair.line)
  | broken {e : Fault} (h : ∀ pair ∈ pairs, pair.bci ≠ bci) : Tells bci pairs (some e) (.error e)
  | nearest {i : Nat} {pair : LinePair} (h : ∀ pair ∈ pairs, pair.bci ≠ bci)
      (hnearest : Nearest bci pairs i pair) : Tells bci pairs none (.ok pair.line)
  | unknown (h : ∀ pair ∈ pairs, pair.bci ≠ bci) (hnone : ∀ pair ∈ pairs, ¬Precedes bci pair) :
      Tells bci pairs none (.ok SourceLine.unknown)

/-- The better one of the best pair so far and the next one. -/
def better (bci : Bci) (best pair : LinePair) : LinePair :=
  if pair.bci < bci ∧ best.bci ≤ pair.bci then pair else best

variable {s : ByteStream} {bci : Bci} {c : Cursor} {pairs : List LinePair} {pair other : LinePair}
  {i j : Nat}

/-- The scan is a fold over the pairs that are delivered, cut short by the first exact one. -/
theorem scan_eq_of_delivered (s : ByteStream) (bci : Bci) (c : Cursor) (best : LinePair) :
    scan s bci c best =
      ((delivered s c).1.find? (·.bci = bci)).elim
        ((delivered s c).2.elim (.ok ((delivered s c).1.foldl (better bci) best).line) .error)
        (.ok ·.line) := by
  induction hroom : UInt64.size - c.position using Nat.strongRecOn generalizing c best with
  | ind room ih =>
    rw [scan_eq]
    cases hread : readPair s c with
    | error e c' =>
      rw [delivered_of_error hread]
      rfl
    | ok more c' =>
      cases more with
      | false =>
        rw [delivered_of_false hread]
        rfl
      | true =>
        have hnext := readPair_eq_ok hread
        rw [delivered_of_true hread]
        by_cases hexact : c'.pair.bci = bci
        · simp [hexact]
        · have hrest := ih _ (by omega) c' (better bci best c'.pair) rfl
          simpa [hexact, better] using hrest

theorem getElem?_concat_eq_some (h : (pairs ++ [pair])[j]? = some other) :
    pairs[j]? = some other ∨ (j = pairs.length ∧ other = pair) := by
  rw [List.getElem?_append] at h
  split at h
  · exact .inl h
  · next hge =>
    rw [List.getElem?_singleton] at h
    split at h
    · next hj => exact .inr ⟨by omega, (Option.some.inj h).symm⟩
    · cases h

/-- A pair that comes last and is at least as great as all that precede the index is the nearest. -/
theorem nearest_concat (hpair : Precedes bci pair)
    (h : ∀ other ∈ pairs, Precedes bci other → other.bci ≤ pair.bci) :
    Nearest bci (pairs ++ [pair]) pairs.length pair where
  entry := List.getElem?_concat_length
  precedes := hpair
  greatest j other hother hprecedes := by
    rcases getElem?_concat_eq_some hother with hbefore | ⟨-, rfl⟩
    · exact h other (List.mem_of_getElem? hbefore) hprecedes
    · exact Int32.le_refl other.bci
  last j other hother _ := by
    rcases getElem?_concat_eq_some hother with hbefore | ⟨rfl, -⟩
    · exact Nat.le_of_lt (List.getElem?_eq_some_iff.mp hbefore).1
    · exact Nat.le_refl pairs.length

/-- The nearest pair stays it in front of one that is smaller or does not precede the index. -/
theorem Nearest.concat (h : Nearest bci pairs i other)
    (hpair : pair.bci < bci → pair.bci < other.bci) : Nearest bci (pairs ++ [pair]) i other where
  entry := by
    rw [List.getElem?_append_left (List.getElem?_eq_some_iff.mp h.entry).1]
    exact h.entry
  precedes := h.precedes
  greatest j q hq hprecedes := by
    rcases getElem?_concat_eq_some hq with hbefore | ⟨-, rfl⟩
    · exact h.greatest j q hbefore hprecedes
    · exact Int32.le_of_lt (hpair hprecedes.2)
  last j q hq heq := by
    rcases getElem?_concat_eq_some hq with hbefore | ⟨-, rfl⟩
    · exact h.last j q hbefore heq
    · have hlt : q.bci < other.bci := hpair (heq ▸ h.precedes.2)
      rw [heq] at hlt
      exact absurd hlt Int32.lt_irrefl

/-- The fold starts at the index 0, so its first step already passes over negative indices. -/
theorem foldl_better (bci : Bci) (pairs : List LinePair) :
    (pairs.foldl (better bci) ⟨0, SourceLine.unknown⟩ = ⟨0, SourceLine.unknown⟩ ∧
        ∀ pair ∈ pairs, ¬Precedes bci pair) ∨
      ∃ i, Nearest bci pairs i (pairs.foldl (better bci) ⟨0, SourceLine.unknown⟩) := by
  induction pairs using List.reverseRecOn with
  | nil => exact .inl ⟨rfl, by simp⟩
  | append_singleton pairs pair ih =>
    rw [List.foldl_append, List.foldl_cons, List.foldl_nil]
    generalize pairs.foldl (better bci) ⟨0, SourceLine.unknown⟩ = best at ih ⊢
    by_cases hbetter : pair.bci < bci ∧ best.bci ≤ pair.bci
    · rw [better, if_pos hbetter]
      refine .inr ⟨pairs.length, ?_⟩
      obtain ⟨rfl, hnone⟩ | ⟨i, hbest⟩ := ih
      · exact nearest_concat ⟨hbetter.2, hbetter.1⟩
          fun other hother hprecedes => absurd hprecedes (hnone other hother)
      · have hnonneg : 0 ≤ pair.bci := Int32.le_trans hbest.precedes.1 hbetter.2
        refine nearest_concat ⟨hnonneg, hbetter.1⟩ fun other hother hprecedes => ?_
        obtain ⟨j, hj⟩ := List.mem_iff_getElem?.mp hother
        exact Int32.le_trans (hbest.greatest j other hj hprecedes) hbetter.2
    · rw [better, if_neg hbetter]
      obtain ⟨rfl, hnone⟩ | ⟨i, hbest⟩ := ih
      · refine .inl ⟨rfl, fun other hother hprecedes => ?_⟩
        rcases List.mem_append.mp hother with hbefore | hlast
        · exact hnone other hbefore hprecedes
        · rw [List.mem_singleton.mp hlast] at hprecedes
          exact hbetter ⟨hprecedes.2, hprecedes.1⟩
      · refine .inr ⟨i, hbest.concat fun hlt => ?_⟩
        exact Int32.not_le.mp fun hle => hbetter ⟨hlt, hle⟩

theorem Nearest.unique (h : Nearest bci pairs i pair) (h' : Nearest bci pairs j other) :
    pair = other := by
  have hle : pair.bci ≤ other.bci := h'.greatest i pair h.entry h.precedes
  have hge : other.bci ≤ pair.bci := h.greatest j other h'.entry h'.precedes
  have heq : pair.bci = other.bci := Int32.le_antisymm hle hge
  have hij : i = j := Nat.le_antisymm (h'.last i pair h.entry heq) (h.last j other h'.entry heq.symm)
  have hentry := h.entry
  rw [hij, h'.entry] at hentry
  exact (Option.some.inj hentry).symm

/-- The clauses exclude each other, and each of them names one line. -/
theorem Tells.unique {fault : Option Fault} {x y : Answer SourceLine} (hx : Tells bci pairs fault x)
    (hy : Tells bci pairs fault y) : x = y := by
  have hexact {pair : LinePair} (h : pairs.find? (·.bci = bci) = some pair) :
      ¬∀ pair ∈ pairs, pair.bci ≠ bci := by
    intro hall
    have hfound : pair.bci = bci := by simpa using List.find?_some h
    exact hall pair (List.mem_of_find?_eq_some h) hfound
  cases hx with
  | exact h =>
    cases hy with
    | exact h' => rw [Option.some.inj (h.symm.trans h')]
    | broken h' => exact absurd h' (hexact h)
    | nearest h' => exact absurd h' (hexact h)
    | unknown h' => exact absurd h' (hexact h)
  | broken h =>
    cases hy with
    | exact h' => exact absurd h (hexact h')
    | broken => rfl
  | nearest h hn =>
    cases hy with
    | exact h' => exact absurd h (hexact h')
    | nearest _ hn' => rw [hn.unique hn']
    | unknown _ hnone => exact absurd hn.precedes (hnone _ (List.mem_of_getElem? hn.entry))
  | unknown h hnone =>
    cases hy with
    | exact h' => exact absurd h (hexact h')
    | nearest _ hn' => exact absurd hn'.precedes (hnone _ (List.mem_of_getElem? hn'.entry))
    | unknown => rfl

theorem tells_lineAt (m : Memory) (table : Address) (bci : Bci) :
    Tells bci (delivered ⟨m, table⟩ Cursor.start).1 (delivered ⟨m, table⟩ Cursor.start).2
      (lineAt m (some table) bci) := by
  rw [show lineAt m (some table) bci = scan ⟨m, table⟩ bci Cursor.start ⟨0, SourceLine.unknown⟩
    from rfl, scan_eq_of_delivered]
  generalize delivered ⟨m, table⟩ Cursor.start = read
  obtain ⟨pairs, fault⟩ := read
  dsimp only
  cases hfind : pairs.find? (·.bci = bci) with
  | some pair => exact .exact hfind
  | none =>
    have hno : ∀ pair ∈ pairs, pair.bci ≠ bci := by simpa using hfind
    cases fault with
    | some e => exact .broken hno
    | none =>
      obtain ⟨hbest, hnone⟩ | ⟨i, hbest⟩ := foldl_better bci pairs
      · rw [Option.elim_none, Option.elim_none, hbest]
        exact .unknown hno hnone
      · exact .nearest hno hbest

/-- Over every memory, a look-up of an index answers what the pairs that the calls of `readPair`
deliver, and the fault that ends them, say of the index. -/
theorem lineAt_eq_iff_tells (m : Memory) (table : Address) (bci : Bci) (answer : Answer SourceLine) :
    lineAt m (some table) bci = answer ↔
      Tells bci (delivered ⟨m, table⟩ Cursor.start).1 (delivered ⟨m, table⟩ Cursor.start).2
        answer := by
  constructor
  · rintro rfl
    exact tells_lineAt m table bci
  · intro h
    exact (tells_lineAt m table bci).unique h

end JitFrames.LineTable
