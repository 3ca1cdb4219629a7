import Mathlib.Data.List.Forall2
import Mathlib.Data.Nat.Digits.Defs
import JitFrames.Text.Numeral

namespace JitFrames.Numeral

variable {base n v : Nat} {c : Char} {cs : List Char}

/-- `c` is a digit of the base, in either case, and stands for `n`. -/
structure IsDigit (base : Nat) (c : Char) (n : Nat) : Prop where
  lt : n < base
  char : c = Nat.digitChar n ∨ c = (Nat.digitChar n).toUpper

/-- One or more digits that write `v` in the base. -/
structure Spells (base : Nat) (cs : List Char) (v : Nat) : Prop where
  nonempty : cs ≠ []
  digits : ∃ ns, List.Forall₂ (IsDigit base) cs ns ∧ v = Nat.ofDigits base ns.reverse

theorem digitValue?_of_lt : ∀ n < 16, digitValue? (Nat.digitChar n) = some n ∧
    digitValue? (Nat.digitChar n).toUpper = some n := by decide

theorem toNat_of_digitValue? (h : digitValue? c = some n) :
    n < 10 ∧ c.toNat = n + 48 ∨ 10 ≤ n ∧ (c.toNat = n + 87 ∨ c.toNat = n + 55) := by
  have hle {x y : Char} : x ≤ y ↔ x.toNat ≤ y.toNat := UInt32.le_iff_toNat_le
  have hzero : '0'.toNat = 48 := rfl
  have hnine : '9'.toNat = 57 := rfl
  have hlow : 'a'.toNat = 97 := rfl
  have hhigh : 'A'.toNat = 65 := rfl
  unfold digitValue? at h
  simp only [hle, hzero, hnine, hlow, hhigh] at h
  split at h
  · simp only [Option.some.injEq] at h
    omega
  · split at h
    · simp only [Option.some.injEq] at h
      omega
    · split at h
      · simp only [Option.some.injEq] at h
        omega
      · cases h

theorem digitBelow?_eq_some_iff (hbase : base ≤ 16) :
    digitBelow? base c = some n ↔ IsDigit base c n := by
  have hdigit : ∀ n < 16, n < 10 → (Nat.digitChar n).toNat = n + 48 := by decide
  have hlower : ∀ n < 16, 10 ≤ n → (Nat.digitChar n).toNat = n + 87 := by decide
  have hupper : ∀ n < 16, 10 ≤ n → (Nat.digitChar n).toUpper.toNat = n + 55 := by decide
  unfold digitBelow?
  rw [Option.filter_eq_some_iff, decide_eq_true_iff]
  constructor
  · intro hh
    obtain ⟨hvalue, hlt⟩ := hh
    refine ⟨hlt, ?_⟩
    simp only [← Char.toNat_inj]
    obtain ⟨hsmall, hc⟩ | ⟨hlarge, hc | hc⟩ := toNat_of_digitValue? hvalue
    · exact .inl (hc.trans (hdigit n (by omega) hsmall).symm)
    · exact .inl (hc.trans (hlower n (by omega) hlarge).symm)
    · exact .inr (hc.trans (hupper n (by omega) hlarge).symm)
  · intro hh
    obtain ⟨hlt, rfl | rfl⟩ := hh
    · exact ⟨(digitValue?_of_lt n (by omega)).1, hlt⟩
    · exact ⟨(digitValue?_of_lt n (by omega)).2, hlt⟩

/-- Where the digits stand among the characters. -/
theorem IsDigit.toNat_char (hbase : base ≤ 16) (h : IsDigit base c n) :
    n < 10 ∧ c.toNat = n + 48 ∨ 10 ≤ n ∧ (c.toNat = n + 87 ∨ c.toNat = n + 55) := by
  have hdigit := (digitBelow?_eq_some_iff hbase).mpr h
  exact toNat_of_digitValue? (Option.filter_eq_some_iff.mp hdigit).1

theorem exists_isDigit {ns : List Nat} (h : List.Forall₂ (IsDigit base) cs ns) (hc : c ∈ cs) :
    ∃ n, IsDigit base c n := by
  induction h with
  | nil => cases hc
  | @cons d n _ _ hd _ ih =>
    obtain rfl | hc := List.mem_cons.mp hc
    · exact ⟨n, hd⟩
    · exact ih hc

theorem Spells.exists_isDigit (h : Spells base cs v) (hc : c ∈ cs) : ∃ n, IsDigit base c n := by
  obtain ⟨ns, hdigits, -⟩ := h.digits
  exact Numeral.exists_isDigit hdigits hc

theorem Spells.not_mem (hbase : base ≤ 16) (h : Spells base cs v)
    (hc : digitBelow? base c = none) : c ∉ cs := by
  intro hmem
  obtain ⟨n, hn⟩ := h.exists_isDigit hmem
  rw [(digitBelow?_eq_some_iff hbase).mpr hn] at hc
  cases hc

/-- The digits that follow a number shift it to the left by their count. -/
theorem extend?_eq_some_iff (hbase : base ≤ 16) :
    extend? base n cs = some v ↔ ∃ ns, List.Forall₂ (IsDigit base) cs ns ∧
      v = Nat.ofDigits base ns.reverse + base ^ cs.length * n := by
  induction cs generalizing n with
  | nil => simp [extend?, eq_comm]
  | cons c cs ih =>
    simp only [extend?, Option.bind_eq_bind, Option.bind_eq_some_iff, ih,
      digitBelow?_eq_some_iff hbase, List.forall₂_cons_left_iff]
    have hvalue (d : Nat) (ns : List Nat) (hlength : cs.length = ns.length) :
        Nat.ofDigits base (d :: ns).reverse + base ^ (c :: cs).length * n =
          Nat.ofDigits base ns.reverse + base ^ cs.length * (base * n + d) := by
      rw [List.reverse_cons, Nat.ofDigits_append, Nat.ofDigits_singleton, List.length_reverse,
        ← hlength, List.length_cons]
      ring
    constructor
    · intro hh
      obtain ⟨d, hd, ns, hns, rfl⟩ := hh
      exact ⟨d :: ns, ⟨d, ns, hd, hns, rfl⟩, (hvalue d ns hns.length_eq).symm⟩
    · intro hh
      obtain ⟨_, ⟨d, ns, hd, hns, rfl⟩, rfl⟩ := hh
      exact ⟨d, hd, ns, hns, hvalue d ns hns.length_eq⟩

theorem value?_eq_some_iff (hbase : base ≤ 16) :
    value? base cs = some v ↔ Spells base cs v := by
  have hextend : extend? base 0 cs = some v ↔
      ∃ ns, List.Forall₂ (IsDigit base) cs ns ∧ v = Nat.ofDigits base ns.reverse := by
    rw [extend?_eq_some_iff hbase]
    simp only [Nat.mul_zero, Nat.add_zero]
  cases cs with
  | nil => exact iff_of_false nofun fun h => h.nonempty rfl
  | cons c cs =>
    constructor
    · exact fun h => ⟨List.cons_ne_nil c cs, hextend.mp h⟩
    · exact fun h => hextend.mpr h.digits

/-- A plus sign is no digit, so it is plain whether there is one. -/
theorem unsigned?_eq_some_iff (hbase : base ≤ 16) :
    unsigned? base cs = some v ↔ ∃ digits, (cs = digits ∨ cs = '+' :: digits) ∧
      Spells base digits v := by
  constructor
  · intro h
    unfold unsigned? at h
    split at h
    · next digits => exact ⟨digits, .inr rfl, (value?_eq_some_iff hbase).mp h⟩
    · exact ⟨cs, .inl rfl, (value?_eq_some_iff hbase).mp h⟩
  · intro hh
    obtain ⟨digits, rfl | rfl, hdigits⟩ := hh
    · have hplus : '+' ∉ cs := hdigits.not_mem hbase rfl
      unfold unsigned?
      split
      · exact absurd List.mem_cons_self hplus
      · exact (value?_eq_some_iff hbase).mpr hdigits
    · exact (value?_eq_some_iff hbase).mpr hdigits

/-- The same characters, or small letters written as capitals. -/
def EitherCase (cs ds : List Char) : Prop := List.Forall₂ (fun c d => c = d ∨ c = d.toUpper) cs ds

theorem EitherCase.refl (cs : List Char) : EitherCase cs cs :=
  List.forall₂_same.mpr fun _ _ => .inl rfl

theorem EitherCase.isDigit {ns : List Nat} (h : EitherCase cs (ns.map Nat.digitChar))
    (hlt : ∀ n ∈ ns, n < base) : List.Forall₂ (IsDigit base) cs ns := by
  have hpairs := List.forall₂_map_right_iff.mp h
  induction hpairs with
  | nil => exact .nil
  | cons hc hrest ih =>
    obtain ⟨hn, hns⟩ := List.forall_mem_cons.mp hlt
    exact .cons ⟨hn, hc⟩ (ih (List.forall₂_map_right_iff.mpr hrest) hns)

theorem exists_digits_toDigits (hbase : 1 < base) (n : Nat) :
    ∃ ns, Nat.toDigits base n = ns.map Nat.digitChar ∧ (∀ d ∈ ns, d < base) ∧ ns ≠ [] ∧
      n = Nat.ofDigits base ns.reverse := by
  induction n using Nat.strongRecOn with
  | ind n ih =>
    by_cases hn : n < base
    · exact ⟨[n], Nat.toDigits_of_lt_base hn, by simpa using hn, List.cons_ne_nil n [], by simp⟩
    · obtain ⟨ns, hdigits, hlt, -, hvalue⟩ := ih (n / base) (Nat.div_lt_self (by omega) hbase)
      have hlast : n % base < base := Nat.mod_lt n (by omega)
      refine ⟨ns ++ [n % base], ?_, ?_, by simp, ?_⟩
      · rw [Nat.toDigits_of_base_le hbase (by omega), hdigits, List.map_append, List.map_singleton]
      · intro d hd
        obtain hd | hd := List.mem_append.mp hd
        · exact hlt d hd
        · rw [List.mem_singleton.mp hd]
          exact hlast
      · rw [List.reverse_concat, Nat.ofDigits_cons, ← hvalue]
        exact (Nat.mod_add_div n base).symm

theorem mem_toDigits (hbase : 1 < base) (h : c ∈ Nat.toDigits base n) :
    ∃ d < base, c = Nat.digitChar d := by
  obtain ⟨ns, hdigits, hlt, -, -⟩ := exists_digits_toDigits hbase n
  rw [hdigits, List.mem_map] at h
  obtain ⟨d, hd, rfl⟩ := h
  exact ⟨d, hlt d hd, rfl⟩

/-- The digits of a number write it, in either case and with any zeros in front. -/
theorem spells_of_eitherCase (hbase : 1 < base) (zeros : Nat)
    (h : EitherCase cs (List.replicate zeros '0' ++ Nat.toDigits base n)) : Spells base cs n := by
  obtain ⟨ns, hdigits, hlt, hne, hvalue⟩ := exists_digits_toDigits hbase n
  have hpadded : List.replicate zeros '0' ++ Nat.toDigits base n =
      (List.replicate zeros 0 ++ ns).map Nat.digitChar := by
    rw [hdigits, List.map_append, List.map_replicate]
    rfl
  rw [hpadded] at h
  refine ⟨?_, List.replicate zeros 0 ++ ns, h.isDigit fun d hd => ?_, ?_⟩
  · intro hnil
    have hlength := h.length_eq
    have hpos := List.length_pos_iff.mpr hne
    rw [hnil, List.length_nil, List.length_map, List.length_append] at hlength
    omega
  · obtain hd | hd := List.mem_append.mp hd
    · rw [List.eq_of_mem_replicate hd]
      omega
    · exact hlt d hd
  · rw [List.reverse_append, List.reverse_replicate, Nat.ofDigits_append_replicate_zero]
    exact hvalue

theorem spells_toDigits (hbase : 1 < base) (n : Nat) : Spells base (Nat.toDigits base n) n :=
  spells_of_eitherCase hbase 0 (.refl _)

theorem value?_toDigits (n : Nat) : value? 10 (Nat.toDigits 10 n) = some n :=
  (value?_eq_some_iff (by decide)).mpr (spells_toDigits (by decide) n)

end JitFrames.Numeral
