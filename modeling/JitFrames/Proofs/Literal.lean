import JitFrames.Proofs.Text.Blank
import JitFrames.Proofs.Text.Numeral
import JitFrames.Snapshot.Manifest

namespace JitFrames

open Numeral (EitherCase Spells)

namespace Address

variable {literal : String} {text body : List Char} {c : Char} {base n v : Nat} {a : Address}

/-- What a literal without blanks around it begins with gives the base; without a mark it is ten. -/
inductive Based : List Char → Nat → List Char → Prop where
  | small (body : List Char) : Based ('0' :: 'x' :: body) 16 body
  | capital (body : List Char) : Based ('0' :: 'X' :: body) 16 body
  | plain (text : List Char) : (∀ body, text ≠ '0' :: 'x' :: body) →
      (∀ body, text ≠ '0' :: 'X' :: body) → Based text 10 text

theorem splitBase_eq_iff : splitBase text = (base, body) ↔ Based text base body := by
  constructor
  · intro h
    unfold splitBase at h
    split at h
    · cases h
      exact .small body
    · cases h
      exact .capital body
    · next hsmall hcapital =>
      cases h
      exact .plain text hsmall hcapital
  · intro h
    cases h with
    | small => rfl
    | capital => rfl
    | plain _ hsmall hcapital =>
      unfold splitBase
      split
      · exact absurd rfl (hsmall _)
      · exact absurd rfl (hcapital _)
      · rfl

/-- The grammar of literals: blanks around, a mark of the base, and behind it at most one plus sign
and one or more digits of the base, with underscores anywhere; the number they write lies in the
address space. -/
def Denotes (literal : String) (v : Nat) : Prop :=
  ∃ text base body digits, Blank.Trims literal.toList text ∧ Based text base body ∧
    (body.filter (· ≠ '_') = digits ∨ body.filter (· ≠ '_') = '+' :: digits) ∧
    Spells base digits v ∧ v < UInt64.size

theorem Denotes.lt (h : Denotes literal v) : v < UInt64.size := by
  obtain ⟨_, _, _, _, -, -, -, -, hlt⟩ := h
  exact hlt

theorem Based.base_le (h : Based text base body) : base ≤ 16 := by
  cases h <;> decide

theorem ofLiteral?_eq_some_iff : ofLiteral? literal = some a ↔ Denotes literal a.toNat := by
  have ha := a.toNat_lt_size
  have hread (parts : Nat × List Char) (hparts : splitBase (Blank.trim literal.toList) = parts) :
      ofLiteral? literal = some a ↔
        Numeral.unsigned? parts.1 (parts.2.filter (· ≠ '_')) = some a.toNat := by
    unfold ofLiteral?
    rw [hparts]
    simp only [Option.bind_eq_bind, Option.bind_eq_some_iff]
    constructor
    · intro hh
      obtain ⟨v, hv, hh⟩ := hh
      split at hh
      · next hlt =>
        rw [← Option.some.inj hh, UInt64.toNat_ofNat_of_lt' hlt]
        exact hv
      · cases hh
    · intro hv
      exact ⟨a.toNat, hv, by rw [if_pos ha, UInt64.ofNat_toNat]⟩
  constructor
  · intro h
    have hbased := splitBase_eq_iff.mp (Prod.eta (splitBase (Blank.trim literal.toList)))
    have hnumber := (hread _ rfl).mp h
    obtain ⟨digits, hdigits, hspells⟩ := (Numeral.unsigned?_eq_some_iff hbased.base_le).mp hnumber
    exact ⟨_, _, _, digits, Blank.trim_eq_iff.mp rfl, hbased, hdigits, hspells, ha⟩
  · intro h
    obtain ⟨text, base, body, digits, htrims, hbased, hdigits, hspells, -⟩ := h
    obtain rfl := Blank.trim_eq_iff.mpr htrims
    rw [hread _ (splitBase_eq_iff.mpr hbased), Numeral.unsigned?_eq_some_iff hbased.base_le]
    exact ⟨digits, hdigits, hspells⟩

/-- The digits of the number in the base, with zeros in front, capitals and underscores at will. -/
def Numerals (base n : Nat) (body : List Char) : Prop :=
  ∃ zeros, EitherCase (body.filter (· ≠ '_')) (List.replicate zeros '0' ++ Nat.toDigits base n)

/-- A number in hexadecimal behind the mark of the base, or in decimal. -/
inductive Form (n : Nat) : List Char → Prop where
  | small (body : List Char) : Numerals 16 n body → Form n ('0' :: 'x' :: body)
  | capital (body : List Char) : Numerals 16 n body → Form n ('0' :: 'X' :: body)
  | decimal (body : List Char) : Numerals 10 n body → Form n body

/-- A literal that one would write for a number, with blanks around at will. -/
def Writes (literal : String) (n : Nat) : Prop :=
  ∃ front text back, literal.toList = front ++ text ++ back ∧
    (∀ c ∈ front, Blank.isBlank c = true) ∧ (∀ c ∈ back, Blank.isBlank c = true) ∧ Form n text

theorem Numerals.spells (h : Numerals base n body) (hbase : 1 < base) :
    Spells base (body.filter (· ≠ '_')) n := by
  obtain ⟨zeros, hdigits⟩ := h
  exact Numeral.spells_of_eitherCase hbase zeros hdigits

theorem Numerals.not_mem (h : Numerals base n body) (hbase : 1 < base) (hle : base ≤ 16)
    (hunderscore : c ≠ '_') (hdigit : Numeral.digitBelow? base c = none) : c ∉ body := by
  intro hc
  have hmem : c ∈ body.filter (· ≠ '_') := List.mem_filter.mpr ⟨hc, by simpa using hunderscore⟩
  exact (h.spells hbase).not_mem hle hdigit hmem

theorem Numerals.notBlank (h : Numerals base n body) (hbase : 1 < base) (hle : base ≤ 16)
    (hc : c ∈ body) : Blank.isBlank c = false := by
  by_cases hunderscore : c = '_'
  · rw [hunderscore]
    rfl
  · have hmem : c ∈ body.filter (· ≠ '_') := List.mem_filter.mpr ⟨hc, by simpa using hunderscore⟩
    obtain ⟨d, hd⟩ := (h.spells hbase).exists_isDigit hmem
    have hnat := hd.toNat_char hle
    have hlt := hd.lt
    exact Blank.isBlank_of_visible (by omega) (by omega)

theorem Form.notBlank (h : Form n text) (hc : c ∈ text) : Blank.isBlank c = false := by
  cases h with
  | small body hbody =>
    obtain rfl | rfl | hc : c = '0' ∨ c = 'x' ∨ c ∈ body := by simpa using hc
    · rfl
    · rfl
    · exact hbody.notBlank (by decide) (by decide) hc
  | capital body hbody =>
    obtain rfl | rfl | hc : c = '0' ∨ c = 'X' ∨ c ∈ body := by simpa using hc
    · rfl
    · rfl
    · exact hbody.notBlank (by decide) (by decide) hc
  | decimal _ hbody => exact hbody.notBlank (by decide) (by decide) hc

/-- Decimal digits begin with no mark, whatever zeros and underscores stand in front. -/
theorem Form.based (h : Form n text) : ∃ base body, Based text base body ∧ Numerals base n body ∧
    1 < base := by
  cases h with
  | small body hbody => exact ⟨16, body, .small body, hbody, by decide⟩
  | capital body hbody => exact ⟨16, body, .capital body, hbody, by decide⟩
  | decimal _ hbody =>
    have hsmall : 'x' ∉ text := hbody.not_mem (by decide) (by decide) (by decide) rfl
    have hcapital : 'X' ∉ text := hbody.not_mem (by decide) (by decide) (by decide) rfl
    refine ⟨10, text, .plain text ?_ ?_, hbody, by decide⟩
    · rintro body rfl
      exact hsmall (by simp)
    · rintro body rfl
      exact hcapital (by simp)

theorem Writes.denotes (h : Writes literal n) (hn : n < UInt64.size) : Denotes literal n := by
  obtain ⟨front, text, back, hliteral, hfront, hback, hform⟩ := h
  obtain ⟨base, body, hbased, hbody, hbase⟩ := hform.based
  refine ⟨text, base, body, _, ?_, hbased, .inl rfl, hbody.spells hbase, hn⟩
  exact ⟨⟨front, back, hliteral, hfront, hback⟩,
    fun c hc => hform.notBlank (List.mem_of_mem_head? hc),
    fun c hc => hform.notBlank (List.mem_of_mem_getLast? hc)⟩

theorem writes_text (a : Address) : Writes a.text a.toNat := by
  let digits := Nat.toDigits 16 a.toNat
  let padded := List.replicate (16 - digits.length) '0' ++ digits
  have htext : a.text.toList = '0' :: 'x' :: padded := by
    have happend : a.text.toList = "0x".toList ++ (String.ofList padded).toList :=
      String.toList_append
    exact happend.trans (congrArg _ String.toList_ofList)
  have hplain : padded.filter (· ≠ '_') = padded := by
    have hspells : Spells 16 padded a.toNat :=
      Numeral.spells_of_eitherCase (by decide) _ (.refl padded)
    have hunderscore : '_' ∉ padded := hspells.not_mem (by decide) rfl
    refine List.filter_eq_self.mpr fun c hc => decide_eq_true ?_
    rintro rfl
    exact hunderscore hc
  refine ⟨[], '0' :: 'x' :: padded, [], ?_, nofun, nofun, .small padded ⟨16 - digits.length, ?_⟩⟩
  · rw [htext, List.nil_append, List.append_nil]
  · rw [hplain]
    exact .refl padded

end Address

namespace ManifestAddress

variable {literal : String} {a : Address}

open Address

theorem value_eq_ok_iff : (ManifestAddress.literal literal).value = .ok a ↔
    Denotes literal a.toNat := by
  rw [← ofLiteral?_eq_some_iff, value]
  split
  · next b hb => rw [hb, Except.ok.injEq, Option.some.injEq]
  · next hnone => exact iff_of_false nofun (by rw [hnone]; nofun)

theorem value_eq_error_iff : (ManifestAddress.literal literal).value =
    .error (.invalidAddress literal) ↔ ¬ ∃ v, Denotes literal v := by
  have hnone : (ManifestAddress.literal literal).value = .error (.invalidAddress literal) ↔
      ofLiteral? literal = none := by
    rw [value]
    split
    · next b hb => exact iff_of_false nofun (by rw [hb]; nofun)
    · next hb => exact iff_of_true rfl hb
  rw [hnone, Option.eq_none_iff_forall_ne_some, not_exists]
  constructor
  · intro h v hv
    rw [← UInt64.toNat_ofNat_of_lt' hv.lt] at hv
    exact h _ (ofLiteral?_eq_some_iff.mpr hv)
  · intro h a ha
    exact h a.toNat (ofLiteral?_eq_some_iff.mp ha)

/-- A literal is read exactly if the grammar gives it a number, and then as the address with this
number; any other one is handed back unchanged with the failure. In particular an address is read
back from its own text and from all that one would write for it: hexadecimal digits in either case
behind the mark of the base, or decimal digits, with zeros in front, underscores among the digits
and blanks around. -/
theorem literal_denotes (literal : String) :
    (∀ a, (ManifestAddress.literal literal).value = .ok a ↔ Denotes literal a.toNat) ∧
    ((ManifestAddress.literal literal).value = .error (.invalidAddress literal) ↔
      ¬ ∃ v, Denotes literal v) ∧
    (∀ a : Address, (ManifestAddress.literal a.text).value = .ok a) ∧
    ∀ a, Writes literal a.toNat → (ManifestAddress.literal literal).value = .ok a := by
  have hwritten {text : String} {a : Address} (h : Writes text a.toNat) :
      (ManifestAddress.literal text).value = .ok a :=
    value_eq_ok_iff.mpr (h.denotes a.toNat_lt_size)
  exact ⟨fun a => value_eq_ok_iff, value_eq_error_iff, fun a => hwritten (writes_text a),
    fun a h => hwritten h⟩

theorem writes_mixed : Writes "\u3000\t0X_00fF_\n" 255 :=
  ⟨['\u3000', '\t'], "0X_00fF_".toList, ['\n'], rfl, List.all_eq_true.mp rfl,
    List.all_eq_true.mp rfl, .capital "_00fF_".toList ⟨2, .cons (.inl rfl) (.cons (.inl rfl)
      (.cons (.inl rfl) (.cons (.inr rfl) .nil)))⟩⟩

theorem writes_largest : Writes "018_446_744_073_709_551_615 " (UInt64.size - 1) := by
  have hdigits : "018_446_744_073_709_551_615".toList.filter (· ≠ '_') =
      List.replicate 1 '0' ++ Nat.toDigits 10 (UInt64.size - 1) := by decide +kernel
  refine ⟨[], "018_446_744_073_709_551_615".toList, [' '], by decide +kernel, nofun,
    List.all_eq_true.mp rfl, .decimal _ ⟨1, ?_⟩⟩
  rw [hdigits]
  exact .refl _

/-- Capitals and underscores between a wide blank and a line feed, and the largest address; the
number after it, a mark that an underscore splits, two marks and two signs denote nothing. -/
theorem literal_denotes_examples :
    (ManifestAddress.literal "\u3000\t0X_00fF_\n").value = .ok 255 ∧
      (ManifestAddress.literal "018_446_744_073_709_551_615 ").value = .ok 0xFFFFFFFFFFFFFFFF ∧
      ∀ literal ∈ ["18446744073709551616", "0_x10", "0x0x10", "++1", "0x", "1 2"],
        ¬ ∃ v, Denotes literal v := by
  refine ⟨(literal_denotes _).2.2.2 255 writes_mixed,
    (literal_denotes _).2.2.2 0xFFFFFFFFFFFFFFFF writes_largest, fun literal hliteral => ?_⟩
  have hall : ∀ literal ∈ ["18446744073709551616", "0_x10", "0x0x10", "++1", "0x", "1 2"],
      (ManifestAddress.literal literal).value = .error (.invalidAddress literal) := by
    decide +kernel
  exact (literal_denotes literal).2.1.mp (hall literal hliteral)

end ManifestAddress

end JitFrames
