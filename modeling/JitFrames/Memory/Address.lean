import JitFrames.Text.Numeral

namespace JitFrames

/-- An address in the 64-bit address space of the inspected target. -/
abbrev Address := UInt64

namespace Address

/-- The null pointer stands for "nothing there". -/
def nonNull? (a : Address) : Option Address := if a = 0 then none else some a

/-- The address `offset` bytes further on, if the address space reaches that far. -/
def add? (a : Address) (offset : Nat) : Option Address :=
  if a.toNat + offset < UInt64.size then some (UInt64.ofNat (a.toNat + offset)) else none

/-- How many bytes `a` lies past `base`. -/
def distance? (a base : Address) : Option Nat :=
  if base ≤ a then some (a.toNat - base.toNat) else none

/-- The shortest hexadecimal form. -/
def short (a : Address) : String := "0x" ++ Numeral.hex a.toNat

/-- Hexadecimal with all sixteen digits. -/
def text (a : Address) : String := "0x" ++ Numeral.hexPadded 16 a.toNat

theorem add?_eq_some_iff {a b : Address} {n : Nat} :
    add? a n = some b ↔ a.toNat + n = b.toNat := by
  unfold add?
  have hb := b.toNat_lt_size
  constructor
  · intro h
    split at h
    · next hlt => rw [← Option.some.inj h, UInt64.toNat_ofNat_of_lt' hlt]
    · cases h
  · intro h
    rw [if_pos (by omega), h, UInt64.ofNat_toNat]

theorem exists_add? {a : Address} {n : Nat} (h : a.toNat + n < UInt64.size) :
    ∃ b, add? a n = some b := ⟨_, if_pos h⟩

theorem add?_eq_none_iff {a : Address} {n : Nat} :
    add? a n = none ↔ UInt64.size ≤ a.toNat + n := by
  unfold add?
  split
  · next hlt => exact iff_of_false nofun (Nat.not_le.mpr hlt)
  · next hge => exact iff_of_true rfl (Nat.le_of_not_lt hge)

theorem distance?_eq_some_iff {a base : Address} {n : Nat} :
    distance? a base = some n ↔ base.toNat + n = a.toNat := by
  unfold distance?
  simp only [UInt64.le_iff_toNat_le]
  split <;> simp <;> omega

end Address

/-- The addresses from `start` up to and without `stop`; empty if they are not in order. -/
structure AddressRange where
  start : Address
  stop : Address
  deriving DecidableEq, Repr

namespace AddressRange

def contains (r : AddressRange) (a : Address) : Bool := r.start ≤ a && a < r.stop

def size (r : AddressRange) : Nat := r.stop.toNat - r.start.toNat

def isEmpty (r : AddressRange) : Bool := r.size == 0

def text (r : AddressRange) : String := "[" ++ r.start.short ++ ", " ++ r.stop.short ++ ")"

theorem contains_iff {r : AddressRange} {a : Address} :
    r.contains a = true ↔ r.start.toNat ≤ a.toNat ∧ a.toNat < r.stop.toNat := by
  simp [contains, UInt64.le_iff_toNat_le, UInt64.lt_iff_toNat_lt]

end AddressRange

end JitFrames
