namespace JitFrames

/-- The first `floor` entries lie below the target, the entry at `ceiling` does not, and those
between are open. -/
structure Bracket where
  floor : Nat
  ceiling : Nat
  deriving DecidableEq, Repr

namespace Bracket

/-- The bracket after a probe. -/
def probed (b : Bracket) (index : Nat) (below : Bool) : Bracket :=
  if below then { b with floor := index + 1 } else { b with ceiling := index }

/-- Probes on, each time passing over `skip` open entries, until a probe is not below the target
or would leave the bracket. The indices are words; `DescriptorTable.Roomy` keeps their sums from
losing a carry. -/
def stride {ε : Type} (below : Nat → Except ε Bool) (skip : Nat) (b : Bracket) :
    Except ε Bracket :=
  if _h : b.floor + skip < b.ceiling then
    match below (b.floor + skip) with
    | .ok true => stride below skip ⟨b.floor + skip + 1, b.ceiling⟩
    | .ok false => .ok ⟨b.floor, b.floor + skip⟩
    | .error e => .error e
  else .ok b
termination_by b.ceiling - b.floor

/-- How many entries the probes of each round pass over. -/
def skips : List Nat := [511, 63, 7, 0]

/-- Narrows a bracket to a single place. -/
def close {ε : Type} (below : Nat → Except ε Bool) (b : Bracket) : Except ε Bracket :=
  skips.foldlM (fun b skip => stride below skip b) b

end Bracket

end JitFrames
