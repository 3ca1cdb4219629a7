namespace JitFrames

/-- Entries in strictly ascending order of their names. -/
structure NameMap (α : Type) where
  entries : List (String × α)
  ascending : entries.Pairwise (fun a b => a.1 < b.1)
  deriving DecidableEq

namespace NameMap

variable {α : Type}

def empty : NameMap α := ⟨[], .nil⟩

instance : Inhabited (NameMap α) := ⟨empty⟩

/-- Puts an entry at its place; one of the same name is replaced. -/
def insertEntry (name : String) (v : α) : List (String × α) → List (String × α)
  | [] => [(name, v)]
  | e :: es =>
    if name < e.1 then (name, v) :: e :: es
    else if name = e.1 then (name, v) :: es
    else e :: insertEntry name v es

theorem mem_insertEntry {name : String} {v : α} {es : List (String × α)} {e : String × α}
    (h : e ∈ insertEntry name v es) : e = (name, v) ∨ e ∈ es := by
  induction es with
  | nil => simpa [insertEntry] using h
  | cons d es ih =>
    simp only [insertEntry] at h
    split at h
    · simpa using h
    · split at h <;> simp only [List.mem_cons] at h ⊢ <;> grind

theorem pairwise_insertEntry (name : String) (v : α) {es : List (String × α)}
    (h : es.Pairwise (fun a b => a.1 < b.1)) :
    (insertEntry name v es).Pairwise (fun a b => a.1 < b.1) := by
  induction es with
  | nil => simp [insertEntry]
  | cons d es ih =>
    obtain ⟨hd, hes⟩ := List.pairwise_cons.mp h
    simp only [insertEntry]
    split
    · next hlt =>
      refine List.pairwise_cons.mpr ⟨?_, h⟩
      intro e he
      rcases List.mem_cons.mp he with rfl | he
      · exact hlt
      · exact String.lt_trans hlt (hd e he)
    · split
      · next _ heq =>
        refine List.pairwise_cons.mpr ⟨?_, hes⟩
        intro e he
        exact heq ▸ hd e he
      · next hlt hne =>
        refine List.pairwise_cons.mpr ⟨?_, ih hes⟩
        intro e he
        rcases mem_insertEntry he with rfl | he
        · refine Decidable.byContradiction fun hge => ?_
          exact hne (String.le_antisymm (String.not_lt.mp hge) (String.not_lt.mp hlt))
        · exact hd e he

/-- The map in which `name` has the value `v`. -/
def insert (m : NameMap α) (name : String) (v : α) : NameMap α :=
  ⟨insertEntry name v m.entries, pairwise_insertEntry name v m.ascending⟩

def get? (m : NameMap α) (name : String) : Option α := m.entries.lookup name

def size (m : NameMap α) : Nat := m.entries.length

/-- The entries put in one after the other; of a repeated name the last one stays. -/
def ofList (es : List (String × α)) : NameMap α :=
  es.foldl (fun m e => m.insert e.1 e.2) empty

end NameMap

end JitFrames
