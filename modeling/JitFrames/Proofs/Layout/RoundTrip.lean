import JitFrames.Layout.Table
import JitFrames.Json.Document
import JitFrames.Proofs.Text.Numeral

namespace JitFrames

namespace NameMap

variable {α : Type}

theorem insertEntry_last {name : String} {es : List (String × α)}
    (h : ∀ e ∈ es, e.1 < name) (v : α) : insertEntry name v es = es ++ [(name, v)] := by
  induction es with
  | nil => rfl
  | cons e es ih =>
    obtain ⟨he, hes⟩ := List.forall_mem_cons.mp h
    have hne : name ≠ e.1 := by
      rintro rfl
      exact String.lt_irrefl _ he
    rw [insertEntry, if_neg (String.lt_asymm he), if_neg hne, ih hes, List.cons_append]

theorem entries_foldl_insert (es : List (String × α)) (m : NameMap α)
    (h : (m.entries ++ es).Pairwise (fun a b => a.1 < b.1)) :
    (es.foldl (fun m e => m.insert e.1 e.2) m).entries = m.entries ++ es := by
  induction es generalizing m with
  | nil => simp
  | cons e es ih =>
    have hinsert : (m.insert e.1 e.2).entries = m.entries ++ [e] :=
      insertEntry_last (fun d hd => (List.pairwise_append.mp h).2.2 d hd e List.mem_cons_self) e.2
    have hrest : (m.insert e.1 e.2).entries ++ es = m.entries ++ e :: es := by
      rw [hinsert, List.append_assoc, List.singleton_append]
    rw [List.foldl_cons, ih _ (by rw [hrest]; exact h), hrest]

/-- A map is the map of its entries. -/
theorem ofList_entries (m : NameMap α) : ofList m.entries = m := by
  have h : (ofList m.entries).entries = m.entries :=
    entries_foldl_insert m.entries empty m.ascending
  obtain ⟨entries, ascending⟩ := m
  rw [mk.injEq]
  exact h

theorem nodup_names (m : NameMap α) : (m.entries.map Prod.fst).Nodup := by
  rw [List.Nodup, List.pairwise_map]
  apply m.ascending.imp
  intro a b hlt heq
  rw [heq] at hlt
  exact String.lt_irrefl _ hlt

end NameMap

namespace Json

/-- A printer and a reader of JSON texts. The printer may refuse a value. -/
structure Codec where
  write? : Value → Option String
  read? : Reader

/-- Strings, numbers of 64 bits, and objects of these that repeat no key and of which at most
`depth` stand inside each other. -/
inductive Value.Plain : Nat → Value → Prop where
  | number {depth : Nat} (n : UInt64) : Plain depth (.ofNat n.toNat)
  | string {depth : Nat} (s : String) : Plain depth (.ofString s)
  | object {depth : Nat} {members : List (String × Value)} : (members.map Prod.fst).Nodup →
      (∀ m ∈ members, Plain depth m.2) → Plain (depth + 1) (.ofMembers members)

/-- How many objects may stand inside each other in a text. -/
def maxDepth : Nat := 127

/-- Strings and numbers of 64 bits that are printed, alone or in objects, are read back as they
were. -/
def Codec.Faithful (codec : Codec) : Prop :=
  ∀ v text, v.Plain maxDepth → codec.write? v = some text → codec.read? text = some v

namespace Value

theorem mapM_map_some {α β γ : Type} {f : β → Option γ} {g : α → β} {k : α → γ}
    (h : ∀ a, f (g a) = some (k a)) (as : List α) : (as.map g).mapM f = some (as.map k) := by
  have hpure : f ∘ g = fun a => pure (k a) := funext h
  rw [List.mapM_map, hpure, List.mapM_pure]
  rfl

theorem members?_ofMembers (members : List (String × Value)) :
    (ofMembers members).members? = some members := by
  have h := mapM_map_some (f := fun m : Option String × Value => m.1.map (·, m.2))
    (g := fun m : String × Value => (some m.1, m.2)) (k := id) (fun _ => rfl) members
  rw [ofMembers, members?, h, List.map_id]

theorem record?_ofMembers (members : List (String × Value)) (fields : List String) :
    (ofMembers members).record? fields =
      fields.mapM fun field =>
        match members.filter (·.1 = field) with
        | [] => some none
        | [(_, v)] => some (some v)
        | _ => none := by
  have h := members?_ofMembers members
  rw [ofMembers] at h ⊢
  rw [record?, h]
  · rfl
  · exact fun _ h => Value.noConfusion h

theorem nat?_ofNat {n limit : Nat} (h : n < limit) : (ofNat n).nat? limit = some n := by
  rw [ofNat, nat?, Numeral.value?_toDigits, Option.filter_some_pos (by simpa using h)]

theorem word?_ofNat (n : UInt64) : (ofNat n.toNat).word? = some n := by
  rw [word?, nat?_ofNat n.toNat_lt, Option.map_some, UInt64.ofNat_toNat]

theorem plain_byte (depth : Nat) (n : UInt8) : (ofNat n.toNat).Plain depth := by
  have h : (ofNat n.toUInt64.toNat).Plain depth := .number n.toUInt64
  rwa [UInt8.toNat_toUInt64] at h

end Value

end Json

open Json (Value)

theorem Endian.ofJson?_ofString (e : Endian) : ofJson? (.ofString e.text) = some e := by
  cases e <;> rfl

namespace TargetInfo

theorem plain_toJson (depth : Nat) (t : TargetInfo) : t.toJson.Plain (depth + 1) := by
  apply Value.Plain.object
  · simp
  · intro m hm
    simp only [List.mem_cons, List.not_mem_nil, or_false] at hm
    obtain rfl | rfl := hm
    · exact Value.plain_byte depth t.pointerSize
    · exact .string t.endian.text

theorem ofJson?_toJson (t : TargetInfo) : ofJson? t.toJson = some t := by
  rw [ofJson?, toJson, Value.record?_ofMembers]
  simp [Value.nat?_ofNat t.pointerSize.toNat_lt, Endian.ofJson?_ofString]

end TargetInfo

namespace StructureLayout

theorem plain_fields (depth : Nat) (s : StructureLayout) :
    (Value.ofMembers s.fieldMembers).Plain (depth + 1) := by
  apply Value.Plain.object
  · rw [fieldMembers, List.map_map]
    exact s.fields.nodup_names
  · intro m hm
    obtain ⟨f, -, rfl⟩ := List.mem_map.mp hm
    exact .number f.2

theorem plain_toJson (depth : Nat) (s : StructureLayout) : s.toJson.Plain (depth + 2) := by
  apply Value.Plain.object
  · cases hsize : s.size? <;> simp [sizeMember, hsize]
  · intro m hm
    obtain hm | hm := List.mem_append.mp hm
    · obtain ⟨n, -, rfl⟩ := List.mem_map.mp hm
      exact .number n
    · rw [List.mem_singleton.mp hm]
      exact s.plain_fields depth

theorem mapM_fieldMembers (s : StructureLayout) :
    s.fieldMembers.mapM (fun f => f.2.word?.map (f.1, ·)) = some s.fields.entries := by
  rw [fieldMembers, Value.mapM_map_some (k := id) (fun f => by simp [Value.word?_ofNat]),
    List.map_id]

theorem ofJson?_toJson (s : StructureLayout) : ofJson? s.toJson = some s := by
  have hfields := s.mapM_fieldMembers
  rw [ofJson?, toJson, Value.record?_ofMembers]
  obtain ⟨size?, fields⟩ := s
  cases size? with
  | none => simp [sizeMember, Value.members?_ofMembers, hfields, NameMap.ofList_entries]
  | some n =>
    -- the reader tells a number from null by its constructor
    have hsize : (Value.number (Nat.toDigits 10 n.toNat)).word? = some n := Value.word?_ofNat n
    simp [sizeMember, Value.members?_ofMembers, hfields, NameMap.ofList_entries, Value.ofNat, hsize]

end StructureLayout

namespace LayoutTable

theorem plain_structures (depth : Nat) (t : LayoutTable) :
    (Value.ofMembers t.structureMembers).Plain (depth + 3) := by
  apply Value.Plain.object
  · rw [structureMembers, List.map_map]
    exact t.structures.nodup_names
  · intro m hm
    obtain ⟨s, -, rfl⟩ := List.mem_map.mp hm
    exact s.2.plain_toJson depth

theorem plain_toJson (depth : Nat) (t : LayoutTable) : t.toJson.Plain (depth + 4) := by
  apply Value.Plain.object
  · simp
  · intro m hm
    simp only [List.mem_cons, List.not_mem_nil, or_false] at hm
    obtain rfl | rfl := hm
    · exact t.target.plain_toJson (depth + 2)
    · exact t.plain_structures depth

theorem mapM_structureMembers (t : LayoutTable) :
    t.structureMembers.mapM (fun s => (StructureLayout.ofJson? s.2).map (s.1, ·)) =
      some t.structures.entries := by
  rw [structureMembers,
    Value.mapM_map_some (k := id) (fun s => by simp [StructureLayout.ofJson?_toJson]),
    List.map_id]

theorem ofJson?_toJson (t : LayoutTable) : ofJson? t.toJson = some t := by
  have hstructures := t.mapM_structureMembers
  rw [ofJson?, toJson, Value.record?_ofMembers]
  simp [TargetInfo.ofJson?_toJson, Value.members?_ofMembers, hstructures, NameMap.ofList_entries]

/-- A layout table comes back from the JSON text that it is printed as, whatever JSON codec prints
and reads it, as long as the codec is faithful to strings and numbers. -/
theorem parse?_written (codec : Json.Codec) (hfaithful : codec.Faithful) (t : LayoutTable)
    (text : String) (hwritten : codec.write? t.toJson = some text) :
    parse? codec.read? text = some t := by
  have hplain : t.toJson.Plain Json.maxDepth := t.plain_toJson 123
  have hread : codec.read? text = some t.toJson := hfaithful _ _ hplain hwritten
  rw [parse?, hread, Option.bind_some, ofJson?_toJson]

/-- A table with a name that is not printed as it is: it has a quote, a backslash and a control
character. One structure has no size; the numbers are the greatest that there can be. -/
def quotedTable : LayoutTable where
  target := ⟨255, .big⟩
  structures := {
    entries := [
      ("\"\\\x01", ⟨none, ⟨[("é", 0xFFFFFFFFFFFFFFFF)], by decide +kernel⟩⟩),
      ("A", ⟨some 0xFFFFFFFFFFFFFFFF, ⟨[], .nil⟩⟩)]
    ascending := by decide +kernel }

def quotedText : String :=
  "\x7b\"target\":\x7b\"pointer_size\":255,\"endian\":\"big\"\x7d,\"structures\":\x7b" ++
    "\"\\\"\\\\\\u0001\":\x7b\"fields\":\x7b\"é\":18446744073709551615\x7d\x7d," ++
    "\"A\":\x7b\"size\":18446744073709551615,\"fields\":\x7b\x7d\x7d\x7d\x7d"

open Json.Token in
def quotedTokens : List Json.Token :=
  let name (s : String) : Json.Token := .string (s.toList.map .char)
  let digits (n : Nat) : Json.Token := .number (Nat.toDigits 10 n)
  [openObject, name "target", colon,
    openObject, name "pointer_size", colon, digits 255, comma,
      name "endian", colon, name "big", closeObject, comma,
    name "structures", colon, openObject,
      string [.char '"', .char '\\', .unit 1], colon,
        openObject, name "fields", colon,
          openObject, name "é", colon, digits 0xFFFFFFFFFFFFFFFF, closeObject, closeObject, comma,
      name "A", colon,
        openObject, name "size", colon, digits 0xFFFFFFFFFFFFFFFF, comma,
          name "fields", colon, openObject, closeObject, closeObject, closeObject, closeObject]

theorem document?_quotedText : Json.document? quotedText = some quotedTable.toJson := by
  have hscan : Json.Token.scan? quotedText.toList = some quotedTokens := by decide +kernel
  rw [Json.document?, hscan]
  rfl

open Classical in
/-- Prints nothing but the table. -/
noncomputable def quotedCodec : Json.Codec where
  write? v := if v = quotedTable.toJson then some quotedText else none
  read? := Json.document?

theorem quotedCodec_faithful : quotedCodec.Faithful := by
  intro v text _ hwritten
  obtain ⟨rfl, htext⟩ := Option.ite_none_right_eq_some.mp hwritten
  rw [← Option.some.inj htext]
  exact document?_quotedText

/-- The table is printed with escapes and read back. -/
theorem parse?_written_quoted :
    quotedCodec.Faithful ∧ quotedCodec.write? quotedTable.toJson = some quotedText ∧
      parse? Json.document? quotedText = some quotedTable := by
  have hwritten : quotedCodec.write? quotedTable.toJson = some quotedText := if_pos rfl
  exact ⟨quotedCodec_faithful, hwritten,
    parse?_written quotedCodec quotedCodec_faithful quotedTable quotedText hwritten⟩

end LayoutTable

end JitFrames
