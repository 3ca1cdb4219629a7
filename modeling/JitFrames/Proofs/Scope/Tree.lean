import Mathlib.Data.List.Forall2
import JitFrames.Proofs.Codec.RoundTrip
import JitFrames.Proofs.Scope.Chain

namespace JitFrames

open Compressed (encodeAll)

namespace ScopeRecord

/-- The numbers that a record is written as; the bytecode index is moved up by one. -/
def items (r : ScopeRecord) : List Compressed.Item :=
  [.int r.sender, .int r.methodIndex, .int (UInt32.ofNat (r.bci.toInt + 1).toNat)]

/-- The bytes of records written one after the other. -/
def bytes (records : List ScopeRecord) : List UInt8 := encodeAll (records.flatMap items)

/-- Where a record begins in a stream that has one byte in front of the records. -/
def position (records : List ScopeRecord) (k : Nat) : Nat := 1 + (bytes (records.take k)).length

/-- The records on the way from one of them to an outermost one: the sender of each is where the
next one begins. -/
inductive SenderPath (records : List ScopeRecord) : Nat → List ScopeRecord → Prop where
  | outermost {k : Nat} {r : ScopeRecord} (here : records[k]? = some r) (root : r.sender = 0) :
    SenderPath records k [r]
  | inlined {k j : Nat} {r : ScopeRecord} {path : List ScopeRecord} (here : records[k]? = some r)
    (sender : r.sender.toNat = position records j) (rest : SenderPath records j path) :
    SenderPath records k (r :: path)

/-- Each record is an outermost one or names the place of an earlier one, and no bytecode index
lies before the entry of its method. -/
structure IsTree (records : List ScopeRecord) : Prop where
  linked : ∀ k (h : k < records.length), records[k].sender = 0 ∨
    ∃ j < k, records[k].sender.toNat = position records j
  entered : ∀ r ∈ records, -1 ≤ r.bci.toInt

variable {records : List ScopeRecord} {r : ScopeRecord} {j k : Nat}

theorem bytes_append (xs ys : List ScopeRecord) : bytes (xs ++ ys) = bytes xs ++ bytes ys := by
  simp [bytes, encodeAll]

theorem bytes_cons (r : ScopeRecord) (records : List ScopeRecord) :
    bytes (r :: records) = encodeAll r.items ++ bytes records := by
  simp [bytes, encodeAll]

theorem encodeAll_items (r : ScopeRecord) :
    encodeAll r.items = Compressed.encode r.sender ++ (Compressed.encode r.methodIndex ++
      Compressed.encode (UInt32.ofNat (r.bci.toInt + 1).toNat)) := by
  simp [encodeAll, items, Compressed.Item.encode]

theorem position_succ (h : k < records.length) :
    position records (k + 1) = position records k + (encodeAll records[k].items).length := by
  unfold position
  rw [List.take_succ_eq_append_getElem h, bytes_append, List.length_append, bytes_cons]
  simp only [bytes, encodeAll, List.flatMap_nil, List.append_nil]
  omega

theorem items_length_pos (r : ScopeRecord) : 0 < (encodeAll r.items).length := by
  have hsender := (Compressed.digits_length Compressed.maxFollow r.sender.toNat).1
  rw [encodeAll_items, List.length_append]
  unfold Compressed.encode
  omega

/-- A later record begins later, so no two records begin at one place. -/
theorem position_lt (hjk : j < k) (hk : k ≤ records.length) :
    position records j < position records k := by
  induction k with
  | zero => omega
  | succ k ih =>
    have hstep : position records (k + 1) = _ := position_succ hk
    have hpos := items_length_pos records[k]
    obtain hjk | rfl := Nat.lt_succ_iff_lt_or_eq.mp hjk
    · have hlt := ih hjk (by omega)
      omega
    · omega

theorem bytes_split (h : k < records.length) :
    bytes records = bytes (records.take k) ++ (encodeAll records[k].items ++
      bytes (records.drop (k + 1))) := by
  rw [← bytes_cons, ← bytes_append, ← List.drop_eq_getElem_cons h, List.take_append_drop]

/-- The number that stands for a bytecode index gives it back, the greatest one by wrapping. -/
theorem toInt32_stored {bci : Bci} (h : -1 ≤ bci.toInt) :
    (UInt32.ofNat (bci.toInt + 1).toNat).toInt32 - 1 = bci := by
  have hstored : (UInt32.ofNat (bci.toInt + 1).toNat).toInt32 = Int32.ofInt (bci.toInt + 1) := by
    show Int32.ofNat _ = _
    rw [← Int32.ofInt_eq_ofNat, Int.toNat_of_nonneg (by omega)]
  rw [hstored, Int32.ofInt_add, Int32.ofInt_toInt]
  exact Int32.add_sub_cancel bci 1

/-- Senders lead to earlier records, so the way outwards ends. -/
theorem IsTree.exists_senderPath (h : IsTree records) (hk : k < records.length) :
    ∃ path, SenderPath records k path := by
  induction k using Nat.strongRecOn with
  | ind k ih =>
    have here : records[k]? = some records[k] := List.getElem?_eq_getElem hk
    obtain hroot | ⟨j, hj, hsender⟩ := h.linked k hk
    · exact ⟨_, .outermost here hroot⟩
    · obtain ⟨path, hpath⟩ := ih j hj (by omega)
      exact ⟨_, .inlined here hsender hpath⟩

theorem position_pos (records : List ScopeRecord) (k : Nat) : 0 < position records k := by
  unfold position
  omega

/-- A sender that is not zero is the place of an earlier record. -/
theorem IsTree.position_lt (h : IsTree records) (hk : k < records.length)
    (hsender : records[k].sender.toNat = position records j) :
    position records j < position records k := by
  obtain hroot | ⟨i, hi, hsender'⟩ := h.linked k hk
  · have hpos := position_pos records j
    rw [← hsender, hroot] at hpos
    exact absurd hpos (Nat.lt_irrefl 0)
  · rw [← hsender, hsender']
    exact ScopeRecord.position_lt hi (Nat.le_of_lt hk)

end ScopeRecord

namespace CompiledMethod

open ScopeRecord (IsTree SenderPath position)

variable {m : CompiledMethod} {t : Target} {pad : UInt8} {records : List ScopeRecord}
  {r : ScopeRecord} {first : UInt32} {k : Nat}

/-- What a one-based index into the reference table names: nothing if it is zero or if its slot
holds null. -/
inductive Names (m : CompiledMethod) (t : Target) : UInt32 → Option Address → Prop where
  | zero : Names m t 0 none
  | slot {index : UInt32} (slot reference : Address) (nonzero : index ≠ 0)
    (place : m.oops.toNat + (index.toNat - 1) * t.pointerBytes = slot.toNat)
    (holds : t.readPointer slot = .ok reference) : Names m t index reference.nonNull?

theorem Names.oopAt {index : UInt32} {method : Option Address} (h : m.Names t index method) :
    m.oopAt t index = .ok method := by
  cases h with
  | zero => rfl
  | slot slot reference nonzero place holds =>
    unfold CompiledMethod.oopAt
    rw [if_neg nonzero, Address.add?_eq_some_iff.mpr place]
    exact Answer.bind_eq_ok.mpr ⟨reference, holds, rfl⟩

/-- The index of a record names nothing, or a method with a line at the record's bytecode index. -/
def Resolves (m : CompiledMethod) (t : Target) (r : ScopeRecord) : Prop :=
  ∃ method, m.Names t r.methodIndex method ∧ ∀ a, method = some a →
    ∃ callee line, Method.read t a = .ok callee ∧ callee.lineAt t r.bci = .ok line

/-- The records stand in the scopes data behind one byte, all of them inside the blob, and what
they name is there. -/
structure Stores (m : CompiledMethod) (t : Target) (pad : UInt8) (records : List ScopeRecord) :
    Prop where
  bytes : (m.scopes t).Holds 0 (pad :: ScopeRecord.bytes records)
  inside : m.scopesData.toNat + (pad :: ScopeRecord.bytes records).length ≤ m.blob.stop.toNat
  resolved : ∀ r ∈ records, m.Resolves t r

theorem Resolves.exists_frame (h : m.Resolves t r) :
    ∃ frame, m.FrameOf t r frame ∧ m.Names t r.methodIndex frame.method := by
  obtain ⟨method, hnames, hline⟩ := h
  cases method with
  | none => exact ⟨⟨none, r.bci, SourceLine.unknown⟩, ⟨hnames.oopAt, rfl, rfl⟩, hnames⟩
  | some a =>
    obtain ⟨callee, line, hread, hat⟩ := hline a rfl
    exact ⟨⟨some a, r.bci, line⟩, ⟨hnames.oopAt, rfl, callee, hread, hat⟩, hnames⟩

/-- A record is found where it was written. -/
theorem Stores.recordAt (h : m.Stores t pad records) (htree : IsTree records)
    (hk : k < records.length) (hfirst : first.toNat = position records k) :
    m.RecordAt t first records[k] := by
  have hbytes := (ByteStream.holds_cons.mp h.bytes).2
  rw [ScopeRecord.bytes_split hk] at hbytes
  have hrecord := (ByteStream.holds_append.mp (ByteStream.holds_append.mp hbytes).2).1
  have hplace : 0 + 1 + (ScopeRecord.bytes (records.take k)).length = first.toNat := by
    rw [hfirst]
    unfold position
    omega
  rw [hplace, ScopeRecord.encodeAll_items] at hrecord
  obtain ⟨hsender, hrest⟩ := ByteStream.holds_append.mp hrecord
  obtain ⟨hmethod, hstored⟩ := ByteStream.holds_append.mp hrest
  refine ⟨_, _, _, _, Compressed.readInt_encode hsender, Compressed.readInt_encode hmethod,
    Compressed.readInt_encode hstored, ?_, ?_⟩
  · exact (ScopeRecord.toInt32_stored (htree.entered _ (List.getElem_mem hk))).symm
  · have hinside := h.inside
    rw [ScopeRecord.bytes_split hk, ScopeRecord.encodeAll_items] at hinside
    simp only [List.length_cons, List.length_append] at hinside
    omega

/-- The walk takes up the frame of the record here and goes on at its sender. The records seen so
far were written behind this one, so it is none of them. -/
theorem Stores.framesFrom_step (h : m.Stores t pad records) (htree : IsTree records)
    (hk : k < records.length) (hfirst : first.toNat = position records k) {seen : List UInt32}
    (hseen : ∀ offset ∈ seen, position records k < offset.toNat) :
    ∃ frame, (m.FrameOf t records[k] frame ∧ m.Names t records[k].methodIndex frame.method) ∧
      m.framesFrom t seen first = (do
        return frame :: (← m.framesFrom t (first :: seen) records[k].sender)) := by
  have hnonzero : first ≠ 0 := by
    intro heq
    have hpos := ScopeRecord.position_pos records k
    rw [← hfirst, heq] at hpos
    exact absurd hpos (Nat.lt_irrefl 0)
  have hunseen : first ∉ seen := by
    intro hmem
    have hlt := hseen first hmem
    omega
  obtain ⟨frame, hframe⟩ := (h.resolved _ (List.getElem_mem hk)).exists_frame
  have hrecord := h.recordAt htree hk hfirst
  exact ⟨frame, hframe, CompiledMethod.framesFrom_step hnonzero hunseen hrecord hframe.1⟩

theorem Stores.framesFrom_eq (h : m.Stores t pad records) (htree : IsTree records)
    {path : List ScopeRecord} (hpath : SenderPath records k path) {seen : List UInt32}
    (hfirst : first.toNat = position records k)
    (hseen : ∀ offset ∈ seen, position records k < offset.toNat) :
    ∃ frames, m.framesFrom t seen first = .ok frames ∧
      List.Forall₂ (fun r frame => m.FrameOf t r frame ∧ m.Names t r.methodIndex frame.method)
        path frames := by
  induction hpath generalizing first seen with
  | outermost here hroot =>
    obtain ⟨hk, rfl⟩ := List.getElem?_eq_some_iff.mp here
    obtain ⟨frame, hframe, hstep⟩ := h.framesFrom_step htree hk hfirst hseen
    refine ⟨[frame], ?_, .cons hframe .nil⟩
    rw [hstep, hroot, framesFrom_eq_nil_iff.mpr rfl]
    rfl
  | @inlined k j r path here hsender rest ih =>
    obtain ⟨hk, rfl⟩ := List.getElem?_eq_some_iff.mp here
    obtain ⟨frame, hframe, hstep⟩ := h.framesFrom_step htree hk hfirst hseen
    have hlt := htree.position_lt hk hsender
    have hseen' : ∀ offset ∈ first :: seen, position records j < offset.toNat := by
      intro offset hmem
      obtain rfl | hmem := List.mem_cons.mp hmem
      · omega
      · have hlt' := hseen offset hmem
        omega
    obtain ⟨frames, hframes, hall⟩ := ih hsender hseen'
    refine ⟨frame :: frames, ?_, .cons hframe hall⟩
    rw [hstep, hframes]
    rfl

/-- From each record of a tree there is a way to an outermost one, and a descriptor that points at
the record has exactly the frames of the records on that way, innermost first: the method that
each of them names, its bytecode index, and the line there. -/
theorem frames_eq_senderPath (m : CompiledMethod) (t : Target) (pad : UInt8)
    (records : List ScopeRecord) (htree : IsTree records) (hstores : m.Stores t pad records)
    (k : Nat) (hk : k < records.length) :
    (∃ path, SenderPath records k path) ∧
    ∀ (path : List ScopeRecord) (desc : Descriptor), SenderPath records k path →
      desc.scopeOffset.toInt = position records k →
      ∃ frames, m.frames t desc = .ok frames ∧
        List.Forall₂ (fun r frame => m.FrameOf t r frame ∧ m.Names t r.methodIndex frame.method)
          path frames := by
  refine ⟨htree.exists_senderPath hk, fun path desc hpath hdesc => ?_⟩
  have hfits := desc.scopeOffset.toInt_lt
  have hfirst : (UInt32.ofNat (position records k)).toNat = position records k := by
    rw [UInt32.toNat_ofNat', Nat.mod_eq_of_lt (by omega)]
  have hoffset : desc.scopeOffset.toInt = (UInt32.ofNat (position records k)).toNat := by
    rw [hfirst, hdesc]
  rw [frames_eq_framesFrom hoffset]
  exact hstores.framesFrom_eq htree hpath hfirst fun _ hmem => absurd hmem List.not_mem_nil

/-- An outermost record without a method, whose bytecode index takes two bytes, and two records
that are inlined into it: one of the method in the first slot, and one of the empty second slot
with the greatest bytecode index there is. -/
def branches : List ScopeRecord := [⟨0, 0, 200⟩, ⟨1, 1, 3⟩, ⟨1, 2, Int32.maxValue⟩]

/-- A method without bytecodes at the start of the address space, its line table with the single
pair of index 3 and line 5, and a reference table with this method and an empty slot. -/
def branchingMemory : List UInt8 :=
  [0, 0, 0, 0, 0, 0, 1, 0, 0, 0, 0, 0, 29, 0, 0, 0,
    0, 0, 0, 0, 16, 0, 0, 0, 0, 0, 0, 0]

def branchingTarget : Target :=
  ⟨.ofBytes (branchingMemory ++ (7 :: ScopeRecord.bytes branches) ++ [0xFF]).toArray, .dense⟩

def branching : CompiledMethod where
  blob := ⟨0, 43, 0, "", by decide⟩
  method := 16
  descriptorsBegin := 28
  descriptorsEnd := 28
  scopesData := 28
  oops := 20
  descriptorCache := 28

theorem branches_isTree : IsTree branches where
  linked k hk := by
    match k with
    | 0 => exact .inl rfl
    | 1 => exact .inr ⟨0, by decide, rfl⟩
    | 2 => exact .inr ⟨0, by decide, rfl⟩
  entered := by decide

theorem branching_stores : branching.Stores branchingTarget 7 branches where
  bytes := by
    refine (ByteStream.holds_rebase (p := 0)).mp ?_
    exact ByteStream.ofBytes_holds branchingMemory (7 :: ScopeRecord.bytes branches) [0xFF]
      (by decide)
  inside := by decide
  resolved r hr := by
    simp only [branches, List.mem_cons, List.not_mem_nil, or_false] at hr
    obtain rfl | rfl | rfl := hr
    · exact ⟨none, .zero, by simp⟩
    · refine ⟨some 16, .slot 20 16 (by decide) (by decide) (by cbv), ?_⟩
      intro a ha
      cases ha
      exact ⟨_, 5, rfl, by cbv⟩
    · exact ⟨none, .slot 24 0 (by decide) (by decide) (by cbv), by simp⟩

/-- The frames at the third record are its own and those of the outermost one. -/
theorem frames_eq_senderPath_branches :
    IsTree branches ∧ branching.Stores branchingTarget 7 branches ∧
    ∃ frames, branching.frames branchingTarget ⟨0, 0, 8⟩ = .ok frames ∧
      List.Forall₂ (fun r frame => branching.FrameOf branchingTarget r frame ∧
          branching.Names branchingTarget r.methodIndex frame.method)
        [⟨1, 2, Int32.maxValue⟩, ⟨0, 0, 200⟩] frames := by
  refine ⟨branches_isTree, branching_stores, ?_⟩
  have h := frames_eq_senderPath branching branchingTarget 7 branches branches_isTree
    branching_stores 2 (by decide)
  exact h.2 _ ⟨0, 0, 8⟩ (.inlined rfl (j := 0) (by decide) (.outermost rfl rfl)) (by decide)

end CompiledMethod

end JitFrames
