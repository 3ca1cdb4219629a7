import Mathlib.Data.List.Nodup
import Mathlib.Data.List.Perm.Subperm
import JitFrames.Proofs.Codec.Confined
import JitFrames.Proofs.Scope.Replay

namespace JitFrames

variable {r : AddressRange} {memory : Memory} {origin a : Address} {start q : Nat}

theorem Decoder.position_cut_le {α : Type} {e : Fault} (result : EStateM.Result Fault Nat α) :
    Decoder.position (Decoder.cut q e result) ≤ q := by
  by_cases h : Decoder.staysBefore q result = true
  · rw [Decoder.cut_of_staysBefore h]
    exact Decoder.position_le_of_staysBefore h
  · rw [Decoder.cut_of_passes h]
    exact Nat.le_refl q

namespace ScopeRecord

theorem read_congr {s s' : ByteStream} (h : s'.next = s.next) :
    ScopeRecord.read s' = ScopeRecord.read s := by
  unfold ScopeRecord.read
  rw [Compressed.readInt_congr h, readBci_congr h]

theorem read_confined (h : r.LeftAt origin start q a) :
    Decoder.Confined start q (.unmapped a 1) (ScopeRecord.read ⟨memory.within r, origin⟩)
      (ScopeRecord.read ⟨memory, origin⟩) := by
  apply (Compressed.readInt_confined h).bind
  intro sender
  apply (Compressed.readInt_confined h).bind
  intro methodIndex
  refine Decoder.Confined.bind ?_ fun bci => .pure (ScopeRecord.mk sender methodIndex bci)
  exact (Compressed.readInt_confined h).bind fun stored =>
    .pure (stored.toInt32 + Bci.invocationEntry)

theorem read_of_next_error {s : ByteStream} {p : Nat} {e : Fault} (h : s.next p = .error e p) :
    ScopeRecord.read s p = .error e p :=
  bind_of_error (Compressed.readInt_of_next_error h)

/-- Whether a record is read or not, all bytes up to where the read ends lie in the range. -/
theorem inside_of_lt_position {p j : Nat} (hp : p ≤ j)
    (hj : j < Decoder.position (ScopeRecord.read ⟨memory.within r, origin⟩ p)) :
    ∃ b, origin.add? j = some b ∧ r.contains b = true := by
  by_cases hnone : origin.add? p = none
  · have hnext : (ByteStream.mk (memory.within r) origin).next p =
        .error (.malformed .streamPosition origin) p := by
      simp only [ByteStream.next, hnone]
    rw [read_of_next_error hnext] at hj
    exact absurd hp (Nat.not_le.mpr hj)
  · obtain ⟨q, a, hleft⟩ := r.exists_leftAt hnone
    rw [(read_confined hleft).eq_cut p (Nat.le_refl p) hleft.le] at hj
    exact hleft.inside j hp (Nat.lt_of_lt_of_le hj (Decoder.position_cut_le _))

end ScopeRecord

namespace CompiledMethod

variable {m : CompiledMethod} {t : Target} {seen offsets : List UInt32} {first a : UInt32}
  {frames : List Frame}

/-- The offsets of the records that the replay has decoded in full at some time, the last one first,
for which there may be no frame. -/
inductive Decodes (m : CompiledMethod) (t : Target) (first : UInt32) : List UInt32 → Prop where
  | passed {seen : List UInt32} {a : UInt32} : Comes m t first seen a → Decodes m t first seen
  | here {seen : List UInt32} {a : UInt32} {record : ScopeRecord} : Comes m t first seen a →
      a ≠ 0 → a ∉ seen → m.scopeAt t a = .ok record → Decodes m t first (a :: seen)

/-- How the replay ends: at offset zero, with one frame for each record, or where it has to stop. -/
inductive EndsWith (m : CompiledMethod) (t : Target) (seen : List UInt32) (a : UInt32) :
    Answer (List Frame) → Prop where
  | done {frames : List Frame} : a = 0 → frames.length = seen.length →
      EndsWith m t seen a (.ok frames)
  | stopped {e : Fault} : a ≠ 0 → StopsWith m t seen a e → EndsWith m t seen a (.error e)

/-- A record may stand at the offset: not at zero, and at least three bytes before the end. -/
structure Admits (m : CompiledMethod) (offset : UInt32) : Prop where
  pos : 1 ≤ offset.toNat
  le : offset.toNat ≤ m.scopesRange.size - 3

theorem RecordAt.admits {record : ScopeRecord} (h : m.RecordAt t a record) (ha : a ≠ 0) :
    m.Admits a := by
  have hspan := h.span_le
  have hsize : m.scopesRange.size = m.blob.stop.toNat - m.scopesData.toNat := rfl
  have hpos : a.toNat ≠ 0 := fun hzero => ha (UInt32.toNat_inj.mp hzero)
  exact ⟨by omega, by omega⟩

theorem Comes.nodup (h : m.Comes t first seen a) : seen.Nodup := by
  induction h with
  | start => exact List.nodup_nil
  | onward _ _ hunseen _ ih => exact List.nodup_cons.mpr ⟨hunseen, ih⟩

theorem Comes.admits (h : m.Comes t first seen a) : ∀ b ∈ seen, m.Admits b := by
  induction h with
  | start => exact fun b hb => absurd hb List.not_mem_nil
  | onward _ hnonzero _ hscope ih =>
    exact List.forall_mem_cons.mpr
      ⟨(scopeFrame_eq_ok_iff.mp hscope).1.admits hnonzero, ih⟩

theorem Decodes.nodup (h : m.Decodes t first offsets) : offsets.Nodup := by
  cases h with
  | passed hcomes => exact hcomes.nodup
  | here hcomes _ hunseen _ => exact List.nodup_cons.mpr ⟨hunseen, hcomes.nodup⟩

theorem Decodes.admits (h : m.Decodes t first offsets) : ∀ b ∈ offsets, m.Admits b := by
  cases h with
  | passed hcomes => exact hcomes.admits
  | here hcomes hnonzero _ hrecord =>
    exact List.forall_mem_cons.mpr
      ⟨(scopeAt_eq_ok_iff.mp hrecord).admits hnonzero, hcomes.admits⟩

theorem length_le_of_admits (hnodup : offsets.Nodup) (h : ∀ b ∈ offsets, m.Admits b) :
    offsets.length ≤ m.scopesRange.size - 3 := by
  have hsubset : offsets.map UInt32.toNat ⊆ List.range' 1 (m.scopesRange.size - 3) := by
    intro n hn
    obtain ⟨b, hb, rfl⟩ := List.mem_map.mp hn
    obtain ⟨hpos, hle⟩ := h b hb
    exact List.mem_range'_1.mpr ⟨hpos, by omega⟩
  have hdistinct : (offsets.map UInt32.toNat).Nodup := hnodup.map fun _ _ => UInt32.toNat_inj.mp
  have hlength := (List.subperm_of_subset hdistinct hsubset).length_le
  rwa [List.length_map, List.length_range'] at hlength

theorem Comes.exists_done (h : m.Comes t first seen a) (hok : m.framesFrom t seen a = .ok frames) :
    ∃ seen', m.Comes t first seen' 0 ∧ seen'.length = seen.length + frames.length := by
  induction frames generalizing seen a with
  | nil =>
    obtain rfl := framesFrom_eq_nil_iff.mp hok
    exact ⟨seen, h, rfl⟩
  | cons frame frames ih =>
    obtain ⟨hnonzero, hunseen, record, hrecord, hframe, hrest⟩ := framesFrom_eq_cons_iff.mp hok
    have hscope := scopeFrame_eq_ok_iff.mpr ⟨hrecord, hframe⟩
    obtain ⟨seen', hcomes, hlength⟩ := ih (h.onward hnonzero hunseen hscope) hrest
    refine ⟨seen', hcomes, ?_⟩
    rw [hlength, List.length_cons, List.length_cons]
    omega

theorem exists_endsWith (m : CompiledMethod) (t : Target) (first : UInt32) :
    ∃ seen a, m.Comes t first seen a ∧ m.EndsWith t seen a (m.framesFrom t [] first) := by
  cases hresult : m.framesFrom t [] first with
  | ok frames =>
    obtain ⟨seen, hcomes, hlength⟩ := Comes.exists_done .start hresult
    rw [List.length_nil, Nat.zero_add] at hlength
    exact ⟨seen, 0, hcomes, .done rfl hlength.symm⟩
  | error e =>
    obtain ⟨seen, a, hcomes, hnonzero, hstops⟩ := framesFrom_eq_error_iff.mp hresult
    exact ⟨seen, a, hcomes, .stopped hnonzero hstops⟩

theorem scopeAt_congr {t' : Target}
    (h : ∀ b, m.scopesRange.contains b = true → t'.memory.readByte b = t.memory.readByte b)
    (offset : UInt32) : m.scopeAt t' offset = m.scopeAt t offset := by
  have hnext : (m.scopesStream t').next = (m.scopesStream t).next :=
    ByteStream.next_congr (Memory.readByte_within_congr h)
  unfold scopeAt
  rw [ScopeRecord.read_congr hnext]

/-- The replay of a chain always ends, whatever the scopes data hold. The offsets whose records it
decodes in full are distinct, not zero and at least three bytes before the end of the data, which
bounds their number, and the number of frames as well. Wherever it reads a record, all bytes that it
reads lie in the scopes data and no others have an influence on the record. -/
theorem replay_bounded (m : CompiledMethod) (t : Target) (desc : Descriptor) :
    (desc.scopeOffset.toInt < 0 →
      m.frames t desc = .error (.malformed .scopeDecodeOffset desc.address)) ∧
    (∀ first : UInt32, desc.scopeOffset.toInt = first.toNat →
      (∃ seen a, m.Comes t first seen a ∧ m.EndsWith t seen a (m.frames t desc)) ∧
      ∀ offsets, m.Decodes t first offsets → offsets.Nodup ∧
        (∀ b ∈ offsets, 1 ≤ b.toNat ∧ b.toNat ≤ m.scopesRange.size - 3) ∧
        offsets.length ≤ m.scopesRange.size - 3) ∧
    (∀ offset : UInt32,
      (∀ j, offset.toNat ≤ j →
        j < Decoder.position (ScopeRecord.read (m.scopesStream t) offset.toNat) →
        ∃ b, m.scopesData.add? j = some b ∧ m.scopesRange.contains b = true) ∧
      ∀ t' : Target, (∀ b, m.scopesRange.contains b = true →
        t'.memory.readByte b = t.memory.readByte b) → m.scopeAt t' offset = m.scopeAt t offset) ∧
    ∀ frames, m.frames t desc = .ok frames → frames.length ≤ m.scopesRange.size - 3 := by
  refine ⟨frames_of_negative, fun first hfirst => ⟨?_, fun offsets h => ?_⟩,
    fun offset => ⟨fun j hp hj => ScopeRecord.inside_of_lt_position hp hj,
      fun t' h => scopeAt_congr h offset⟩, fun frames hframes => ?_⟩
  · rw [frames_eq_framesFrom hfirst]
    exact exists_endsWith m t first
  · refine ⟨h.nodup, fun b hb => ?_, length_le_of_admits h.nodup h.admits⟩
    obtain ⟨hpos, hle⟩ := h.admits b hb
    exact ⟨hpos, hle⟩
  · obtain ⟨first, hfirst⟩ := exists_first_of_frames_eq_ok hframes
    rw [frames_eq_framesFrom hfirst] at hframes
    obtain ⟨seen, hcomes, hlength⟩ := Comes.exists_done .start hframes
    rw [List.length_nil, Nat.zero_add] at hlength
    rw [← hlength]
    exact length_le_of_admits hcomes.nodup hcomes.admits

/-- The scopes data end behind the first record, so there is room for one only. -/
def lone : CompiledMethod := { inlined with blob := ⟨0, 28, 0, "", by decide⟩ }

/-- A target with other bytes around those four. -/
def loneTarget : Target := ⟨.ofBytes (Array.replicate 24 0xFF ++ #[0, 0, 0, 8, 0xFF]), .dense⟩

theorem lone_recordAt : lone.RecordAt inlinedTarget 1 ⟨0, 0, 7⟩ :=
  ⟨2, 3, 4, 8, rfl, rfl, rfl, rfl, by decide⟩

theorem lone_frames :
    lone.frames inlinedTarget ⟨0, 0, 1⟩ = .ok [⟨none, 7, SourceLine.unknown⟩] := by
  rw [frames_eq_framesFrom (show (1 : Int32).toInt = (1 : UInt32).toNat from rfl),
    framesFrom_eq_cons_iff]
  exact ⟨by decide, List.not_mem_nil, _, lone_recordAt, ⟨rfl, rfl, rfl⟩,
    framesFrom_eq_nil_iff.mpr rfl⟩

theorem loneTarget_agrees (b : Address) (hb : lone.scopesRange.contains b = true) :
    loneTarget.memory.readByte b = inlinedTarget.memory.readByte b := by
  have hall : ∀ n < 28, 24 ≤ n → loneTarget.memory.readByte (UInt64.ofNat n) =
      inlinedTarget.memory.readByte (UInt64.ofNat n) := by decide +kernel
  obtain ⟨hstart, hstop⟩ := AddressRange.contains_iff.mp hb
  have hagree := hall b.toNat hstop hstart
  rwa [UInt64.ofNat_toNat] at hagree

/-- The bound is reached by the one record that has room; its last byte is the last one of the data,
and bytes around the data do not count. -/
theorem replay_bounded_lone :
    lone.scopesRange.size = 4 ∧
      (∃ seen a, lone.Comes inlinedTarget 1 seen a ∧
        lone.EndsWith inlinedTarget seen a (.ok [⟨none, 7, SourceLine.unknown⟩])) ∧
      lone.Decodes inlinedTarget 1 [1] ∧ [(1 : UInt32)].length ≤ lone.scopesRange.size - 3 ∧
      (∃ b, lone.scopesData.add? 3 = some b ∧ lone.scopesRange.contains b = true) ∧
      lone.scopeAt loneTarget 1 = lone.scopeAt inlinedTarget 1 ∧
      [Frame.mk none 7 SourceLine.unknown].length ≤ lone.scopesRange.size - 3 ∧
      lone.frames inlinedTarget ⟨0, 0, -4⟩ = .error (.malformed .scopeDecodeOffset 0) := by
  obtain ⟨-, hreplay, hbytes, hframes⟩ := replay_bounded lone inlinedTarget ⟨0, 0, 1⟩
  obtain ⟨hends, hoffsets⟩ := hreplay 1 rfl
  have hdecodes : lone.Decodes inlinedTarget 1 [1] :=
    .here .start (by decide) List.not_mem_nil (scopeAt_eq_ok_iff.mpr lone_recordAt)
  rw [lone_frames] at hends
  exact ⟨rfl, hends, hdecodes, (hoffsets _ hdecodes).2.2, (hbytes 1).1 3 (by decide) (by decide),
    (hbytes 1).2 _ loneTarget_agrees, hframes _ lone_frames,
    (replay_bounded lone inlinedTarget ⟨0, 0, -4⟩).1 (by decide)⟩

end CompiledMethod

end JitFrames
