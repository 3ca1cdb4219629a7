import JitFrames.Proofs.DenseLayout
import JitFrames.Proofs.Scope.Record

namespace JitFrames.CompiledMethod

variable {m : CompiledMethod} {t : Target} {seen : List UInt32} {first a : UInt32} {k : Nat}
  {frame : Frame} {frames : List Frame}

/-- The offset that the record at an offset leads to: its first number. -/
def sender? (m : CompiledMethod) (t : Target) (offset : UInt32) : Option UInt32 :=
  match Compressed.readInt (m.scopes t) offset.toNat with
  | .ok sender _ => some sender
  | .error _ _ => none

/-- Where the chain from an offset is after `k` steps outwards. -/
def chainAt? (m : CompiledMethod) (t : Target) (first : UInt32) : Nat → Option UInt32
  | 0 => some first
  | k + 1 => (chainAt? m t first k).bind (m.sender? t)

theorem RecordAt.sender? {record : ScopeRecord} (h : m.RecordAt t first record) :
    m.sender? t first = some record.sender := by
  obtain ⟨q, q', stop, stored, hsender, -⟩ := h
  simp only [CompiledMethod.sender?]
  rw [hsender]

theorem chainAt?_succ {second : UInt32} (h : m.sender? t first = some second) :
    m.chainAt? t first (k + 1) = m.chainAt? t second k := by
  induction k with
  | zero => exact h
  | succ k ih =>
    show (m.chainAt? t first (k + 1)).bind (m.sender? t) = m.chainAt? t second (k + 1)
    rw [ih]
    rfl

/-- After `k` steps the chain is at a record, neither a seen one nor one that it has come to
before. -/
structure Visits (m : CompiledMethod) (t : Target) (seen : List UInt32) (first : UInt32)
    (k : Nat) (a : UInt32) : Prop where
  here : m.chainAt? t first k = some a
  nonzero : a ≠ 0
  unseen : a ∉ seen
  fresh : ∀ j < k, m.chainAt? t first j ≠ some a

theorem visits_zero_iff : m.Visits t seen first 0 a ↔ a = first ∧ first ≠ 0 ∧ first ∉ seen := by
  constructor
  · intro hh
    obtain ⟨hhere, hnonzero, hunseen, -⟩ := hh
    cases hhere
    exact ⟨rfl, hnonzero, hunseen⟩
  · intro hh
    obtain ⟨rfl, hnonzero, hunseen⟩ := hh
    exact ⟨rfl, hnonzero, hunseen, fun j hj => absurd hj (Nat.not_lt_zero j)⟩

/-- The first record is one more seen record for the chain behind it. -/
theorem visits_succ_iff {second : UInt32} (h : m.sender? t first = some second) :
    m.Visits t seen first (k + 1) a ↔ m.Visits t (first :: seen) second k a := by
  constructor
  · intro hh
    obtain ⟨hhere, hnonzero, hunseen, hfresh⟩ := hh
    have hfirst : a ≠ first := by
      intro heq
      subst heq
      exact hfresh 0 (Nat.succ_pos k) rfl
    refine ⟨chainAt?_succ h ▸ hhere, hnonzero, by simp [hfirst, hunseen], fun j hj => ?_⟩
    rw [← chainAt?_succ h]
    exact hfresh (j + 1) (Nat.succ_lt_succ hj)
  · intro hh
    obtain ⟨hhere, hnonzero, hunseen, hfresh⟩ := hh
    simp only [List.mem_cons, not_or] at hunseen
    refine ⟨chainAt?_succ h ▸ hhere, hnonzero, hunseen.2, fun j hj => ?_⟩
    cases j with
    | zero =>
      intro heq
      cases heq
      exact hunseen.1 rfl
    | succ j =>
      rw [chainAt?_succ h]
      exact hfresh j (Nat.lt_of_succ_lt_succ hj)

/-- The chain ends behind the records of the frames, and comes to each of them once. -/
structure Replays (m : CompiledMethod) (t : Target) (seen : List UInt32) (first : UInt32)
    (frames : List Frame) : Prop where
  ends : m.chainAt? t first frames.length = some 0
  each : ∀ k (h : k < frames.length), ∃ a, m.Visits t seen first k a ∧ m.Describes t a frames[k]

theorem replays_nil_iff : m.Replays t seen first [] ↔ first = 0 := by
  constructor
  · intro hh
    obtain ⟨hends, -⟩ := hh
    exact Option.some.inj hends
  · intro heq
    subst heq
    exact ⟨rfl, fun k hk => absurd hk (Nat.not_lt_zero k)⟩

theorem replays_cons_iff :
    m.Replays t seen first (frame :: frames) ↔
      first ≠ 0 ∧ first ∉ seen ∧ ∃ record, m.RecordAt t first record ∧ m.FrameOf t record frame ∧
        m.Replays t (first :: seen) record.sender frames := by
  constructor
  · intro hh
    obtain ⟨hends, heach⟩ := hh
    obtain ⟨a, hvisit, record, hrecord, hframe⟩ := heach 0 (Nat.succ_pos _)
    obtain ⟨rfl, hnonzero, hunseen⟩ := visits_zero_iff.mp hvisit
    have hsender := hrecord.sender?
    refine ⟨hnonzero, hunseen, record, hrecord, hframe, chainAt?_succ hsender ▸ hends, ?_⟩
    intro k hk
    obtain ⟨b, hvisit, hdescribes⟩ := heach (k + 1) (Nat.succ_lt_succ hk)
    exact ⟨b, (visits_succ_iff hsender).mp hvisit, hdescribes⟩
  · intro hh
    obtain ⟨hnonzero, hunseen, record, hrecord, hframe, hends, heach⟩ := hh
    have hsender := hrecord.sender?
    refine ⟨(chainAt?_succ hsender).trans hends, fun k hk => ?_⟩
    cases k with
    | zero =>
      exact ⟨first, visits_zero_iff.mpr ⟨rfl, hnonzero, hunseen⟩, record, hrecord, hframe⟩
    | succ k =>
      obtain ⟨b, hvisit, hdescribes⟩ := heach k (Nat.lt_of_succ_lt_succ hk)
      exact ⟨b, (visits_succ_iff hsender).mpr hvisit, hdescribes⟩

/-- One step of the replay: the frame of the record here, if the walk has not been here. -/
theorem framesFrom_step {record : ScopeRecord} (hnonzero : first ≠ 0) (hunseen : first ∉ seen)
    (hrecord : m.RecordAt t first record) (hframe : m.FrameOf t record frame) :
    m.framesFrom t seen first = (do
      return frame :: (← m.framesFrom t (first :: seen) record.sender)) := by
  rw [framesFrom, if_neg hnonzero, dif_neg hunseen, scopeFrame_eq_ok_iff.mpr ⟨hrecord, hframe⟩]

theorem framesFrom_eq_nil_iff : m.framesFrom t seen first = .ok [] ↔ first = 0 := by
  constructor
  · intro h
    rw [framesFrom] at h
    split at h
    · assumption
    · split at h
      · cases h
      · split at h
        · cases h
        · obtain ⟨rest, -, h⟩ := Answer.bind_eq_ok.mp h
          cases Answer.pure_eq_ok.mp h
  · intro heq
    subst heq
    rw [framesFrom, if_pos rfl]

theorem framesFrom_eq_cons_iff :
    m.framesFrom t seen first = .ok (frame :: frames) ↔
      first ≠ 0 ∧ first ∉ seen ∧ ∃ record, m.RecordAt t first record ∧ m.FrameOf t record frame ∧
        m.framesFrom t (first :: seen) record.sender = .ok frames := by
  constructor
  · intro h
    rw [framesFrom] at h
    split at h
    · cases h
    · next hnonzero =>
      split at h
      · cases h
      · next hunseen =>
        split at h
        · cases h
        · next record f hscope =>
          obtain ⟨rest, hrest, h⟩ := Answer.bind_eq_ok.mp h
          cases Answer.pure_eq_ok.mp h
          obtain ⟨hrecord, hframe⟩ := scopeFrame_eq_ok_iff.mp hscope
          exact ⟨hnonzero, hunseen, record, hrecord, hframe, hrest⟩
  · intro hh
    obtain ⟨hnonzero, hunseen, record, hrecord, hframe, hrest⟩ := hh
    rw [framesFrom_step hnonzero hunseen hrecord hframe, hrest]
    rfl

/-- The replay answers with frames exactly if the chain is made of their records. -/
theorem framesFrom_eq_ok_iff :
    m.framesFrom t seen first = .ok frames ↔ m.Replays t seen first frames := by
  induction frames generalizing seen first with
  | nil => rw [framesFrom_eq_nil_iff, replays_nil_iff]
  | cons frame frames ih =>
    rw [framesFrom_eq_cons_iff, replays_cons_iff]
    simp only [ih]

/-- The first offset that the walk comes to twice is the one that it complains about. -/
theorem framesFrom_revisit (hhere : m.chainAt? t first k = some a) (hnonzero : a ≠ 0)
    (hback : a ∈ seen ∨ ∃ j < k, m.chainAt? t first j = some a)
    (heach : ∀ j < k, ∃ b frame, m.Visits t seen first j b ∧ m.Describes t b frame) :
    m.framesFrom t seen first = .error (.malformed .scopeChain (m.scopesData + a.toUInt64)) := by
  induction k generalizing seen first with
  | zero =>
    cases hhere
    have hseen : a ∈ seen := by
      obtain hseen | ⟨j, hj, -⟩ := hback
      · exact hseen
      · exact absurd hj (Nat.not_lt_zero j)
    rw [framesFrom, if_neg hnonzero, dif_pos hseen]
  | succ k ih =>
    obtain ⟨b, frame, hvisit, record, hrecord, hframe⟩ := heach 0 (Nat.succ_pos k)
    obtain ⟨rfl, hfirst, hunseen⟩ := visits_zero_iff.mp hvisit
    have hsender := hrecord.sender?
    have hback' : a ∈ b :: seen ∨ ∃ j < k, m.chainAt? t record.sender j = some a := by
      obtain hseen | ⟨j, hj, hat⟩ := hback
      · exact .inl (List.mem_cons_of_mem b hseen)
      · cases j with
        | zero =>
          cases hat
          exact .inl List.mem_cons_self
        | succ j => exact .inr ⟨j, Nat.lt_of_succ_lt_succ hj, chainAt?_succ hsender ▸ hat⟩
    have heach' : ∀ j < k, ∃ c frame,
        m.Visits t (b :: seen) record.sender j c ∧ m.Describes t c frame := by
      intro j hj
      obtain ⟨c, frame, hvisit, hdescribes⟩ := heach (j + 1) (Nat.succ_lt_succ hj)
      exact ⟨c, frame, (visits_succ_iff hsender).mp hvisit, hdescribes⟩
    rw [framesFrom_step hfirst hunseen hrecord hframe,
      ih (chainAt?_succ hsender ▸ hhere) hback' heach']
    rfl

/-- The first `n` offsets of the chain are those of records, no two of them the same. -/
structure Simple (m : CompiledMethod) (t : Target) (first : UInt32) (n : Nat) : Prop where
  nonzero : ∀ k < n, m.chainAt? t first k ≠ some 0
  distinct : ∀ j k, j < k → k < n → m.chainAt? t first j ≠ m.chainAt? t first k

theorem Simple.visits {n : Nat} (h : m.Simple t first n) (hk : k < n)
    (hat : m.chainAt? t first k = some a) : m.Visits t [] first k a := by
  refine ⟨hat, ?_, List.not_mem_nil, fun j hj => ?_⟩
  · intro heq
    subst heq
    exact h.nonzero k hk hat
  · rw [← hat]
    exact h.distinct j k hj hk

theorem Simple.replays_iff :
    m.Replays t [] first frames ↔
      m.chainAt? t first frames.length = some 0 ∧ m.Simple t first frames.length ∧
      ∀ k (h : k < frames.length), ∃ a,
        m.chainAt? t first k = some a ∧ m.Describes t a frames[k] := by
  constructor
  · intro hh
    obtain ⟨hends, heach⟩ := hh
    refine ⟨hends, ⟨fun k hk => ?_, fun j k hj hk => ?_⟩, fun k hk => ?_⟩
    · obtain ⟨a, hvisit, -⟩ := heach k hk
      rw [hvisit.here]
      intro heq
      exact hvisit.nonzero (Option.some.inj heq)
    · obtain ⟨a, hvisit, -⟩ := heach k hk
      rw [hvisit.here]
      exact hvisit.fresh j hj
    · obtain ⟨a, hvisit, hdescribes⟩ := heach k hk
      exact ⟨a, hvisit.here, hdescribes⟩
  · intro hh
    obtain ⟨hends, hsimple, heach⟩ := hh
    refine ⟨hends, fun k hk => ?_⟩
    obtain ⟨a, hat, hdescribes⟩ := heach k hk
    exact ⟨a, hsimple.visits hk hat, hdescribes⟩

theorem exists_frames {n : Nat}
    (h : ∀ k < n, ∃ a frame, m.chainAt? t first k = some a ∧ m.Describes t a frame) :
    ∃ frames : List Frame, frames.length = n ∧
      ∀ k (h : k < frames.length), ∃ a,
        m.chainAt? t first k = some a ∧ m.Describes t a frames[k] := by
  have hframe (k : Fin n) : ∃ frame a,
      m.chainAt? t first k = some a ∧ m.Describes t a frame := by
    obtain ⟨a, frame, hat, hdescribes⟩ := h k k.isLt
    exact ⟨frame, a, hat, hdescribes⟩
  refine ⟨List.ofFn fun k => Classical.choose (hframe k), List.length_ofFn, fun k hk => ?_⟩
  have hk' : k < n := by rwa [List.length_ofFn] at hk
  rw [List.getElem_ofFn]
  exact Classical.choose_spec (hframe ⟨k, hk'⟩)

theorem frames_of_negative {desc : Descriptor} (h : desc.scopeOffset.toInt < 0) :
    m.frames t desc = .error (.malformed .scopeDecodeOffset desc.address) := by
  unfold frames CodeBlob.natural?
  rw [if_neg (Int.not_le.mpr h)]

theorem frames_eq_framesFrom {desc : Descriptor} (h : desc.scopeOffset.toInt = first.toNat) :
    m.frames t desc = m.framesFrom t [] first := by
  unfold frames CodeBlob.natural?
  rw [h, if_pos (Int.natCast_nonneg _)]
  simp

theorem exists_first {desc : Descriptor} (h : ¬desc.scopeOffset.toInt < 0) :
    ∃ first : UInt32, desc.scopeOffset.toInt = first.toNat := by
  have hlt := desc.scopeOffset.toInt_lt
  refine ⟨UInt32.ofNat desc.scopeOffset.toInt.toNat, ?_⟩
  rw [UInt32.toNat_ofNat', Nat.mod_eq_of_lt (by omega)]
  omega

theorem exists_first_of_frames_eq_ok {desc : Descriptor} (h : m.frames t desc = .ok frames) :
    ∃ first : UInt32, desc.scopeOffset.toInt = first.toNat := by
  apply exists_first
  intro hnegative
  rw [frames_of_negative hnegative] at h
  cases h

/-- Only without scope information is a chain of frames empty. -/
theorem frames_eq_nil_iff {desc : Descriptor} :
    m.frames t desc = .ok [] ↔ desc.scopeOffset = 0 := by
  by_cases hnegative : desc.scopeOffset.toInt < 0
  · rw [frames_of_negative hnegative]
    constructor
    · intro h
      cases h
    · intro hzero
      rw [hzero] at hnegative
      exact absurd hnegative (by decide)
  · obtain ⟨first, hoffset⟩ := exists_first hnegative
    rw [frames_eq_framesFrom hoffset, framesFrom_eq_nil_iff, ← UInt32.toNat_inj,
      ← Int32.toInt_inj]
    have hzero : (0 : UInt32).toNat = 0 := rfl
    have hzero' : (0 : Int32).toInt = 0 := rfl
    omega

/-- The frames are those of the whole chain behind the descriptor, or there are none: the call
answers exactly if the chain ends, comes to no record twice, and each record lies in the blob and
has a frame. It complains about the first offset that comes up again, and fails wherever on the
chain a record is cut off. -/
theorem frames_eq_chain (m : CompiledMethod) (t : Target) (desc : Descriptor) :
    (desc.scopeOffset.toInt < 0 →
      m.frames t desc = .error (.malformed .scopeDecodeOffset desc.address)) ∧
    ∀ first : UInt32, desc.scopeOffset.toInt = first.toNat →
      (∀ frames, m.frames t desc = .ok frames ↔
        m.chainAt? t first frames.length = some 0 ∧ m.Simple t first frames.length ∧
        ∀ k (h : k < frames.length), ∃ a,
          m.chainAt? t first k = some a ∧ m.Describes t a frames[k]) ∧
      ((∃ frames, m.frames t desc = .ok frames) ↔
        ∃ n, m.chainAt? t first n = some 0 ∧ m.Simple t first n ∧
          ∀ k < n, ∃ a frame, m.chainAt? t first k = some a ∧ m.Describes t a frame) ∧
      (∀ j k a, j < k → m.chainAt? t first j = some a → m.chainAt? t first k = some a →
        m.Simple t first k →
        (∀ i < k, ∃ b frame, m.chainAt? t first i = some b ∧ m.Describes t b frame) →
        m.frames t desc = .error (.malformed .scopeChain (m.scopesData + a.toUInt64))) ∧
      ∀ k a, m.chainAt? t first k = some a → (∀ j ≤ k, m.chainAt? t first j ≠ some 0) →
        (∀ record, ¬m.RecordAt t a record) → ∃ fault, m.frames t desc = .error fault := by
  refine ⟨frames_of_negative, fun first hfirst => ?_⟩
  rw [frames_eq_framesFrom hfirst]
  have hiff {frames : List Frame} :
      m.framesFrom t [] first = .ok frames ↔
        m.chainAt? t first frames.length = some 0 ∧ m.Simple t first frames.length ∧
        ∀ k (h : k < frames.length), ∃ a,
          m.chainAt? t first k = some a ∧ m.Describes t a frames[k] :=
    framesFrom_eq_ok_iff.trans Simple.replays_iff
  refine ⟨fun frames => hiff, ⟨?_, ?_⟩, ?_, ?_⟩
  · intro hh
    obtain ⟨frames, h⟩ := hh
    obtain ⟨hends, hsimple, heach⟩ := hiff.mp h
    refine ⟨frames.length, hends, hsimple, fun k hk => ?_⟩
    obtain ⟨a, hat, hdescribes⟩ := heach k hk
    exact ⟨a, frames[k], hat, hdescribes⟩
  · intro hh
    obtain ⟨n, hends, hsimple, heach⟩ := hh
    obtain ⟨frames, rfl, hdescribes⟩ := exists_frames heach
    exact ⟨frames, hiff.mpr ⟨hends, hsimple, hdescribes⟩⟩
  · intro j k a hj hback hhere hsimple heach
    refine framesFrom_revisit hhere ?_ (.inr ⟨j, hj, hback⟩) fun i hi => ?_
    · intro heq
      subst heq
      exact hsimple.nonzero j hj hback
    · obtain ⟨b, frame, hat, hdescribes⟩ := heach i hi
      exact ⟨b, frame, hsimple.visits hi hat, hdescribes⟩
  · intro k a hat hnonzero hcut
    cases hframes : m.framesFrom t [] first with
    | error fault => exact ⟨fault, rfl⟩
    | ok frames =>
      obtain ⟨hends, hsimple, heach⟩ := hiff.mp hframes
      have hk : k < frames.length := by
        apply Nat.lt_of_not_le
        intro hle
        exact hnonzero frames.length hle hends
      obtain ⟨b, hat', record, hrecord, -⟩ := heach k hk
      rw [hat] at hat'
      cases hat'
      exact absurd hrecord (hcut record)

/-- A method without bytecodes at the start of the address space, its line table with the single
pair of index 3 and line 5, a reference table with this method, and the scopes data: an outermost
record at 1, one inlined into it at 4, one that is its own sender at 7, and at 10 the first number
of one more, behind which the blob ends. -/
def inlined : CompiledMethod where
  blob := ⟨0, 35, 0, "", by decide⟩
  method := 16
  descriptorsBegin := 24
  descriptorsEnd := 24
  scopesData := 24
  oops := 20
  descriptorCache := 24

def inlinedTarget : Target :=
  ⟨.ofBytes #[
    0, 0, 0, 0, 0, 0, 1, 0, 0, 0, 0, 0, 29, 0, 0, 0,
    0, 0, 0, 0, 16, 0, 0, 0,
    0, 0, 0, 8, 1, 1, 4, 7, 0, 1, 4, 0, 0, 0], .dense⟩

theorem inlined_outermost : inlined.Describes inlinedTarget 1 ⟨none, 7, SourceLine.unknown⟩ :=
  ⟨⟨0, 0, 7⟩, ⟨2, 3, 4, 8, rfl, rfl, rfl, rfl, by decide⟩, rfl, rfl, rfl⟩

theorem inlined_innermost : inlined.Describes inlinedTarget 4 ⟨some 16, 3, 5⟩ :=
  ⟨⟨1, 1, 3⟩, ⟨5, 6, 7, 4, rfl, rfl, rfl, rfl, by decide⟩, rfl, rfl, _, rfl, by cbv⟩

theorem inlined_cutOff (record : ScopeRecord) : ¬inlined.RecordAt inlinedTarget 10 record := by
  intro hh
  obtain ⟨q, q', stop, stored, hsender, hmethod, hstored, -, hstop⟩ := hh
  have hq : 10 < q := Compressed.readInt_eq_ok hsender
  have hq' := Compressed.readInt_eq_ok hmethod
  have hend := Compressed.readInt_eq_ok hstored
  have hlast : 24 + stop ≤ 35 := hstop
  omega

/-- The inlined call with its caller, a cycle, a record that is cut off, and a negative offset. -/
theorem frames_eq_chain_inlined :
    inlined.frames inlinedTarget ⟨0, 0, 4⟩ =
      .ok [⟨some 16, 3, 5⟩, ⟨none, 7, SourceLine.unknown⟩] ∧
    inlined.frames inlinedTarget ⟨0, 0, 7⟩ = .error (.malformed .scopeChain 31) ∧
    (∃ fault, inlined.frames inlinedTarget ⟨0, 0, 10⟩ = .error fault) ∧
    inlined.frames inlinedTarget ⟨0, 0, -4⟩ = .error (.malformed .scopeDecodeOffset 0) := by
  refine ⟨?_, ?_, ?_, ?_⟩
  · refine (((frames_eq_chain inlined inlinedTarget ⟨0, 0, 4⟩).2 4 (by decide)).1 _).mpr
      ⟨rfl, ⟨fun k hk => ?_, fun j k hj hk => ?_⟩, fun k hk => ?_⟩
    · match k with
      | 0 | 1 => decide
    · have hlast : k < 2 := hk
      obtain ⟨rfl, rfl⟩ : j = 0 ∧ k = 1 := by omega
      decide
    · match k with
      | 0 => exact ⟨4, rfl, inlined_innermost⟩
      | 1 => exact ⟨1, rfl, inlined_outermost⟩
  · refine ((frames_eq_chain inlined inlinedTarget ⟨0, 0, 7⟩).2 7 (by decide)).2.2.1 0 1 7
      Nat.zero_lt_one rfl rfl ⟨fun k hk => ?_, fun j k hj hk => ?_⟩ fun i hi => ?_
    · match k with
      | 0 => decide
    · omega
    · match i with
      | 0 =>
        refine ⟨7, ⟨none, 0, SourceLine.unknown⟩, rfl, ⟨7, 0, 0⟩, ?_, rfl, rfl, rfl⟩
        exact ⟨8, 9, 10, 1, rfl, rfl, rfl, rfl, by decide⟩
  · refine ((frames_eq_chain inlined inlinedTarget ⟨0, 0, 10⟩).2 10 (by decide)).2.2.2 0 10 rfl
      (fun j hj => ?_) inlined_cutOff
    match j with
    | 0 => decide
  · exact (frames_eq_chain inlined inlinedTarget ⟨0, 0, -4⟩).1 (by decide)

end JitFrames.CompiledMethod
