import Mathlib.Data.List.Infix
import JitFrames.CommandLine.Run
import JitFrames.Proofs.Blame.Answer
import JitFrames.Proofs.Text.Numeral

namespace JitFrames

theorem occursIn_iff {part text : List Char} : occursIn part text = true ↔ part <:+: text := by
  induction text with
  | nil => simp [occursIn]
  | cons c text ih =>
    rw [occursIn, Bool.or_eq_true, ih, List.isPrefixOf_iff_prefix, List.infix_cons_iff]

/-- Whether two texts are the same as far as both of them go. -/
def agree (part text : List Char) : Bool := (part.zip text).all fun p => p.1 == p.2

/-- Whether an occurrence of `part` may begin inside a text, depending on what follows. -/
def mayBegin (part : List Char) : List Char → Bool
  | [] => false
  | c :: cs => agree part (c :: cs) || mayBegin part cs

theorem agree_of_prefix {part lead rest : List Char} (h : part <+: lead ++ rest) :
    agree part lead = true := by
  induction lead generalizing part with
  | nil => simp [agree]
  | cons c lead ih =>
    cases part with
    | nil => rfl
    | cons d part =>
      obtain ⟨hhead, htail⟩ := List.cons_prefix_cons.mp h
      have hrest := ih htail
      rw [agree] at hrest ⊢
      rw [List.zip_cons_cons, List.all_cons, hrest, Bool.and_true]
      exact beq_iff_eq.mpr hhead

theorem infix_append_iff {part lead : List Char} (h : mayBegin part lead = false)
    (rest : List Char) : part <:+: lead ++ rest ↔ part <:+: rest := by
  induction lead with
  | nil => rfl
  | cons c lead ih =>
    rw [mayBegin, Bool.or_eq_false_iff] at h
    -- An occurrence from here on would agree with the rest of the lead.
    have hbegin : ¬part <+: c :: (lead ++ rest) := by
      intro hprefix
      have hagree : agree part (c :: lead) = true := agree_of_prefix hprefix
      rw [h.1] at hagree
      cases hagree
    rw [List.cons_append, List.infix_cons_iff, ih h.2]
    exact or_iff_right hbegin

theorem lowered_append (s t : String) : lowered (s ++ t) = lowered s ++ lowered t := by
  rw [lowered, String.toList_append, List.map_append]
  rfl

def usagePhrase : List Char := "missing required argument".toList

/-- The text has the phrase in it by which a wrong use of the program is told. -/
def SoundsLikeUsage (text : String) : Prop := usagePhrase <:+: lowered text

theorem soundsLikeUsage_append {lead : String}
    (h : mayBegin usagePhrase (lowered lead) = false) (rest : String) :
    SoundsLikeUsage (lead ++ rest) ↔ SoundsLikeUsage rest := by
  rw [SoundsLikeUsage, lowered_append]
  exact infix_append_iff h _

/-- The phrase has a `q` in it. -/
theorem not_soundsLikeUsage {text : String} (h : 'q' ∉ lowered text) : ¬SoundsLikeUsage text :=
  fun hphrase => h (hphrase.subset (by decide))

theorem q_not_mem_toDigits {base : Nat} (hbase : 1 < base ∧ base ≤ 16) (n : Nat) :
    'q' ∉ lowered (String.ofList (Nat.toDigits base n)) := by
  have hdigit : ∀ d < 16, (Nat.digitChar d).toLower ≠ 'q' := by decide
  intro h
  rw [lowered, String.toList_ofList, List.mem_map] at h
  obtain ⟨c, hc, hq⟩ := h
  obtain ⟨d, hd, rfl⟩ := Numeral.mem_toDigits hbase.1 hc
  exact hdigit d (by omega) hq

theorem q_not_mem_short (a : Address) : 'q' ∉ lowered a.short := by
  rw [Address.short, lowered_append, List.mem_append, not_or]
  exact ⟨by decide, q_not_mem_toDigits (by decide) a.toNat⟩

theorem q_not_mem_toString (n : Nat) : 'q' ∉ lowered (toString n) := by
  rw [Nat.toString_eq_ofList_toDigits]
  exact q_not_mem_toDigits (by decide) n

theorem Fault.not_soundsLikeUsage_message {e : Fault} (h : e.isOfTarget = true) :
    ¬SoundsLikeUsage e.message := by
  apply not_soundsLikeUsage
  cases e with
  | unmapped a n =>
    show 'q' ∉ lowered
      ("Memory at " ++ a.short ++ " (+" ++ toString n ++ " bytes) is not present in the image")
    simp only [lowered_append, List.mem_append, not_or]
    exact ⟨⟨⟨⟨by decide +kernel, q_not_mem_short a⟩, by decide +kernel⟩, q_not_mem_toString n⟩,
      by decide +kernel⟩
  | malformed what a =>
    show 'q' ∉ lowered ("Malformed " ++ what.text ++ " at " ++ a.short)
    have hwhat : 'q' ∉ lowered what.text := by cases what <;> decide +kernel
    simp only [lowered_append, List.mem_append, not_or]
    exact ⟨⟨⟨by decide +kernel, hwhat⟩, by decide +kernel⟩, q_not_mem_short a⟩
  | notCompiledMethod a =>
    show 'q' ∉ lowered ("Blob at " ++ a.short ++ " is not a compiled method")
    simp only [lowered_append, List.mem_append, not_or]
    exact ⟨⟨by decide +kernel, q_not_mem_short a⟩, by decide +kernel⟩
  | missingLayout owner entry => cases h
  | unsupportedPointerSize n => cases h

namespace Failure

/-- The path or literal that the headline quotes. -/
def quoted? : Failure → Option String
  | .readManifest path _ | .readRegion path _ | .readCore path _ | .readLayout path _ =>
    some path.text
  | .invalidAddress literal => some literal
  | _ => none

/-- The text from outside that the headline quotes sounds like a wrong use. -/
def QuotesUsage (f : Failure) : Prop := ∃ text, f.quoted? = some text ∧ SoundsLikeUsage text

variable {f : Failure}

theorem isUsage_iff_soundsLikeUsage : f.isUsage = true ↔ SoundsLikeUsage f.headline := occursIn_iff

theorem isUsage_iff_of_quoted (lead : String) {text : String}
    (hheadline : f.headline = lead ++ text)
    (hlead : mayBegin usagePhrase (lowered lead) = false) (hquoted : f.quoted? = some text) :
    f.isUsage = true ↔ f = .noCodeHeap ∨ f.QuotesUsage := by
  rw [isUsage_iff_soundsLikeUsage, hheadline, soundsLikeUsage_append hlead]
  constructor
  · intro htext
    exact .inr ⟨text, hquoted, htext⟩
  · rintro (rfl | ⟨text', hquoted', htext⟩)
    · cases hquoted
    · rw [hquoted] at hquoted'
      cases hquoted'
      exact htext

theorem isUsage_iff_of_plain (hheadline : ¬SoundsLikeUsage f.headline) (hquoted : f.quoted? = none)
    (hne : f ≠ .noCodeHeap) : f.isUsage = true ↔ f = .noCodeHeap ∨ f.QuotesUsage := by
  refine iff_of_false (mt isUsage_iff_soundsLikeUsage.mp hheadline) ?_
  rintro (rfl | ⟨text, hquoted', -⟩)
  · exact hne rfl
  · rw [hquoted] at hquoted'
    cases hquoted'

theorem q_not_mem_overlappingRegion (base : Address) :
    'q' ∉ lowered (headline (.overlappingRegion base)) := by
  show 'q' ∉ lowered ("Region at " ++ base.short ++ " overlaps an existing region")
  simp only [lowered_append, List.mem_append, not_or]
  exact ⟨⟨by decide +kernel, q_not_mem_short base⟩, by decide +kernel⟩

/-- An inspection that failed for a fault of the target, or any other failure. -/
def sparesLayout : Failure → Bool
  | .inspection e => e.isOfTarget
  | _ => true

/-- A failure counts as a wrong use if it lacks the code heap, and if what it quotes has the phrase
in it. -/
theorem isUsage_iff (h : f.sparesLayout = true) :
    f.isUsage = true ↔ f = .noCodeHeap ∨ f.QuotesUsage := by
  cases f with
  | readManifest path why =>
    exact isUsage_iff_of_quoted "Failed to read manifest " rfl (by decide +kernel) rfl
  | readRegion path why =>
    exact isUsage_iff_of_quoted "Failed to read region file " rfl (by decide +kernel) rfl
  | readCore path why =>
    exact isUsage_iff_of_quoted "Failed to read core file " rfl (by decide +kernel) rfl
  | readLayout path why =>
    exact isUsage_iff_of_quoted "Failed to read layout file " rfl (by decide +kernel) rfl
  | invalidAddress literal =>
    exact isUsage_iff_of_quoted "Invalid address literal: " rfl (by decide +kernel) rfl
  | parseManifest | parseCore | segmentData | noLoadableSegments | parseLayout =>
    exact isUsage_iff_of_plain (not_soundsLikeUsage (by decide +kernel)) rfl nofun
  | incompleteLayout why =>
    have hplain : 'q' ∉ lowered "Layout file is incomplete" := by decide +kernel
    exact isUsage_iff_of_plain (not_soundsLikeUsage hplain) rfl nofun
  | readCodeHeap why =>
    have hplain : 'q' ∉ lowered "Failed to read code heap" := by decide +kernel
    exact isUsage_iff_of_plain (not_soundsLikeUsage hplain) rfl nofun
  | overlappingRegion base =>
    exact isUsage_iff_of_plain (not_soundsLikeUsage (q_not_mem_overlappingRegion base)) rfl nofun
  | inspection e =>
    exact isUsage_iff_of_plain (Fault.not_soundsLikeUsage_message h) rfl nofun
  | noCodeHeap => exact iff_of_true (by decide +kernel) (.inl rfl)

end Failure

end JitFrames
