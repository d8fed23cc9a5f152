import Mathlib.Data.Nat.Digits.Defs
import SearchQuery.Text.Blank
import SearchQuery.Text.Literal

/-!
# Texts on one line

A literal takes up one line, whatever text it shows (`oneLine_literal`): no character that ends a
line is printable, so that all of them are shown by an escape. Numbers take up one line too.
-/

namespace SearchQuery.Text

/-- Some characters of which none ends a line. -/
def OneLine (cs : List Char) : Prop := ∀ c ∈ cs, isNewline c = false

instance (cs : List Char) : Decidable (OneLine cs) := List.decidableBAll _ cs

theorem OneLine.append {cs ds : List Char} (hc : OneLine cs) (hd : OneLine ds) :
    OneLine (cs ++ ds) := List.forall_mem_append.mpr ⟨hc, hd⟩

/-- A number is written on one line, to any base. -/
theorem oneLine_toDigits {b : Nat} (hb : 1 < b) (n : Nat) : OneLine (Nat.toDigits b n) := by
  have hdigit : ∀ d, OneLine [Nat.digitChar d] := by simp [OneLine, isNewline, newlineChars]
  induction n using Nat.strongRecOn with
  | ind n ih =>
    rw [Nat.toDigits_eq_if hb]
    split
    · exact hdigit n
    · exact (ih (n / b) (Nat.div_lt_self (by omega) hb)).append (hdigit (n % b))

/-- A character that ends a line is not printable. -/
theorem isPrintable_of_isNewline {c : Char} (h : isNewline c = true) : isPrintable c = false := by
  have hnone : newlineChars.any isPrintable = false := by decide +kernel
  have hmem : c ∈ newlineChars := by simpa [isNewline] using h
  exact eq_false_of_ne_true (List.any_eq_false.mp hnone c hmem)

/-- A character is shown on one line. -/
theorem oneLine_showChar (c : Char) : OneLine (showChar c) := by
  unfold showChar
  split
  iterate 6 decide
  split
  · next hprintable =>
    refine List.forall_mem_singleton.mpr ?_
    by_contra hnewline
    rw [isPrintable_of_isNewline (by simpa using hnewline)] at hprintable
    cases hprintable
  · exact (OneLine.append (by decide) (oneLine_toDigits (by decide) c.toNat)).append (by decide)

/-- A literal takes up one line. -/
theorem oneLine_literal (text : List Char) : OneLine (literal text) := by
  have hbody : OneLine (text.flatMap showChar) := by
    intro d hd
    obtain ⟨c, -, hc⟩ := List.mem_flatMap.mp hd
    exact oneLine_showChar c d hc
  have hquote : OneLine ['"'] := by decide
  exact hquote.append (hbody.append hquote)

end SearchQuery.Text
