import ApiDoc.Text.Digit
import ApiDoc.Text.Word
import Mathlib.Data.List.Chain
import Mathlib.Data.List.TakeWhile

/-!
# Digits and word characters

Every decimal digit is a word character: `isWord_of_isDecimal`. The digits of a script stand in one
of the ranges of word characters, and as the ranges are sorted, the walk along them does not end in
front of it.
-/

namespace ApiDoc.Text

namespace Ranges

/-- The ranges start one behind the other. -/
def Sorted (ranges : Ranges) : Prop := ranges.Pairwise fun r r' => r.1 ≤ r'.1

/-- Sorted ranges cover the points of each of them. -/
theorem covers_of_mem {ranges : Ranges} (hsorted : ranges.Sorted) {r : Nat × Nat}
    (hr : r ∈ ranges) {n : Nat} (hlow : r.1 ≤ n) (hhigh : n ≤ r.2) : ranges.covers n = true := by
  induction ranges with
  | nil => cases hr
  | cons first rest ih =>
    obtain ⟨hfirst, hrest⟩ := List.pairwise_cons.1 hsorted
    rcases List.mem_cons.1 hr with rfl | hr
    · rw [covers, if_neg (by omega), if_pos hhigh]
    · have hle := hfirst r hr
      rw [covers, if_neg (by omega), ih hrest hr]
      exact ite_self true

/-- What is left of a list of starts, if each range in turn takes the first ones whose ten points
lie in it. -/
def dropTens : Ranges → List Nat → List Nat
  | [], starts => starts
  | r :: rest, starts =>
    dropTens rest (starts.dropWhile fun z => decide (r.1 ≤ z) && decide (z + 9 ≤ r.2))

/-- If no start is left over, the ten points behind each lie in a range. -/
theorem exists_of_dropTens {ranges : Ranges} {starts : List Nat}
    (h : ranges.dropTens starts = []) {z : Nat} (hz : z ∈ starts) :
    ∃ r ∈ ranges, r.1 ≤ z ∧ z + 9 ≤ r.2 := by
  induction ranges generalizing starts with
  | nil =>
    rw [show starts = [] from h] at hz
    cases hz
  | cons r rest ih =>
    rw [← List.takeWhile_append_dropWhile (p := fun z => decide (r.1 ≤ z) && decide (z + 9 ≤ r.2))
      (l := starts), List.mem_append] at hz
    rcases hz with hz | hz
    · have htaken := List.mem_takeWhile_imp hz
      rw [Bool.and_eq_true, decide_eq_true_eq, decide_eq_true_eq] at htaken
      exact ⟨r, List.mem_cons_self, htaken⟩
    · obtain ⟨r', hr', hin⟩ := ih h hz
      exact ⟨r', List.mem_cons_of_mem r hr', hin⟩

end Ranges

/-- The ranges of word characters are sorted. -/
theorem sorted_wordRanges : wordRanges.Sorted := by
  have hchain : wordRanges.IsChain fun r r' => r.1 ≤ r'.1 := by decide +kernel
  exact List.isChain_iff_pairwise.1 hchain

/-- Decimal digits are characters of words. -/
theorem isWord_of_isDecimal {c : Char} (h : isDecimal c = true) : isWord c = true := by
  rw [isDecimal, digitValue?] at h
  rw [isWord]
  split at h
  · next hdigit => simp [Char.isAlphanum, hdigit]
  · split at h
    · cases h
    · next hascii =>
      rw [Option.isSome_map, List.find?_isSome] at h
      obtain ⟨z, hz, hin⟩ := h
      rw [Bool.and_eq_true, decide_eq_true_eq, decide_eq_true_eq] at hin
      have hdropped : wordRanges.dropTens digitZeros = [] := by decide +kernel
      obtain ⟨r, hr, hlow, hhigh⟩ := Ranges.exists_of_dropTens hdropped hz
      have hcovers := Ranges.covers_of_mem sorted_wordRanges hr (n := c.toNat) (by omega) (by omega)
      simp [hcovers, Nat.le_of_not_lt hascii]

end ApiDoc.Text
