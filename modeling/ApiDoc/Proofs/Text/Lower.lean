import ApiDoc.Text.Lower

/-!
# Lower case

What lower case keeps of a text: it is empty only if the text is, it starts with a dot only if the
text does, and dots of the text are dots of it.
-/

namespace ApiDoc.Text

/-- Something stays of a text in lower case. -/
theorem lowerAfter_ne_nil (before : List Char) {s : List Char} (h : s ≠ []) :
    lowerAfter before s ≠ [] := by
  cases s with
  | nil => exact absurd rfl h
  | cons c rest =>
    unfold lowerAfter
    split
    · exact List.cons_ne_nil _ _
    · split <;> exact List.cons_ne_nil _ _

/-- A text that is not empty is not empty in lower case. -/
theorem lower_ne_empty {s : String} (h : s ≠ "") : lower s ≠ "" := by
  intro hlower
  have hlist : s.toList ≠ [] := fun hnil => h (String.toList_eq_nil_iff.1 hnil)
  refine lowerAfter_ne_nil [] hlist ?_
  rw [← String.toList_ofList (l := lowerAfter [] s.toList)]
  exact String.toList_eq_nil_iff.2 hlower

/-- A character behind the dot is no dot. -/
theorem ofNat_ne_dot {n : Nat} (h : 46 < n) : Char.ofNat n ≠ '.' := by
  by_cases hvalid : n.isValidChar
  · have hval : (Char.ofNat n).toNat = n := by
      rw [Char.ofNat, dif_pos hvalid]
      rfl
    intro hdot
    rw [hdot] at hval
    exact absurd hval (Nat.ne_of_lt h)
  · rw [Char.ofNat, dif_neg hvalid]
    decide

/-- Only a dot has a dot as its lower case. -/
theorem lowerChar_eq_dot {c : Char} (h : lowerChar c = '.') : c = '.' := by
  unfold lowerChar at h
  split at h
  · next hascii =>
    have hall : ∀ n < 128, (Char.ofNat n).toLower = '.' → Char.ofNat n = '.' := by decide
    have hc := hall c.toNat hascii
    rw [Char.ofNat_toNat] at hc
    exact hc h
  · split at h
    · next r hr =>
      have hsmall : capitalRuns.all (fun r => decide (46 < r.small)) = true := by decide
      have hlt := List.all_eq_true.1 hsmall r (List.mem_of_find?_eq_some hr)
      rw [decide_eq_true_eq] at hlt
      exact absurd h (ofNat_ne_dot (by omega))
    · exact h

/-- No dot comes to the front in lower case. -/
theorem head?_lowerAfter {before s : List Char} (h : s.head? ≠ some '.') :
    (lowerAfter before s).head? ≠ some '.' := by
  cases s with
  | nil => simp [lowerAfter]
  | cons c rest =>
    unfold lowerAfter
    split
    · simp
    · split
      · rw [List.head?_cons, ne_eq, Option.some_inj]
        split
        · exact ofNat_ne_dot (by omega)
        · exact ofNat_ne_dot (by omega)
      · intro hdot
        rw [List.head?_cons, Option.some_inj] at hdot
        exact h (by rw [lowerChar_eq_dot hdot]; rfl)

/-- A text that starts with no dot starts with none in lower case. -/
theorem head?_lower {s : String} (h : s.toList.head? ≠ some '.') :
    (lower s).toList.head? ≠ some '.' := by
  rw [lower, String.toList_ofList]
  exact head?_lowerAfter h

/-- A dot stays in lower case. -/
theorem dot_mem_lowerAfter {before s : List Char} (h : '.' ∈ s) : '.' ∈ lowerAfter before s := by
  induction s generalizing before with
  | nil => cases h
  | cons c rest ih =>
    rcases List.mem_cons.1 h with rfl | h
    · exact List.mem_cons_self
    · unfold lowerAfter
      split
      · exact List.mem_cons_of_mem _ (List.mem_cons_of_mem _ (ih h))
      · split <;> exact List.mem_cons_of_mem _ (ih h)

/-- A text with a dot has one in lower case. -/
theorem dot_mem_lower {s : String} (h : '.' ∈ s.toList) : '.' ∈ (lower s).toList := by
  rw [lower, String.toList_ofList]
  exact dot_mem_lowerAfter h

end ApiDoc.Text
