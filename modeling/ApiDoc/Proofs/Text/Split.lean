import ApiDoc.Text.Split
import Mathlib.Data.List.Infix

/-!
# Cuts of a text

The parts of a text that is cut at a character, at its first occurrence or at all of them. A text
that is cut at a needle is what stands in front of the first occurrence, the needle, and what stands
behind. The occurrence is the first one because the needle does not occur in what comes before its
last character.
-/

namespace ApiDoc.Text

variable {needle s before tail : List Char}

/-- A text without the separator stays whole. -/
theorem splitFirst_of_not_mem {sep : Char} (h : sep ∉ s) : splitFirst sep s = (s, none) := by
  induction s with
  | nil => rfl
  | cons c rest ih =>
    rw [List.mem_cons, not_or] at h
    obtain ⟨hc, hrest⟩ := h
    simp [splitFirst, ih hrest, Ne.symm hc]

/-- A text is split at the first separator. -/
theorem splitFirst_append {sep : Char} (h : sep ∉ before) (tail : List Char) :
    splitFirst sep (before ++ sep :: tail) = (before, some tail) := by
  induction before with
  | nil => simp [splitFirst]
  | cons c before ih =>
    rw [List.mem_cons, not_or] at h
    simp [splitFirst, ih h.2, Ne.symm h.1]

/-- A split gives a part, if only an empty one. -/
theorem splitWhere_ne_nil (p : Char → Bool) (s : List Char) : splitWhere p s ≠ [] := by
  cases s with
  | nil => exact List.cons_ne_nil _ _
  | cons c rest =>
    rw [splitWhere]
    split
    · exact List.cons_ne_nil _ _
    · split <;> exact List.cons_ne_nil _ _

/-- The parts have no characters of the class that the text is cut at. -/
theorem eq_false_of_mem_splitWhere {p : Char → Bool} {part : List Char}
    (h : part ∈ splitWhere p s) : ∀ c ∈ part, p c = false := by
  induction s generalizing part with
  | nil =>
    rw [List.mem_singleton.1 h]
    exact List.forall_mem_nil _
  | cons c rest ih =>
    obtain ⟨first, parts, hparts⟩ := List.exists_cons_of_ne_nil (splitWhere_ne_nil p rest)
    rw [hparts] at ih
    rw [splitWhere, hparts] at h
    split at h
    · rcases List.mem_cons.1 h with rfl | hpart
      · exact List.forall_mem_nil _
      · exact ih hpart
    · next hc =>
      rcases List.mem_cons.1 h with rfl | hpart
      · exact List.forall_mem_cons.2 ⟨by simpa using hc, ih List.mem_cons_self⟩
      · exact ih (List.mem_cons_of_mem _ hpart)

/-- No part has the separator in it. -/
theorem not_mem_of_mem_splitAll {sep : Char} {part : List Char} (h : part ∈ splitAll sep s) :
    sep ∉ part := by
  intro hsep
  have hne := eq_false_of_mem_splitWhere h sep hsep
  rw [beq_self_eq_true] at hne
  cases hne

/-- A text without the separator is one part. -/
theorem splitAll_of_not_mem {sep : Char} (h : sep ∉ s) : splitAll sep s = [s] := by
  induction s with
  | nil => rfl
  | cons c rest ih =>
    rw [List.mem_cons, not_or] at h
    have hrest : splitWhere (· == sep) rest = [rest] := ih h.2
    simp [splitAll, splitWhere, hrest, Ne.symm h.1]

/-- The first part ends at the first separator. -/
theorem splitAll_append {sep : Char} (h : sep ∉ before) (tail : List Char) :
    splitAll sep (before ++ sep :: tail) = before :: splitAll sep tail := by
  induction before with
  | nil => simp [splitAll, splitWhere]
  | cons c before ih =>
    rw [List.mem_cons, not_or] at h
    have hbefore : splitWhere (· == sep) (before ++ sep :: tail) = before :: splitAll sep tail :=
      ih h.2
    simp [splitAll, splitWhere, hbefore, Ne.symm h.1]

/-- What is behind a text is what follows it. -/
theorem after?_eq_some_iff : after? needle s = some tail ↔ s = needle ++ tail := by
  fun_induction after? needle s with
  | case1 s => simp
  | case2 => simp
  | case3 n needle c rest h ih =>
    rw [ih, eq_of_beq h]
    simp
  | case4 n needle c rest h =>
    have hne : c ≠ n := fun heq => h (by simp [heq])
    simp [hne]

/-- Nothing is behind a text that does not come first. -/
theorem after?_eq_none_iff : after? needle s = none ↔ ¬ needle <+: s := by
  rw [Option.eq_none_iff_forall_ne_some]
  simp only [ne_eq, after?_eq_some_iff]
  exact ⟨fun h ⟨tail, htail⟩ => h tail htail.symm, fun h tail htail => h ⟨tail, htail.symm⟩⟩

/-- A text is not cut just if it does not have the other in it. -/
theorem cut?_eq_none_iff (hne : needle ≠ []) : cut? needle s = none ↔ ¬ needle <:+: s := by
  induction s with
  | nil => simp [cut?, hne]
  | cons c rest ih =>
    rw [cut?, List.infix_cons_iff]
    cases h : after? needle (c :: rest) with
    | some tail => simp [after?_eq_some_iff.1 h]
    | none => simp [after?_eq_none_iff.1 h, ih]

/-- A text that is not empty has one character more than its front. -/
theorem length_eq_dropLast_add_one (hne : needle ≠ []) :
    needle.length = needle.dropLast.length + 1 := by
  have hpos := List.length_pos_of_ne_nil hne
  rw [List.length_dropLast]
  omega

/-- What was cut off, with all but one character of the mark, comes first. -/
theorem prefix_append_dropLast (before needle tail : List Char) :
    before ++ needle.dropLast <+: before ++ needle ++ tail :=
  ((List.prefix_append_right_inj before).2 (List.dropLast_prefix needle)).trans
    (List.prefix_append _ tail)

/-- A text is cut where the mark comes for the first time. -/
theorem of_cut?_eq_some (hne : needle ≠ []) (h : cut? needle s = some (before, tail)) :
    s = before ++ needle ++ tail ∧ ¬ needle <:+: before ++ needle.dropLast := by
  induction s generalizing before with
  | nil => simp [cut?, hne] at h
  | cons c rest ih =>
    rw [cut?] at h
    split at h
    · next hafter =>
      cases h
      refine ⟨after?_eq_some_iff.1 hafter, fun hinfix => ?_⟩
      have hle := hinfix.length_le
      rw [List.nil_append, length_eq_dropLast_add_one hne] at hle
      omega
    · next hafter =>
      obtain ⟨⟨b, t⟩, hcut, heq⟩ := Option.map_eq_some_iff.1 h
      cases heq
      obtain ⟨rfl, hb⟩ := ih hcut
      refine ⟨rfl, fun hinfix => ?_⟩
      rcases List.infix_cons_iff.1 hinfix with hstart | hlater
      · exact after?_eq_none_iff.1 hafter (hstart.trans (prefix_append_dropLast (c :: b) needle _))
      · exact hb hlater

/-- Where the mark comes for the first time a text is cut. -/
theorem cut?_append (hne : needle ≠ []) (h : ¬ needle <:+: before ++ needle.dropLast)
    (tail : List Char) : cut? needle (before ++ needle ++ tail) = some (before, tail) := by
  induction before with
  | nil =>
    obtain ⟨c, rest, rfl⟩ := List.exists_cons_of_ne_nil hne
    rw [List.nil_append, List.cons_append, cut?, ← List.cons_append, after?_eq_some_iff.2 rfl]
  | cons c before ih =>
    rw [List.cons_append, List.infix_cons_iff, not_or] at h
    have hafter : after? needle (c :: (before ++ needle ++ tail)) = none := by
      rw [after?_eq_none_iff]
      intro hstart
      refine h.1 (List.prefix_of_prefix_length_le hstart
        (prefix_append_dropLast (c :: before) needle tail) ?_)
      rw [length_eq_dropLast_add_one hne, List.length_cons, List.length_append]
      omega
    rw [List.cons_append, List.cons_append, cut?, hafter, ih h.2]
    rfl

/-- The text is cut at the needle, and the needle does not occur earlier. -/
theorem cut?_eq_some_iff (hne : needle ≠ []) : cut? needle s = some (before, tail) ↔
    s = before ++ needle ++ tail ∧ ¬ needle <:+: before ++ needle.dropLast := by
  refine ⟨of_cut?_eq_some hne, ?_⟩
  rintro ⟨rfl, h⟩
  exact cut?_append hne h tail

/-- What is behind any occurrence of the needle is behind the first one. -/
theorem suffix_of_cut? (hne : needle ≠ []) (h : cut? needle s = some (before, tail))
    {other behind : List Char} (hs : s = other ++ needle ++ behind) : behind <:+ tail := by
  obtain ⟨rfl, hfirst⟩ := of_cut?_eq_some hne h
  by_cases hle : behind.length ≤ tail.length
  · exact List.suffix_of_suffix_length_le (hs ▸ List.suffix_append _ behind)
      (List.suffix_append _ tail) hle
  · -- otherwise the needle ends before the last character of its first occurrence
    refine absurd ?_ hfirst
    have hlength := congrArg List.length hs
    simp only [List.length_append] at hlength
    have hearlier : other ++ needle <+: before ++ needle.dropLast := by
      refine List.prefix_of_prefix_length_le (hs ▸ List.prefix_append _ behind)
        (prefix_append_dropLast before needle tail) ?_
      rw [List.length_append, List.length_append, length_eq_dropLast_add_one hne]
      omega
    exact (List.suffix_append other needle).isInfix.trans hearlier.isInfix

/-- A needle that a text starts with ends in front of a character that it does not have. -/
theorem prefix_of_prefix_append_cons {c : Char} (hc : c ∉ needle)
    (h : needle <+: before ++ c :: tail) : needle <+: before := by
  have hbefore := List.prefix_append before (c :: tail)
  rcases List.prefix_or_prefix_of_prefix h hbefore with hle | ⟨r, rfl⟩
  · exact hle
  · rw [List.prefix_append_right_inj] at h
    cases r with
    | nil => rw [List.append_nil]
    | cons d r =>
      rw [List.cons_prefix_cons] at h
      exact absurd (List.mem_append_right before (h.1 ▸ List.mem_cons_self)) hc

/-- A needle does not lie across a character that it does not have. -/
theorem infix_of_infix_append_cons {c : Char} (hc : c ∉ needle)
    (h : needle <:+: before ++ c :: tail) : needle <:+: before ∨ needle <:+: tail := by
  cases needle with
  | nil => exact .inl List.nil_infix
  | cons d needle =>
    rw [List.infix_append_iff] at h
    rcases h with h | h | ⟨front, back, heq, hfront, hback⟩
    · exact .inl h
    · rcases List.infix_cons_iff.1 h with h | h
      · rw [List.cons_prefix_cons] at h
        exact absurd (List.mem_cons.2 (.inl h.1.symm)) hc
      · exact .inr h
    · cases back with
      | nil =>
        rw [heq, List.append_nil]
        exact .inl hfront.isInfix
      | cons d' back =>
        rw [List.cons_prefix_cons] at hback
        rw [heq, hback.1] at hc
        exact absurd (List.mem_append_right front List.mem_cons_self) hc

end ApiDoc.Text
