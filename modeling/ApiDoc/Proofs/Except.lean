/-!
# Results of steps

What a computation of several steps gives, taken apart into what its steps give.
-/

namespace ApiDoc

variable {ε α β : Type}

/-- A result of two steps is that of the second on what the first gives. -/
theorem exists_of_bind_eq_ok {x : Except ε α} {f : α → Except ε β} {r : β}
    (h : (x >>= f) = .ok r) : ∃ a, x = .ok a ∧ f a = .ok r := by
  cases x with
  | error e => cases h
  | ok a => exact ⟨a, rfl, h⟩

/-- A result under a function comes of a result. -/
theorem exists_of_map_eq_ok {x : Except ε α} {f : α → β} {r : β} (h : x.map f = .ok r) :
    ∃ a, x = .ok a ∧ f a = r := by
  cases x with
  | error e => cases h
  | ok a => exact ⟨a, rfl, Except.ok.inj h⟩

/-- A result behind a check is that of the steps behind it, and the check has been passed. -/
theorem eq_ok_of_check {c : Prop} [Decidable c] {e : ε} {f : PUnit → Except ε α} {r : α}
    (h : (if c then throw e >>= f else f ⟨⟩) = .ok r) : ¬c ∧ f ⟨⟩ = .ok r := by
  split at h
  · cases h
  · next hc => exact ⟨hc, h⟩

/-- A last step that cannot fail adds no fault. -/
theorem bind_pure_eq_error_iff {x : Except ε α} {f : α → β} {e : ε} :
    (x >>= fun a => pure (f a)) = .error e ↔ x = .error e := by
  cases x with
  | error _ => simp [bind, Except.bind]
  | ok _ => simp [bind, Except.bind, pure, Except.pure]

/-- A result is what is there when the error is forgotten. -/
theorem toOption_eq_some_iff {x : Except ε α} {a : α} : x.toOption = some a ↔ x = .ok a := by
  cases x with
  | error fault => simp [Except.toOption]
  | ok b => simp [Except.toOption]

/-- Nothing is there when there was an error. -/
theorem toOption_eq_none_iff {x : Except ε α} : x.toOption = none ↔ ∃ e, x = .error e := by
  cases x with
  | error fault => simp [Except.toOption]
  | ok b => simp [Except.toOption]

/-- What is there when the error is forgotten is a result. -/
theorem eq_ok_of_toOption {x : Except ε α} {a : α} (h : x.toOption = some a) : x = .ok a :=
  toOption_eq_some_iff.1 h

/-- Steps that all give something give it one after another. -/
theorem mapM_eq_some_map {f : α → Option β} {g : α → β} {l : List α}
    (h : ∀ a ∈ l, f a = some (g a)) : l.mapM f = some (l.map g) := by
  induction l with
  | nil => rfl
  | cons a l ih =>
    obtain ⟨ha, hl⟩ := List.forall_mem_cons.1 h
    rw [List.mapM_cons, ha, ih hl]
    rfl

end ApiDoc
