import ApiDoc.Proofs.Assoc.Series
import ApiDoc.Proofs.Value.Sharing
import Mathlib.Algebra.Order.Field.Rat

/-!
# Equality of values

Atoms are equal if they are worth the same: a truth value, an integer and a floating-point number
may be one number, and two moments with different offsets one instant (`Atom.same_iff`). NaN is
worth nothing and equals nothing, itself included; so equality is symmetric and transitive but not
reflexive. As keys all NaN are one, so keys are compared by an equivalence (`Atom.beq_iff`).

Equality of values is transitive (`Value.same_trans`). A value whose objects have different keys is
like itself, and equals itself unless it is NaN (`Value.same_self`).
-/

namespace ApiDoc

/-! ## What atoms are worth -/

namespace Binary64

/-- What a number is worth: a quotient, or infinity with a sign. -/
def worth? : Binary64 → Option (ℚ ⊕ Bool)
  | .nan => none
  | .infinite s => some (.inr s)
  | .finite s m e => (toQuotient? (.finite s m e)).map fun q => .inl (q.1 / q.2)

/-- The quotient of a number has a denominator. -/
theorem toQuotient?_den_ne_zero {x : Binary64} {num : Int} {den : Nat}
    (h : x.toQuotient? = some (num, den)) : (den : ℚ) ≠ 0 := by
  cases x with
  | finite s m e =>
    simp only [toQuotient?, ratio, Option.some.injEq, Prod.mk.injEq] at h
    obtain ⟨-, rfl⟩ := h
    split
    · exact one_ne_zero
    · rw [Nat.one_shiftLeft]
      exact Nat.cast_ne_zero.2 (Nat.pow_pos Nat.two_pos).ne'
  | _ => cases h

/-- A number is worth its quotient. -/
theorem worth?_of_toQuotient? {x : Binary64} {num : Int} {den : Nat}
    (h : x.toQuotient? = some (num, den)) : x.worth? = some (.inl (num / den)) := by
  cases x with
  | finite s m e => rw [worth?, h, Option.map_some]
  | _ => cases h

/-- A number is the same as an integer just if it is worth it. -/
theorem sameInt_iff {x : Binary64} {i : Int} :
    x.sameInt i = true ↔ x.worth? = some (.inl i) := by
  cases hx : x.toQuotient? with
  | none =>
    cases x with
    | finite s m e => cases hx
    | _ => simp [sameInt, worth?, toQuotient?]
  | some q =>
    obtain ⟨num, den⟩ := q
    rw [worth?_of_toQuotient? hx, sameInt, hx]
    simp only [beq_iff_eq, Option.some.injEq, Sum.inl.injEq,
      div_eq_iff (toQuotient?_den_ne_zero hx)]
    exact_mod_cast Iff.rfl

/-- Two numbers are the same just if they are worth the same; NaN is worth nothing. -/
theorem sameNumber_iff {x y : Binary64} :
    x.sameNumber y = true ↔ ∃ w, x.worth? = some w ∧ y.worth? = some w := by
  cases hx : x.toQuotient? with
  | none =>
    cases x with
    | finite s m e => cases hx
    | nan => simp [sameNumber, worth?, toQuotient?]
    | infinite s =>
      cases y with
      | infinite t => simp [sameNumber, worth?, eq_comm (a := s)]
      | _ => simp [sameNumber, worth?, toQuotient?]
  | some p =>
    cases hy : y.toQuotient? with
    | none =>
      cases x with
      | finite s m e =>
        cases y with
        | finite t n f => cases hy
        | _ => simp [sameNumber, worth?, toQuotient?]
      | _ => cases hx
    | some q =>
      obtain ⟨a, b⟩ := p
      obtain ⟨c, d⟩ := q
      have hsame : x.sameNumber y = (a * d == c * b) := by
        cases x with
        | finite s m e => simp only [sameNumber, hx, hy]
        | _ => cases hx
      rw [hsame, worth?_of_toQuotient? hx, worth?_of_toQuotient? hy]
      simp only [beq_iff_eq, Option.some.injEq, exists_eq_left', Sum.inl.injEq,
        div_eq_div_iff (toQuotient?_den_ne_zero hy) (toQuotient?_den_ne_zero hx)]
      exact_mod_cast eq_comm

end Binary64

/-- The day of a moment, or its instant and whether that is in universal time. -/
def Moment.worth (m : Moment) : Nat ⊕ Bool × Int :=
  match m.clock with
  | none => .inl m.dayNumber
  | some c => .inr (c.offset.isSome, m.instant c)

/-- Two moments are the same just if they are worth the same. -/
theorem Moment.same_iff {m n : Moment} : m.same n = true ↔ m.worth = n.worth := by
  unfold Moment.same Moment.worth
  cases m.clock <;> cases n.clock <;> simp

/-- What an atom is worth. -/
inductive Worth where
  | null
  | number (q : ℚ ⊕ Bool)
  | text (s : String)
  | bytes (bs : List UInt8)
  | moment (m : Nat ⊕ Bool × Int)

namespace Atom

/-- What a number is worth; NaN is worth nothing. -/
def numberWorth? : Int ⊕ Binary64 → Option (ℚ ⊕ Bool)
  | .inl i => some (.inl i)
  | .inr x => x.worth?

/-- Integers and floating-point numbers are the same just if they are worth the same. -/
theorem sameNumber_iff {p q : Int ⊕ Binary64} :
    sameNumber p q = true ↔ ∃ w, numberWorth? p = some w ∧ numberWorth? q = some w := by
  cases p with
  | inl i =>
    cases q with
    | inl j => simp [sameNumber, numberWorth?, eq_comm (a := i)]
    | inr y => simp [sameNumber, numberWorth?, Binary64.sameInt_iff]
  | inr x =>
    cases q with
    | inl j => simp [sameNumber, numberWorth?, Binary64.sameInt_iff]
    | inr y => exact Binary64.sameNumber_iff

/-- What an atom is worth. -/
def worth? : Atom → Option Worth
  | .null => some .null
  | .text s => some (.text s)
  | .bytes bs => some (.bytes bs)
  | .moment m _ => some (.moment m.worth)
  | .bool b => (numberWorth? (.inl (if b then 1 else 0))).map .number
  | .int i => (numberWorth? (.inl i)).map .number
  | .float x => (numberWorth? (.inr x)).map .number

/-- An atom that is a number is worth what the number is. -/
theorem worth?_of_number? {a : Atom} {n : Int ⊕ Binary64} (h : a.number? = some n) :
    a.worth? = (numberWorth? n).map .number := by
  cases a <;> cases h <;> rfl

/-- An atom that is no number is not worth a number. -/
theorem worth?_ne_number {a : Atom} (h : a.number? = none) (q : ℚ ⊕ Bool) :
    a.worth? ≠ some (.number q) := by
  cases a <;> cases h <;> simp [worth?]

/-- Atoms are equal if they are worth the same. -/
theorem same_iff {a b : Atom} :
    a.same b = true ↔ ∃ w, a.worth? = some w ∧ b.worth? = some w := by
  unfold same
  -- truth values, integers and floating-point numbers are compared as numbers, all else by kind
  cases ha : a.number? with
  | some p =>
    rw [worth?_of_number? ha]
    cases hb : b.number? with
    | some q =>
      rw [worth?_of_number? hb]
      simp only [sameNumber_iff, Option.map_eq_some_iff]
      constructor
      · rintro ⟨w, hp, hq⟩
        exact ⟨_, ⟨w, hp, rfl⟩, w, hq, rfl⟩
      · rintro ⟨_, ⟨w, hp, rfl⟩, v, hq, heq⟩
        exact ⟨w, hp, Worth.number.inj heq ▸ hq⟩
    | none =>
      simp only [Bool.false_eq_true, Option.map_eq_some_iff, false_iff]
      rintro ⟨_, ⟨w, -, rfl⟩, hw⟩
      exact worth?_ne_number hb w hw
  | none =>
    cases hb : b.number? with
    | some q =>
      rw [worth?_of_number? hb]
      simp only [Bool.false_eq_true, Option.map_eq_some_iff, false_iff]
      rintro ⟨_, hw, w, -, rfl⟩
      exact worth?_ne_number ha w hw
    | none =>
      cases a <;> cases ha <;> cases b <;> cases hb <;> simp [worth?, Moment.same_iff]
      all_goals exact eq_comm

/-- Of all atoms NaN alone is worth nothing. -/
theorem isNaN_iff {a : Atom} : a.isNaN = true ↔ a.worth? = none := by
  cases a with
  | float x => cases x <;> simp [isNaN, worth?, numberWorth?, Binary64.worth?, Binary64.toQuotient?]
  | _ => simp [isNaN, worth?, numberWorth?]

/-- Keys are one if they are worth the same, or both nothing. -/
theorem beq_iff {a b : Atom} : (a == b) = true ↔ a.worth? = b.worth? := by
  change (a.isNaN && b.isNaN || a.same b) = true ↔ _
  rw [Bool.or_eq_true, Bool.and_eq_true, isNaN_iff, isNaN_iff, same_iff]
  constructor
  · rintro (⟨ha, hb⟩ | ⟨w, ha, hb⟩) <;> rw [ha, hb]
  · intro h
    cases ha : a.worth? with
    | none => exact .inl ⟨rfl, h ▸ ha⟩
    | some w => exact .inr ⟨w, rfl, h ▸ ha⟩

instance : EquivBEq Atom where
  rfl := beq_iff.2 rfl
  symm h := beq_iff.2 (beq_iff.1 h).symm
  trans h h' := beq_iff.2 ((beq_iff.1 h).trans (beq_iff.1 h'))

end Atom

/-! ## Equality of values, part by part -/

namespace Value

variable {u v w : Value}

/-- Values are alike just if both are NaN or they are the same. -/
theorem alike_iff : v.alike w = true ↔ v.isNaN = true ∧ w.isNaN = true ∨ v.same w = true := by
  rw [alike, Bool.or_eq_true, Bool.and_eq_true]

/-- Lists are the same just if they are alike item by item. -/
theorem sameItems_iff {xs ys : List Value} :
    sameItems xs ys = true ↔ List.Forall₂ (fun x y => x.alike y = true) xs ys := by
  induction xs generalizing ys with
  | nil => cases ys <;> simp [sameItems]
  | cons x xs ih => cases ys <;> simp [sameItems, alike, ih]

/-- Entries are found in others just if these have something alike under each key. -/
theorem sameEntries_iff {es fs : List (Atom × Value)} : sameEntries es fs = true ↔
    ∀ e ∈ es, ∃ w, Assoc.get? e.1 fs = some w ∧ e.2.alike w = true := by
  induction es with
  | nil => simp [sameEntries]
  | cons e es ih =>
    obtain ⟨k, v⟩ := e
    rw [sameEntries, Bool.and_eq_true, ih, List.forall_mem_cons]
    refine and_congr_left fun _ => ?_
    cases Assoc.get? k fs <;> simp [alike]

/-- What a list equals: a list with like items in the same order. -/
theorem same_list {m : Option Mark} {xs : List Value} : (list m xs).same v = true ↔
    ∃ m' ys, v = .list m' ys ∧ List.Forall₂ (fun x y => x.alike y = true) xs ys := by
  cases v with
  | list m' ys => simp [same, sameItems_iff]
  | _ => simp [same]

/-- What an object equals: an object with as many entries that has a like value under each key. -/
theorem same_object {m : Option Mark} {es : List (Atom × Value)} : (object m es).same v = true ↔
    ∃ m' fs, v = .object m' fs ∧ es.length = fs.length ∧
      ∀ e ∈ es, ∃ w, Assoc.get? e.1 fs = some w ∧ e.2.alike w = true := by
  cases v with
  | object m' fs => simp [same, sameEntries_iff]
  | _ => simp [same]

/-- What a pair equals: a pair of like values. -/
theorem same_pair {a b : Value} : (pair a b).same v = true ↔
    ∃ c d, v = .pair c d ∧ a.alike c = true ∧ b.alike d = true := by
  cases v with
  | pair c d => simp [same, alike]
  | _ => simp [same]

/-- What a set equals: a set with as many members that has each of them. -/
theorem same_set {m : Option Mark} {as : List Atom} : (set m as).same v = true ↔
    ∃ m' bs, v = .set m' bs ∧ as.length = bs.length ∧ ∀ a ∈ as, ∃ b ∈ bs, (b == a) = true := by
  cases v with
  | set m' bs => simp [same]
  | _ => simp [same]

/-- An atom is the same as atoms only. -/
theorem same_atom {a : Atom} : (atom a).same v = true ↔ ∃ b, v = .atom b ∧ a.same b = true := by
  cases v with
  | atom b => simp [same]
  | _ => simp [same]

/-- Values that are equal are not NaN. -/
theorem isNaN_of_same (h : v.same w = true) : v.isNaN = false ∧ w.isNaN = false := by
  cases v with
  | atom a =>
    obtain ⟨b, rfl, hab⟩ := same_atom.1 h
    obtain ⟨x, ha, hb⟩ := Atom.same_iff.1 hab
    simp only [isNaN, ← Bool.not_eq_true, Atom.isNaN_iff, ha, hb, reduceCtorEq, not_false_eq_true,
      and_self]
  | list m xs =>
    obtain ⟨m', ys, rfl, -⟩ := same_list.1 h
    exact ⟨rfl, rfl⟩
  | object m es =>
    obtain ⟨m', fs, rfl, -⟩ := same_object.1 h
    exact ⟨rfl, rfl⟩
  | pair a b =>
    obtain ⟨c, d, rfl, -⟩ := same_pair.1 h
    exact ⟨rfl, rfl⟩
  | set m as =>
    obtain ⟨m', bs, rfl, -⟩ := same_set.1 h
    exact ⟨rfl, rfl⟩

/-- Likeness is transitive where equality is. -/
theorem alike_trans_of_same (htrans : u.same v = true → v.same w = true → u.same w = true)
    (h : u.alike v = true) (h' : v.alike w = true) : u.alike w = true := by
  rw [alike_iff] at h h' ⊢
  rcases h with ⟨hu, hv⟩ | h
  · rcases h' with ⟨-, hw⟩ | h'
    · exact .inl ⟨hu, hw⟩
    · exact absurd (hv.symm.trans (isNaN_of_same h').1) Bool.false_ne_true.symm
  · rcases h' with ⟨hv, -⟩ | h'
    · exact absurd (hv.symm.trans (isNaN_of_same h).2) Bool.false_ne_true.symm
    · exact .inr (htrans h h')

/-- Equality is transitive. -/
theorem same_trans (h : u.same v = true) (h' : v.same w = true) : u.same w = true := by
  induction u using induction generalizing v w with
  | step u ih =>
    have hparts : ∀ x ∈ u.parts, ∀ {y z : Value}, x.alike y = true → y.alike z = true →
        x.alike z = true := fun x hx _ _ => alike_trans_of_same (ih x hx)
    cases u with
    | atom a =>
      obtain ⟨b, rfl, hab⟩ := same_atom.1 h
      obtain ⟨c, rfl, hbc⟩ := same_atom.1 h'
      obtain ⟨x, ha, hb⟩ := Atom.same_iff.1 hab
      obtain ⟨y, hb', hc⟩ := Atom.same_iff.1 hbc
      obtain rfl : x = y := Option.some.inj (hb.symm.trans hb')
      exact same_atom.2 ⟨c, rfl, Atom.same_iff.2 ⟨x, ha, hc⟩⟩
    | list m xs =>
      obtain ⟨m', ys, rfl, hxy⟩ := same_list.1 h
      obtain ⟨m'', zs, rfl, hyz⟩ := same_list.1 h'
      refine same_list.2 ⟨m'', zs, rfl, ?_⟩
      change ∀ x ∈ xs, _ at hparts
      clear h h' ih
      induction hxy generalizing zs with
      | nil =>
        cases hyz
        exact .nil
      | cons hx hrest ihrest =>
        cases hyz with
        | cons hy hyz =>
          exact .cons (hparts _ List.mem_cons_self hx hy)
            (ihrest _ hyz fun x hx => hparts x (List.mem_cons_of_mem _ hx))
    | object m es =>
      obtain ⟨m', fs, rfl, hlength, hef⟩ := same_object.1 h
      obtain ⟨m'', gs, rfl, hlength', hfg⟩ := same_object.1 h'
      refine same_object.2 ⟨m'', gs, rfl, hlength.trans hlength', fun e he => ?_⟩
      obtain ⟨y, hy, hey⟩ := hef e he
      -- the value in between is under an equal key, and that key leads to the last value
      obtain ⟨k, hk, hkey⟩ := Assoc.exists_mem_of_get? hy
      obtain ⟨z, hz, hyz⟩ := hfg (k, y) hk
      rw [Assoc.get?_congr hkey] at hz
      exact ⟨z, hz, hparts e.2 (snd_mem_parts he) hey hyz⟩
    | pair a b =>
      obtain ⟨c, d, rfl, hac, hbd⟩ := same_pair.1 h
      obtain ⟨c', d', rfl, hcc, hdd⟩ := same_pair.1 h'
      exact same_pair.2 ⟨c', d', rfl, hparts a (List.mem_pair.2 (.inl rfl)) hac hcc,
        hparts b (List.mem_pair.2 (.inr rfl)) hbd hdd⟩
    | set m as =>
      obtain ⟨m', bs, rfl, hlength, hab⟩ := same_set.1 h
      obtain ⟨m'', cs, rfl, hlength', hbc⟩ := same_set.1 h'
      refine same_set.2 ⟨m'', cs, rfl, hlength.trans hlength', fun a ha => ?_⟩
      obtain ⟨b, hb, hba⟩ := hab a ha
      obtain ⟨c, hc, hcb⟩ := hbc b hb
      exact ⟨c, hc, BEq.trans hcb hba⟩

/-! ## Values whose objects have different keys -/

mutual

/-- Whether no two keys of an object are equal, in a value and in all its parts. -/
def isKeyed : Value → Bool
  | .atom _ => true
  | .list _ items => areKeyedItems items
  | .object _ entries => decide (Assoc.Different entries) && areKeyedEntries entries
  | .pair a b => isKeyed a && isKeyed b
  | .set _ _ => true

/-- Whether all items have objects with different keys only. -/
def areKeyedItems : List Value → Bool
  | [] => true
  | v :: rest => isKeyed v && areKeyedItems rest

/-- Whether all values of entries have objects with different keys only. -/
def areKeyedEntries : List (Atom × Value) → Bool
  | [] => true
  | (_, v) :: rest => isKeyed v && areKeyedEntries rest

end

/-- All items are keyed just if each of them is. -/
theorem areKeyedItems_iff {items : List Value} :
    areKeyedItems items = true ↔ ∀ v ∈ items, v.isKeyed = true := by
  induction items with
  | nil => simp [areKeyedItems]
  | cons v items ih => simp [areKeyedItems, ih]

/-- All values of entries are keyed just if each of them is. -/
theorem areKeyedEntries_iff {entries : List (Atom × Value)} :
    areKeyedEntries entries = true ↔ ∀ e ∈ entries, e.2.isKeyed = true := by
  induction entries with
  | nil => simp [areKeyedEntries]
  | cons e entries ih => simp [areKeyedEntries, ih]

/-- An object is keyed just if its keys are different and its values are keyed. -/
theorem isKeyed_object {m : Option Mark} {entries : List (Atom × Value)} :
    (object m entries).isKeyed = true ↔
      Assoc.Different entries ∧ ∀ e ∈ entries, e.2.isKeyed = true := by
  rw [isKeyed, Bool.and_eq_true, decide_eq_true_iff, areKeyedEntries_iff]

/-- The objects in the parts of a value have different keys if those in the value have. -/
theorem isKeyed_part (h : v.isKeyed = true) (hw : w ∈ v.parts) : w.isKeyed = true := by
  cases v with
  | atom a => exact absurd hw List.not_mem_nil
  | list m items =>
    rw [isKeyed, areKeyedItems_iff] at h
    exact h w hw
  | object m entries =>
    obtain ⟨e, he, hw⟩ := mem_parts_object.1 hw
    rcases hw with rfl | rfl
    · rw [isKeyed]
    · exact (isKeyed_object.1 h).2 e he
  | pair a b =>
    rw [isKeyed, Bool.and_eq_true] at h
    rcases List.mem_pair.1 hw with rfl | rfl
    · exact h.1
    · exact h.2
  | set m items =>
    obtain ⟨a, -, rfl⟩ := List.mem_map.1 hw
    rw [isKeyed]

/-- A value whose objects have different keys equals itself, unless it is NaN. -/
theorem same_self (h : v.isKeyed = true) (hv : v.isNaN = false) : v.same v = true := by
  induction v using induction with
  | step v ih =>
    -- the parts are compared by likeness, so one of them may be a NaN
    have hparts : ∀ w ∈ v.parts, w.alike w = true := by
      intro w hw
      rw [alike_iff]
      cases hnan : w.isNaN with
      | true => exact .inl ⟨rfl, rfl⟩
      | false => exact .inr (ih w hw (isKeyed_part h hw) hnan)
    cases v with
    | atom a =>
      rw [isNaN, ← Bool.not_eq_true, Atom.isNaN_iff, ← ne_eq, Option.ne_none_iff_exists'] at hv
      obtain ⟨x, hx⟩ := hv
      exact same_atom.2 ⟨a, rfl, Atom.same_iff.2 ⟨x, hx, hx⟩⟩
    | list m items => exact same_list.2 ⟨m, items, rfl, List.forall₂_same.2 hparts⟩
    | object m entries =>
      refine same_object.2 ⟨m, entries, rfl, rfl, fun e he =>
        ⟨e.2, ?_, hparts e.2 (snd_mem_parts he)⟩⟩
      exact Assoc.get?_of_mem_different (isKeyed_object.1 h).1 he
    | pair a b =>
      exact same_pair.2 ⟨a, b, rfl, hparts a (List.mem_pair.2 (.inl rfl)),
        hparts b (List.mem_pair.2 (.inr rfl))⟩
    | set m items => exact same_set.2 ⟨m, items, rfl, rfl, fun a ha => ⟨a, ha, BEq.rfl⟩⟩

/-- A value whose objects have different keys is found among others. -/
theorem alike_self (h : v.isKeyed = true) : v.alike v = true := by
  rw [alike_iff]
  cases hnan : v.isNaN with
  | true => exact .inl ⟨rfl, rfl⟩
  | false => exact .inr (same_self h hnan)

end Value

end ApiDoc
