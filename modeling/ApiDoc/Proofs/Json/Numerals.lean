import ApiDoc.Proofs.Json.NonFinite
import ApiDoc.Proofs.Json.RoundTrip
import ApiDoc.Proofs.Text.Blank

/-!
# Forms of written numbers

An integer and a finite floating-point number are written in one of three forms (`IsNumeral`), with
a sign in front if they are negative: `isNumber_of_intText` and `isNumber_of_floatText`. Digits
alone are read as an integer, and digits with a point as a floating-point number.
-/

namespace ApiDoc

open Json (isNumberChar)

/-- Decimal digits, at least one. -/
def IsDigits (ds : List Char) : Prop := ds ≠ [] ∧ ∀ c ∈ ds, c.isDigit = true

/-- A power of ten, or nothing. -/
inductive IsPower : List Char → Prop where
  | none : IsPower []
  | some {sign : Char} {ds : List Char} (hsign : sign = '-' ∨ sign = '+') (hds : IsDigits ds) :
      IsPower ('e' :: sign :: ds)

/-- The three forms of a number without its sign. -/
inductive IsNumeral : List Char → Prop where
  /-- A whole number, without leading zeros. -/
  | whole {ds : List Char} (hds : IsDigits ds) (hzero : ds.head? = some '0' → ds = ['0'])
      (hlength : ds.length ≤ Numeral.maxDigits) : IsNumeral ds
  /-- A number with a point. -/
  | point {ds fraction power : List Char} (hds : IsDigits ds)
      (hfraction : ∀ c ∈ fraction, c.isDigit = true) (hpower : IsPower power) :
      IsNumeral (ds ++ '.' :: (fraction ++ power))
  /-- At most one digit and a power of ten. -/
  | power (digit : Option Char) {power : List Char} (hdigit : ∀ c ∈ digit, c.isDigit = true)
      (hpower : IsPower power) (hne : power ≠ []) : IsNumeral (digit.toList ++ power)

/-- A number with its sign. -/
def IsNumber (t : List Char) : Prop := ∃ n, IsNumeral n ∧ (t = n ∨ t = '-' :: n)

variable {s t ds rest : List Char}

/-- The digits of a number are digits, and at least one. -/
theorem isDigits_toDigits (n : Nat) : IsDigits (Nat.toDigits 10 n) :=
  ⟨Nat.toDigits_ne_nil, fun _ hc => Nat.isDigit_of_mem_toDigits (by decide) (by decide) hc⟩

/-- The text of an integer is a number. -/
theorem isNumber_of_intText {i : Int} (h : Json.intText i = .ok t) : IsNumber t := by
  unfold Json.intText at h
  split at h
  · next digits hdigits =>
    cases h
    unfold Numeral.text? at hdigits
    simp only at hdigits
    split at hdigits
    · cases hdigits
    next hlength =>
    have hzero : (Nat.toDigits 10 i.natAbs).head? = some '0' →
        Nat.toDigits 10 i.natAbs = ['0'] := by
      intro hhead
      by_cases hi : i.natAbs = 0
      · rw [hi]
        rfl
      · exact absurd hhead (Json.head?_toDigits hi)
    refine ⟨_, .whole (isDigits_toDigits i.natAbs) hzero (Nat.le_of_not_lt hlength), ?_⟩
    cases hdigits
    split
    · exact .inr rfl
    · exact .inl rfl
  · cases h

/-- The positional form of digits is a numeral. -/
theorem isNumeral_positional (h : ∀ c ∈ ds, c.isDigit = true) (n : Int) :
    IsNumeral (Binary64.positional ds n) := by
  have hzeros : ∀ k, ∀ c ∈ List.replicate k '0', c.isDigit = true := by
    intro k c hc
    rw [List.eq_of_mem_replicate hc]
    decide
  unfold Binary64.positional
  split
  · have hfraction := List.forall_mem_append.2 ⟨hzeros (-n).toNat, h⟩
    have hpoint := IsNumeral.point ⟨List.cons_ne_nil '0' [], by simp⟩ hfraction .none
    rwa [List.append_nil] at hpoint
  · next hn =>
    -- zeros fill up the digits to the point
    have hwhole : IsDigits (ds.take n.toNat ++
        List.replicate (n.toNat - (ds.take n.toNat).length) '0') := by
      refine ⟨List.ne_nil_of_length_pos ?_, List.forall_mem_append.2
        ⟨fun c hc => h c (List.mem_of_mem_take hc), hzeros _⟩⟩
      rw [List.length_append, List.length_replicate]
      omega
    have hfraction : ∀ c ∈ (if (ds.drop n.toNat).isEmpty then ['0'] else ds.drop n.toNat),
        c.isDigit = true := by
      split
      · simp
      · exact fun c hc => h c (List.mem_of_mem_drop hc)
    have hpoint := IsNumeral.point hwhole hfraction .none
    rwa [List.append_nil] at hpoint

/-- The scientific form of digits is a numeral. -/
theorem isNumeral_scientific (h : ∀ c ∈ ds, c.isDigit = true) (e : Int) :
    IsNumeral (Binary64.scientific ds e) := by
  have hsign : (if e < 0 then '-' else '+') = '-' ∨ (if e < 0 then '-' else '+') = '+' := by
    split
    · exact .inl rfl
    · exact .inr rfl
  have hdigits : IsDigits (if (Nat.toDigits 10 e.natAbs).length < 2
      then '0' :: Nat.toDigits 10 e.natAbs else Nat.toDigits 10 e.natAbs) := by
    split
    · exact ⟨List.cons_ne_nil _ _, List.forall_mem_cons.2 ⟨rfl, (isDigits_toDigits _).2⟩⟩
    · exact isDigits_toDigits _
  have hpower := IsPower.some hsign hdigits
  unfold Binary64.scientific
  simp only
  split
  · exact .power none (by simp) hpower (List.cons_ne_nil _ _)
  · next d =>
    have hd : ∀ c ∈ some d, c.isDigit = true := by simpa using h
    exact .power (some d) hd hpower (List.cons_ne_nil _ _)
  · next d rest _ =>
    obtain ⟨hd, hrest⟩ := List.forall_mem_cons.1 h
    have hwhole : IsDigits [d] := ⟨List.cons_ne_nil _ _, List.forall_mem_singleton.2 hd⟩
    exact .point hwhole hrest hpower

/-- The text of a finite number is a number. -/
theorem isNumber_of_floatText {x : Binary64} (h : x.isFinite = true) :
    IsNumber (Json.floatText x) := by
  rw [Json.floatText_of_isFinite h]
  cases x with
  | nan => cases h
  | infinite negative => cases h
  | finite negative m e =>
    have hdigits : ∀ d, ∀ c ∈ Binary64.significantDigits d, c.isDigit = true := by
      intro d c hc
      have hmem := (List.dropWhile_sublist _).subset (List.mem_reverse.1 hc)
      exact (isDigits_toDigits d.digits).2 c (List.mem_reverse.1 hmem)
    have hmagnitude :
        IsNumeral (if m = 0 then ['0', '.', '0'] else Binary64.magnitudeText m e) := by
      split
      · exact isNumeral_positional (List.forall_mem_nil _) 1
      · unfold Binary64.magnitudeText
        simp only
        split
        · exact isNumeral_positional (hdigits _) _
        · exact isNumeral_scientific (hdigits _) _
    rw [Binary64.text, String.toList_ofList]
    refine ⟨_, hmagnitude, ?_⟩
    split
    · exact .inr rfl
    · exact .inl rfl

/-- The characters of numbers are few enough to try them all. -/
theorem of_isNumberChar {p : Char → Bool} (hp : "0123456789+-.e".toList.all p = true) {c : Char}
    (h : isNumberChar c = true) : p c = true := by
  refine List.all_eq_true.1 hp c ?_
  rw [isNumberChar, Bool.or_eq_true] at h
  rcases h with h | h
  · have hcode : 48 ≤ c.toNat ∧ c.toNat ≤ 57 := by
      simpa [Char.isDigit, UInt32.le_iff_toNat_le] using h
    have hall : ∀ n < 58, 48 ≤ n → Char.ofNat n ∈ "0123456789+-.e".toList := by decide
    have hmem := hall c.toNat (by omega) hcode.1
    rwa [Char.ofNat_toNat] at hmem
  · have hsign : c = '+' ∨ c = '-' ∨ c = '.' ∨ c = 'e' := by simpa using h
    rcases hsign with rfl | rfl | rfl | rfl <;> decide

/-- A digit is a character of numbers. -/
theorem isNumberChar_of_isDigit {c : Char} (h : c.isDigit = true) : isNumberChar c = true := by
  rw [isNumberChar, h, Bool.true_or]

/-- A power of ten has characters of numbers only. -/
theorem IsPower.isNumberChar (h : IsPower t) : ∀ c ∈ t, isNumberChar c = true := by
  cases h with
  | none => exact List.forall_mem_nil _
  | some hsign hds =>
    refine List.forall_mem_cons.2 ⟨by decide, List.forall_mem_cons.2 ⟨?_, fun c hc => ?_⟩⟩
    · rcases hsign with rfl | rfl <;> decide
    · exact isNumberChar_of_isDigit (hds.2 c hc)

/-- A numeral has characters of numbers only. -/
theorem IsNumeral.isNumberChar (h : IsNumeral t) : ∀ c ∈ t, isNumberChar c = true := by
  cases h with
  | whole hds _ _ => exact fun c hc => isNumberChar_of_isDigit (hds.2 c hc)
  | point hds hfraction hpower =>
    refine List.forall_mem_append.2 ⟨fun c hc => isNumberChar_of_isDigit (hds.2 c hc), ?_⟩
    refine List.forall_mem_cons.2 ⟨by decide, List.forall_mem_append.2 ⟨fun c hc => ?_, ?_⟩⟩
    · exact isNumberChar_of_isDigit (hfraction c hc)
    · exact hpower.isNumberChar
  | power digit hdigit hpower _ =>
    refine List.forall_mem_append.2 ⟨fun c hc => ?_, hpower.isNumberChar⟩
    exact isNumberChar_of_isDigit (hdigit c (Option.mem_toList.1 hc))

/-- Digits have a digit. -/
theorem IsDigits.exists_digit (h : IsDigits t) : ∃ c ∈ t, c.isDigit = true := by
  obtain ⟨c, rest, rfl⟩ := List.exists_cons_of_ne_nil h.1
  exact ⟨c, List.mem_cons_self, h.2 c List.mem_cons_self⟩

/-- A numeral has a digit. -/
theorem IsNumeral.exists_digit (h : IsNumeral t) : ∃ c ∈ t, c.isDigit = true := by
  cases h with
  | whole hds _ _ => exact hds.exists_digit
  | point hds _ _ =>
    obtain ⟨c, hc, hdigit⟩ := hds.exists_digit
    exact ⟨c, List.mem_append_left _ hc, hdigit⟩
  | power digit _ hpower hne =>
    cases hpower with
    | none => exact absurd rfl hne
    | some _ hds =>
      obtain ⟨c, hc, hdigit⟩ := hds.exists_digit
      exact ⟨c, List.mem_append_right _ (List.mem_cons_of_mem _ (List.mem_cons_of_mem _ hc)),
        hdigit⟩

/-- A number starts with a digit, or with its power of ten. -/
theorem IsNumeral.start (h : IsNumeral t) :
    ∃ c rest, t = c :: rest ∧ (c.isDigit = true ∨ c = 'e') := by
  have hdigits : ∀ {ds : List Char} (rest : List Char), IsDigits ds →
      ∃ c rest', ds ++ rest = c :: rest' ∧ (c.isDigit = true ∨ c = 'e') := by
    rintro ds rest ⟨hne, hds⟩
    obtain ⟨c, ds, rfl⟩ := List.exists_cons_of_ne_nil hne
    exact ⟨c, ds ++ rest, rfl, .inl (hds c List.mem_cons_self)⟩
  cases h with
  | whole hds _ _ => simpa using hdigits [] hds
  | point hds _ _ => exact hdigits _ hds
  | power digit hdigit hpower hne =>
    cases digit with
    | some d => exact ⟨d, _, rfl, .inl (hdigit d rfl)⟩
    | none =>
      cases hpower with
      | none => exact absurd rfl hne
      | some _ _ => exact ⟨'e', _, rfl, .inr rfl⟩

/-- A number starts with no sign. -/
theorem IsNumeral.ne_sign (h : IsNumeral t) (rest : List Char) :
    t ≠ '-' :: rest ∧ t ≠ '+' :: rest := by
  obtain ⟨c, behind, rfl, hc⟩ := h.start
  have hne : c ≠ '-' ∧ c ≠ '+' := by
    rcases hc with hc | rfl
    · constructor <;> rintro rfl <;> exact absurd hc (by decide)
    · decide
  exact ⟨fun heq => hne.1 (List.cons.inj heq).1, fun heq => hne.2 (List.cons.inj heq).1⟩

/-! ## Reading the forms -/

namespace Numeral

/-- A decimal digit has the value that it stands for. -/
theorem digitValue?_of_isDigit {c : Char} (h : c.isDigit = true) :
    Text.digitValue? c = some (c.toNat - 48) := by
  rw [Text.digitValue?, if_pos h]

/-- Digits are taken up to a point or to a power of ten. -/
theorem takeDigits_append (hds : ∀ c ∈ ds, c.isDigit = true)
    (hrest : ∀ c ∈ rest.head?, c = '.' ∨ c = 'e') (afterDigit : Bool) :
    takeDigits afterDigit (ds ++ rest) = (Json.digitValues ds, rest) := by
  induction ds generalizing afterDigit with
  | nil =>
    cases rest with
    | nil => rfl
    | cons c rest => rcases hrest c rfl with rfl | rfl <;> rfl
  | cons c ds ih =>
    obtain ⟨hc, hds⟩ := List.forall_mem_cons.1 hds
    rw [List.cons_append, takeDigits]
    · simp only [digitValue?_of_isDigit hc, ih hds]
      rfl
    · rintro _ _ rfl
      exact absurd hc (by decide)

/-- Digits are taken to their end. -/
theorem takeDigits_of_isDigits (h : IsDigits ds) :
    takeDigits false ds = (Json.digitValues ds, []) ∧ Json.digitValues ds ≠ [] := by
  have htake : takeDigits false (ds ++ []) = (Json.digitValues ds, []) :=
    takeDigits_append h.2 (by simp) false
  rw [List.append_nil] at htake
  exact ⟨htake, fun hnil => h.1 (List.map_eq_nil_iff.1 hnil)⟩

/-- A power of ten has an exponent. -/
theorem exists_exponent? (h : IsPower t) : ∃ e, exponent? t = some e := by
  cases h with
  | none => exact ⟨0, rfl⟩
  | @some sign ds hsign hds =>
    obtain ⟨htake, hne⟩ := takeDigits_of_isDigits hds
    have hbody : ∃ negative, takeSign (sign :: ds) = (negative, ds) := by
      rcases hsign with rfl | rfl
      · exact ⟨true, rfl⟩
      · exact ⟨false, rfl⟩
    obtain ⟨negative, hbody⟩ := hbody
    obtain ⟨d, values, hvalues⟩ := List.exists_cons_of_ne_nil hne
    have he : ('e' == 'e' || 'e' == 'E') = true := by decide
    rw [exponent?, he, hbody]
    simp only [if_true, htake, hvalues]
    exact ⟨_, rfl⟩

/-- A number has no blanks around it. -/
theorem bare_eq_self (h : ∀ c ∈ t, isNumberChar c = true) : bare t = t := by
  refine Text.trimBy_eq_self fun c hc => ?_
  have hall : "0123456789+-.e".toList.all (!Text.isBlank ·) = true := by decide
  have hblank := of_isNumberChar hall (h c hc)
  rw [Bool.not_eq_true'] at hblank
  rw [hblank, Bool.false_and]

/-- A number has no sign to be taken. -/
theorem takeSign_of_isNumeral (h : IsNumeral t) : takeSign t = (false, t) := by
  rw [takeSign]
  · exact fun rest => (h.ne_sign rest).1
  · exact fun rest => (h.ne_sign rest).2

/-- Digits that are not too many are read as an integer. -/
theorem exists_integer? (hds : IsDigits ds) (hnumeral : IsNumeral ds)
    (hlength : ds.length ≤ maxDigits) : ∃ i, integer? ds = some i := by
  obtain ⟨htake, hne⟩ := takeDigits_of_isDigits hds
  obtain ⟨d, values, hvalues⟩ := List.exists_cons_of_ne_nil hne
  have hlimit : ¬maxDigits < (d :: values).length := by
    rw [← hvalues, Json.digitValues, List.length_map]
    omega
  rw [integer?, bare_eq_self hnumeral.isNumberChar, takeSign_of_isNumeral hnumeral]
  simp only [htake, hvalues, if_neg hlimit]
  exact ⟨_, rfl⟩

/-- Digits with a fraction are read as a floating-point number. -/
theorem exists_float? {fraction power : List Char} (hds : IsDigits ds)
    (hfraction : ∀ c ∈ fraction, c.isDigit = true) (hpower : IsPower power) :
    ∃ x, float? (ds ++ '.' :: (fraction ++ power)) = some x := by
  have hnumeral := IsNumeral.point hds hfraction hpower
  have hwhole : takeDigits false (ds ++ '.' :: (fraction ++ power)) =
      (Json.digitValues ds, '.' :: (fraction ++ power)) :=
    takeDigits_append hds.2 (by simp) false
  have hrest : takeDigits false (fraction ++ power) = (Json.digitValues fraction, power) := by
    refine takeDigits_append hfraction (fun c hc => ?_) false
    cases hpower with
    | none => cases hc
    | some _ _ => exact .inr (Option.some.inj hc).symm
  have hne : (Json.digitValues ds).isEmpty = false := by
    simpa [Json.digitValues] using hds.1
  obtain ⟨e, he⟩ := exists_exponent? hpower
  rw [float?, bare_eq_self hnumeral.isNumberChar, takeSign_of_isNumeral hnumeral]
  simp only [unsigned?, hwhole, hrest, hne, he, Bool.false_and, Bool.false_eq_true, if_false]
  exact ⟨_, rfl⟩

end Numeral

end ApiDoc
