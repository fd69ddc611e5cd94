import ApiDoc.Text.Utf8
import Mathlib.Data.List.Basic

/-!
# Texts and their bytes

The bytes of a text are read as that text: `decodeStrict?_ofList`. A character takes one to four
bytes, of which the first announces how many follow, and the bounds for the second byte leave out
nothing but what is no character or has a shorter form.
-/

namespace ApiDoc.Text

/-! ## Bytes of an array -/

/-- The bytes from a place on go behind those that were read. -/
theorem toList_loop_eq (bytes : ByteArray) (i : Nat) (front : List UInt8) :
    ByteArray.toList.loop bytes i front = front.reverse ++ bytes.data.toList.drop i := by
  fun_induction ByteArray.toList.loop bytes i front with
  | case1 i front hi ih =>
    have hi' : i < bytes.data.toList.length := by simpa using hi
    have hget : bytes.get! i = bytes.data.toList[i] := by
      have hdata : i < bytes.data.size := by simpa using hi'
      simp [ByteArray.get!, getElem!_pos bytes.data i hdata]
    rw [ih, List.drop_eq_getElem_cons hi', hget]
    simp
  | case2 i front hi =>
    have hi' : bytes.data.toList.length ≤ i := by simpa using hi
    simp [List.drop_eq_nil_of_le hi']

/-- Bytes are kept as an array. -/
theorem toList_toByteArray (bytes : List UInt8) : bytes.toByteArray.toList = bytes := by
  rw [ByteArray.toList, toList_loop_eq]
  simp

/-! ## Bytes of a character -/

/-- A first byte that needs no others is a character. -/
theorem readFollowers_of_follow_eq_zero {lead : Lead} (h : lead.follow = 0) (bytes : List Nat) :
    readFollowers lead bytes = .inr (Char.ofNat lead.bits) := by
  cases bytes <;> simp [readFollowers, h]

/-- A byte within its bounds is followed by the others. -/
theorem readFollowers_cons {lead : Lead} {b : Nat} (hlead : lead.follow ≠ 0)
    (hb : lead.low ≤ b ∧ b ≤ lead.high) {bytes : List Nat} {c : Char}
    (h : readFollowers ⟨lead.follow - 1, 0x80, 0xBF, lead.bits * 64 + b % 64⟩ bytes = .inr c) :
    readFollowers lead (b :: bytes) = .inr c := by
  rw [readFollowers, if_neg hlead, if_pos hb, h]

/-- A first byte and those that follow it are one character. -/
theorem utf8Pieces_of_readFollowers {b : Nat} {lead : Lead} {bytes : List Nat} {c : Char}
    (hlead : Lead.ofByte? b = some lead) (h : readFollowers lead bytes = .inr c) :
    utf8Pieces 0 (b :: bytes) = some c :: utf8Pieces lead.follow bytes := by
  simp only [utf8Pieces, hlead, h]

/-- The first byte of two. -/
theorem Lead.ofByte?_two {b : Nat} (h : 0xC2 ≤ b ∧ b < 0xE0) :
    Lead.ofByte? b = some ⟨1, 0x80, 0xBF, b - 0xC0⟩ := by
  rw [Lead.ofByte?, if_neg (by omega), if_neg (by omega), if_pos h.2]

/-- The first byte of three. -/
theorem Lead.ofByte?_three {b : Nat} (h : 0xE0 ≤ b ∧ b < 0xF0) :
    Lead.ofByte? b =
      some ⟨2, if b = 0xE0 then 0xA0 else 0x80, if b = 0xED then 0x9F else 0xBF, b - 0xE0⟩ := by
  rw [Lead.ofByte?, if_neg (by omega), if_neg (by omega), if_neg (by omega)]
  by_cases hlow : b = 0xE0
  · subst hlow; rfl
  by_cases hhigh : b = 0xED
  · subst hhigh; rfl
  simp only [if_neg hlow, if_neg hhigh, if_pos h.2]

/-- The first byte of four. -/
theorem Lead.ofByte?_four {b : Nat} (h : 0xF0 ≤ b ∧ b < 0xF5) :
    Lead.ofByte? b =
      some ⟨3, if b = 0xF0 then 0x90 else 0x80, if b = 0xF4 then 0x8F else 0xBF, b - 0xF0⟩ := by
  obtain rfl | rfl | rfl | rfl | rfl :
      b = 0xF0 ∨ b = 0xF1 ∨ b = 0xF2 ∨ b = 0xF3 ∨ b = 0xF4 := by omega
  all_goals rfl

/-- A character of one byte. -/
theorem utf8Pieces_one {v : Nat} (h : v < 0x80) (bytes : List Nat) :
    utf8Pieces 0 (v :: bytes) = some (Char.ofNat v) :: utf8Pieces 0 bytes := by
  have hlead : Lead.ofByte? v = some ⟨0, 0, 0, v⟩ := by rw [Lead.ofByte?, if_pos h]
  exact utf8Pieces_of_readFollowers hlead (readFollowers_of_follow_eq_zero rfl _)

/-- A character of two bytes. -/
theorem utf8Pieces_two {v : Nat} (h : 0x80 ≤ v ∧ v < 0x800) (bytes : List Nat) :
    utf8Pieces 0 ((v / 64 % 32 + 192) :: (v % 64 + 128) :: bytes) =
      some (Char.ofNat v) :: utf8Pieces 0 bytes := by
  refine utf8Pieces_of_readFollowers (Lead.ofByte?_two (by omega)) ?_
  refine readFollowers_cons (Nat.succ_ne_zero _) (by dsimp only; omega) ?_
  refine (readFollowers_of_follow_eq_zero rfl _).trans ?_
  exact congrArg (Sum.inr <| Char.ofNat ·) (by dsimp only; omega)

/-- A character of three bytes, which is no surrogate. -/
theorem utf8Pieces_three {v : Nat} (h : 0x800 ≤ v ∧ v < 0x10000) (hv : v.isValidChar)
    (bytes : List Nat) :
    utf8Pieces 0 ((v / 4096 % 16 + 224) :: (v / 64 % 64 + 128) :: (v % 64 + 128) :: bytes) =
      some (Char.ofNat v) :: utf8Pieces 0 bytes := by
  have hvalid : v < 0xD800 ∨ 0xDFFF < v ∧ v < 0x110000 := hv
  refine utf8Pieces_of_readFollowers (Lead.ofByte?_three (by omega)) ?_
  refine readFollowers_cons (Nat.succ_ne_zero _) (by dsimp only; split_ifs <;> omega) ?_
  refine readFollowers_cons (Nat.succ_ne_zero _) (by dsimp only; omega) ?_
  refine (readFollowers_of_follow_eq_zero rfl _).trans ?_
  exact congrArg (Sum.inr <| Char.ofNat ·) (by dsimp only; omega)

/-- A character of four bytes. -/
theorem utf8Pieces_four {v : Nat} (h : 0x10000 ≤ v ∧ v < 0x110000) (bytes : List Nat) :
    utf8Pieces 0
        ((v / 262144 % 8 + 240) :: (v / 4096 % 64 + 128) :: (v / 64 % 64 + 128) ::
          (v % 64 + 128) :: bytes) =
      some (Char.ofNat v) :: utf8Pieces 0 bytes := by
  refine utf8Pieces_of_readFollowers (Lead.ofByte?_four (by omega)) ?_
  refine readFollowers_cons (Nat.succ_ne_zero _) (by dsimp only; split_ifs <;> omega) ?_
  refine readFollowers_cons (Nat.succ_ne_zero _) (by dsimp only; omega) ?_
  refine readFollowers_cons (Nat.succ_ne_zero _) (by dsimp only; omega) ?_
  refine (readFollowers_of_follow_eq_zero rfl _).trans ?_
  exact congrArg (Sum.inr <| Char.ofNat ·) (by dsimp only; omega)

/-- The bytes of a character are read as that character, whatever stands behind them. -/
theorem utf8Pieces_encodeChar (c : Char) (bytes : List Nat) :
    utf8Pieces 0 ((String.utf8EncodeChar c).map (·.toNat) ++ bytes) =
      some c :: utf8Pieces 0 bytes := by
  have hvalid : c.val.toNat < 0xD800 ∨ 0xDFFF < c.val.toNat ∧ c.val.toNat < 0x110000 := c.valid
  have hchar : Char.ofNat c.val.toNat = c := Char.ofNat_toNat c
  have hbyte : ∀ n < 256, (UInt8.ofNat n).toNat = n := fun n hn =>
    UInt8.toNat_ofNat_of_lt' hn
  unfold String.utf8EncodeChar
  simp only
  split_ifs <;> simp only [List.map_cons, List.map_nil, List.cons_append, List.nil_append]
  · rw [hbyte _ (by omega), utf8Pieces_one (by omega), hchar]
  · rw [hbyte _ (by omega), hbyte _ (by omega), utf8Pieces_two (by omega), hchar]
  · rw [hbyte _ (by omega), hbyte _ (by omega), hbyte _ (by omega),
      utf8Pieces_three (by omega) c.valid, hchar]
  · rw [hbyte _ (by omega), hbyte _ (by omega), hbyte _ (by omega), hbyte _ (by omega),
      utf8Pieces_four (by omega), hchar]

/-- A text is decoded from its bytes. -/
theorem decodeStrict?_ofList (text : List Char) :
    decodeStrict? (String.ofList text).toUTF8 = some text := by
  have hbytes : (String.ofList text).toUTF8.toList = text.flatMap String.utf8EncodeChar :=
    toList_toByteArray _
  rw [decodeStrict?, hbytes]
  clear hbytes
  induction text with
  | nil => rfl
  | cons c text ih =>
    rw [List.flatMap_cons, List.map_append, utf8Pieces_encodeChar, List.mapM_cons, ih]
    rfl

/-! ## Line ends -/

/-- A text without carriage returns has line feeds only. -/
theorem lineFeeds_eq_self {s : List Char} (h : '\r' ∉ s) : lineFeeds s = s := by
  induction s with
  | nil => rfl
  | cons c s ih =>
    obtain ⟨hc, hs⟩ := not_or.1 (List.mem_cons.not.1 h)
    have hne : (c == '\r') = false := beq_eq_false_iff_ne.2 fun heq => hc heq.symm
    rw [lineFeeds, ih hs, hne]
    · rfl
    · exact fun _ heq _ => hc heq.symm

end ApiDoc.Text
