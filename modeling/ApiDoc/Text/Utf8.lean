/-!
# UTF-8

Bytes become text in two ways. Strict decoding fails on the first byte that cannot be read.
Lenient decoding puts U+FFFD in place of every maximal part of a sequence that was begun and not
finished, and of every byte that cannot begin one. Both are followed by the same treatment of line
ends: a carriage return, with or without a line feed behind it, becomes a line feed.
-/

namespace ApiDoc.Text

/-- What a first byte announces: how many bytes follow, the bounds of the first of them, and the
bits of the code point that the byte carries. -/
structure Lead where
  follow : Nat
  low : Nat
  high : Nat
  bits : Nat

/-- What a byte announces as the first of a sequence, if it can be the first. -/
def Lead.ofByte? (b : Nat) : Option Lead :=
  if b < 0x80 then some ⟨0, 0, 0, b⟩
  else if b < 0xC2 then none
  else if b < 0xE0 then some ⟨1, 0x80, 0xBF, b - 0xC0⟩
  else if b = 0xE0 then some ⟨2, 0xA0, 0xBF, 0⟩
  else if b = 0xED then some ⟨2, 0x80, 0x9F, 0xD⟩
  else if b < 0xF0 then some ⟨2, 0x80, 0xBF, b - 0xE0⟩
  else if b = 0xF0 then some ⟨3, 0x90, 0xBF, 0⟩
  else if b < 0xF4 then some ⟨3, 0x80, 0xBF, b - 0xF0⟩
  else if b = 0xF4 then some ⟨3, 0x80, 0x8F, 4⟩
  else none

/-- The character of a sequence of which `lead` is still owed, or how many of its bytes are there
before it breaks off. -/
def readFollowers (lead : Lead) : List Nat → Nat ⊕ Char
  | [] => if lead.follow = 0 then .inr (Char.ofNat lead.bits) else .inl 0
  | b :: rest =>
    if lead.follow = 0 then .inr (Char.ofNat lead.bits)
    else if lead.low ≤ b ∧ b ≤ lead.high then
      match readFollowers ⟨lead.follow - 1, 0x80, 0xBF, lead.bits * 64 + b % 64⟩ rest with
      | .inl n => .inl (n + 1)
      | .inr c => .inr c
    else .inl 0

/-- The pieces of a byte sequence: a character, or none for a part that cannot be read. The first
argument counts the bytes that the last piece has taken already. -/
def utf8Pieces : Nat → List Nat → List (Option Char)
  | _, [] => []
  | taken + 1, _ :: rest => utf8Pieces taken rest
  | 0, b :: rest =>
    match Lead.ofByte? b with
    | none => none :: utf8Pieces 0 rest
    | some lead =>
      match readFollowers lead rest with
      | .inl n => none :: utf8Pieces n rest
      | .inr c => some c :: utf8Pieces lead.follow rest

/-- Text of bytes, or none if a part of them cannot be read. -/
def decodeStrict? (bytes : ByteArray) : Option (List Char) :=
  (utf8Pieces 0 (bytes.toList.map (·.toNat))).mapM id

/-- Text of bytes, with U+FFFD in place of what cannot be read. -/
def decodeLenient (bytes : ByteArray) : List Char :=
  (utf8Pieces 0 (bytes.toList.map (·.toNat))).map (·.getD (Char.ofNat 0xFFFD))

/-- Every line end as a line feed. -/
def lineFeeds : List Char → List Char
  | [] => []
  | '\r' :: '\n' :: rest => '\n' :: lineFeeds rest
  | c :: rest => (if c == '\r' then '\n' else c) :: lineFeeds rest

end ApiDoc.Text
