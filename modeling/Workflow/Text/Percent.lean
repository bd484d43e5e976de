import Workflow.Json.Reader
/-!
Percent-encoded text: a byte may be written as a percent sign and two hexadecimal digits, and the
bytes are those of UTF-8. Bytes that are no UTF-8 are read as replacement characters.
-/

namespace Workflow.Text

def replacementChar : Char := '\ufffd'

def utf8 (c : Char) : List UInt8 :=
  (String.singleton c).toUTF8.toList

/-- The bytes of a text, escapes being read. -/
def percentBytes : List Char → List UInt8
  | '%' :: a :: b :: rest =>
    match Json.hexDigit? a, Json.hexDigit? b with
    | some high, some low => UInt8.ofNat (16 * high + low) :: percentBytes rest
    | _, _ => 0x25 :: percentBytes (a :: b :: rest)
  | c :: rest => utf8 c ++ percentBytes rest
  | [] => []

/-- What a byte that starts a longer sequence says of it: how many bytes follow, what the byte adds
to the code point, and the bounds of the second byte. -/
structure Lead where
  following : Nat
  bits : Nat
  least : Nat := 0x80
  most : Nat := 0xBF

def lead? (b : Nat) : Option Lead :=
  if 0xC2 ≤ b && b ≤ 0xDF then some ⟨1, b - 0xC0, 0x80, 0xBF⟩
  else if b == 0xE0 then some ⟨2, 0, 0xA0, 0xBF⟩
  else if b == 0xED then some ⟨2, 0xD, 0x80, 0x9F⟩
  else if 0xE1 ≤ b && b ≤ 0xEF then some ⟨2, b - 0xE0, 0x80, 0xBF⟩
  else if b == 0xF0 then some ⟨3, 0, 0x90, 0xBF⟩
  else if b == 0xF4 then some ⟨3, 4, 0x80, 0x8F⟩
  else if 0xF1 ≤ b && b ≤ 0xF3 then some ⟨3, b - 0xF0, 0x80, 0xBF⟩
  else none

/-- Reads the bytes that follow the first one of a sequence; a broken sequence counts as one
replacement character. -/
def following (least most : Nat) : Nat → Nat → List UInt8 → Char × List UInt8
  | 0, bits, bs => (Char.ofNat bits, bs)
  | _, _, [] => (replacementChar, [])
  | n + 1, bits, b :: bs =>
    if least ≤ b.toNat && b.toNat ≤ most then
      following 0x80 0xBF n (bits * 64 + (b.toNat - 0x80)) bs
    else (replacementChar, b :: bs)

theorem length_following_le (least most n bits : Nat) (bs : List UInt8) :
    (following least most n bits bs).2.length ≤ bs.length := by
  induction n generalizing least most bits bs with
  | zero => simp [following]
  | succ n ih =>
    cases bs with
    | nil => simp [following]
    | cons b bs =>
      rw [following]
      split
      · exact Nat.le_trans (ih ..) (Nat.le_succ _)
      · exact Nat.le_refl _

/-- The text whose bytes are given. -/
def ofUtf8 (bs : List UInt8) : List Char :=
  match bs with
  | [] => []
  | b :: bs =>
    if b.toNat < 0x80 then Char.ofNat b.toNat :: ofUtf8 bs
    else
      match lead? b.toNat with
      | none => replacementChar :: ofUtf8 bs
      | some l =>
        (following l.least l.most l.following l.bits bs).1 ::
          ofUtf8 (following l.least l.most l.following l.bits bs).2
termination_by bs.length
decreasing_by
  · exact Nat.lt_succ_self _
  · exact Nat.lt_succ_self _
  · exact Nat.lt_succ_of_le (length_following_le ..)

def percentDecode (s : String) : String :=
  String.ofList (ofUtf8 (percentBytes s.toList))

end Workflow.Text
