import StupidKv.Versions

namespace StupidKv
set_option autoImplicit true

/-- The bytes of a string as `IntoBytes` takes them. -/
def textBytes (s : String) : Bytes := s.toList.flatMap String.utf8EncodeChar

/-- A byte `10xxxxxx`. -/
def isContinuation (b : UInt8) : Bool := b &&& 192 == 128

/-- Whether `c` may follow the first byte `b` of a sequence of three or four. -/
def isSecondByte (b c : UInt8) : Bool :=
  if b == 0xE0 then 0xA0 ≤ c && c ≤ 0xBF
  else if b == 0xED then 0x80 ≤ c && c ≤ 0x9F
  else if b == 0xF0 then 0x90 ≤ c && c ≤ 0xBF
  else if b == 0xF4 then 0x80 ≤ c && c ≤ 0x8F
  else 0x80 ≤ c && c ≤ 0xBF

/-- How many bytes of an ill-formed sequence the decoder replaces at once: as many as could still
begin a character. -/
def illFormedLength : Bytes → Nat
  | b :: c :: d :: _ =>
    if 0xE0 ≤ b && b ≤ 0xEF && isSecondByte b c then 2
    else if 0xF0 ≤ b && b ≤ 0xF4 && isSecondByte b c then if isContinuation d then 3 else 2
    else 1
  | [b, c] => if 0xE0 ≤ b && b ≤ 0xF4 && isSecondByte b c then 2 else 1
  | _ => 1

/-- The loop of the lossy decoder; every turn takes at least one byte. -/
def decodeLossy : Nat → Bytes → List Char
  | 0, _ => []
  | _ + 1, [] => []
  | fuel + 1, b :: bs =>
    match (b :: bs).toByteArray.utf8DecodeChar? 0 with
    | some c => c :: decodeLossy fuel ((b :: bs).drop c.utf8Size)
    | none => '\uFFFD' :: decodeLossy fuel ((b :: bs).drop (illFormedLength (b :: bs)))

/-- `String::from_utf8_lossy`. -/
def fromUtf8Lossy (bs : Bytes) : String := String.ofList (decodeLossy bs.length bs)

theorem decodeLossy_encode (cs : List Char) (fuel : Nat)
    (hf : (cs.flatMap String.utf8EncodeChar).length ≤ fuel) :
    decodeLossy fuel (cs.flatMap String.utf8EncodeChar) = cs := by
  induction cs generalizing fuel with
  | nil => cases fuel <;> rfl
  | cons c cs ih =>
    have hlen : (String.utf8EncodeChar c).length = c.utf8Size := String.length_utf8EncodeChar c
    have hpos : 0 < c.utf8Size := c.utf8Size_pos
    have hdec : (String.utf8EncodeChar c ++ cs.flatMap String.utf8EncodeChar).toByteArray.utf8DecodeChar?
        0 = some c := by
      rw [List.toByteArray_append]
      exact ByteArray.utf8DecodeChar?_utf8EncodeChar_append
    have hdrop : (String.utf8EncodeChar c ++ cs.flatMap String.utf8EncodeChar).drop c.utf8Size =
        cs.flatMap String.utf8EncodeChar := List.drop_left' hlen
    rw [List.flatMap_cons] at hf ⊢
    rw [List.length_append, hlen] at hf
    generalize hbs : String.utf8EncodeChar c ++ cs.flatMap String.utf8EncodeChar = bs at hdec hdrop ⊢
    cases fuel with
    | zero => omega
    | succ fuel =>
      cases bs with
      | nil =>
        rw [List.append_eq_nil_iff, ← List.length_eq_zero_iff] at hbs
        omega
      | cons b bs =>
        simp only [decodeLossy, hdec, hdrop]
        rw [ih fuel (by omega)]

theorem fromUtf8Lossy_textBytes (s : String) : fromUtf8Lossy (textBytes s) = s := by
  unfold fromUtf8Lossy textBytes
  rw [decodeLossy_encode s.toList _ le_rfl, String.ofList_toList]

theorem textBytes_injective : Function.Injective textBytes :=
  Function.LeftInverse.injective fromUtf8Lossy_textBytes

example : fromUtf8Lossy [0x61, 0xE2, 0x82, 0x62, 0xF0, 0x9F, 0xFF] = "a\uFFFDb\uFFFD\uFFFD" := by
  decide +kernel

end StupidKv
