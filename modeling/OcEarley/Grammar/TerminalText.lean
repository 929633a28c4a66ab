import OcEarley.Grammar.Grammar
import OcEarley.Schema.Pointer

/-!
# The pattern texts of a terminal

A terminal has a forward pattern and may have a reverse one, for its language read backwards.  The
pattern of a literal escapes its bytes, decoded with `String::from_utf8_lossy`; what `regex::escape`
does to a text is a parameter.
-/

namespace OcEarley

/-! ### Lossy decoding -/

/-- How many bytes follow a first byte, and the range of the next one. -/
def utf8Follow (first : UInt8) : Option (ℕ × UInt8 × UInt8) :=
  if 0xC2 ≤ first ∧ first ≤ 0xDF then some (1, 0x80, 0xBF)
  else if first = 0xE0 then some (2, 0xA0, 0xBF)
  else if first = 0xED then some (2, 0x80, 0x9F)
  else if 0xE1 ≤ first ∧ first ≤ 0xEF then some (2, 0x80, 0xBF)
  else if first = 0xF0 then some (3, 0x90, 0xBF)
  else if 0xF1 ≤ first ∧ first ≤ 0xF3 then some (3, 0x80, 0xBF)
  else if first = 0xF4 then some (3, 0x80, 0x8F)
  else none

/-- The length of the incomplete sequence that one replacement character stands for. -/
def invalidLength : List UInt8 → ℕ
  | [] => 1
  | [_] => 1
  | first :: second :: rest =>
    match utf8Follow first with
    | none => 1
    | some (count, low, high) =>
      if low ≤ second ∧ second ≤ high then
        2 + ((rest.take (count - 1)).takeWhile fun byte => 0x80 ≤ byte ∧ byte ≤ 0xBF).length
      else 1

/-- The characters of a byte string, with a replacement character for every invalid sequence. -/
def lossyChars : ℕ → List UInt8 → List Char
  | 0, _ => []
  | _ + 1, [] => []
  | fuel + 1, bytes@(_ :: _) =>
    match bytes.toByteArray.utf8DecodeChar? 0 with
    | some c => c :: lossyChars fuel (bytes.drop c.utf8Size)
    | none => '\uFFFD' :: lossyChars fuel (bytes.drop (invalidLength bytes))

/-- `String::from_utf8_lossy`. -/
def fromUtf8Lossy (bytes : List UInt8) : String := String.ofList (lossyChars bytes.length bytes)

theorem lossyChars_flatMap (l : List Char) :
    ∀ {fuel : ℕ}, (l.flatMap String.utf8EncodeChar).length ≤ fuel →
      lossyChars fuel (l.flatMap String.utf8EncodeChar) = l := by
  induction l with
  | nil =>
    intro fuel _
    cases fuel <;> rfl
  | cons c l ih =>
    intro fuel hfuel
    have hdecode : (((c :: l).flatMap String.utf8EncodeChar).toByteArray).utf8DecodeChar? 0 =
        some c := List.utf8DecodeChar?_utf8Encode_cons
    have hsize : (String.utf8EncodeChar c).length = c.utf8Size := String.length_utf8EncodeChar c
    have hpos := c.utf8Size_pos
    rw [List.flatMap_cons] at hfuel hdecode ⊢
    rw [List.length_append] at hfuel
    obtain ⟨fuel, rfl⟩ := Nat.exists_eq_succ_of_ne_zero (show fuel ≠ 0 by omega)
    obtain ⟨b, bytes, hbytes⟩ := List.exists_cons_of_ne_nil
      (show String.utf8EncodeChar c ++ l.flatMap String.utf8EncodeChar ≠ [] by
        simp [String.utf8EncodeChar_ne_nil])
    have hdrop : (String.utf8EncodeChar c ++ l.flatMap String.utf8EncodeChar).drop c.utf8Size =
        l.flatMap String.utf8EncodeChar := by
      rw [← hsize, List.drop_left]
    rw [hbytes] at hdecode hdrop ⊢
    simp only [lossyChars, hdecode, hdrop]
    rw [ih (by omega)]

/-- **Bytes that are the encoding of a text are decoded to it.** -/
theorem fromUtf8Lossy_utf8Bytes (s : String) : fromUtf8Lossy (utf8Bytes s) = s := by
  rw [fromUtf8Lossy, utf8Bytes, lossyChars_flatMap _ le_rfl, String.ofList_toList]

/-- `is_ascii`. -/
def isAscii (bytes : List UInt8) : Bool := bytes.all (· < 128)

theorem utf8Bytes_ofAscii {bytes : List UInt8} (h : isAscii bytes = true) :
    utf8Bytes (String.ofList (bytes.map fun byte => Char.ofNat byte.toNat)) = bytes := by
  rw [utf8Bytes, String.toList_ofList]
  induction bytes with
  | nil => rfl
  | cons byte bytes ih =>
    rw [isAscii, List.all_cons, Bool.and_eq_true, decide_eq_true_iff] at h
    have hlt : byte.toNat < 128 := UInt8.lt_iff_toNat_lt.1 h.1
    have hchar : (Char.ofNat byte.toNat).toNat = byte.toNat := by
      have hvalid : byte.toNat.isValidChar := Or.inl (by omega)
      rw [Char.ofNat, dif_pos hvalid]
      rfl
    have hencode : String.utf8EncodeChar (Char.ofNat byte.toNat) = [byte] := by
      rw [utf8EncodeChar_of_lt (hchar.symm ▸ hlt), hchar]
      simp
    rw [List.map_cons, List.flatMap_cons, ih h.2, hencode]
    rfl

/-- ASCII bytes are the encoding of a text. -/
theorem utf8Bytes_fromUtf8Lossy {bytes : List UInt8} (h : isAscii bytes = true) :
    utf8Bytes (fromUtf8Lossy bytes) = bytes := by
  have htext := fromUtf8Lossy_utf8Bytes
    (String.ofList (bytes.map fun byte => Char.ofNat byte.toNat))
  rw [utf8Bytes_ofAscii h] at htext
  rw [htext, utf8Bytes_ofAscii h]

theorem isAscii_reverse (bytes : List UInt8) : isAscii bytes.reverse = isAscii bytes := by
  simp [isAscii]

/-! ### Patterns -/

namespace RegularTerminal

variable (escape : String → String)

/-- The text of the regular expression that a terminal stands for. -/
def forwardPattern (terminal : RegularTerminal) : String :=
  match terminal.kind with
  | .literal bytes => escape (fromUtf8Lossy bytes)
  | .pattern forward _ => forward

/-- The text of its reverse, if there is one. -/
def reversePattern (terminal : RegularTerminal) : Option String :=
  match terminal.kind with
  | .literal bytes =>
    if isAscii bytes then some (escape (fromUtf8Lossy bytes.reverse)) else none
  | .pattern _ reverse => reverse

end RegularTerminal

end OcEarley
