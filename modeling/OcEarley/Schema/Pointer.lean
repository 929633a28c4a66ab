import Mathlib.Tactic.IntervalCases
import OcEarley.Schema.Normalize

/-!
# References

A pointer is the text of its segments, each escaped behind a slash.  A local reference is a
percent-encoding of such a text behind `#`.  `resolveLocalPointer` undoes the three encodings and
puts the text together again: it succeeds exactly on the references that denote a list of segments,
and gives the pointer of that list.
-/

namespace OcEarley

/-! ### The bytes of a character -/

theorem utf8EncodeChar_of_lt {c : Char} (h : c.toNat < 128) :
    String.utf8EncodeChar c = [c.toNat.toUInt8] := by
  have hle : c.val.toNat ≤ 127 := Nat.le_of_lt_succ h
  unfold String.utf8EncodeChar
  exact if_pos hle

theorem le_of_mem_utf8EncodeChar {c : Char} (h : 128 ≤ c.toNat) {b : UInt8}
    (hb : b ∈ String.utf8EncodeChar c) : 128 ≤ b := by
  have hlt : ¬ c.val.toNat ≤ 127 := Nat.not_le.2 h
  rw [UInt8.le_iff_toNat_le]
  unfold String.utf8EncodeChar at hb
  simp only [hlt, if_false] at hb
  split at hb
  · simp only [List.mem_cons, List.not_mem_nil, or_false] at hb
    rcases hb with rfl | rfl <;> simp <;> omega
  · split at hb
    · simp only [List.mem_cons, List.not_mem_nil, or_false] at hb
      rcases hb with rfl | rfl | rfl <;> simp <;> omega
    · simp only [List.mem_cons, List.not_mem_nil, or_false] at hb
      rcases hb with rfl | rfl | rfl | rfl <;> simp <;> omega

theorem percent_not_mem_utf8EncodeChar {c : Char} (h : c ≠ '%') :
    (37 : UInt8) ∉ String.utf8EncodeChar c := by
  intro hmem
  by_cases hlt : c.toNat < 128
  · rw [utf8EncodeChar_of_lt hlt, List.mem_singleton] at hmem
    have hnat := congrArg UInt8.toNat hmem
    simp only [UInt8.reduceToNat, Nat.toUInt8, UInt8.toNat_ofNat'] at hnat
    refine h (Char.ext (UInt32.toNat_inj.1 ?_))
    change c.toNat = 37
    omega
  · exact absurd (le_of_mem_utf8EncodeChar (Nat.not_lt.1 hlt) hmem) (by decide)

theorem utf8Decode?_eq_some {bytes : List UInt8} {text : Array Char} :
    bytes.toByteArray.utf8Decode? = some text ↔
      bytes = text.toList.flatMap String.utf8EncodeChar := by
  constructor
  · intro h
    have hvalid := ByteArray.isSome_utf8Decode?_iff.1 (Option.isSome_of_eq_some h)
    obtain ⟨l, hl⟩ := hvalid
    rw [hl, List.utf8Decode?_utf8Encode] at h
    obtain rfl := Option.some.inj h
    have hdata := congrArg (fun b : ByteArray => b.data.toList) hl
    simpa [List.utf8Encode] using hdata
  · rintro rfl
    have h : (text.toList.flatMap String.utf8EncodeChar).toByteArray = text.toList.utf8Encode := rfl
    rw [h, List.utf8Decode?_utf8Encode]

/-! ### Percent-encoding -/

/-- The character is a hexadecimal digit for the number. -/
def IsHexDigit (c : Char) (n : ℕ) : Prop :=
  ['0', '1', '2', '3', '4', '5', '6', '7', '8', '9', 'a', 'b', 'c', 'd', 'e', 'f'][n]? = some c ∨
  ['0', '1', '2', '3', '4', '5', '6', '7', '8', '9', 'A', 'B', 'C', 'D', 'E', 'F'][n]? = some c

instance (c : Char) (n : ℕ) : Decidable (IsHexDigit c n) :=
  inferInstanceAs (Decidable (_ ∨ _))

/-- The text stands for the bytes: a character for its own, an escape for the
byte that it spells. -/
inductive PercentEncodes : List Char → List UInt8 → Prop
  | nil : PercentEncodes [] []
  | char {c : Char} {text : List Char} {bytes : List UInt8} (hc : c ≠ '%')
      (h : PercentEncodes text bytes) :
      PercentEncodes (c :: text) (String.utf8EncodeChar c ++ bytes)
  | escape {high low : Char} {m n : ℕ} {text : List Char} {bytes : List UInt8}
      (hhigh : IsHexDigit high m) (hlow : IsHexDigit low n) (h : PercentEncodes text bytes) :
      PercentEncodes ('%' :: high :: low :: text) ((16 * m + n).toUInt8 :: bytes)

theorem IsHexDigit.hex_eq {c : Char} {n : ℕ} (h : IsHexDigit c n) :
    n < 16 ∧ String.utf8EncodeChar c = [c.toNat.toUInt8] ∧
      hex c.toNat.toUInt8 = some n.toUInt8 := by
  have hn : n < 16 := by
    rcases h with h | h
    all_goals exact (List.getElem?_eq_some_iff.1 h).1
  refine ⟨hn, ?_⟩
  rcases h with h | h
  all_goals
    interval_cases n
    all_goals
      obtain rfl := Option.some.inj h
      decide

theorem isHexDigit_of_hex_lt : ∀ n < 128, ∀ v ∈ hex n.toUInt8,
    IsHexDigit (Char.ofNat n) v.toNat := by
  decide +kernel

theorem hex_eq_none_of_le {b : UInt8} (h : 128 ≤ b) : hex b = none := by
  have hnat : 128 ≤ b.toNat := UInt8.le_iff_toNat_le.1 h
  simp only [hex, UInt8.le_iff_toNat_le, UInt8.reduceToNat]
  rw [if_neg (by omega), if_neg (by omega), if_neg (by omega)]

theorem nibbles_eq : ∀ m < 16, ∀ n < 16,
    Nat.toUInt8 m <<< 4 ||| Nat.toUInt8 n = (16 * m + n).toUInt8 := by
  decide +kernel

/-- A byte that is a hexadecimal digit is the whole of a character. -/
theorem exists_of_hex {text : List Char} {b v : UInt8} {bytes : List UInt8}
    (h : text.flatMap String.utf8EncodeChar = b :: bytes) (hv : hex b = some v) :
    ∃ c rest, text = c :: rest ∧ IsHexDigit c v.toNat ∧
      bytes = rest.flatMap String.utf8EncodeChar := by
  cases text with
  | nil => cases h
  | cons c rest =>
    rw [List.flatMap_cons] at h
    by_cases hlt : c.toNat < 128
    · rw [utf8EncodeChar_of_lt hlt] at h
      obtain ⟨rfl, rfl⟩ := List.cons.inj h
      have hdigit := isHexDigit_of_hex_lt c.toNat hlt v hv
      rw [Char.ofNat_toNat] at hdigit
      exact ⟨c, rest, rfl, hdigit, rfl⟩
    · obtain ⟨b', bs, hbs⟩ := List.exists_cons_of_ne_nil (@String.utf8EncodeChar_ne_nil c)
      have hmem : b ∈ String.utf8EncodeChar c := by
        rw [hbs] at h ⊢
        rw [(List.cons.inj h).1]
        exact List.mem_cons_self
      rw [hex_eq_none_of_le (le_of_mem_utf8EncodeChar (Nat.not_lt.1 hlt) hmem)] at hv
      cases hv

theorem percentDecodeBytes_cons {b : UInt8} {bytes : List UInt8} (h : b ≠ 37) :
    percentDecodeBytes (b :: bytes) = (do
      let decoded ← percentDecodeBytes bytes
      pure (b :: decoded)) := by
  conv_lhs => unfold percentDecodeBytes
  exact if_neg h

theorem percentDecodeBytes_escape {high low : UInt8} {bytes : List UInt8} :
    percentDecodeBytes (37 :: high :: low :: bytes) = (do
      let high ← Result.unwrap (hex high) "invalid percent escape"
      let low ← Result.unwrap (hex low) "invalid percent escape"
      let decoded ← percentDecodeBytes bytes
      pure ((high <<< 4 ||| low) :: decoded)) := by
  conv_lhs => unfold percentDecodeBytes
  exact if_pos rfl

/-- What an escape that is decoded looks like. -/
theorem percentDecodeBytes_percent {bytes decoded : List UInt8}
    (h : percentDecodeBytes (37 :: bytes) = .ok decoded) :
    ∃ high low rest, bytes = high :: low :: rest := by
  unfold percentDecodeBytes at h
  rw [if_pos rfl] at h
  match bytes with
  | high :: low :: rest => exact ⟨high, low, rest, rfl⟩
  | [] => exact (Result.throw_eq_ok.1 h).elim
  | [_] => exact (Result.throw_eq_ok.1 h).elim

theorem percentDecodeBytes_append {front bytes decoded : List UInt8} (h : (37 : UInt8) ∉ front) :
    percentDecodeBytes (front ++ bytes) = .ok decoded ↔
      ∃ d, percentDecodeBytes bytes = .ok d ∧ decoded = front ++ d := by
  induction front generalizing decoded with
  | nil => simp
  | cons b front ih =>
    obtain ⟨hb, hfront⟩ := not_or.1 (List.mem_cons.not.1 h)
    rw [List.cons_append, percentDecodeBytes_cons (Ne.symm hb), Result.bind_eq_ok]
    constructor
    · rintro ⟨d, hd, heq⟩
      obtain ⟨d', hd', rfl⟩ := (ih hfront).1 hd
      exact ⟨d', hd', (Result.pure_eq_ok.1 heq).symm⟩
    · rintro ⟨d, hd, rfl⟩
      exact ⟨front ++ d, (ih hfront).2 ⟨d, hd, rfl⟩, rfl⟩

theorem percentDecodeBytes_iff {text : List Char} {decoded : List UInt8} :
    percentDecodeBytes (text.flatMap String.utf8EncodeChar) = .ok decoded ↔
      PercentEncodes text decoded := by
  constructor
  · intro h
    induction hn : text.length using Nat.strong_induction_on generalizing text decoded with
    | _ n ih =>
    cases text with
    | nil =>
      obtain rfl := Result.pure_eq_ok.1 h
      exact .nil
    | cons c text =>
      have hshort : text.length < n := by rw [← hn]; exact Nat.lt_succ_self _
      rw [List.flatMap_cons] at h
      -- the first byte is a percent sign just when the first character is one
      by_cases hc : c = '%'
      · subst hc
        have hpercent : String.utf8EncodeChar '%' = [37] := by decide
        rw [hpercent, List.singleton_append] at h
        obtain ⟨high, low, bytes, heq⟩ := percentDecodeBytes_percent h
        rw [heq, percentDecodeBytes_escape] at h
        obtain ⟨m, hm, h⟩ := Result.bind_eq_ok.1 h
        obtain ⟨l, hl, h⟩ := Result.bind_eq_ok.1 h
        obtain ⟨d, hd, h⟩ := Result.bind_eq_ok.1 h
        obtain rfl := Result.pure_eq_ok.1 h
        have hm := Result.unwrap_eq_ok.1 hm
        have hl := Result.unwrap_eq_ok.1 hl
        obtain ⟨chigh, rest, rfl, hchigh, hrest⟩ := exists_of_hex heq hm
        obtain ⟨clow, rest, rfl, hclow, rfl⟩ := exists_of_hex hrest.symm hl
        have hnib := nibbles_eq m.toNat hchigh.hex_eq.1 l.toNat hclow.hex_eq.1
        simp only [Nat.toUInt8, UInt8.ofNat_toNat] at hnib
        rw [hnib]
        refine .escape hchigh hclow (ih rest.length ?_ hd rfl)
        simp only [List.length_cons] at hshort
        omega
      · obtain ⟨d, hd, rfl⟩ := (percentDecodeBytes_append (percent_not_mem_utf8EncodeChar hc)).1 h
        exact .char hc (ih text.length hshort hd rfl)
  · intro h
    induction h with
    | nil => rfl
    | char hc h ih =>
      rw [List.flatMap_cons]
      exact (percentDecodeBytes_append (percent_not_mem_utf8EncodeChar hc)).2 ⟨_, ih, rfl⟩
    | @escape high low m n text bytes hhigh hlow h ih =>
      obtain ⟨hm, hhighBytes, hhighHex⟩ := hhigh.hex_eq
      obtain ⟨hn, hlowBytes, hlowHex⟩ := hlow.hex_eq
      have hpercent : String.utf8EncodeChar '%' = [37] := by decide
      rw [List.flatMap_cons, List.flatMap_cons, List.flatMap_cons, hpercent, hhighBytes, hlowBytes,
        List.singleton_append, List.singleton_append, List.singleton_append,
        percentDecodeBytes_escape]
      refine Result.bind_eq_ok.2 ⟨_, Result.unwrap_eq_ok.2 hhighHex, ?_⟩
      refine Result.bind_eq_ok.2 ⟨_, Result.unwrap_eq_ok.2 hlowHex, ?_⟩
      refine Result.bind_eq_ok.2 ⟨_, ih, ?_⟩
      rw [nibbles_eq m hm n hn]
      rfl

/-- **Decoding is the inverse of every percent-encoding.** -/
theorem percentDecode_iff {text decoded : List Char} :
    percentDecode text = .ok decoded ↔
      PercentEncodes text (decoded.flatMap String.utf8EncodeChar) := by
  rw [← percentDecodeBytes_iff]
  unfold percentDecode
  constructor
  · intro h
    obtain ⟨bytes, hbytes, h⟩ := Result.bind_eq_ok.1 h
    obtain ⟨array, harray, h⟩ := Result.bind_eq_ok.1 h
    obtain rfl := Result.pure_eq_ok.1 h
    rw [hbytes, utf8Decode?_eq_some.1 (Result.unwrap_eq_ok.1 harray)]
  · intro h
    refine Result.bind_eq_ok.2 ⟨_, h, Result.bind_eq_ok.2 ⟨decoded.toArray, ?_, rfl⟩⟩
    exact Result.unwrap_eq_ok.2 (utf8Decode?_eq_some.2 rfl)

/-! ### Escapes of a segment -/

/-- The text spells the segment, with `~0` for `~` and `~1` for `/`. -/
inductive Unescapes : List Char → List Char → Prop
  | nil : Unescapes [] []
  | char {c : Char} {value segment : List Char} (hc : c ≠ '~') (h : Unescapes value segment) :
      Unescapes (c :: value) (c :: segment)
  | tilde {value segment : List Char} (h : Unescapes value segment) :
      Unescapes ('~' :: '0' :: value) ('~' :: segment)
  | slash {value segment : List Char} (h : Unescapes value segment) :
      Unescapes ('~' :: '1' :: value) ('/' :: segment)

theorem decodePointerSegment_cons {c : Char} {value : List Char} (h : c ≠ '~') :
    decodePointerSegment (c :: value) = (do
      let decoded ← decodePointerSegment value
      pure (c :: decoded)) := by
  conv_lhs => unfold decodePointerSegment
  exact if_pos h

theorem decodePointerSegment_iff {value segment : List Char} :
    decodePointerSegment value = .ok segment ↔ Unescapes value segment := by
  constructor
  · intro h
    induction value using decodePointerSegment.induct generalizing segment with
    | case1 =>
      obtain rfl := Result.pure_eq_ok.1 h
      exact .nil
    | case2 c value hc ih =>
      rw [decodePointerSegment_cons hc] at h
      obtain ⟨decoded, hdecoded, h⟩ := Result.bind_eq_ok.1 h
      obtain rfl := Result.pure_eq_ok.1 h
      exact .char hc (ih hdecoded)
    | case3 c hc value ih =>
      obtain rfl := not_not.1 hc
      obtain ⟨decoded, hdecoded, h⟩ := Result.bind_eq_ok.1 h
      obtain rfl := Result.pure_eq_ok.1 h
      exact .tilde (ih hdecoded)
    | case4 c hc value ih =>
      obtain rfl := not_not.1 hc
      obtain ⟨decoded, hdecoded, h⟩ := Result.bind_eq_ok.1 h
      obtain rfl := Result.pure_eq_ok.1 h
      exact .slash (ih hdecoded)
    | case5 c value hc hzero hone =>
      obtain rfl := not_not.1 hc
      unfold decodePointerSegment at h
      split at h
      · next hne => exact absurd rfl hne
      · split at h
        · exact absurd rfl (hzero _)
        · exact absurd rfl (hone _)
        · cases h
  · intro h
    induction h with
    | nil => rfl
    | char hc h ih =>
      rw [decodePointerSegment_cons hc]
      exact Result.bind_eq_ok.2 ⟨_, ih, rfl⟩
    | tilde h ih => exact Result.bind_eq_ok.2 ⟨_, ih, rfl⟩
    | slash h ih => exact Result.bind_eq_ok.2 ⟨_, ih, rfl⟩

theorem Unescapes.unique {value segment segment' : List Char} (h : Unescapes value segment)
    (h' : Unescapes value segment') : segment = segment' :=
  Except.ok.inj ((decodePointerSegment_iff.2 h).symm.trans (decodePointerSegment_iff.2 h'))

theorem escapePointerSegment_cons (c : Char) (segment : List Char) :
    escapePointerSegment (c :: segment) =
      (if c = '~' then ['~', '0'] else if c = '/' then ['~', '1'] else [c]) ++
        escapePointerSegment segment := by
  unfold escapePointerSegment replaceChar
  rw [List.flatMap_cons, List.flatMap_append]
  congr 1
  by_cases htilde : c = '~'
  · simp [htilde]
  · simp [htilde]

theorem unescapes_escape (segment : List Char) :
    Unescapes (escapePointerSegment segment) segment := by
  induction segment with
  | nil => exact .nil
  | cons c segment ih =>
    rw [escapePointerSegment_cons]
    by_cases htilde : c = '~'
    · subst htilde
      exact .tilde ih
    · rw [if_neg htilde]
      by_cases hslash : c = '/'
      · subst hslash
        exact .slash ih
      · rw [if_neg hslash]
        exact .char htilde ih

theorem slash_not_mem_escape (segment : List Char) : '/' ∉ escapePointerSegment segment := by
  induction segment with
  | nil => exact List.not_mem_nil
  | cons c segment ih =>
    rw [escapePointerSegment_cons, List.mem_append, not_or]
    refine ⟨?_, ih⟩
    by_cases htilde : c = '~'
    · simp [htilde]
    · by_cases hslash : c = '/'
      · simp [hslash]
      · simpa [htilde, hslash] using Ne.symm hslash

/-! ### Splitting -/

/-- What stands behind a slash is put together from its parts. -/
theorem flatMap_splitOn (text : List Char) :
    (text.splitOn '/').flatMap (fun raw => '/' :: raw) = '/' :: text ∧
      ∀ raw ∈ text.splitOn '/', '/' ∉ raw := by
  induction text with
  | nil => simp
  | cons c text ih =>
    rw [List.splitOn_cons_eq_if_modifyHead]
    by_cases hc : c = '/'
    · subst hc
      rw [if_pos (beq_self_eq_true _), List.flatMap_cons, ih.1]
      exact ⟨rfl, List.forall_mem_cons.2 ⟨List.not_mem_nil, ih.2⟩⟩
    · rw [if_neg (by simpa using hc)]
      obtain ⟨raw, raws, hraws⟩ := List.exists_cons_of_ne_nil (List.splitOn_ne_nil '/' text)
      rw [hraws, List.forall_mem_cons] at ih
      rw [hraws, List.modifyHead_cons, List.forall_mem_cons]
      obtain ⟨hflat, hraw, hrest⟩ := ih
      rw [List.flatMap_cons] at hflat ⊢
      refine ⟨congrArg ('/' :: c :: ·) (List.cons.inj hflat).2, ?_, hrest⟩
      rw [List.mem_cons, not_or]
      exact ⟨Ne.symm hc, hraw⟩

theorem splitOn_flatMap {raw : List Char} {raws : List (List Char)}
    (h : ∀ r ∈ raw :: raws, '/' ∉ r) :
    (raw ++ raws.flatMap fun raw => '/' :: raw).splitOn '/' = raw :: raws := by
  induction raws generalizing raw with
  | nil =>
    rw [List.flatMap_nil, List.append_nil]
    exact List.splitOn_eq_singleton (h raw List.mem_cons_self)
  | cons raw' raws ih =>
    rw [List.forall_mem_cons] at h
    rw [List.flatMap_cons, List.cons_append, List.splitOn_append_cons_self_of_not_mem h.1, ih h.2]

/-! ### Pointers -/

/-- The pointer of a list of segments, joined from the root. -/
def pointerOf (segments : List String) : SchemaPointer := segments.foldl pointerJoin ⟨""⟩

theorem pointerOf_snoc (segments : List String) (segment : String) :
    pointerOf (segments ++ [segment]) = pointerJoin (pointerOf segments) segment := by
  rw [pointerOf, List.foldl_append]
  rfl

theorem toList_pointerOf (segments : List String) :
    (pointerOf segments).text.toList =
      (segments.map String.toList).flatMap fun s => '/' :: escapePointerSegment s := by
  induction segments using List.reverseRecOn with
  | nil => rfl
  | append_singleton segments segment ih =>
    rw [pointerOf_snoc, pointerJoin, String.toList_append, ih, String.toList_ofList,
      List.map_append,
      List.flatMap_append]
    simp

/-- What stands behind the first slash is split into the escaped segments. -/
theorem splitOn_escaped (s : List Char) (segments : List (List Char)) :
    (escapePointerSegment s ++
        segments.flatMap fun s => '/' :: escapePointerSegment s).splitOn '/' =
      (s :: segments).map escapePointerSegment := by
  have hslash : ∀ r ∈ escapePointerSegment s :: segments.map escapePointerSegment, '/' ∉ r := by
    intro r hr
    obtain ⟨t, -, rfl⟩ := List.mem_map.1 (List.map_cons (f := escapePointerSegment) ▸ hr)
    exact slash_not_mem_escape t
  have hsplit := splitOn_flatMap hslash
  rwa [List.flatMap_map] at hsplit

theorem escapePointerSegment_injective : Function.Injective escapePointerSegment := by
  intro s t h
  exact (unescapes_escape s).unique (h ▸ unescapes_escape t)

theorem pointerOf_injective : Function.Injective pointerOf := by
  intro segments segments' h
  have htext := congrArg (fun p => p.text.toList) h
  simp only [toList_pointerOf] at htext
  have hlists : segments.map String.toList = segments'.map String.toList := by
    generalize segments.map String.toList = l at htext
    generalize segments'.map String.toList = l' at htext
    cases l with
    | nil =>
      cases l' with
      | nil => rfl
      | cons s' l' => cases htext
    | cons s l =>
      cases l' with
      | nil => cases htext
      | cons s' l' =>
        rw [List.flatMap_cons, List.flatMap_cons, List.cons_append, List.cons_append] at htext
        have hsplit := congrArg (List.splitOn '/') (List.cons.inj htext).2
        rw [splitOn_escaped, splitOn_escaped] at hsplit
        exact List.map_injective_iff.2 escapePointerSegment_injective hsplit
  exact List.map_injective_iff.2 (fun _ _ => String.toList_injective) hlists

/-- The reference denotes the list of segments: behind `#` it is a percent-encoding of escaped
segments, each behind a slash. -/
def Denotes (reference : String) (segments : List String) : Prop :=
  ∃ encoded raws, reference.toList = '#' :: encoded ∧
    PercentEncodes encoded
      ((raws.flatMap fun raw => '/' :: raw).flatMap String.utf8EncodeChar) ∧
    (∀ raw ∈ raws, '/' ∉ raw) ∧ List.Forall₂ Unescapes raws (segments.map String.toList)

/-- Every percent-encoding of the pointer denotes its segments. -/
theorem Denotes.of_encoding {reference : String} {segments : List String} {encoded : List Char}
    (hreference : reference.toList = '#' :: encoded)
    (h : PercentEncodes encoded ((pointerOf segments).text.toList.flatMap String.utf8EncodeChar)) :
    Denotes reference segments := by
  refine ⟨encoded, (segments.map String.toList).map escapePointerSegment, hreference, ?_, ?_, ?_⟩
  · rw [List.flatMap_map]
    rwa [toList_pointerOf] at h
  · intro raw hraw
    obtain ⟨s, -, rfl⟩ := List.mem_map.1 hraw
    exact slash_not_mem_escape s
  · exact List.forall₂_map_left_iff.2 (List.forall₂_same.2 fun s _ => unescapes_escape s)

/-! ### Resolution -/

theorem mapErr_eq_ok {α ε ε' : Type} {f : ε → ε'} {x : Except ε α} {a : α} :
    mapErr f x = .ok a ↔ x = .ok a := by
  cases x with
  | ok b =>
    constructor
    · intro h
      exact congrArg _ (Except.ok.inj h)
    · intro h
      exact congrArg _ (Except.ok.inj h)
  | error e =>
    constructor
    · intro h
      cases h
    · intro h
      cases h

theorem mapM_eq_ok_iff {α β ε : Type} {f : α → Except ε β} {l : List α} {r : List β} :
    l.mapM f = .ok r ↔ List.Forall₂ (fun a b => f a = .ok b) l r := by
  induction l generalizing r with
  | nil => exact Result.pure_eq_ok.trans (eq_comm.trans List.forall₂_nil_left_iff.symm)
  | cons a l ih =>
    rw [List.mapM_cons, List.forall₂_cons_left_iff]
    constructor
    · intro h
      obtain ⟨b, hb, h⟩ := Result.bind_eq_ok.1 h
      obtain ⟨r', hr', h⟩ := Result.bind_eq_ok.1 h
      exact ⟨b, r', hb, ih.1 hr', (Result.pure_eq_ok.1 h).symm⟩
    · rintro ⟨b, r', hb, hr', rfl⟩
      exact Result.bind_eq_ok.2 ⟨b, hb, Result.bind_eq_ok.2 ⟨r', ih.2 hr', rfl⟩⟩

/-- **A reference is resolved exactly when it denotes some segments, and then to their pointer.** -/
theorem resolveLocalPointer_iff {source q : SchemaPointer} {reference : String} :
    resolveLocalPointer source reference = .ok q ↔
      ∃ segments, Denotes reference segments ∧ q = pointerOf segments := by
  unfold resolveLocalPointer
  constructor
  · intro h
    obtain ⟨_, hhash, h⟩ := Result.bind_eq_ok.1 h
    obtain ⟨encoded, hreference⟩ := List.head?_eq_some_iff.1 (Result.require_eq_ok.1 hhash)
    obtain ⟨decoded, hdecoded, h⟩ := Result.bind_eq_ok.1 h
    have hdecoded := percentDecode_iff.1 (mapErr_eq_ok.1 hdecoded)
    rw [hreference, List.drop_one, List.tail_cons] at hdecoded
    split at h
    -- the root
    · next hempty =>
      subst hempty
      obtain rfl := Result.pure_eq_ok.1 h
      refine ⟨[], ⟨encoded, [], hreference, hdecoded, ?_, .nil⟩, rfl⟩
      exact List.forall_mem_nil _
    · obtain ⟨_, hslash, h⟩ := Result.bind_eq_ok.1 h
      obtain ⟨text, rfl⟩ := List.head?_eq_some_iff.1 (Result.require_eq_ok.1 hslash)
      obtain ⟨segments, hsegments, h⟩ := Result.bind_eq_ok.1 h
      obtain rfl := Result.pure_eq_ok.1 h
      rw [List.drop_one, List.tail_cons] at hsegments
      obtain ⟨hflat, hraws⟩ := flatMap_splitOn text
      have hunescapes : List.Forall₂ Unescapes (text.splitOn '/') segments :=
        (mapM_eq_ok_iff.1 hsegments).imp fun _ _ hs =>
          decodePointerSegment_iff.1 (mapErr_eq_ok.1 hs)
      have hlists : (segments.map String.ofList).map String.toList = segments := by
        simp [Function.comp_def]
      refine ⟨segments.map String.ofList,
        ⟨encoded, text.splitOn '/', hreference, ?_, hraws, ?_⟩, ?_⟩
      · rwa [hflat]
      · rwa [hlists]
      · have htext := toList_pointerOf (segments.map String.ofList)
        rw [hlists] at htext
        rw [← htext, String.ofList_toList]
  · rintro ⟨segments, ⟨encoded, raws, hreference, hencoded, hraws, hunescapes⟩, rfl⟩
    rw [hreference]
    refine Result.bind_eq_ok.2 ⟨(), Result.require_eq_ok.2 rfl, ?_⟩
    refine Result.bind_eq_ok.2 ⟨_, mapErr_eq_ok.2 (percentDecode_iff.2 hencoded), ?_⟩
    have htext := toList_pointerOf segments
    generalize segments.map String.toList = l at htext hunescapes
    -- the segments split the text at the slashes, which no escaped segment contains
    cases hunescapes with
    | nil =>
      refine Result.pure_eq_ok.2 ?_
      exact congrArg SchemaPointer.mk (String.toList_injective htext).symm
    | @cons raw s raws l hraw hrest =>
      rw [List.flatMap_cons, List.cons_append, if_neg (List.cons_ne_nil _ _)]
      refine Result.bind_eq_ok.2 ⟨(), Result.require_eq_ok.2 rfl, ?_⟩
      rw [List.drop_one, List.tail_cons, splitOn_flatMap hraws]
      refine Result.bind_eq_ok.2 ⟨s :: l, mapM_eq_ok_iff.2 ?_, ?_⟩
      · exact (List.Forall₂.cons hraw hrest).imp fun _ _ hs =>
          mapErr_eq_ok.2 (decodePointerSegment_iff.2 hs)
      · rw [← htext, String.ofList_toList]
        rfl

/-- A reference denotes one list of segments at most. -/
theorem Denotes.unique {reference : String} {segments segments' : List String}
    (h : Denotes reference segments) (h' : Denotes reference segments') : segments = segments' := by
  have hok : resolveLocalPointer ⟨""⟩ reference = .ok (pointerOf segments) :=
    resolveLocalPointer_iff.2 ⟨segments, h, rfl⟩
  have hok' : resolveLocalPointer ⟨""⟩ reference = .ok (pointerOf segments') :=
    resolveLocalPointer_iff.2 ⟨segments', h', rfl⟩
  exact pointerOf_injective (Except.ok.inj (hok.symm.trans hok'))

/-! ### Malformed escapes -/

/-- Behind every `%` there are two hexadecimal digits. -/
theorem PercentEncodes.digits_of_suffix {text : List Char} {bytes : List UInt8}
    (h : PercentEncodes text bytes) {after : List Char} (hsuffix : '%' :: after <:+ text) :
    ∃ high low rest m n, after = high :: low :: rest ∧ IsHexDigit high m ∧ IsHexDigit low n := by
  have hnot : ∀ {m}, ¬ IsHexDigit '%' m := by
    intro m hm
    have hhex := hm.hex_eq.2.2
    have hnone : hex '%'.toNat.toUInt8 = none := by decide
    rw [hnone] at hhex
    cases hhex
  induction h with
  | nil => exact absurd (List.suffix_nil.1 hsuffix) (List.cons_ne_nil _ _)
  | char hc h ih =>
    rcases List.suffix_cons_iff.1 hsuffix with heq | hsuffix
    · exact absurd (List.cons.inj heq).1.symm hc
    · exact ih hsuffix
  | @escape high low m n text bytes hhigh hlow h ih =>
    rcases List.suffix_cons_iff.1 hsuffix with heq | hsuffix
    · exact ⟨high, low, text, m, n, (List.cons.inj heq).2, hhigh, hlow⟩
    rcases List.suffix_cons_iff.1 hsuffix with heq | hsuffix
    · exact absurd ((List.cons.inj heq).1 ▸ hhigh) hnot
    rcases List.suffix_cons_iff.1 hsuffix with heq | hsuffix
    · exact absurd ((List.cons.inj heq).1 ▸ hlow) hnot
    · exact ih hsuffix

/-- Behind every `~` there is a `0` or a `1`. -/
def TildesEscaped (text : List Char) : Prop :=
  ∀ after, '~' :: after <:+ text → after.head? = some '0' ∨ after.head? = some '1'

theorem TildesEscaped.cons {c : Char} {text : List Char} (h : TildesEscaped text) (hc : c ≠ '~') :
    TildesEscaped (c :: text) := by
  intro after hsuffix
  rcases List.suffix_cons_iff.1 hsuffix with heq | hsuffix
  · exact absurd (List.cons.inj heq).1.symm hc
  · exact h after hsuffix

theorem TildesEscaped.tilde {c : Char} {text : List Char} (h : TildesEscaped text)
    (hc : c = '0' ∨ c = '1') : TildesEscaped ('~' :: c :: text) := by
  intro after hsuffix
  have hne : c ≠ '~' := by
    rintro rfl
    revert hc
    decide
  rcases List.suffix_cons_iff.1 hsuffix with heq | hsuffix
  · rw [(List.cons.inj heq).2]
    exact hc.imp (congrArg some) (congrArg some)
  · exact h.cons hne after hsuffix

theorem Unescapes.tildesEscaped_append {value segment rest : List Char}
    (h : Unescapes value segment) (hrest : TildesEscaped rest) : TildesEscaped (value ++ rest) := by
  induction h with
  | nil => exact hrest
  | char hc h ih => exact ih.cons hc
  | tilde h ih => exact ih.tilde (.inl rfl)
  | slash h ih => exact ih.tilde (.inr rfl)

theorem tildesEscaped_flatMap {raws segments : List (List Char)}
    (h : List.Forall₂ Unescapes raws segments) :
    TildesEscaped (raws.flatMap fun raw => '/' :: raw) := by
  induction h with
  | nil =>
    intro after hsuffix
    exact absurd (List.suffix_nil.1 hsuffix) (List.cons_ne_nil _ _)
  | cons hraw h ih => exact (hraw.tildesEscaped_append ih).cons (by decide)

/-! ### The ids of the indexed subschemas -/

theorem Indexing.loop_spec {limits : CompileLimits} {fuel : ℕ} {indexing result : Indexing}
    (h : Indexing.loop limits fuel indexing = .ok result)
    (hseen : indexing.rawNodes.map (fun n => n.1) = indexing.seen ∧ indexing.seen.Nodup) :
    result.rawNodes.map (fun n => n.1) = result.seen ∧ result.seen.Nodup := by
  induction fuel generalizing indexing with
  | zero => cases h
  | succ fuel ih =>
    unfold Indexing.loop at h
    split at h
    · obtain rfl := Result.pure_eq_ok.1 h
      exact hseen
    · next pointer value work _ =>
      obtain ⟨next, hnext, h⟩ := Result.bind_eq_ok.1 h
      refine ih h ?_
      unfold Indexing.step at hnext
      split at hnext
      · obtain rfl := Result.pure_eq_ok.1 hnext
        exact hseen
      · next hnew =>
        obtain ⟨_, -, hnext⟩ := Result.bind_eq_ok.1 hnext
        obtain rfl := Result.pure_eq_ok.1 hnext
        refine ⟨?_, List.nodup_append.2 ⟨hseen.2, List.nodup_singleton _, ?_⟩⟩
        · rw [List.map_append, hseen.1]
          rfl
        · intro p hp q hq
          obtain rfl := List.mem_singleton.1 hq
          exact fun heq => hnew (heq ▸ hp)

/-- No pointer is indexed twice. -/
theorem indexSchemaLocations_nodup {root : JsonValue} {limits : CompileLimits}
    {rawNodes : List (SchemaPointer × JsonValue)}
    (h : indexSchemaLocations root limits = .ok rawNodes) :
    (rawNodes.map fun n => n.1).Nodup := by
  obtain ⟨result, hresult, h⟩ := Result.bind_eq_ok.1 h
  obtain rfl := Result.pure_eq_ok.1 h
  obtain ⟨hseen, hnodup⟩ := Indexing.loop_spec hresult ⟨rfl, List.nodup_nil⟩
  rw [hseen]
  exact hnodup

theorem lookup_pointerIds {rawNodes : List (SchemaPointer × JsonValue)}
    {pointerToId : AList fun _ : SchemaPointer => ℕ}
    (hnodup : (rawNodes.map fun n => n.1).Nodup) (h : pointerIds rawNodes = .ok pointerToId)
    {p : SchemaPointer} {i : ℕ} :
    pointerToId.lookup p = some i ↔ ∃ value, rawNodes[i]? = some (p, value) := by
  unfold pointerIds at h
  induction rawNodes using List.reverseRecOn generalizing pointerToId with
  | nil =>
    obtain rfl := Result.pure_eq_ok.1 h
    simp
  | append_singleton rawNodes node ih =>
    rw [List.zipIdx_append, List.foldlM_append] at h
    obtain ⟨before, hbefore, h⟩ := Result.bind_eq_ok.1 h
    obtain ⟨_, hstep, h⟩ := Result.bind_eq_ok.1 h
    obtain rfl := Result.pure_eq_ok.1 h
    obtain ⟨id, hid, hstep⟩ := Result.bind_eq_ok.1 hstep
    obtain ⟨_, -, hid⟩ := Result.bind_eq_ok.1 hid
    obtain rfl := Result.pure_eq_ok.1 hid
    obtain rfl := Result.pure_eq_ok.1 hstep
    rw [List.map_append, List.nodup_append] at hnodup
    have hlast : node.1 ∉ rawNodes.map fun n => n.1 := fun hmem =>
      hnodup.2.2 _ hmem node.1 (by simp) rfl
    have hrest := ih hnodup.1 hbefore
    dsimp only
    by_cases hp : p = node.1
    · subst hp
      rw [AList.lookup_insert, Nat.zero_add]
      constructor
      · intro hi
        obtain rfl := Option.some.inj hi
        exact ⟨node.2, List.getElem?_concat_length⟩
      · rintro ⟨value, hvalue⟩
        rcases getElem?_snoc.1 hvalue with hold | ⟨rfl, -⟩
        · exact absurd (List.mem_map_of_mem (List.mem_of_getElem? hold)) hlast
        · rfl
    · rw [AList.lookup_insert_ne hp, hrest]
      constructor
      · rintro ⟨value, hvalue⟩
        exact ⟨value, getElem?_snoc.2 (.inl hvalue)⟩
      · rintro ⟨value, hvalue⟩
        rcases getElem?_snoc.1 hvalue with hold | ⟨-, heq⟩
        · exact ⟨value, hold⟩
        · exact absurd (congrArg Prod.fst heq) hp

/-- An indexed subschema is found under its own pointer, and no other. -/
theorem normalizeReference_of_denotes {root : JsonValue} {limits : CompileLimits}
    {rawNodes : List (SchemaPointer × JsonValue)} {pointerToId : AList fun _ : SchemaPointer => ℕ}
    (hindex : indexSchemaLocations root limits = .ok rawNodes)
    (hids : pointerIds rawNodes = .ok pointerToId) {id : ℕ} {source : SchemaPointer}
    {edges : List ReferenceEdge} {reference : String} {segments : List String}
    (h : Denotes reference segments) :
    (∀ i value, rawNodes[i]? = some (pointerOf segments, value) →
      normalizeReference id source (.string reference) pointerToId limits edges = (do
        enforceCompileLimit .referenceResolution (edges.length + 1) limits.maxRefEdges
        pure (.ref i, edges ++ [{
          fromId := id
          toId := i
          provenance := { resource := 0, pointer := source, keyword := some "$ref" } }]))) ∧
    ∀ result, normalizeReference id source (.string reference) pointerToId limits edges =
      .ok result →
      ∃ i value, rawNodes[i]? = some (pointerOf segments, value) ∧ result.1 = .ref i := by
  have hlookup := fun i : ℕ =>
    lookup_pointerIds (p := pointerOf segments) (i := i) (indexSchemaLocations_nodup hindex) hids
  have hresolve : resolveLocalPointer source reference = .ok (pointerOf segments) :=
    resolveLocalPointer_iff.2 ⟨segments, h, rfl⟩
  have hname : (JsonValue.string reference).asStr = some reference := rfl
  unfold normalizeReference
  rw [hname]
  constructor
  · intro i value hi
    have hfound := (hlookup i).2 ⟨value, hi⟩
    change (resolveLocalPointer source reference >>= _) = _
    rw [hresolve]
    change (Result.unwrap (pointerToId.lookup (pointerOf segments)) _ >>= _) = _
    rw [hfound]
    rfl
  · intro result hresult
    change (resolveLocalPointer source reference >>= _) = _ at hresult
    obtain ⟨q, hq, hresult⟩ := Result.bind_eq_ok.1 hresult
    obtain rfl := Except.ok.inj (hresolve.symm.trans hq)
    obtain ⟨target, htarget, hresult⟩ := Result.bind_eq_ok.1 hresult
    obtain ⟨_, -, hresult⟩ := Result.bind_eq_ok.1 hresult
    obtain rfl := Result.pure_eq_ok.1 hresult
    obtain ⟨value, hvalue⟩ := (hlookup target).1 (Result.unwrap_eq_ok.1 htarget)
    exact ⟨target, value, hvalue, rfl⟩

/-- **A reference names exactly the location that its segments name.**  Every percent-encoding of a
pointer is resolved to that pointer, and what is resolved is the pointer of the segments denoted;
different segments have different pointers, malformed escapes are errors, and a reference to an
indexed subschema gets the id of that subschema. -/
theorem references_resolve (source : SchemaPointer) :
    (∀ segments reference encoded, reference.toList = '#' :: encoded →
      PercentEncodes encoded ((pointerOf segments).text.toList.flatMap String.utf8EncodeChar) →
      resolveLocalPointer source reference = .ok (pointerOf segments)) ∧
    Function.Injective pointerOf ∧
    (∀ reference q, resolveLocalPointer source reference = .ok q →
      ∃ segments, Denotes reference segments ∧ q = pointerOf segments) ∧
    (∀ reference encoded after, reference.toList = '#' :: encoded → '%' :: after <:+ encoded →
      (¬ ∃ high low rest m n, after = high :: low :: rest ∧ IsHexDigit high m ∧ IsHexDigit low n) →
      ∃ e, resolveLocalPointer source reference = .error e) ∧
    (∀ reference encoded decoded, reference.toList = '#' :: encoded →
      PercentEncodes encoded (decoded.flatMap String.utf8EncodeChar) → ¬ TildesEscaped decoded →
      ∃ e, resolveLocalPointer source reference = .error e) ∧
    ∀ root limits rawNodes pointerToId, indexSchemaLocations root limits = .ok rawNodes →
      pointerIds rawNodes = .ok pointerToId → ∀ id edges reference segments,
      Denotes reference segments →
      (∀ i value, rawNodes[i]? = some (pointerOf segments, value) →
        normalizeReference id source (.string reference) pointerToId limits edges = (do
          enforceCompileLimit .referenceResolution (edges.length + 1) limits.maxRefEdges
          pure (.ref i, edges ++ [{
            fromId := id
            toId := i
            provenance := { resource := 0, pointer := source, keyword := some "$ref" } }]))) ∧
      ∀ result, normalizeReference id source (.string reference) pointerToId limits edges =
        .ok result → ∃ i value, rawNodes[i]? = some (pointerOf segments, value) ∧
          result.1 = .ref i := by
  -- what resolves denotes segments, so a text that denotes none is refused
  have herror : ∀ {reference : String},
      (∀ segments, ¬ Denotes reference segments) →
      ∃ e, resolveLocalPointer source reference = .error e := by
    intro reference hnone
    cases hresolve : resolveLocalPointer source reference with
    | error e => exact ⟨e, rfl⟩
    | ok q =>
      obtain ⟨segments, hdenotes, -⟩ := resolveLocalPointer_iff.1 hresolve
      exact absurd hdenotes (hnone segments)
  refine ⟨?_, pointerOf_injective, ?_, ?_, ?_, ?_⟩
  · intro segments reference encoded hreference hencoded
    exact resolveLocalPointer_iff.2 ⟨segments, .of_encoding hreference hencoded, rfl⟩
  · intro reference q h
    exact resolveLocalPointer_iff.1 h
  · intro reference encoded after hreference hsuffix hbad
    refine herror ?_
    rintro segments ⟨encoded', raws, hreference', hencoded, -⟩
    obtain rfl := (List.cons.inj (hreference.symm.trans hreference')).2
    exact hbad (hencoded.digits_of_suffix hsuffix)
  · intro reference encoded decoded hreference hencoded hbad
    refine herror ?_
    rintro segments ⟨encoded', raws, hreference', hencoded', -, hraws⟩
    obtain rfl := (List.cons.inj (hreference.symm.trans hreference')).2
    have hdecoded := (percentDecode_iff.2 hencoded).symm.trans (percentDecode_iff.2 hencoded')
    rw [Except.ok.inj hdecoded] at hbad
    exact hbad (tildesEscaped_flatMap hraws)
  · intro root limits rawNodes pointerToId hindex hids id edges reference segments h
    exact normalizeReference_of_denotes hindex hids h

/-- A percent-encoded `~1` is the slash in the name. -/
theorem references_resolve_slash :
    resolveLocalPointer ⟨""⟩ "#/%7e1" = .ok (pointerOf ["/"]) := by
  have hbytes : (pointerOf ["/"]).text.toList.flatMap String.utf8EncodeChar = [47, 126, 49] := by
    decide +kernel
  refine (references_resolve ⟨""⟩).1 ["/"] "#/%7e1" ['/', '%', '7', 'e', '1'] (by decide +kernel) ?_
  rw [hbytes]
  have hend : PercentEncodes ['1'] [49] := .char (by decide) .nil
  have hescape : PercentEncodes ['%', '7', 'e', '1'] [126, 49] :=
    .escape (by decide : IsHexDigit '7' 7) (by decide : IsHexDigit 'e' 14) hend
  exact .char (by decide : '/' ≠ '%') hescape

end OcEarley
