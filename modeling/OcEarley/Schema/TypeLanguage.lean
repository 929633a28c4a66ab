import OcEarley.Formal.Pattern
import OcEarley.Schema.Number
import OcEarley.Schema.Types

/-!
# Constants in the language of their type

The patterns of the JSON types, read as languages, against the canonical encodings of numbers and
strings.
-/

namespace OcEarley

namespace JsonPattern

open Pattern

/-- `[0-9]`. -/
def digit : Pattern := .chars false [('0', '9')]

/-- The syntax of the pattern of integers. -/
def integerPattern : Pattern :=
  .concat (optional (char '-'))
    (.alternate (char '0') (.concat (.chars false [('1', '9')]) (.star digit)))

/-- The syntax of an exponent, which has a sign. -/
def exponentPattern : Pattern :=
  .concat (.chars false [('e', 'e'), ('E', 'E')])
    (.concat (.chars false [('+', '+'), ('-', '-')]) (plus digit))

/-- The syntax of the pattern of numbers. -/
def numberPattern : Pattern :=
  .concat integerPattern
    (.concat (optional (.concat (char '.') (plus digit))) (optional exponentPattern))

/-- A character that stands for itself in a string. -/
def rawPattern : Pattern :=
  .chars true [('"', '"'), ('\\', '\\'), ('\x00', '\x1f'), ('\x7f', '\u009f')]

/-- The syntax of an escape, of which there is none with a code. -/
def escapePattern : Pattern :=
  .concat (char '\\') (.chars false [('"', '"'), ('\\', '\\'), ('/', '/'), ('b', 'b'), ('f', 'f'),
    ('n', 'n'), ('r', 'r'), ('t', 't')])

/-- The syntax of the pattern of strings. -/
def stringPattern : Pattern :=
  .concat (char '"') (.concat (.star (.alternate rawPattern escapePattern)) (char '"'))

theorem parse_integer : Pattern.parse integer = some integerPattern := by decide +kernel

theorem parse_number : Pattern.parse number = some numberPattern := by decide +kernel

theorem parse_string : Pattern.parse string = some stringPattern := by decide +kernel

/-! ### The languages of the number patterns -/

/-- Digits without a leading zero. -/
def IsNatural (l : List Char) : Prop :=
  l = ['0'] ∨ l ≠ [] ∧ (∀ c ∈ l, c.isDigit = true) ∧ l.head? ≠ some '0'

/-- The text after the point, if there is one. -/
def IsFraction (l : List Char) : Prop :=
  l = [] ∨ ∃ ds, l = '.' :: ds ∧ ds ≠ [] ∧ ∀ c ∈ ds, c.isDigit = true

/-- An exponent with its letter and its sign, if there is one. -/
def IsExponent (l : List Char) : Prop :=
  l = [] ∨ ∃ e sign ds, l = e :: sign :: ds ∧ (e = 'e' ∨ e = 'E') ∧ (sign = '+' ∨ sign = '-') ∧
    ds ≠ [] ∧ ∀ c ∈ ds, c.isDigit = true

theorem inClass_digit {c : Char} : inClass false [('0', '9')] c = c.isDigit := by
  simp [inClass, Char.isDigit, Char.le_def, UInt32.le_iff_toNat_le]

theorem inClass_nonzero {c : Char} :
    inClass false [('1', '9')] c = true ↔ c.isDigit = true ∧ c ≠ '0' := by
  have hzero : c ≠ '0' ↔ c.val.toNat ≠ 48 := by
    rw [Ne, ← Char.toNat_inj]
    rfl
  simp only [inClass, List.any_cons, List.any_nil, Bool.or_false, Bool.bne_false, Bool.and_eq_true,
    decide_eq_true_iff, Char.isDigit, Char.le_def, UInt32.le_iff_toNat_le, hzero]
  change (49 ≤ c.val.toNat ∧ c.val.toNat ≤ 57) ↔ (48 ≤ c.val.toNat ∧ c.val.toNat ≤ 57) ∧ _
  omega

theorem mem_integerPattern {l : List Char} :
    l ∈ integerPattern.language ↔
      ∃ sign ds, (sign = [] ∨ sign = ['-']) ∧ IsNatural ds ∧ sign ++ ds = l := by
  have hnatural : ∀ ds, ds ∈ (Pattern.alternate (char '0')
      (.concat (.chars false [('1', '9')]) (.star digit))).language ↔ IsNatural ds := by
    intro ds
    rw [mem_language_alternate, mem_language_char, mem_language_concat, IsNatural]
    refine or_congr_right ⟨?_, ?_⟩
    · rintro ⟨_, ⟨c, hc, rfl⟩, v, hv, rfl⟩
      obtain ⟨hdigit, hne⟩ := inClass_nonzero.1 hc
      refine ⟨by simp, fun d hd => ?_, by simpa using hne⟩
      rcases List.mem_cons.1 hd with rfl | hd
      · exact hdigit
      · exact inClass_digit ▸ mem_language_star_chars.1 hv d hd
    · rintro ⟨hne, hdigit, hzero⟩
      obtain ⟨c, v, rfl⟩ := List.exists_cons_of_ne_nil hne
      refine ⟨[c], ⟨c, inClass_nonzero.2 ⟨hdigit c List.mem_cons_self, by simpa using hzero⟩, rfl⟩,
        v, mem_language_star_chars.2 fun d hd => ?_, rfl⟩
      exact inClass_digit.trans (hdigit d (List.mem_cons_of_mem _ hd))
  rw [integerPattern, mem_language_concat]
  constructor
  · rintro ⟨sign, hsign, ds, hds, rfl⟩
    rw [mem_language_optional, mem_language_char] at hsign
    exact ⟨sign, ds, hsign.symm, (hnatural ds).1 hds, rfl⟩
  · rintro ⟨sign, ds, hsign, hds, rfl⟩
    exact ⟨sign, (mem_language_optional.trans (or_congr_left mem_language_char)).2 hsign.symm,
      ds, (hnatural ds).2 hds, rfl⟩

theorem mem_digits {l : List Char} :
    l ∈ (plus digit).language ↔ l ≠ [] ∧ ∀ c ∈ l, c.isDigit = true := by
  rw [digit, mem_language_plus_chars]
  simp only [inClass_digit]

theorem mem_fraction {l : List Char} :
    l ∈ (optional (.concat (char '.') (plus digit))).language ↔ IsFraction l := by
  rw [mem_language_optional, mem_language_char_concat, IsFraction, or_comm]
  simp only [mem_digits]
  refine or_congr_right ⟨?_, ?_⟩
  · rintro ⟨ds, hds, rfl⟩
    exact ⟨ds, rfl, hds⟩
  · rintro ⟨ds, rfl, hds⟩
    exact ⟨ds, hds, rfl⟩

/-- A class of two characters. -/
theorem inClass_pair {a b c : Char} : inClass false [(a, a), (b, b)] c = true ↔ c = a ∨ c = b := by
  have hone : ∀ d : Char, (d ≤ c ∧ c ≤ d) ↔ c = d := fun d =>
    ⟨fun h => Char.le_antisymm h.2 h.1, fun h => ⟨h ▸ Char.le_refl _, h ▸ Char.le_refl _⟩⟩
  simp [inClass, hone]

theorem mem_exponent {l : List Char} : l ∈ (optional exponentPattern).language ↔ IsExponent l := by
  rw [mem_language_optional, IsExponent, or_comm, exponentPattern, mem_language_concat]
  refine or_congr_right ⟨?_, ?_⟩
  · rintro ⟨_, ⟨e, he, rfl⟩, v, hv, rfl⟩
    obtain ⟨_, ⟨sign, hsign, rfl⟩, ds, hds, rfl⟩ := mem_language_concat.1 hv
    exact ⟨e, sign, ds, rfl, inClass_pair.1 he, inClass_pair.1 hsign, mem_digits.1 hds⟩
  · rintro ⟨e, sign, ds, rfl, he, hsign, hds⟩
    exact ⟨[e], ⟨e, inClass_pair.2 he, rfl⟩, sign :: ds, mem_language_concat.2
      ⟨[sign], ⟨sign, inClass_pair.2 hsign, rfl⟩, ds, mem_digits.2 hds, rfl⟩, rfl⟩

theorem mem_numberPattern {l : List Char} :
    l ∈ numberPattern.language ↔ ∃ whole ∈ integerPattern.language, ∃ fraction exponent,
      IsFraction fraction ∧ IsExponent exponent ∧ whole ++ (fraction ++ exponent) = l := by
  rw [numberPattern, mem_language_concat]
  simp only [mem_language_concat, mem_fraction, mem_exponent]
  constructor
  · rintro ⟨whole, hwhole, _, ⟨fraction, hf, exponent, he, rfl⟩, rfl⟩
    exact ⟨whole, hwhole, fraction, exponent, hf, he, rfl⟩
  · rintro ⟨whole, hwhole, fraction, exponent, hf, he, rfl⟩
    exact ⟨whole, hwhole, _, ⟨fraction, hf, exponent, he, rfl⟩, rfl⟩

theorem IsNatural.isDigit {l : List Char} (h : IsNatural l) {c : Char} (hc : c ∈ l) :
    c.isDigit = true := by
  rcases h with rfl | ⟨-, h, -⟩
  · exact List.mem_singleton.1 hc ▸ rfl
  · exact h c hc

theorem isDigit_of_mem_integer {l : List Char} (h : l ∈ integerPattern.language) {c : Char}
    (hc : c ∈ l) : c.isDigit = true ∨ c = '-' := by
  obtain ⟨sign, ds, hsign, hds, rfl⟩ := mem_integerPattern.1 h
  rcases List.mem_append.1 hc with hc | hc
  · rcases hsign with rfl | rfl
    · cases hc
    · exact .inr (List.mem_singleton.1 hc)
  · exact .inl (hds.isDigit hc)

theorem not_exponent_letter {whole fraction : List Char}
    (hwhole : whole ∈ integerPattern.language) (hf : IsFraction fraction) :
    ∀ c ∈ whole ++ fraction, (decide (c = 'e') || decide (c = 'E')) = false := by
  have hdigit : ∀ {c : Char}, c.isDigit = true →
      (decide (c = 'e') || decide (c = 'E')) = false := by
    intro c hc
    have he : c ≠ 'e' := ne_of_isDigit hc rfl
    have hE : c ≠ 'E' := ne_of_isDigit hc rfl
    simp [he, hE]
  intro c hc
  rcases List.mem_append.1 hc with hc | hc
  · rcases isDigit_of_mem_integer hwhole hc with hc | rfl
    · exact hdigit hc
    · rfl
  · rcases hf with rfl | ⟨ds, rfl, -, hds⟩
    · cases hc
    · rcases List.mem_cons.1 hc with rfl | hc
      · rfl
      · exact hdigit (hds c hc)

/-- The number pattern asks for a sign after the letter of an exponent. -/
theorem exponent_signed {l mantissa exponent : List Char} (h : l ∈ numberPattern.language)
    (hs : splitOnce (fun c => c = 'e' || c = 'E') l = some (mantissa, exponent)) :
    ∃ ds, exponent = '+' :: ds ∨ exponent = '-' :: ds := by
  obtain ⟨whole, hwhole, fraction, x, hf, hx, rfl⟩ := mem_numberPattern.1 h
  have hmantissa := not_exponent_letter hwhole hf
  rw [← List.append_assoc] at hs
  rcases hx with rfl | ⟨e, sign, ds, rfl, he, hsign, -⟩
  · rw [List.append_nil, splitOnce_eq_none hmantissa] at hs
    cases hs
  · have he' : (decide (e = 'e') || decide (e = 'E')) = true := by simpa using he
    rw [splitOnce_append hmantissa he'] at hs
    obtain ⟨-, rfl⟩ := Prod.mk.inj (Option.some.inj hs)
    rcases hsign with rfl | rfl
    · exact ⟨ds, .inl rfl⟩
    · exact ⟨ds, .inr rfl⟩

end JsonPattern

/-! ### Canonical numbers -/

open JsonPattern

section CanonicalNumber

variable {parts : DecimalParts} {d : Char} {r : List Char}

theorem isNatural_cons {l : List Char} (hd : d ≠ '0')
    (hl : ∀ c ∈ d :: l, c.isDigit = true) : IsNatural (d :: l) :=
  .inr ⟨by simp, hl, by simpa using hd⟩

theorem renderPlainNumber_fits (hparts : parts.digits = d :: r) (hd : d ≠ '0')
    (hdigits : ∀ c ∈ d :: r, c.isDigit = true) {s : List Char}
    (h : renderPlainNumber parts = .ok s) :
    s ∈ numberPattern.language ∧ (s ∈ integerPattern.language ↔ 0 ≤ parts.scale) := by
  set sign := if parts.negative then ['-'] else [] with hsign
  have hsign' : sign = [] ∨ sign = ['-'] := by
    rw [hsign]
    split
    · exact .inr rfl
    · exact .inl rfl
  have hzero : ∀ m : ℕ, ∀ c ∈ List.replicate m '0', c.isDigit = true := fun m c hc =>
    (List.mem_replicate.1 hc).2 ▸ rfl
  -- A text with a point is a number and not an integer.
  have hpoint : ∀ ds fraction : List Char, IsNatural ds → fraction ≠ [] →
      (∀ c ∈ fraction, c.isDigit = true) → parts.scale < 0 → s = sign ++ ds ++ '.' :: fraction →
      s ∈ numberPattern.language ∧ (s ∈ integerPattern.language ↔ 0 ≤ parts.scale) := by
    rintro ds fraction hds hne hfraction hscale rfl
    refine ⟨mem_numberPattern.2 ⟨sign ++ ds, mem_integerPattern.2 ⟨sign, ds, hsign', hds, rfl⟩,
      '.' :: fraction, [], .inr ⟨fraction, rfl, hne, hfraction⟩, .inl rfl, by simp⟩,
      fun hmem => ?_, fun hle => absurd hle (by omega)⟩
    rcases isDigit_of_mem_integer hmem (c := '.') (by simp) with h | h <;> cases h
  unfold renderPlainNumber at h
  rw [← hsign] at h
  dsimp only at h
  split at h
  · next hscale =>
    obtain ⟨zeroes, -, h⟩ := Result.bind_eq_ok.1 h
    obtain rfl := Result.pure_eq_ok.1 h
    have hmem : sign ++ parts.digits ++ List.replicate zeroes '0' ∈ integerPattern.language := by
      refine mem_integerPattern.2 ⟨sign, d :: (r ++ List.replicate zeroes '0'), hsign',
        isNatural_cons hd fun c hc => ?_, by simp [hparts]⟩
      rw [← List.cons_append] at hc
      rcases List.mem_append.1 hc with hc | hc
      · exact hdigits c hc
      · exact hzero zeroes c hc
    exact ⟨mem_numberPattern.2 ⟨_, hmem, [], [], .inl rfl, .inl rfl, by simp⟩,
      iff_of_true hmem hscale⟩
  · next hscale =>
    obtain ⟨places, hplaces, h⟩ := Result.bind_eq_ok.1 h
    have hpos : 0 < places := by
      unfold usizeOfI128 at hplaces
      obtain ⟨_, -, hplaces⟩ := Result.bind_eq_ok.1 hplaces
      obtain rfl := Result.pure_eq_ok.1 hplaces
      omega
    split at h
    · next hlt =>
      obtain rfl := Result.pure_eq_ok.1 h
      obtain ⟨m, hm⟩ : ∃ m, parts.digits.length - places = m + 1 :=
        ⟨parts.digits.length - places - 1, by omega⟩
      refine hpoint (d :: r.take m) (parts.digits.drop (m + 1)) (isNatural_cons hd ?_) ?_ ?_
        (by omega) (by rw [hm, hparts]; simp)
      · exact fun c hc => hdigits c (List.take_subset (m + 1) (d :: r) hc)
      · exact fun hnil => by
          have := congrArg List.length hnil
          rw [List.length_drop, List.length_nil] at this
          omega
      · exact fun c hc => hdigits c (hparts ▸ List.drop_subset _ _ hc)
    · obtain rfl := Result.pure_eq_ok.1 h
      refine hpoint ['0'] (List.replicate (places - parts.digits.length) '0' ++ parts.digits)
        (.inl rfl) (by simp [hparts]) (fun c hc => ?_) (by omega) (by simp)
      rcases List.mem_append.1 hc with hc | hc
      · exact hzero _ c hc
      · exact hdigits c (hparts ▸ hc)

/-- The text before the exponent. -/
def mantissaOf (parts : DecimalParts) : List Char :=
  (if parts.negative then ['-'] else []) ++ parts.digits.take 1 ++
    (if 1 < parts.digits.length then '.' :: parts.digits.drop 1 else [])

theorem scientificText_eq {exponent : ℤ} (h : exponent ≠ 0) :
    scientificText parts exponent = mantissaOf parts ++ 'e' :: integerText exponent := by
  rw [scientificText, if_pos h]
  rfl

/-- The mantissa of a text in scientific notation is a number without an exponent. -/
theorem mantissaOf_split (hparts : parts.digits = d :: r) (hd : d ≠ '0')
    (hdigits : ∀ c ∈ d :: r, c.isDigit = true) :
    ∃ whole ∈ integerPattern.language, ∃ fraction, IsFraction fraction ∧
      whole ++ fraction = mantissaOf parts := by
  set sign := if parts.negative then ['-'] else [] with hsign
  have hsign' : sign = [] ∨ sign = ['-'] := by
    rw [hsign]
    split
    · exact .inr rfl
    · exact .inl rfl
  refine ⟨sign ++ [d], mem_integerPattern.2 ⟨sign, [d], hsign', isNatural_cons hd
    fun c hc => hdigits c (List.mem_cons.2 (.inl (List.mem_singleton.1 hc))), rfl⟩,
    if 1 < parts.digits.length then '.' :: parts.digits.drop 1 else [], ?_, ?_⟩
  · split
    · next hlen =>
      rw [hparts] at hlen ⊢
      refine .inr ⟨r, rfl, fun hnil => ?_, fun c hc => hdigits c (List.mem_cons_of_mem _ hc)⟩
      rw [hnil] at hlen
      simp at hlen
    · exact .inl rfl
  · rw [mantissaOf, ← hsign, hparts]
    rfl

theorem isDigit_toDigits {m : ℕ} {c : Char} (hc : c ∈ Nat.toDigits 10 m) : c.isDigit = true :=
  Nat.isDigit_of_mem_toDigits (by decide) (by decide) hc

theorem e_not_mem_integer (l r : List Char) : l ++ 'e' :: r ∉ integerPattern.language := by
  intro h
  rcases isDigit_of_mem_integer h (c := 'e') (by simp) with h | h <;> cases h

theorem scientificText_fits (hparts : parts.digits = d :: r) (hd : d ≠ '0')
    (hdigits : ∀ c ∈ d :: r, c.isDigit = true) {exponent : ℤ} (h : exponent < 0) :
    scientificText parts exponent ∈ numberPattern.language ∧
      scientificText parts exponent ∉ integerPattern.language := by
  obtain ⟨whole, hwhole, fraction, hf, hm⟩ := mantissaOf_split hparts hd hdigits
  rw [scientificText_eq (by omega)]
  refine ⟨mem_numberPattern.2 ⟨whole, hwhole, fraction, _, hf, .inr ⟨'e', '-',
    Nat.toDigits 10 exponent.natAbs, rfl, .inl rfl, .inr rfl, Nat.toDigits_ne_nil,
    fun c hc => isDigit_toDigits hc⟩, ?_⟩, e_not_mem_integer _ _⟩
  rw [← List.append_assoc, hm, integerText, if_pos h]

/-- A positive exponent is written without the sign that the number pattern asks for. -/
theorem scientificText_not_fits (hparts : parts.digits = d :: r) (hd : d ≠ '0')
    (hdigits : ∀ c ∈ d :: r, c.isDigit = true) {exponent : ℤ} (h : 0 < exponent) :
    scientificText parts exponent ∉ numberPattern.language := by
  obtain ⟨whole, hwhole, fraction, hf, hm⟩ := mantissaOf_split hparts hd hdigits
  rw [scientificText_eq (by omega)]
  intro hmem
  obtain ⟨ds, hds⟩ := exponent_signed hmem
    (splitOnce_append (hm ▸ not_exponent_letter hwhole hf) rfl)
  rw [integerText, if_neg (by omega)] at hds
  have hdigit : ∀ {c : Char}, c :: ds = Nat.toDigits 10 exponent.natAbs → c.isDigit = true :=
    fun heq => isDigit_toDigits (heq ▸ List.mem_cons_self)
  rcases hds with hds | hds <;> cases hdigit hds.symm

theorem length_scientificText (hparts : parts.digits ≠ []) (exponent : ℤ) :
    (scientificText parts exponent).length =
      (if parts.negative then 1 else 0) + 1 +
        (if 1 < parts.digits.length then parts.digits.length else 0) +
        (if exponent ≠ 0 then 1 + (integerText exponent).length else 0) := by
  have hpos : 0 < parts.digits.length := List.length_pos_iff.2 hparts
  unfold scientificText
  simp only [List.length_append, List.length_take]
  split_ifs <;> simp only [List.length_cons, List.length_nil, List.length_drop] <;> omega

end CanonicalNumber

/-- Writing the trailing zeros of the number takes no more characters than an exponent would. -/
def NumberLiteral.FewTrailingZeros (n : NumberLiteral) : Prop :=
  n.significant = [] ∨
    n.power ≤ (if 1 < n.significant.length then 2 else 1) +
      (Nat.toDigits 10 (n.power + n.significant.length - 1).toNat).length

theorem mem_number {s : List Char} :
    Pattern.encode s ∈ patternLanguage JsonPattern.number ↔ s ∈ numberPattern.language := by
  rw [patternLanguage_eq parse_number, Pattern.encode_mem_byteLanguage]

theorem mem_integer {s : List Char} :
    Pattern.encode s ∈ patternLanguage JsonPattern.integer ↔ s ∈ integerPattern.language := by
  rw [patternLanguage_eq parse_integer, Pattern.encode_mem_byteLanguage]

theorem zero_mem_integer : ['0'] ∈ integerPattern.language :=
  mem_integerPattern.2 ⟨[], ['0'], .inl rfl, .inl rfl, rfl⟩

/-- The number is written in scientific notation exactly when that is shorter. -/
theorem scientific_shorter_iff {n : NumberLiteral} {len : ℕ} (hne : n.significant ≠ [])
    (hpower : 0 ≤ n.power)
    (hlen : plainNumberLength ⟨n.negative, n.significant, n.power⟩ = .ok len) :
    (scientificText ⟨n.negative, n.significant, n.power⟩
      (n.power + (n.significant.length - 1))).length < len ↔ ¬n.FewTrailingZeros := by
  have hpos : 0 < n.significant.length := List.length_pos_iff.2 hne
  have hdigits : integerText (n.power + (n.significant.length - 1)) =
      Nat.toDigits 10 (n.power + n.significant.length - 1).toNat := by
    rw [integerText, if_neg (by omega)]
    congr 1
    omega
  rw [plainNumberLength_eq hlen, length_scientificText hne, NumberLiteral.FewTrailingZeros, hdigits]
  simp only [hne, false_or, if_pos hpower]
  generalize (Nat.toDigits 10 (n.power + n.significant.length - 1).toNat).length = width
  split_ifs <;> omega

/-- The encoding of a number is in the language of its type exactly when the number is not written
with a positive exponent. -/
theorem canonicalNumber_fits_iff (n : NumberLiteral) {s : List Char}
    (h : canonicalNumber n.text = .ok s) :
    (Pattern.encode s ∈ patternLanguage JsonPattern.number ∧
      (Pattern.encode s ∈ patternLanguage JsonPattern.integer ↔ numberIsInteger n.text = true)) ↔
      n.FewTrailingZeros := by
  rw [mem_number, mem_integer, numberIsInteger_eq h]
  by_cases hne : n.significant = []
  · -- Zero.
    obtain ⟨parts, hparts, h⟩ := Result.bind_eq_ok.1 h
    obtain ⟨-, rfl⟩ | ⟨hne', -⟩ := NumberLiteral.decimalParts_eq hparts
    · obtain rfl := Result.pure_eq_ok.1 h
      refine iff_of_true ⟨mem_numberPattern.2 ⟨_, zero_mem_integer, [], [], .inl rfl,
        .inl rfl, rfl⟩,
        iff_of_true zero_mem_integer (.inl hne)⟩ (.inl hne)
    · exact absurd hne hne'
  obtain ⟨len, hlen, hs⟩ := canonicalNumber_eq h hne
  obtain ⟨d, r, hd⟩ := List.exists_cons_of_ne_nil hne
  have hzero := NumberLiteral.significant_ne_zero hd
  have hdigits : ∀ c ∈ d :: r, c.isDigit = true := fun c hc =>
    NumberLiteral.significant_isDigit (hd ▸ hc)
  have hlength : n.significant.length = r.length + 1 := by rw [hd, List.length_cons]
  simp only [hne, false_or]
  by_cases hpower : 0 ≤ n.power
  · have hshorter := scientific_shorter_iff hne hpower hlen
    split at hs
    · next hlt =>
      -- The exponent is positive, because one digit without zeros is not shortened.
      have hexp : 0 < n.power + ((n.significant.length : ℤ) - 1) := by
        by_contra hle
        rw [length_scientificText hne, plainNumberLength_eq hlen] at hlt
        simp only [if_pos hpower] at hlt
        split_ifs at hlt <;> omega
      refine iff_of_false (fun hfits => ?_) (hshorter.1 hlt)
      exact scientificText_not_fits hd hzero hdigits hexp (hs ▸ hfits.1)
    · next hlt =>
      exact iff_of_true (renderPlainNumber_fits hd hzero hdigits hs)
        (not_not.1 fun hnot => hlt (hshorter.2 hnot))
  · refine iff_of_true ?_ (.inr (by split_ifs <;> omega))
    split at hs
    · next hlt =>
      have hexp : n.power + ((n.significant.length : ℤ) - 1) < 0 := by
        by_contra hle
        rw [length_scientificText hne, plainNumberLength_eq hlen] at hlt
        simp only [if_neg hpower] at hlt
        split_ifs at hlt <;> omega
      obtain ⟨hnumber, hinteger⟩ := scientificText_fits
        (show (DecimalParts.mk n.negative n.significant n.power).digits = _ from hd) hzero hdigits
        hexp
      exact ⟨hs ▸ hnumber, iff_of_false (hs ▸ hinteger) hpower⟩
    · exact renderPlainNumber_fits hd hzero hdigits hs

/-- The literal `1000`. -/
def oneThousand : NumberLiteral where
  negative := false
  integer := ['1', '0', '0', '0']
  fraction := none
  exponent := none
  integer_digits := ⟨by simp, by simp [Char.isDigit]⟩
  integer_zero h := absurd (Option.some.inj h) (by decide)
  fraction_digits := by simp
  exponent_form := by simp

theorem canonicalNumber_oneThousand : canonicalNumber oneThousand.text = .ok ['1', 'e', '3'] := by
  decide +kernel

theorem canonicalNumber_fits_iff_oneThousand :
    (Pattern.encode ['1', 'e', '3'] ∈ patternLanguage JsonPattern.number ∧
      (Pattern.encode ['1', 'e', '3'] ∈ patternLanguage JsonPattern.integer ↔
        numberIsInteger oneThousand.text = true)) ↔ oneThousand.FewTrailingZeros :=
  canonicalNumber_fits_iff oneThousand canonicalNumber_oneThousand

theorem oneThousand_not_fewTrailingZeros : ¬oneThousand.FewTrailingZeros := by
  have hne : oneThousand.significant ≠ [] := by decide +kernel
  have hpower : ¬oneThousand.power ≤ (if 1 < oneThousand.significant.length then 2 else 1) +
      (Nat.toDigits 10 (oneThousand.power + oneThousand.significant.length - 1).toNat).length := by
    decide +kernel
  exact fun h => h.elim hne hpower

/-- `1000` is written `1e3`, which the number pattern rejects. -/
theorem canonicalNumber_not_in_type :
    ¬∀ (n : NumberLiteral) (s : List Char), canonicalNumber n.text = .ok s →
      Pattern.encode s ∈ patternLanguage JsonPattern.number ∧
        (Pattern.encode s ∈ patternLanguage JsonPattern.integer ↔
          numberIsInteger n.text = true) := by
  intro h
  have hmem := mem_number.1 (h oneThousand ['1', 'e', '3'] canonicalNumber_oneThousand).1
  have hsplit : splitOnce (fun c => c = 'e' || c = 'E') ['1', 'e', '3'] = some (['1'], ['3']) := by
    decide
  obtain ⟨ds, hds⟩ := exponent_signed hmem hsplit
  rcases hds with hds | hds <;> exact absurd (List.cons.inj hds).1 (by decide)

/-! ### Canonical strings -/

/-- The character is written as one of the pieces of the string pattern. -/
def InStringPattern (c : Char) : Prop :=
  (0x20 ≤ c.toNat ∨ c.toNat ∈ [0x08, 0x09, 0x0A, 0x0C, 0x0D]) ∧
    ¬(0x7F ≤ c.toNat ∧ c.toNat ≤ 0x9F)

instance (c : Char) : Decidable (InStringPattern c) :=
  inferInstanceAs (Decidable ((_ ∨ _) ∧ ¬_))

/-- The characters that the string pattern allows after a backslash. -/
def escapeLetters : List Char := ['"', '\\', '/', 'b', 'f', 'n', 'r', 't']

/-- One repetition of the string pattern. -/
def IsPiece (l : List Char) : Prop :=
  (∃ c : Char, (c ≠ '"' ∧ c ≠ '\\' ∧ 0x20 ≤ c.toNat ∧ ¬(0x7F ≤ c.toNat ∧ c.toNat ≤ 0x9F)) ∧
    l = [c]) ∨ ∃ e ∈ escapeLetters, l = ['\\', e]

theorem eq_iff_between {c d : Char} : (d ≤ c ∧ c ≤ d) ↔ c = d :=
  ⟨fun h => Char.le_antisymm h.2 h.1, fun h => ⟨h ▸ Char.le_refl _, h ▸ Char.le_refl _⟩⟩

theorem mem_rawPattern {l : List Char} : l ∈ rawPattern.language ↔ ∃ c : Char,
    (c ≠ '"' ∧ c ≠ '\\' ∧ 0x20 ≤ c.toNat ∧ ¬(0x7F ≤ c.toNat ∧ c.toNat ≤ 0x9F)) ∧ l = [c] := by
  rw [rawPattern, Pattern.mem_language_chars]
  refine exists_congr fun c => and_congr_left fun _ => ?_
  have hcontrol : ('\x00' ≤ c ∧ c ≤ '\x1f') ↔ ¬0x20 ≤ c.toNat := by
    change (0 ≤ c.toNat ∧ c.toNat ≤ 31) ↔ _
    omega
  have hdelete : ('\x7f' ≤ c ∧ c ≤ '\u009f') ↔ 0x7F ≤ c.toNat ∧ c.toNat ≤ 0x9F := Iff.rfl
  simp only [Pattern.inClass, List.any_cons, List.any_nil, Bool.or_false, Bool.bne_true,
    Bool.not_eq_true', Bool.or_eq_false_iff, ← Bool.decide_and, decide_eq_false_iff_not,
    eq_iff_between, hcontrol, hdelete, not_not, ne_eq]

theorem mem_escapePattern {l : List Char} :
    l ∈ escapePattern.language ↔ ∃ e ∈ escapeLetters, l = ['\\', e] := by
  rw [escapePattern, Pattern.mem_language_char_concat]
  constructor
  · rintro ⟨_, ⟨e, he, rfl⟩, rfl⟩
    refine ⟨e, ?_, rfl⟩
    simpa [Pattern.inClass, ← Bool.decide_and, eq_iff_between, escapeLetters] using he
  · rintro ⟨e, he, rfl⟩
    refine ⟨[e], ⟨e, ?_, rfl⟩, rfl⟩
    simpa [Pattern.inClass, ← Bool.decide_and, eq_iff_between, escapeLetters] using he

theorem mem_stringPattern {l : List Char} :
    l ∈ stringPattern.language ↔ ∃ L : List (List Char), (∀ piece ∈ L, IsPiece piece) ∧
      l = '"' :: L.flatten ++ ['"'] := by
  have hpiece : ∀ p, p ∈ (Pattern.alternate rawPattern escapePattern).language ↔ IsPiece p :=
    fun p => by
      rw [Pattern.mem_language_alternate, mem_rawPattern, mem_escapePattern]
      rfl
  rw [stringPattern, Pattern.mem_language_char_concat]
  constructor
  · rintro ⟨_, hl, rfl⟩
    obtain ⟨v, hv, w, hw, rfl⟩ := Pattern.mem_language_concat.1 hl
    obtain ⟨L, rfl, hL⟩ := Language.mem_kstar.1 hv
    obtain rfl := Pattern.mem_language_char.1 hw
    exact ⟨L, fun p hp => (hpiece p).1 (hL p hp), rfl⟩
  · rintro ⟨L, hL, rfl⟩
    refine ⟨_, Pattern.mem_language_concat.2 ⟨L.flatten, Language.mem_kstar.2 ⟨L, rfl, ?_⟩,
      ['"'], Pattern.mem_language_char.2 rfl, rfl⟩, rfl⟩
    exact fun p hp => (hpiece p).2 (hL p hp)

/-- How a character is written: as itself, with a short escape or with its number. -/
theorem escapeChar_cases (c : Char) :
    escapeChar c = [c] ∧ c ≠ '"' ∧ c ≠ '\\' ∧ 0x20 ≤ c.toNat ∨
      (∃ e ∈ escapeLetters, escapeChar c = ['\\', e]) ∧ InStringPattern c ∨
      (∃ r, escapeChar c = '\\' :: 'u' :: r) ∧ ¬InStringPattern c := by
  have hletter : ∀ e ∈ escapeLetters, escapeChar c = ['\\', e] → InStringPattern c →
      (∃ e ∈ escapeLetters, escapeChar c = ['\\', e]) ∧ InStringPattern c :=
    fun e he hc hin => ⟨⟨e, he, hc⟩, hin⟩
  unfold escapeChar at hletter ⊢
  split_ifs at hletter ⊢ with h1 h2 h3 h4 h5 h6 h7 h8
  · exact .inr (.inl (hletter '"' (by decide) rfl (h1 ▸ by decide)))
  · exact .inr (.inl (hletter '\\' (by decide) rfl (h2 ▸ by decide)))
  · exact .inr (.inl (hletter 'b' (by decide) rfl (by simp [InStringPattern, h3])))
  · exact .inr (.inl (hletter 'f' (by decide) rfl (by simp [InStringPattern, h4])))
  · exact .inr (.inl (hletter 'n' (by decide) rfl (by simp [InStringPattern, h5])))
  · exact .inr (.inl (hletter 'r' (by decide) rfl (by simp [InStringPattern, h6])))
  · exact .inr (.inl (hletter 't' (by decide) rfl (by simp [InStringPattern, h7])))
  · refine .inr (.inr ⟨⟨_, rfl⟩, fun hin => ?_⟩)
    simp only [InStringPattern, List.mem_cons, List.not_mem_nil, or_false] at hin
    omega
  · exact .inl ⟨rfl, h1, h2, by omega⟩

/-- A text that starts with a backslash and goes on with a piece is an escape. -/
theorem IsPiece.of_backslash {p r l : List Char} {c : Char} (hp : IsPiece p)
    (h : '\\' :: c :: r = p ++ l) : c ∈ escapeLetters ∧ p = ['\\', c] ∧ l = r := by
  obtain ⟨d, ⟨-, hd, -⟩, rfl⟩ | ⟨e, he, rfl⟩ := hp
  · exact absurd (List.cons.inj h).1.symm hd
  · obtain ⟨rfl, rfl⟩ := List.cons.inj (List.cons.inj h).2
    exact ⟨he, rfl, rfl⟩

theorem inStringPattern_of_flatten {s : List Char} {L : List (List Char)}
    (hL : ∀ piece ∈ L, IsPiece piece) (h : s.flatMap escapeChar = L.flatten) :
    ∀ c ∈ s, InStringPattern c := by
  induction s generalizing L with
  | nil => simp
  | cons c s ih =>
    rw [List.flatMap_cons] at h
    cases L with
    | nil =>
      obtain ⟨hc, -⟩ | ⟨⟨e, -, hc⟩, -⟩ | ⟨⟨r, hc⟩, -⟩ := escapeChar_cases c <;> simp [hc] at h
    | cons piece L =>
      have hpiece := hL piece List.mem_cons_self
      have hrest : ∀ p ∈ L, IsPiece p := fun p hp => hL p (List.mem_cons_of_mem _ hp)
      rw [List.flatten_cons] at h
      refine List.forall_mem_cons.2 ?_
      obtain ⟨hc, -, hback, hlow⟩ | ⟨⟨e, -, hc⟩, hin⟩ | ⟨⟨r, hc⟩, -⟩ := escapeChar_cases c
      · -- A character that stands for itself is a piece of its own.
        rw [hc] at h
        obtain ⟨d, hd, rfl⟩ | ⟨e, -, rfl⟩ := hpiece
        · obtain ⟨rfl, hs⟩ := List.cons.inj h
          exact ⟨⟨.inl hlow, hd.2.2.2⟩, ih hrest hs⟩
        · exact absurd (List.cons.inj h).1 hback
      · rw [hc] at h
        obtain ⟨-, -, hs⟩ := hpiece.of_backslash h
        exact ⟨hin, ih hrest hs.symm⟩
      · rw [hc] at h
        obtain ⟨hu, -⟩ := hpiece.of_backslash h
        exact absurd hu (by decide)

theorem flatMap_pieces {s : List Char} (h : ∀ c ∈ s, InStringPattern c) :
    ∃ L : List (List Char), (∀ piece ∈ L, IsPiece piece) ∧ s.flatMap escapeChar = L.flatten := by
  refine ⟨s.map escapeChar, fun piece hpiece => ?_, List.flatMap_def⟩
  obtain ⟨c, hc, rfl⟩ := List.mem_map.1 hpiece
  obtain ⟨heq, hquote, hback, hlow⟩ | ⟨⟨e, he, heq⟩, -⟩ | ⟨-, hnot⟩ := escapeChar_cases c
  · exact .inl ⟨c, ⟨hquote, hback, hlow, (h c hc).2⟩, heq⟩
  · exact .inr ⟨e, he, heq⟩
  · exact absurd (h c hc) hnot

theorem mem_string {s : String} :
    utf8Bytes (jsonString s) ∈ patternLanguage JsonPattern.string ↔
      ∃ L : List (List Char), (∀ piece ∈ L, IsPiece piece) ∧
        s.toList.flatMap escapeChar = L.flatten := by
  have htext : (jsonString s).toList = '"' :: s.toList.flatMap escapeChar ++ ['"'] :=
    String.toList_ofList
  have hbytes : utf8Bytes (jsonString s) = Pattern.encode (jsonString s).toList := rfl
  rw [hbytes, patternLanguage_eq parse_string, Pattern.encode_mem_byteLanguage, mem_stringPattern,
    htext]
  refine exists_congr fun L => and_congr_right fun _ => ⟨fun h => ?_, fun h => by rw [h]⟩
  exact List.append_left_injective _ (List.cons.inj h).2

/-- The encoding of a string is in the language of the string type exactly when the string has
neither control characters without a short escape nor characters from U+007F to U+009F. -/
theorem jsonString_fits_iff (s : String) :
    utf8Bytes (jsonString s) ∈ patternLanguage JsonPattern.string ↔
      ∀ c ∈ s.toList, InStringPattern c := by
  rw [mem_string]
  constructor
  · rintro ⟨L, hL, h⟩
    exact inStringPattern_of_flatten hL h
  · exact flatMap_pieces

/-- The encoding of U+0001 is not in the language of the string type. -/
theorem jsonString_not_in_type :
    ¬∀ s : String, utf8Bytes (jsonString s) ∈ patternLanguage JsonPattern.string := by
  intro h
  obtain ⟨L, hL, hflat⟩ := mem_string.1 (h "\x01")
  obtain ⟨hraw | hshort, -⟩ := inStringPattern_of_flatten hL hflat '\x01' (by simp)
  · exact absurd hraw (by decide)
  · exact absurd hshort (by decide)

end OcEarley
