import Mathlib.Algebra.Group.Int.Defs
import Mathlib.Data.List.DropRight
import OcEarley.Base.Error

/-!
# Canonical numbers

A number is kept as the text of its literal.  `decimalParts` reads it as `± digits * 10 ^ scale`
with neither leading nor trailing zeros, and `canonicalNumber` writes it without an exponent or in
scientific notation, whichever is shorter.
-/

namespace OcEarley

/-! ### Literals -/

/-- A JSON number literal, as it is written. -/
structure NumberLiteral where
  negative : Bool
  integer : List Char
  fraction : Option (List Char)
  /-- The letter, the sign and the digits of the exponent. -/
  exponent : Option (Char × Option Char × List Char)
  integer_digits : integer ≠ [] ∧ ∀ c ∈ integer, c.isDigit = true
  /-- No leading zeros. -/
  integer_zero : integer.head? = some '0' → integer = ['0']
  fraction_digits : ∀ f, fraction = some f → f ≠ [] ∧ ∀ c ∈ f, c.isDigit = true
  exponent_form : ∀ e sign ds, exponent = some (e, sign, ds) → (e = 'e' ∨ e = 'E') ∧
    (∀ c, sign = some c → c = '+' ∨ c = '-') ∧ ds ≠ [] ∧ ∀ c ∈ ds, c.isDigit = true

namespace NumberLiteral

variable (n : NumberLiteral)

/-- The sign of the literal. -/
def signText : List Char := if n.negative then ['-'] else []

/-- The fraction with its point. -/
def fractionText : List Char :=
  match n.fraction with
  | some f => '.' :: f
  | none => []

/-- The exponent without its letter. -/
def exponentDigits : Option (List Char) :=
  n.exponent.map fun (_, sign, ds) => sign.toList ++ ds

/-- The exponent with its letter. -/
def exponentText : List Char :=
  match n.exponent with
  | some (e, sign, ds) => e :: (sign.toList ++ ds)
  | none => []

/-- The characters of the literal itself. -/
def text : List Char := n.signText ++ n.integer ++ n.fractionText ++ n.exponentText

end NumberLiteral

/-! ### Reading -/

/-- `i128::MAX`. -/
def i128Max : ℤ := 2 ^ 127 - 1

/-- `i128::MIN`. -/
def i128Min : ℤ := -2 ^ 127

/-- The error of an exponent that does not fit. -/
def numberRangeError : CompileError :=
  .unsupportedCombination Provenance.root.location
    "number exponent is outside the supported canonical range"

/-- A checked operation on `i128`. -/
def checkedI128 (z : ℤ) : Except CompileError ℤ := do
  Result.require (i128Min ≤ z ∧ z ≤ i128Max) numberRangeError
  pure z

/-- `usize::try_from` of an `i128`. -/
def usizeOfI128 (z : ℤ) : Except CompileError ℕ := do
  Result.require (0 ≤ z ∧ z ≤ usizeMax) numberRangeError
  pure z.toNat

/-- A checked sum of `usize`. -/
def checkedUsize (n : ℕ) : Except CompileError ℕ := do
  Result.require (n ≤ usizeMax) numberRangeError
  pure n

/-- `str::split_once`. -/
def splitOnce (p : Char → Bool) : List Char → Option (List Char × List Char)
  | [] => none
  | c :: l => if p c then some ([], l) else (splitOnce p l).map fun parts => (c :: parts.1, parts.2)

/-- The digits of `str::parse::<i128>`, after the sign. -/
def parseDigits (sign : ℤ) (digits : List Char) : Option ℤ :=
  if digits ≠ [] ∧ digits.all Char.isDigit then
    let value := sign * Nat.ofDigitChars 10 digits 0
    if i128Min ≤ value ∧ value ≤ i128Max then some value else none
  else none

/-- `str::parse::<i128>`. -/
def parseI128 : List Char → Option ℤ
  | '+' :: digits => parseDigits 1 digits
  | '-' :: digits => parseDigits (-1) digits
  | digits => parseDigits 1 digits

/-- A number as a sign, its digits and the power of ten that they are multiplied with. -/
structure DecimalParts where
  negative : Bool
  digits : List Char
  scale : ℤ
  deriving DecidableEq, Repr

/-- `strip_prefix('-')`. -/
def stripMinus : List Char → Bool × List Char
  | '-' :: l => (true, l)
  | l => (false, l)

/-- The parts of a mantissa with the exponent that follows it. -/
def mantissaParts (mantissa : List Char) (exponent : ℤ) : Except CompileError DecimalParts := do
  let stripped := stripMinus mantissa
  let parts := (splitOnce (· = '.') stripped.2).getD (stripped.2, [])
  let _ ← checkedUsize (parts.1.length + parts.2.length)
  let digits := (parts.1 ++ parts.2).dropWhile (· = '0')
  if digits = [] then pure ⟨false, ['0'], 0⟩
  else do
    let significant := digits.rdropWhile (· = '0')
    let scale ← checkedI128 (exponent - parts.2.length)
    let scale ← checkedI128 (scale + (digits.length - significant.length : ℕ))
    pure ⟨stripped.1, significant, scale⟩

/-- The parts of a number's text. -/
def decimalParts (text : List Char) : Except CompileError DecimalParts :=
  match splitOnce (fun c => c = 'e' || c = 'E') text with
  | some (mantissa, exponent) => do
    let exponent ← Result.unwrap (parseI128 exponent) numberRangeError
    mantissaParts mantissa exponent
  | none => mantissaParts text 0

/-! ### Writing -/

/-- The length of the number when it is written without an exponent. -/
def plainNumberLength (parts : DecimalParts) : Except CompileError ℕ := do
  let sign := if parts.negative then 1 else 0
  if 0 ≤ parts.scale then do
    let zeroes ← usizeOfI128 parts.scale
    checkedUsize (sign + parts.digits.length + zeroes)
  else do
    let decimalPlaces ← usizeOfI128 (-parts.scale)
    if decimalPlaces < parts.digits.length then checkedUsize (sign + parts.digits.length + 1)
    else checkedUsize (sign + 2 + (decimalPlaces - parts.digits.length) + parts.digits.length)

/-- The number, written without an exponent. -/
def renderPlainNumber (parts : DecimalParts) : Except CompileError (List Char) := do
  let sign := if parts.negative then ['-'] else []
  if 0 ≤ parts.scale then do
    let zeroes ← usizeOfI128 parts.scale
    pure (sign ++ parts.digits ++ List.replicate zeroes '0')
  else do
    let decimalPlaces ← usizeOfI128 (-parts.scale)
    if decimalPlaces < parts.digits.length then
      let point := parts.digits.length - decimalPlaces
      pure (sign ++ parts.digits.take point ++ ['.'] ++ parts.digits.drop point)
    else
      pure (sign ++ ['0', '.'] ++ List.replicate (decimalPlaces - parts.digits.length) '0' ++
        parts.digits)

/-- `i128::to_string`. -/
def integerText (z : ℤ) : List Char :=
  if z < 0 then '-' :: Nat.toDigits 10 z.natAbs else Nat.toDigits 10 z.natAbs

/-- The number in scientific notation. -/
def scientificText (parts : DecimalParts) (exponent : ℤ) : List Char :=
  (if parts.negative then ['-'] else []) ++ parts.digits.take 1 ++
    (if 1 < parts.digits.length then '.' :: parts.digits.drop 1 else []) ++
    (if exponent ≠ 0 then 'e' :: integerText exponent else [])

/-- The shorter one of both ways to write the number; written plainly if they are equally long. -/
def canonicalNumber (text : List Char) : Except CompileError (List Char) := do
  let parts ← decimalParts text
  if parts.digits = ['0'] then pure ['0']
  else do
    let exponent ← checkedI128 (parts.scale + ((parts.digits.length : ℤ) - 1))
    let scientific := scientificText parts exponent
    let plainLength ← plainNumberLength parts
    if scientific.length < plainLength then pure scientific
    else renderPlainNumber parts

/-- The number has no fractional digits. -/
def numberIsInteger (text : List Char) : Bool :=
  match decimalParts text with
  | .ok parts => 0 ≤ parts.scale
  | .error _ => false

/-! ### What the parts of a literal are -/

theorem splitOnce_append {p : Char → Bool} {l r : List Char} {c : Char}
    (hl : ∀ d ∈ l, p d = false) (hc : p c = true) :
    splitOnce p (l ++ c :: r) = some (l, r) := by
  induction l with
  | nil => simp [splitOnce, hc]
  | cons d l ih =>
    have hd := hl d List.mem_cons_self
    simp [splitOnce, hd, ih fun d hd => hl d (List.mem_cons_of_mem _ hd)]

theorem splitOnce_eq_none {p : Char → Bool} {l : List Char} (hl : ∀ d ∈ l, p d = false) :
    splitOnce p l = none := by
  induction l with
  | nil => rfl
  | cons d l ih =>
    have hd := hl d List.mem_cons_self
    simp [splitOnce, hd, ih fun d hd => hl d (List.mem_cons_of_mem _ hd)]

theorem ne_of_isDigit {c d : Char} (h : c.isDigit = true) (hd : d.isDigit = false) : c ≠ d := by
  rintro rfl
  rw [h] at hd
  cases hd

namespace NumberLiteral

variable (n : NumberLiteral)

/-- The literal without its exponent. -/
def mantissaText : List Char := n.signText ++ n.integer ++ n.fractionText

theorem mantissa_not_exponent {d : Char} (hd : d ∈ n.mantissaText) : d ≠ 'e' ∧ d ≠ 'E' := by
  have hdigit : ∀ {c : Char}, c.isDigit = true → c ≠ 'e' ∧ c ≠ 'E' := fun h =>
    ⟨ne_of_isDigit h rfl, ne_of_isDigit h rfl⟩
  simp only [mantissaText, signText, fractionText, List.mem_append] at hd
  rcases hd with (hd | hd) | hd
  · split at hd
    · rw [List.mem_singleton] at hd
      subst hd
      exact ⟨by decide, by decide⟩
    · cases hd
  · exact hdigit (n.integer_digits.2 d hd)
  · split at hd
    · next f hf =>
      rcases List.mem_cons.1 hd with rfl | hd
      · exact ⟨by decide, by decide⟩
      · exact hdigit ((n.fraction_digits f hf).2 d hd)
    · cases hd

/-- The sign, the digits before the point and those after it. -/
theorem mantissa_split :
    (stripMinus n.mantissaText).1 = n.negative ∧
      (splitOnce (· = '.') (stripMinus n.mantissaText).2).getD ((stripMinus n.mantissaText).2, []) =
        (n.integer, n.fraction.getD []) := by
  have hstrip : stripMinus n.mantissaText = (n.negative, n.integer ++ n.fractionText) := by
    obtain ⟨c, l, hc⟩ := List.exists_cons_of_ne_nil n.integer_digits.1
    have hdigit : c.isDigit = true := n.integer_digits.2 c (by rw [hc]; exact List.mem_cons_self)
    rw [mantissaText, signText]
    cases hn : n.negative with
    | true => rfl
    | false =>
      have hminus : c ≠ '-' := ne_of_isDigit hdigit rfl
      simp only [hc, Bool.false_eq_true, if_false, List.nil_append, List.cons_append]
      unfold stripMinus
      split
      · next heq => exact absurd (List.cons.inj heq).1 hminus
      · rfl
  have hpoint : ∀ d ∈ n.integer, decide (d = '.') = false := fun d hd =>
    decide_eq_false (ne_of_isDigit (n.integer_digits.2 d hd) rfl)
  rw [hstrip]
  refine ⟨rfl, ?_⟩
  unfold fractionText
  cases n.fraction with
  | none => simp [splitOnce_eq_none hpoint]
  | some f => simp [splitOnce_append hpoint]

/-- The exponent of a literal is read separately from its mantissa. -/
theorem decimalParts_text :
    decimalParts n.text = (match n.exponentDigits with
      | some digits => do
        let exponent ← Result.unwrap (parseI128 digits) numberRangeError
        mantissaParts n.mantissaText exponent
      | none => mantissaParts n.mantissaText 0) := by
  have hnot : ∀ d ∈ n.mantissaText, (decide (d = 'e') || decide (d = 'E')) = false :=
    fun d hd => by simp [n.mantissa_not_exponent hd]
  have htext : n.text = n.mantissaText ++ n.exponentText := rfl
  unfold decimalParts exponentDigits
  rw [htext, exponentText]
  cases hexp : n.exponent with
  | none => simp [splitOnce_eq_none hnot]
  | some form =>
    obtain ⟨e, sign, ds⟩ := form
    obtain ⟨he, -⟩ := n.exponent_form e sign ds hexp
    have he' : (decide (e = 'e') || decide (e = 'E')) = true := by simpa using he
    simp [splitOnce_append hnot he']

variable {n}

/-! ### The value of a literal

A literal other than zero stands for `± significant * 10 ^ power`, where the first and the last
of the significant digits are not zero.
-/

variable (n)

/-- The value of the exponent. -/
def exponentValue : ℤ :=
  match n.exponent with
  | some (_, some '-', ds) => -1 * Nat.ofDigitChars 10 ds 0
  | some (_, _, ds) => 1 * Nat.ofDigitChars 10 ds 0
  | none => 0

/-- The digits of the literal, from the first that is not zero. -/
def leadingDigits : List Char := (n.integer ++ n.fraction.getD []).dropWhile (· = '0')

/-- The digits from the first one that is not zero to the last one. -/
def significant : List Char := n.leadingDigits.rdropWhile (· = '0')

/-- The power of ten that the significant digits are multiplied with. -/
def power : ℤ :=
  n.exponentValue - (n.fraction.getD []).length +
    (n.leadingDigits.length - n.significant.length : ℕ)

variable {n}

theorem parseDigits_eq {sign z : ℤ} {ds : List Char} (h : parseDigits sign ds = some z) :
    z = sign * Nat.ofDigitChars 10 ds 0 := by
  unfold parseDigits at h
  split at h
  · dsimp only at h
    split at h
    · exact (Option.some.inj h).symm
    · cases h
  · cases h

theorem exponentValue_of_parse {digits : List Char} {z : ℤ} (hd : n.exponentDigits = some digits)
    (h : parseI128 digits = some z) : n.exponentValue = z := by
  unfold exponentDigits at hd
  unfold exponentValue
  cases hexp : n.exponent with
  | none => simp [hexp] at hd
  | some form =>
    obtain ⟨e, sign, ds⟩ := form
    obtain ⟨-, hsign, hne, hdigit⟩ := n.exponent_form e sign ds hexp
    simp only [hexp, Option.map_some, Option.some.injEq] at hd
    subst hd
    cases sign with
    | none =>
      obtain ⟨c, l, rfl⟩ := List.exists_cons_of_ne_nil hne
      have hc : c.isDigit = true := hdigit c List.mem_cons_self
      have hplus : c ≠ '+' := ne_of_isDigit hc rfl
      have hminus : c ≠ '-' := ne_of_isDigit hc rfl
      have hparse : parseI128 (c :: l) = parseDigits 1 (c :: l) := by
        unfold parseI128
        split
        · next heq => exact absurd (List.cons.inj heq).1 hplus
        · next heq => exact absurd (List.cons.inj heq).1 hminus
        · rfl
      exact (parseDigits_eq (hparse ▸ h)).symm
    | some c =>
      rcases hsign c rfl with rfl | rfl
      · exact (parseDigits_eq h).symm
      · exact (parseDigits_eq h).symm

theorem leadingDigits_ne_zero {d : Char} {l : List Char} (h : n.leadingDigits = d :: l) :
    d ≠ '0' := by
  have hne : n.leadingDigits ≠ [] := by simp [h]
  have hfirst := @List.head_dropWhile_not _ (fun c : Char => decide (c = '0'))
    (n.integer ++ n.fraction.getD []) hne
  change decide (n.leadingDigits.head hne = '0') = false at hfirst
  simpa [h] using hfirst

theorem significant_isPrefix : n.significant <+: n.leadingDigits := List.rdropWhile_prefix _ _

/-- The first digit is not zero, so it is not dropped from the end either. -/
theorem significant_ne_nil (h : n.leadingDigits ≠ []) : n.significant ≠ [] := by
  intro hnil
  obtain ⟨d, l, hd⟩ := List.exists_cons_of_ne_nil h
  have hlast := List.rdropWhile_eq_nil_iff.1 hnil d (hd ▸ List.mem_cons_self)
  exact leadingDigits_ne_zero hd (of_decide_eq_true hlast)

theorem significant_isDigit {c : Char} (hc : c ∈ n.significant) : c.isDigit = true := by
  have hmem := (List.dropWhile_sublist _).subset (significant_isPrefix.subset hc)
  rcases List.mem_append.1 hmem with hc | hc
  · exact n.integer_digits.2 c hc
  · cases hf : n.fraction with
    | none => simp [hf] at hc
    | some f => exact (n.fraction_digits f hf).2 c (by simpa [hf] using hc)

theorem significant_ne_zero {d : Char} {l : List Char} (h : n.significant = d :: l) :
    d ≠ '0' := by
  obtain ⟨r, hr⟩ := n.significant_isPrefix
  rw [h, List.cons_append] at hr
  exact leadingDigits_ne_zero hr.symm

theorem mantissaParts_eq {exponent : ℤ} {parts : DecimalParts}
    (h : mantissaParts n.mantissaText exponent = .ok parts) (hexp : n.exponentValue = exponent) :
    n.significant = [] ∧ parts = ⟨false, ['0'], 0⟩ ∨
      n.significant ≠ [] ∧ parts = ⟨n.negative, n.significant, n.power⟩ := by
  simp only [mantissaParts, n.mantissa_split.2] at h
  obtain ⟨_, -, h⟩ := Result.bind_eq_ok.1 h
  split at h
  · next hnil =>
    have hleading : n.leadingDigits = [] := hnil
    exact .inl ⟨by rw [significant, hleading]; rfl, (Result.pure_eq_ok.1 h).symm⟩
  · next hne =>
    obtain ⟨scale, hscale, h⟩ := Result.bind_eq_ok.1 h
    obtain ⟨scale', hscale', h⟩ := Result.bind_eq_ok.1 h
    obtain rfl := Result.pure_eq_ok.1 h
    obtain ⟨_, -, hs⟩ := Result.bind_eq_ok.1 hscale
    obtain ⟨_, -, hs'⟩ := Result.bind_eq_ok.1 hscale'
    obtain rfl := Result.pure_eq_ok.1 hs
    obtain rfl := Result.pure_eq_ok.1 hs'
    refine .inr ⟨significant_ne_nil hne, ?_⟩
    rw [n.mantissa_split.1, power, hexp]
    rfl

/-- The decimal parts of a literal are its significant digits and its power of ten. -/
theorem decimalParts_eq {parts : DecimalParts} (h : decimalParts n.text = .ok parts) :
    n.significant = [] ∧ parts = ⟨false, ['0'], 0⟩ ∨
      n.significant ≠ [] ∧ parts = ⟨n.negative, n.significant, n.power⟩ := by
  rw [decimalParts_text] at h
  split at h
  · next digits hd =>
    obtain ⟨exponent, hexp, h⟩ := Result.bind_eq_ok.1 h
    exact mantissaParts_eq h (exponentValue_of_parse hd (Result.unwrap_eq_ok.1 hexp))
  · next hd =>
    refine mantissaParts_eq h ?_
    have hnone : n.exponent = none := by simpa [exponentDigits] using hd
    rw [exponentValue, hnone]

end NumberLiteral

/-! ### What is written -/

theorem plainNumberLength_eq {parts : DecimalParts} {len : ℕ}
    (h : plainNumberLength parts = .ok len) :
    len = (if parts.negative then 1 else 0) +
      if 0 ≤ parts.scale then parts.digits.length + parts.scale.toNat
      else if (-parts.scale).toNat < parts.digits.length then parts.digits.length + 1
      else 2 + (-parts.scale).toNat := by
  have husize : ∀ {z : ℤ} {m : ℕ}, usizeOfI128 z = .ok m → m = z.toNat := fun hz => by
    obtain ⟨_, -, hz⟩ := Result.bind_eq_ok.1 hz
    exact (Result.pure_eq_ok.1 hz).symm
  have hchecked : ∀ {a b : ℕ}, checkedUsize a = .ok b → b = a := fun hz => by
    obtain ⟨_, -, hz⟩ := Result.bind_eq_ok.1 hz
    exact (Result.pure_eq_ok.1 hz).symm
  unfold plainNumberLength at h
  dsimp only at h
  split at h
  · next hscale =>
    obtain ⟨zeroes, hz, h⟩ := Result.bind_eq_ok.1 h
    rw [if_pos hscale, hchecked h, husize hz, Nat.add_assoc]
  · next hscale =>
    obtain ⟨places, hz, h⟩ := Result.bind_eq_ok.1 h
    rw [husize hz] at h
    rw [if_neg hscale]
    split at h
    · next hlt => rw [if_pos hlt, hchecked h, Nat.add_assoc]
    · next hlt =>
      rw [if_neg hlt, hchecked h]
      omega

theorem canonicalNumber_eq {n : NumberLiteral} {s : List Char}
    (h : canonicalNumber n.text = .ok s) (hne : n.significant ≠ []) :
    ∃ len, plainNumberLength ⟨n.negative, n.significant, n.power⟩ = .ok len ∧
      if (scientificText ⟨n.negative, n.significant, n.power⟩
        (n.power + (n.significant.length - 1))).length < len
      then s = scientificText ⟨n.negative, n.significant, n.power⟩
        (n.power + (n.significant.length - 1))
      else renderPlainNumber ⟨n.negative, n.significant, n.power⟩ = .ok s := by
  obtain ⟨parts, hparts, h⟩ := Result.bind_eq_ok.1 h
  obtain ⟨hnil, -⟩ | ⟨-, rfl⟩ := NumberLiteral.decimalParts_eq hparts
  · exact absurd hnil hne
  · obtain ⟨d, r, hd⟩ := List.exists_cons_of_ne_nil hne
    have hzero : n.significant ≠ ['0'] := fun heq => NumberLiteral.significant_ne_zero heq rfl
    rw [if_neg hzero] at h
    obtain ⟨exponent, hexp, h⟩ := Result.bind_eq_ok.1 h
    obtain ⟨_, -, hexp⟩ := Result.bind_eq_ok.1 hexp
    obtain rfl := Result.pure_eq_ok.1 hexp
    obtain ⟨len, hlen, h⟩ := Result.bind_eq_ok.1 h
    refine ⟨len, hlen, ?_⟩
    dsimp only at h
    split at h
    · next hlt =>
      rw [if_pos hlt]
      exact (Result.pure_eq_ok.1 h).symm
    · next hlt => rwa [if_neg hlt]

theorem numberIsInteger_eq {n : NumberLiteral} {s : List Char}
    (h : canonicalNumber n.text = .ok s) :
    numberIsInteger n.text = true ↔ n.significant = [] ∨ 0 ≤ n.power := by
  obtain ⟨parts, hparts, -⟩ := Result.bind_eq_ok.1 h
  simp only [numberIsInteger, hparts, decide_eq_true_iff]
  obtain ⟨hnil, rfl⟩ | ⟨hne, rfl⟩ := NumberLiteral.decimalParts_eq hparts
  · simp [hnil]
  · simp [hne]

end OcEarley
