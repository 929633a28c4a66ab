import Mathlib.Algebra.Order.Field.Rat
import Mathlib.Tactic.FieldSimp
import Mathlib.Tactic.Linarith
import Mathlib.Tactic.Ring
import OcEarley.Schema.Number

/-!
# The values of numbers

A literal denotes a rational number, which its text determines (`NumberLiteral.value_eq_of_text`).
Where the parts of a literal can be read, the code finds out whether it is an integer
(`numberIsInteger_iff`).
-/

namespace OcEarley

namespace NumberLiteral

variable (n : NumberLiteral)

/-- The sign of the number. -/
def sign : ℚ := if n.negative then -1 else 1

/-- The digits before and after the point. -/
def mantissaDigits : List Char := n.integer ++ n.fraction.getD []

/-- The number that the literal denotes. -/
def value : ℚ :=
  n.sign * Nat.ofDigitChars 10 n.mantissaDigits 0 *
    10 ^ (n.exponentValue - (n.fraction.getD []).length)

variable {n}

/-! ### Significant digits -/

theorem ofDigitChars_dropWhile (l : List Char) :
    Nat.ofDigitChars 10 (l.dropWhile (· = '0')) 0 = Nat.ofDigitChars 10 l 0 := by
  induction l with
  | nil => rfl
  | cons c l ih =>
    by_cases hc : c = '0'
    · subst hc
      rw [List.dropWhile_cons_of_pos (by decide), ih, Nat.ofDigitChars_cons]
      rfl
    · rw [List.dropWhile_cons_of_neg (by simpa using hc)]

/-- What is dropped from the end are zeros. -/
theorem rdropWhile_append (l : List Char) :
    l = l.rdropWhile (· = '0') ++
      List.replicate (l.length - (l.rdropWhile (· = '0')).length) '0' := by
  have h := List.rdropWhile_append_rtakeWhile (l := l) (p := fun c => decide (c = '0'))
  have hlen := congrArg List.length h
  rw [List.length_append] at hlen
  have hzero : l.rtakeWhile (· = '0') =
      List.replicate (l.length - (l.rdropWhile (· = '0')).length) '0' := by
    refine List.eq_replicate_iff.2 ⟨by omega, fun c hc => ?_⟩
    exact of_decide_eq_true (List.mem_rtakeWhile_imp (p := fun d : Char => decide (d = '0')) hc)
  rw [← hzero, h]

theorem ofDigitChars_mantissa :
    Nat.ofDigitChars 10 n.mantissaDigits 0 =
      Nat.ofDigitChars 10 n.significant 0 *
        10 ^ (n.leadingDigits.length - n.significant.length) := by
  have hlead : Nat.ofDigitChars 10 n.leadingDigits 0 = Nat.ofDigitChars 10 n.mantissaDigits 0 :=
    ofDigitChars_dropWhile _
  have hsplit : n.leadingDigits = n.significant ++
      List.replicate (n.leadingDigits.length - n.significant.length) '0' := rdropWhile_append _
  rw [← hlead]
  conv_lhs => rw [hsplit]
  rw [Nat.ofDigitChars_append, Nat.ofDigitChars_replicate_zero, mul_comm]

/-- The value by significant digits. -/
theorem value_eq :
    n.value = n.sign * Nat.ofDigitChars 10 n.significant 0 * 10 ^ n.power := by
  have hten : (10 : ℚ) ≠ 0 := by norm_num
  have hpower : n.power = n.exponentValue - (n.fraction.getD []).length +
      (n.leadingDigits.length - n.significant.length : ℕ) := rfl
  rw [value, ofDigitChars_mantissa, hpower, zpow_add₀ hten, zpow_natCast]
  push_cast
  ring

theorem value_of_nil (h : n.significant = []) : n.value = 0 := by
  rw [value_eq, h]
  simp

/-- The last significant digit is not zero. -/
theorem not_dvd_significant (h : n.significant ≠ []) :
    ¬10 ∣ Nat.ofDigitChars 10 n.significant 0 := by
  obtain ⟨l, c, hl⟩ := (List.eq_nil_or_concat' n.significant).resolve_left h
  have hlast : c ≠ '0' := by
    have hnot := List.rdropWhile_last_not (fun c : Char => decide (c = '0')) n.leadingDigits h
    change ¬decide (n.significant.getLast h = '0') = true at hnot
    simpa [hl] using hnot
  have hmem : c ∈ n.significant := hl ▸ List.mem_append_right l (List.mem_singleton_self c)
  have hdigit : c.isDigit = true := significant_isDigit hmem
  rw [hl, Nat.ofDigitChars_append, Nat.ofDigitChars_cons, Nat.ofDigitChars_nil]
  have hrange : 48 ≤ c.toNat ∧ c.toNat ≤ 57 := by
    simpa [Char.isDigit, UInt32.le_iff_toNat_le] using hdigit
  have hne : c.toNat ≠ 48 := fun heq => hlast (Char.toNat_inj.1 heq)
  have hzero : ('0' : Char).toNat = 48 := rfl
  omega

/-- The literal is an integer. -/
def IsIntegral (n : NumberLiteral) : Prop := ∃ z : ℤ, n.value = z

theorem isIntegral_iff : n.IsIntegral ↔ n.significant = [] ∨ 0 ≤ n.power := by
  constructor
  · rintro ⟨z, hz⟩
    by_contra hnot
    obtain ⟨hne, hneg⟩ := not_or.1 hnot
    refine not_dvd_significant hne ?_
    -- the significant digits are `± z * 10 ^ -power`
    obtain ⟨k, hk⟩ : ∃ k : ℕ, n.power = -(k + 1 : ℕ) := ⟨(-n.power - 1).toNat, by omega⟩
    have hten : (10 : ℚ) ^ (k + 1) ≠ 0 := by positivity
    rw [value_eq, hk, zpow_neg, zpow_natCast] at hz
    have hmul : n.sign * Nat.ofDigitChars 10 n.significant 0 = z * 10 ^ (k + 1) := by
      field_simp at hz
      linarith
    have habs : ((Nat.ofDigitChars 10 n.significant 0 : ℤ)) = z * 10 ^ (k + 1) ∨
        ((Nat.ofDigitChars 10 n.significant 0 : ℤ)) = -(z * 10 ^ (k + 1)) := by
      unfold sign at hmul
      split at hmul
      · right
        have h : ((Nat.ofDigitChars 10 n.significant 0 : ℤ) : ℚ) =
            ((-(z * 10 ^ (k + 1)) : ℤ) : ℚ) := by
          push_cast
          linarith
        exact_mod_cast h
      · left
        have h : ((Nat.ofDigitChars 10 n.significant 0 : ℤ) : ℚ) =
            ((z * 10 ^ (k + 1) : ℤ) : ℚ) := by
          push_cast
          linarith
        exact_mod_cast h
    have hdvd : (10 : ℤ) ∣ z * 10 ^ (k + 1) := (dvd_pow_self 10 k.succ_ne_zero).mul_left z
    have hint : (10 : ℤ) ∣ (Nat.ofDigitChars 10 n.significant 0 : ℤ) := by
      rcases habs with habs | habs
      · exact habs ▸ hdvd
      · exact habs ▸ Int.dvd_neg.2 hdvd
    exact_mod_cast hint
  · rintro (hnil | hpower)
    · exact ⟨0, by rw [value_of_nil hnil, Int.cast_zero]⟩
    · obtain ⟨k, hk⟩ := Int.eq_ofNat_of_zero_le hpower
      rw [IsIntegral, value_eq, hk, zpow_natCast, sign]
      split
      · exact ⟨-1 * Nat.ofDigitChars 10 n.significant 0 * 10 ^ k, by push_cast; ring⟩
      · exact ⟨1 * Nat.ofDigitChars 10 n.significant 0 * 10 ^ k, by push_cast; ring⟩

/-! ### The text of a literal -/

/-- An exponent is split off at its letter. -/
theorem splitOnce_text :
    splitOnce (fun c => c = 'e' || c = 'E') n.text =
      n.exponentDigits.map fun digits => (n.mantissaText, digits) := by
  have hnot : ∀ d ∈ n.mantissaText, (decide (d = 'e') || decide (d = 'E')) = false :=
    fun d hd => by simp [n.mantissa_not_exponent hd]
  have htext : n.text = n.mantissaText ++ n.exponentText := rfl
  unfold exponentDigits
  rw [htext, exponentText]
  cases hexp : n.exponent with
  | none => simp [splitOnce_eq_none hnot]
  | some form =>
    obtain ⟨e, sign, ds⟩ := form
    obtain ⟨he, -⟩ := n.exponent_form e sign ds hexp
    have he' : (decide (e = 'e') || decide (e = 'E')) = true := by simpa using he
    simp [splitOnce_append hnot he']

theorem text_of_exponentDigits (h : n.exponentDigits = none) : n.text = n.mantissaText := by
  have hnone : n.exponent = none := by simpa [exponentDigits] using h
  have htext : n.text = n.mantissaText ++ n.exponentText := rfl
  rw [htext, exponentText, hnone, List.append_nil]

/-- What an exponent adds to the power of ten. -/
def exponentOf : Option (List Char) → ℤ
  | some ('-' :: ds) => -1 * Nat.ofDigitChars 10 ds 0
  | some ('+' :: ds) => 1 * Nat.ofDigitChars 10 ds 0
  | some ds => 1 * Nat.ofDigitChars 10 ds 0
  | none => 0

theorem exponentValue_eq : n.exponentValue = exponentOf n.exponentDigits := by
  unfold exponentValue exponentDigits
  cases hexp : n.exponent with
  | none => rfl
  | some form =>
    obtain ⟨e, sign, ds⟩ := form
    obtain ⟨-, hsign, hne, hdigit⟩ := n.exponent_form e sign ds hexp
    cases sign with
    | none =>
      obtain ⟨c, l, rfl⟩ := List.exists_cons_of_ne_nil hne
      have hc : c.isDigit = true := hdigit c List.mem_cons_self
      have hplus : c ≠ '+' := ne_of_isDigit hc rfl
      have hminus : c ≠ '-' := ne_of_isDigit hc rfl
      simp only [Option.map_some, Option.toList_none, List.nil_append]
      unfold exponentOf
      split
      · next heq => exact absurd (List.cons.inj (Option.some.inj heq)).1 hminus
      · next heq => exact absurd (List.cons.inj (Option.some.inj heq)).1 hplus
      · next heq => rw [← Option.some.inj heq]
      · next heq => cases heq
    | some c => rcases hsign c rfl with rfl | rfl <;> rfl

/-- **Equal texts, equal values.** -/
theorem value_eq_of_text {m : NumberLiteral} (h : n.text = m.text) : n.value = m.value := by
  have hsplit := n.splitOnce_text
  rw [h, m.splitOnce_text] at hsplit
  have hboth : n.exponentDigits = m.exponentDigits ∧ n.mantissaText = m.mantissaText := by
    cases hn : n.exponentDigits with
    | none =>
      cases hm : m.exponentDigits with
      | none =>
        rw [text_of_exponentDigits hn, text_of_exponentDigits hm] at h
        exact ⟨rfl, h⟩
      | some digits => simp [hn, hm] at hsplit
    | some digits =>
      cases hm : m.exponentDigits with
      | none => simp [hn, hm] at hsplit
      | some digits' =>
        rw [hn, hm] at hsplit
        simp only [Option.map_some, Option.some.injEq, Prod.mk.injEq] at hsplit
        exact ⟨congrArg some hsplit.2.symm, hsplit.1.symm⟩
  obtain ⟨hexp, hmantissa⟩ := hboth
  obtain ⟨hnegative, hparts⟩ := n.mantissa_split
  rw [hmantissa, m.mantissa_split.1] at hnegative
  rw [hmantissa, m.mantissa_split.2] at hparts
  obtain ⟨hinteger, hfraction⟩ := Prod.mk.inj hparts
  rw [value, value, sign, sign, mantissaDigits, mantissaDigits, exponentValue_eq, exponentValue_eq,
    hexp, hnegative, hinteger, hfraction]

end NumberLiteral

/-- Where the parts of a literal can be read, it is an integer iff the code says so. -/
theorem numberIsInteger_iff {n : NumberLiteral} {parts : DecimalParts}
    (h : decimalParts n.text = .ok parts) : numberIsInteger n.text = true ↔ n.IsIntegral := by
  rw [NumberLiteral.isIntegral_iff]
  simp only [numberIsInteger, h, decide_eq_true_iff]
  obtain ⟨hnil, rfl⟩ | ⟨hne, rfl⟩ := NumberLiteral.decimalParts_eq h
  · simp [hnil]
  · simp [hne]

end OcEarley
