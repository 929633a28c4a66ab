import OcEarley.Schema.NumberValue

/-!
# Canonical numbers are exact

The value of a literal other than zero determines its sign, its significant digits and its power of
ten, so literals of one value have one canonical text (`canonicalNumber_exact`).
-/

namespace OcEarley

namespace NumberLiteral

variable {n m : NumberLiteral}

/-! ### Digits -/

theorem digit_range {c : Char} (h : c.isDigit = true) : 48 ≤ c.toNat ∧ c.toNat ≤ 57 := by
  simpa [Char.isDigit, UInt32.le_iff_toNat_le] using h

theorem ofDigitChars_snoc (l : List Char) (c : Char) :
    Nat.ofDigitChars 10 (l ++ [c]) 0 = 10 * Nat.ofDigitChars 10 l 0 + (c.toNat - 48) := by
  rw [Nat.ofDigitChars_append, Nat.ofDigitChars_cons, Nat.ofDigitChars_nil]
  rfl

/-- Digits that do not start with a zero stand for a positive number. -/
theorem ofDigitChars_pos {d : Char} {l : List Char} (hdigit : d.isDigit = true) (hd : d ≠ '0') :
    0 < Nat.ofDigitChars 10 (d :: l) 0 := by
  have hrange := digit_range hdigit
  have hne : d.toNat ≠ 48 := fun heq => hd (Char.toNat_inj.1 heq)
  have hzero : ('0' : Char).toNat = 48 := rfl
  rw [Nat.ofDigitChars_cons, Nat.ofDigitChars_eq_ofDigitChars_zero]
  refine Nat.add_pos_left (Nat.mul_pos (Nat.pow_pos (by decide)) ?_) _
  omega

/-- Digits without leading zeros are determined by the number they stand for. -/
theorem digits_injective {l l' : List Char} (hl : ∀ c ∈ l, c.isDigit = true)
    (hl' : ∀ c ∈ l', c.isDigit = true) (hzero : l.head? ≠ some '0') (hzero' : l'.head? ≠ some '0')
    (h : Nat.ofDigitChars 10 l 0 = Nat.ofDigitChars 10 l' 0) : l = l' := by
  have hpos : ∀ {l : List Char}, (∀ c ∈ l, c.isDigit = true) → l.head? ≠ some '0' → l ≠ [] →
      0 < Nat.ofDigitChars 10 l 0 := by
    intro l hl hzero hne
    obtain ⟨d, r, rfl⟩ := List.exists_cons_of_ne_nil hne
    exact ofDigitChars_pos (hl d List.mem_cons_self) fun heq => hzero (congrArg some heq)
  induction l using List.reverseRecOn generalizing l' with
  | nil =>
    by_contra hne
    exact (hpos hl' hzero' (Ne.symm hne)).ne h
  | append_singleton l c ih =>
    obtain ⟨l', c', rfl⟩ := (List.eq_nil_or_concat' l').resolve_left fun hnil => by
      subst hnil
      exact (hpos hl hzero (by simp)).ne' h
    have hc := digit_range (hl c (by simp))
    have hc' := digit_range (hl' c' (by simp))
    rw [ofDigitChars_snoc, ofDigitChars_snoc] at h
    -- the last digit is the remainder, the others are the quotient
    have hlast : c.toNat = c'.toNat := by omega
    have hinit : Nat.ofDigitChars 10 l 0 = Nat.ofDigitChars 10 l' 0 := by omega
    have hhead : ∀ {l : List Char} {c : Char}, (l ++ [c]).head? ≠ some '0' →
        l.head? ≠ some '0' := by
      intro l c hne heq
      cases l with
      | nil => cases heq
      | cons d l => exact hne heq
    rw [Char.toNat_inj.1 hlast, ih (fun d hd => hl d (List.mem_append_left _ hd))
      (fun d hd => hl' d (List.mem_append_left _ hd)) (hhead hzero) (hhead hzero') hinit]

/-! ### What the value determines -/

theorem significant_head? : n.significant.head? ≠ some '0' := by
  intro h
  obtain ⟨l, hl⟩ := List.head?_eq_some_iff.1 h
  exact significant_ne_zero hl rfl

theorem significant_pos (h : n.significant ≠ []) : 0 < Nat.ofDigitChars 10 n.significant 0 := by
  obtain ⟨d, l, hd⟩ := List.exists_cons_of_ne_nil h
  rw [hd]
  exact ofDigitChars_pos (significant_isDigit (hd ▸ List.mem_cons_self)) (significant_ne_zero hd)

theorem value_eq_zero_iff : n.value = 0 ↔ n.significant = [] := by
  refine ⟨fun h => ?_, value_of_nil⟩
  by_contra hne
  have hpos := significant_pos hne
  have hdigits : ((Nat.ofDigitChars 10 n.significant 0 : ℕ) : ℚ) ≠ 0 := by
    exact_mod_cast hpos.ne'
  have hten : (10 : ℚ) ^ n.power ≠ 0 := zpow_ne_zero _ (by norm_num)
  have hsign : n.sign ≠ 0 := by
    unfold sign
    split <;> norm_num
  rw [value_eq] at h
  exact mul_ne_zero (mul_ne_zero hsign hdigits) hten h

/-- A number that ten does not divide, times a power of ten, determines both. -/
theorem power_unique {a b : ℕ} {p q : ℤ} (ha : ¬10 ∣ a) (hb : ¬10 ∣ b)
    (h : (a : ℚ) * 10 ^ p = b * 10 ^ q) : p = q := by
  have hle : ∀ {a b : ℕ} {p q : ℤ}, ¬10 ∣ b → (a : ℚ) * 10 ^ p = b * 10 ^ q → p ≤ q := by
    intro a b p q hb h
    by_contra hlt
    obtain ⟨k, hk⟩ : ∃ k : ℕ, p = q + (k + 1 : ℕ) := ⟨(p - q - 1).toNat, by omega⟩
    refine hb ⟨a * 10 ^ k, ?_⟩
    have hten : (10 : ℚ) ^ q ≠ 0 := zpow_ne_zero _ (by norm_num)
    rw [hk, zpow_add₀ (by norm_num), zpow_natCast] at h
    have hcancel : ((a * 10 ^ (k + 1) : ℕ) : ℚ) = b := by
      push_cast
      refine mul_right_cancel₀ hten ?_
      rw [← h]
      ring
    have hnat : a * 10 ^ (k + 1) = b := by exact_mod_cast hcancel
    rw [← hnat, pow_succ]
    ring
  exact le_antisymm (hle hb h) (hle ha h.symm)

/-- **The value determines the parts.** -/
theorem parts_of_value (h : n.value = m.value) (hne : n.significant ≠ []) :
    n.negative = m.negative ∧ n.significant = m.significant ∧ n.power = m.power := by
  have hne' : m.significant ≠ [] := fun hnil =>
    hne (value_eq_zero_iff.1 (h.trans (value_of_nil hnil)))
  have hpos := significant_pos hne
  have hpos' := significant_pos hne'
  have hten : ∀ p : ℤ, (0 : ℚ) < 10 ^ p := fun p => zpow_pos (by norm_num) p
  have hleft : (0 : ℚ) < Nat.ofDigitChars 10 n.significant 0 * 10 ^ n.power :=
    mul_pos (by exact_mod_cast hpos) (hten _)
  have hright : (0 : ℚ) < Nat.ofDigitChars 10 m.significant 0 * 10 ^ m.power :=
    mul_pos (by exact_mod_cast hpos') (hten _)
  rw [value_eq, value_eq, mul_assoc, mul_assoc] at h
  have hboth : n.negative = m.negative ∧ (Nat.ofDigitChars 10 n.significant 0 : ℚ) * 10 ^ n.power =
      Nat.ofDigitChars 10 m.significant 0 * 10 ^ m.power := by
    unfold sign at h
    cases hn : n.negative <;> cases hm : m.negative <;>
      simp only [hn, hm, if_true, Bool.false_eq_true, if_false, one_mul, neg_mul] at h
    · exact ⟨rfl, h⟩
    · linarith
    · linarith
    · exact ⟨rfl, neg_injective h⟩
  obtain ⟨hnegative, hvalue⟩ := hboth
  have hpower := power_unique (not_dvd_significant hne) (not_dvd_significant hne') hvalue
  refine ⟨hnegative, ?_, hpower⟩
  rw [hpower] at hvalue
  have hdigits : Nat.ofDigitChars 10 n.significant 0 = Nat.ofDigitChars 10 m.significant 0 := by
    exact_mod_cast mul_right_cancel₀ (hten _).ne' hvalue
  exact digits_injective (fun _ => significant_isDigit) (fun _ => significant_isDigit)
    significant_head? significant_head? hdigits

/-! ### When the parts can be read -/

/-- A number that fits an `i128`. -/
def InI128 (z : ℤ) : Prop := i128Min ≤ z ∧ z ≤ i128Max

theorem parseDigits_of {sign : ℤ} {ds : List Char} (hne : ds ≠ [])
    (hdigits : ∀ c ∈ ds, c.isDigit = true) (h : InI128 (sign * Nat.ofDigitChars 10 ds 0)) :
    parseDigits sign ds = some (sign * Nat.ofDigitChars 10 ds 0) := by
  have hall : ds ≠ [] ∧ ds.all Char.isDigit = true := ⟨hne, List.all_eq_true.2 hdigits⟩
  rw [parseDigits, if_pos hall]
  unfold InI128 at h
  exact if_pos h

theorem parseDigits_not {sign : ℤ} {ds : List Char}
    (h : ¬InI128 (sign * Nat.ofDigitChars 10 ds 0)) : parseDigits sign ds = none := by
  unfold InI128 at h
  unfold parseDigits
  split
  · exact if_neg h
  · rfl

/-- The exponent is parsed after its sign. -/
theorem parseI128_exponentDigits {digits : List Char} (h : n.exponentDigits = some digits) :
    ∃ sign ds, parseI128 digits = parseDigits sign ds ∧ ds ≠ [] ∧ (∀ c ∈ ds, c.isDigit = true) ∧
      n.exponentValue = sign * Nat.ofDigitChars 10 ds 0 := by
  unfold exponentDigits at h
  unfold exponentValue
  cases hexp : n.exponent with
  | none => simp [hexp] at h
  | some form =>
    obtain ⟨e, sign, ds⟩ := form
    obtain ⟨-, hsign, hne, hdigit⟩ := n.exponent_form e sign ds hexp
    simp only [hexp, Option.map_some, Option.some.injEq] at h
    subst h
    cases sign with
    | none =>
      obtain ⟨c, l, rfl⟩ := List.exists_cons_of_ne_nil hne
      have hc : c.isDigit = true := hdigit c List.mem_cons_self
      have hplus : c ≠ '+' := ne_of_isDigit hc rfl
      have hminus : c ≠ '-' := ne_of_isDigit hc rfl
      refine ⟨1, c :: l, ?_, hne, hdigit, rfl⟩
      rw [Option.toList_none, List.nil_append]
      unfold parseI128
      split
      · next heq => exact absurd (List.cons.inj heq).1 hplus
      · next heq => exact absurd (List.cons.inj heq).1 hminus
      · rfl
    | some c =>
      rcases hsign c rfl with rfl | rfl
      · exact ⟨1, ds, rfl, hne, hdigit, rfl⟩
      · exact ⟨-1, ds, rfl, hne, hdigit, rfl⟩

theorem inI128_zero : InI128 0 := by
  unfold InI128 i128Min i128Max
  omega

/-- An exponent that fits is read. -/
theorem decimalParts_of_exponent (h : InI128 n.exponentValue) :
    decimalParts n.text = mantissaParts n.mantissaText n.exponentValue := by
  rw [decimalParts_text]
  cases hexp : n.exponentDigits with
  | none =>
    have hzero : n.exponentValue = 0 := by
      rw [exponentValue_eq, hexp]
      rfl
    rw [hzero]
  | some digits =>
    obtain ⟨sign, ds, hparse, hne, hdigits, hvalue⟩ := parseI128_exponentDigits hexp
    rw [hvalue] at h ⊢
    simp only [hparse, parseDigits_of hne hdigits h]
    rfl

/-- An exponent that does not fit is the range error. -/
theorem decimalParts_of_not_exponent (h : ¬InI128 n.exponentValue) :
    decimalParts n.text = .error numberRangeError := by
  rw [decimalParts_text]
  cases hexp : n.exponentDigits with
  | none =>
    have hzero : n.exponentValue = 0 := by
      rw [exponentValue_eq, hexp]
      rfl
    exact absurd (hzero ▸ inI128_zero) h
  | some digits =>
    obtain ⟨sign, ds, hparse, hne, hdigits, hvalue⟩ := parseI128_exponentDigits hexp
    simp only [hparse, parseDigits_not (hvalue ▸ h)]
    rfl

theorem checkedI128_of {z : ℤ} (h : InI128 z) : checkedI128 z = .ok z := by
  have hrange : Result.require (i128Min ≤ z ∧ z ≤ i128Max) numberRangeError = .ok () := by
    rw [Result.require_eq_ok]
    exact h
  exact Result.bind_eq_ok.2 ⟨(), hrange, rfl⟩

theorem inI128_of_checked {z z' : ℤ} (h : checkedI128 z = .ok z') : InI128 z ∧ z' = z := by
  obtain ⟨_, hz, h⟩ := Result.bind_eq_ok.1 h
  rw [Result.require_eq_ok] at hz
  exact ⟨hz, (Result.pure_eq_ok.1 h).symm⟩

/-- What has been checked where the parts of a literal are read. -/
theorem fits_of_decimalParts {parts : DecimalParts} (h : decimalParts n.text = .ok parts) :
    InI128 n.exponentValue ∧ n.mantissaDigits.length ≤ usizeMax ∧
      (n.significant ≠ [] → InI128 n.power) := by
  by_cases hexp : InI128 n.exponentValue
  swap
  · rw [decimalParts_of_not_exponent hexp] at h
    cases h
  refine ⟨hexp, ?_⟩
  rw [decimalParts_of_exponent hexp] at h
  simp only [mantissaParts, n.mantissa_split.2] at h
  obtain ⟨_, hlen, h⟩ := Result.bind_eq_ok.1 h
  obtain ⟨_, hlen, -⟩ := Result.bind_eq_ok.1 hlen
  refine ⟨List.length_append ▸ Result.require_eq_ok.1 hlen, fun hne => ?_⟩
  split at h
  · next hnil =>
    have hleading : n.leadingDigits = [] := hnil
    exact absurd (by rw [significant, hleading]; rfl) hne
  · obtain ⟨scale, hscale, h⟩ := Result.bind_eq_ok.1 h
    obtain ⟨scale', hscale', h⟩ := Result.bind_eq_ok.1 h
    obtain ⟨-, rfl⟩ := inI128_of_checked hscale
    exact (inI128_of_checked hscale').1

/-- The exponent and the number of digits fit. -/
structure Moderate (n : NumberLiteral) : Prop where
  exponent : InI128 n.exponentValue
  length : n.mantissaDigits.length ≤ usizeMax
  scale : InI128 (n.exponentValue - (n.fraction.getD []).length)

theorem Moderate.decimalParts (h : n.Moderate) (hne : n.significant ≠ [])
    (hpower : InI128 n.power) :
    decimalParts n.text = .ok ⟨n.negative, n.significant, n.power⟩ := by
  have hleading : ¬(n.integer ++ n.fraction.getD []).dropWhile (· = '0') = [] := by
    intro hnil
    have hnil : n.leadingDigits = [] := hnil
    exact hne (by rw [significant, hnil]; rfl)
  have hlen' : checkedUsize (n.integer.length + (n.fraction.getD []).length) =
      .ok n.mantissaDigits.length := by
    rw [← List.length_append]
    exact Result.bind_eq_ok.2 ⟨(), Result.require_eq_ok.2 h.length, rfl⟩
  rw [decimalParts_of_exponent h.exponent]
  simp only [mantissaParts, n.mantissa_split.1, n.mantissa_split.2]
  refine Result.bind_eq_ok.2 ⟨_, hlen', ?_⟩
  rw [if_neg hleading]
  exact Result.bind_eq_ok.2 ⟨_, checkedI128_of h.scale, Result.bind_eq_ok.2
    ⟨_, checkedI128_of hpower, rfl⟩⟩

/-! ### Canonical texts -/

/-- The literal that is written with these digits and this exponent. -/
def ofDigits (negative : Bool) (integer fraction : List Char) (exponent : ℤ)
    (hinteger : integer ≠ [] ∧ ∀ c ∈ integer, c.isDigit = true)
    (hzero : integer.head? = some '0' → integer = ['0'])
    (hfraction : ∀ c ∈ fraction, c.isDigit = true) : NumberLiteral where
  negative := negative
  integer := integer
  fraction := if fraction = [] then none else some fraction
  exponent := if exponent = 0 then none
    else some ('e', if exponent < 0 then some '-' else none, Nat.toDigits 10 exponent.natAbs)
  integer_digits := hinteger
  integer_zero := hzero
  fraction_digits f hf := by
    split at hf
    · cases hf
    · next hne =>
      obtain rfl := Option.some.inj hf
      exact ⟨hne, hfraction⟩
  exponent_form e sign ds h := by
    split at h
    · cases h
    · obtain ⟨rfl, hsign, rfl⟩ : 'e' = e ∧ (if exponent < 0 then some '-' else none) = sign ∧
          Nat.toDigits 10 exponent.natAbs = ds := by simpa using h
      refine ⟨.inl rfl, fun c hc => ?_, Nat.toDigits_ne_nil, fun c hc =>
        Nat.isDigit_of_mem_toDigits (by decide) (by decide) hc⟩
      rw [← hsign] at hc
      split at hc
      · exact .inr (Option.some.inj hc).symm
      · cases hc

section ofDigits

variable {negative : Bool} {integer fraction : List Char} {exponent : ℤ}
  {hinteger : integer ≠ [] ∧ ∀ c ∈ integer, c.isDigit = true}
  {hzero : integer.head? = some '0' → integer = ['0']}
  {hfraction : ∀ c ∈ fraction, c.isDigit = true}

theorem ofDigits_text :
    (ofDigits negative integer fraction exponent hinteger hzero hfraction).text =
      (if negative then ['-'] else []) ++ integer ++
        (if fraction = [] then [] else '.' :: fraction) ++
        (if exponent = 0 then [] else 'e' :: integerText exponent) := by
  unfold text signText fractionText exponentText ofDigits
  by_cases hf : fraction = [] <;> by_cases he : exponent = 0 <;>
    by_cases hneg : exponent < 0 <;> simp [hf, he, hneg, integerText]

theorem ofDigits_fraction :
    (ofDigits negative integer fraction exponent hinteger hzero hfraction).fraction.getD [] =
      fraction := by
  unfold ofDigits
  dsimp only
  split
  · next h => rw [h, Option.getD_none]
  · rfl

theorem ofDigits_exponentValue :
    (ofDigits negative integer fraction exponent hinteger hzero hfraction).exponentValue =
      exponent := by
  unfold exponentValue ofDigits
  by_cases hexponent : exponent = 0
  · simp [hexponent]
  · by_cases hneg : exponent < 0
    · simp only [hexponent, hneg, if_false, if_true, Nat.ofDigitChars_ten_toDigits]
      omega
    · simp only [hexponent, hneg, if_false, Nat.ofDigitChars_ten_toDigits]
      omega

theorem ofDigits_value :
    (ofDigits negative integer fraction exponent hinteger hzero hfraction).value =
      (if negative then -1 else 1) * (Nat.ofDigitChars 10 (integer ++ fraction) 0 : ℚ) *
        10 ^ (exponent - fraction.length) := by
  rw [value, ofDigits_exponentValue, mantissaDigits, ofDigits_fraction]
  rfl

theorem ofDigits_moderate (hexponent : InI128 exponent)
    (hlength : integer.length + fraction.length ≤ usizeMax)
    (hscale : InI128 (exponent - fraction.length)) :
    (ofDigits negative integer fraction exponent hinteger hzero hfraction).Moderate := by
  refine ⟨?_, ?_, ?_⟩
  · rwa [ofDigits_exponentValue]
  · rwa [mantissaDigits, ofDigits_fraction, List.length_append]
  · rwa [ofDigits_exponentValue, ofDigits_fraction]

/-- A literal without an exponent is moderate if its length is. -/
theorem ofDigits_moderate_plain {hinteger : integer ≠ [] ∧ ∀ c ∈ integer, c.isDigit = true}
    (hlength : integer.length + fraction.length ≤ usizeMax) :
    (ofDigits negative integer fraction 0 hinteger hzero hfraction).Moderate := by
  refine ofDigits_moderate inI128_zero hlength ?_
  have husize : usizeMax = 2 ^ 64 - 1 := rfl
  unfold InI128 i128Min i128Max
  omega

end ofDigits

theorem plainNumberLength_le {parts : DecimalParts} {len : ℕ}
    (h : plainNumberLength parts = .ok len) : len ≤ usizeMax := by
  have hchecked : ∀ {a b : ℕ}, checkedUsize a = .ok b → b ≤ usizeMax := fun hz => by
    obtain ⟨_, hrange, hz⟩ := Result.bind_eq_ok.1 hz
    exact Result.pure_eq_ok.1 hz ▸ Result.require_eq_ok.1 hrange
  unfold plainNumberLength at h
  dsimp only at h
  split at h
  · obtain ⟨_, -, h⟩ := Result.bind_eq_ok.1 h
    exact hchecked h
  · obtain ⟨_, -, h⟩ := Result.bind_eq_ok.1 h
    split at h
    · exact hchecked h
    · exact hchecked h

/-- A number that is written without an exponent. -/
theorem exists_plain_literal {parts : DecimalParts} {d : Char} {r s : List Char}
    (hd : parts.digits = d :: r) (hzero : d ≠ '0') (hdigits : ∀ c ∈ parts.digits, c.isDigit = true)
    {len : ℕ} (hlen : plainNumberLength parts = .ok len) (h : renderPlainNumber parts = .ok s) :
    ∃ m : NumberLiteral, m.text = s ∧ m.Moderate ∧
      m.value = (if parts.negative then -1 else 1) * (Nat.ofDigitChars 10 parts.digits 0 : ℚ) *
        10 ^ parts.scale := by
  have husize : ∀ {z : ℤ} {k : ℕ}, usizeOfI128 z = .ok k → 0 ≤ z ∧ k = z.toNat := fun hz => by
    obtain ⟨_, hrange, hz⟩ := Result.bind_eq_ok.1 hz
    exact ⟨(Result.require_eq_ok.1 hrange).1, (Result.pure_eq_ok.1 hz).symm⟩
  have hzeros : ∀ k, ∀ c ∈ List.replicate k '0', c.isDigit = true := fun k c hc =>
    List.eq_of_mem_replicate hc ▸ rfl
  have hlen' := plainNumberLength_eq hlen
  have hle := plainNumberLength_le hlen
  unfold renderPlainNumber at h
  dsimp only at h
  split at h
  · next hscale =>
    rw [if_pos hscale] at hlen'
    obtain ⟨zeroes, hz, h⟩ := Result.bind_eq_ok.1 h
    obtain rfl := Result.pure_eq_ok.1 h
    obtain ⟨-, rfl⟩ := husize hz
    refine ⟨ofDigits parts.negative (parts.digits ++ List.replicate parts.scale.toNat '0') [] 0
      ⟨by simp [hd], fun c hc => (List.mem_append.1 hc).elim (hdigits c) (hzeros _ c)⟩
        (fun hl => ?_)
      (by simp), ?_, ofDigits_moderate_plain ?_, ?_⟩
    · rw [hd] at hl
      exact absurd (Option.some.inj hl) hzero
    · rw [ofDigits_text]
      simp
    · rw [List.length_append, List.length_replicate, List.length_nil]
      omega
    · obtain ⟨k, hk⟩ := Int.eq_ofNat_of_zero_le hscale
      rw [ofDigits_value, List.append_nil, Nat.ofDigitChars_append, Nat.ofDigitChars_replicate_zero,
        hk, Int.toNat_natCast]
      push_cast
      simp only [List.length_nil, Nat.cast_zero, sub_self, zpow_zero, zpow_natCast]
      ring
  · next hscale =>
    obtain ⟨places, hplaces, h⟩ := Result.bind_eq_ok.1 h
    obtain ⟨-, hplaces⟩ := husize hplaces
    have hscale' : parts.scale = -(places : ℤ) := by omega
    rw [if_neg hscale, ← hplaces] at hlen'
    split at h
    · next hlt =>
      -- the point falls inside the digits
      obtain rfl := Result.pure_eq_ok.1 h
      obtain ⟨point, hpoint⟩ : ∃ point, parts.digits.length - places = point + 1 :=
        ⟨parts.digits.length - places - 1, by omega⟩
      have hdrop : (parts.digits.drop (point + 1)).length = places := by
        rw [List.length_drop]
        omega
      have hne : parts.digits.drop (point + 1) ≠ [] := by
        intro hnil
        rw [hnil, List.length_nil] at hdrop
        omega
      refine ⟨ofDigits parts.negative (parts.digits.take (point + 1))
        (parts.digits.drop (point + 1))
        0 ⟨by simp [hd], fun c hc => hdigits c (List.mem_of_mem_take hc)⟩ (fun hl => ?_)
        fun c hc => hdigits c (List.mem_of_mem_drop hc), ?_, ofDigits_moderate_plain ?_, ?_⟩
      · rw [hd] at hl
        exact absurd (Option.some.inj hl) hzero
      · rw [ofDigits_text, if_neg hne, hpoint]
        simp
      · rw [if_pos hlt] at hlen'
        rw [hdrop, List.length_take]
        omega
      · rw [ofDigits_value, List.take_append_drop, hdrop, hscale', zero_sub]
    · next hlt =>
      -- zeros stand between the point and the digits
      obtain rfl := Result.pure_eq_ok.1 h
      have hne : List.replicate (places - parts.digits.length) '0' ++ parts.digits ≠ [] := by
        simp [hd]
      refine ⟨ofDigits parts.negative ['0']
        (List.replicate (places - parts.digits.length) '0' ++ parts.digits) 0
        ⟨by simp, by simp [Char.isDigit]⟩ (fun _ => rfl)
        fun c hc => (List.mem_append.1 hc).elim (hzeros _ c) (hdigits c), ?_,
        ofDigits_moderate_plain ?_, ?_⟩
      · rw [ofDigits_text, if_neg hne]
        simp
      · rw [if_neg hlt] at hlen'
        rw [List.length_append, List.length_replicate, List.length_singleton]
        omega
      · have hlen : ((List.replicate (places - parts.digits.length) '0' ++
            parts.digits).length : ℤ) = places := by
          rw [List.length_append, List.length_replicate]
          omega
        have hvalue : Nat.ofDigitChars 10
            (['0'] ++ (List.replicate (places - parts.digits.length) '0' ++ parts.digits)) 0 =
            Nat.ofDigitChars 10 parts.digits 0 := by
          rw [List.singleton_append, ← List.cons_append, ← List.replicate_succ,
            Nat.ofDigitChars_append, Nat.ofDigitChars_replicate_zero, mul_zero]
        rw [ofDigits_value, hlen, hvalue, hscale', zero_sub]

theorem leadingDigits_length_le : n.leadingDigits.length ≤ n.mantissaDigits.length :=
  (List.dropWhile_sublist _).length_le

/-- What has been checked where a literal is written. -/
theorem fits_of_canonicalNumber {s : List Char} (h : canonicalNumber n.text = .ok s)
    (hne : n.significant ≠ []) :
    (InI128 n.exponentValue ∧ n.mantissaDigits.length ≤ usizeMax ∧
      (n.significant ≠ [] → InI128 n.power)) ∧ InI128 (n.power + (n.significant.length - 1)) := by
  obtain ⟨parts, hparts, h⟩ := Result.bind_eq_ok.1 h
  refine ⟨fits_of_decimalParts hparts, ?_⟩
  obtain ⟨hnil, -⟩ | ⟨-, rfl⟩ := NumberLiteral.decimalParts_eq hparts
  · exact absurd hnil hne
  · have hzero : n.significant ≠ ['0'] := fun heq => significant_ne_zero heq rfl
    rw [if_neg hzero] at h
    obtain ⟨exponent, hexp, -⟩ := Result.bind_eq_ok.1 h
    exact (inI128_of_checked hexp).1

end NumberLiteral

open NumberLiteral in
/-- **Canonical numbers keep the value.**  The canonical text of a literal is the text of a literal
of the same value. -/
theorem canonicalNumber_literal {n : NumberLiteral} {s : List Char}
    (h : canonicalNumber n.text = .ok s) :
    ∃ m : NumberLiteral, m.text = s ∧ m.Moderate ∧ m.value = n.value := by
  -- no significant digit: the number is zero, written `0`
  by_cases hne : n.significant = []
  · obtain ⟨parts, hparts, h⟩ := Result.bind_eq_ok.1 h
    obtain ⟨-, rfl⟩ | ⟨hnot, -⟩ := NumberLiteral.decimalParts_eq hparts
    · obtain rfl := Result.pure_eq_ok.1 h
      refine ⟨ofDigits false ['0'] [] 0 ⟨by simp, by simp [Char.isDigit]⟩ (fun _ => rfl) (by simp),
        ofDigits_text, ofDigits_moderate_plain (by decide), ?_⟩
      have hzero : Nat.ofDigitChars 10 (['0'] ++ []) 0 = 0 := by decide
      rw [ofDigits_value, value_of_nil hne, hzero]
      simp
    · exact absurd hne hnot
  obtain ⟨len, hlen, hcases⟩ := canonicalNumber_eq h hne
  obtain ⟨hread, hexponent⟩ := fits_of_canonicalNumber h hne
  obtain ⟨d, r, hd⟩ := List.exists_cons_of_ne_nil hne
  have hzero : d ≠ '0' := significant_ne_zero hd
  have hdigits : ∀ c ∈ n.significant, c.isDigit = true := fun c hc => significant_isDigit hc
  have hhead : ∀ {l l' : List Char}, d :: l = l' → l'.head? = some '0' → l' = ['0'] := by
    rintro l _ rfl hl
    exact absurd (Option.some.inj hl) hzero
  have hvalue := n.value_eq
  rw [sign] at hvalue
  split at hcases
  · -- scientific notation: one digit before the point
    subst hcases
    rw [hd] at hdigits
    refine ⟨ofDigits n.negative [d] r (n.power + (n.significant.length - 1))
      ⟨by simp, fun c hc => hdigits c (List.mem_cons.2 (.inl (List.mem_singleton.1 hc)))⟩
        (hhead rfl)
      fun c hc => hdigits c (List.mem_cons_of_mem _ hc), ?_, ofDigits_moderate hexponent ?_ ?_, ?_⟩
    · rw [ofDigits_text, scientificText, hd]
      cases r <;> simp
    · have hsub := (significant_isPrefix.length_le.trans leadingDigits_length_le).trans hread.2.1
      rw [hd, List.length_cons] at hsub
      rw [List.length_singleton]
      omega
    · have hpower := hread.2.2 hne
      rw [hd, List.length_cons]
      convert hpower using 1
      push_cast
      ring
    · rw [ofDigits_value, hvalue, hd, List.singleton_append, List.length_cons]
      congr 2
      push_cast
      ring
  · obtain ⟨m, hm, hmoderate, hmvalue⟩ := exists_plain_literal hd hzero hdigits hlen hcases
    exact ⟨m, hm, hmoderate, hmvalue.trans hvalue.symm⟩

/-- **Equal canonical texts, equal values.** -/
theorem canonicalNumber_injective {n m : NumberLiteral} {s : List Char}
    (hn : canonicalNumber n.text = .ok s) (hm : canonicalNumber m.text = .ok s) :
    n.value = m.value := by
  obtain ⟨n', hn', -, hvalue⟩ := canonicalNumber_literal hn
  obtain ⟨m', hm', -, hvalue'⟩ := canonicalNumber_literal hm
  rw [← hvalue, ← hvalue', NumberLiteral.value_eq_of_text (hn'.trans hm'.symm)]

/-! ### Exactness -/

theorem canonicalNumber_of_nil {n : NumberLiteral} {s : List Char}
    (h : canonicalNumber n.text = .ok s) (hnil : n.significant = []) : s = ['0'] := by
  obtain ⟨parts, hparts, h⟩ := Result.bind_eq_ok.1 h
  obtain ⟨-, rfl⟩ | ⟨hne, -⟩ := NumberLiteral.decimalParts_eq hparts
  · exact (Result.pure_eq_ok.1 h).symm
  · exact absurd hnil hne

theorem decimalParts_of_canonicalNumber {n : NumberLiteral} {s : List Char}
    (h : canonicalNumber n.text = .ok s) (hne : n.significant ≠ []) :
    decimalParts n.text = .ok ⟨n.negative, n.significant, n.power⟩ := by
  obtain ⟨parts, hparts, -⟩ := Result.bind_eq_ok.1 h
  obtain ⟨hnil, -⟩ | ⟨-, rfl⟩ := NumberLiteral.decimalParts_eq hparts
  · exact absurd hnil hne
  · exact hparts

theorem canonicalNumber_congr {text text' : List Char}
    (h : decimalParts text = decimalParts text') :
    canonicalNumber text = canonicalNumber text' := by
  rw [canonicalNumber, h, ← canonicalNumber]

/-- **Equal values, equal canonical texts.** -/
theorem canonicalNumber_of_value {n m : NumberLiteral} {s t : List Char}
    (hn : canonicalNumber n.text = .ok s) (hm : canonicalNumber m.text = .ok t)
    (h : n.value = m.value) : s = t := by
  by_cases hne : n.significant = []
  · have hne' : m.significant = [] :=
      NumberLiteral.value_eq_zero_iff.1 (h.symm.trans (NumberLiteral.value_of_nil hne))
    rw [canonicalNumber_of_nil hn hne, canonicalNumber_of_nil hm hne']
  · obtain ⟨hnegative, hsignificant, hpower⟩ := NumberLiteral.parts_of_value h hne
    have hne' : m.significant ≠ [] := hsignificant ▸ hne
    have hparts := decimalParts_of_canonicalNumber hn hne
    rw [hnegative, hsignificant, hpower, ← decimalParts_of_canonicalNumber hm hne'] at hparts
    rw [canonicalNumber_congr hparts, hm] at hn
    exact (Except.ok.inj hn).symm

/-- A canonical text is its own canonical text. -/
theorem canonicalNumber_idempotent {n : NumberLiteral} {s : List Char}
    (h : canonicalNumber n.text = .ok s) : canonicalNumber s = .ok s := by
  by_cases hne : n.significant = []
  · rw [canonicalNumber_of_nil h hne]
    decide +kernel
  · obtain ⟨c, rfl, hmoderate, hvalue⟩ := canonicalNumber_literal h
    obtain ⟨hnegative, hsignificant, hpower⟩ := NumberLiteral.parts_of_value hvalue.symm hne
    have hne' : c.significant ≠ [] := hsignificant ▸ hne
    have hfits : NumberLiteral.InI128 c.power :=
      hpower ▸ (NumberLiteral.fits_of_canonicalNumber h hne).1.2.2 hne
    have hparts := hmoderate.decimalParts hne' hfits
    rw [← hnegative, ← hsignificant, ← hpower, ← decimalParts_of_canonicalNumber h hne] at hparts
    rw [canonicalNumber_congr hparts, h]

/-! ### Errors and lengths -/

/-- The only error is that of the range. -/
def RangeOnly {α : Type} (m : Except CompileError α) : Prop :=
  Result.wp (· = numberRangeError) m fun _ => True

theorem RangeOnly.eq_of_error {α : Type} {m : Except CompileError α} {e : CompileError}
    (h : RangeOnly m) (he : m = .error e) : e = numberRangeError := by
  subst he
  exact h

theorem RangeOnly.require {p : Prop} [Decidable p] :
    RangeOnly (Result.require p numberRangeError) := by
  rw [RangeOnly, Result.wp_require]
  exact ⟨fun _ => trivial, fun _ => rfl⟩

theorem RangeOnly.pure {α : Type} (a : α) :
    RangeOnly (Pure.pure a : Except CompileError α) := trivial

theorem RangeOnly.bind {α β : Type} {m : Except CompileError α} {f : α → Except CompileError β}
    (hm : RangeOnly m) (hf : ∀ a, RangeOnly (f a)) : RangeOnly (m >>= f) :=
  Result.wp_bind.2 (Result.wp_mono hm fun a _ => hf a)

theorem RangeOnly.checkedI128 (z : ℤ) : RangeOnly (OcEarley.checkedI128 z) :=
  .bind .require fun _ => .pure z

theorem RangeOnly.usizeOfI128 (z : ℤ) : RangeOnly (OcEarley.usizeOfI128 z) :=
  .bind .require fun _ => .pure z.toNat

theorem RangeOnly.checkedUsize (n : ℕ) : RangeOnly (OcEarley.checkedUsize n) :=
  .bind .require fun _ => .pure n

theorem RangeOnly.mantissaParts (mantissa : List Char) (exponent : ℤ) :
    RangeOnly (OcEarley.mantissaParts mantissa exponent) := by
  refine .bind (.checkedUsize _) fun _ => ?_
  dsimp only
  split
  · exact .pure _
  · exact .bind (.checkedI128 _) fun _ => .bind (.checkedI128 _) fun _ => .pure _

theorem RangeOnly.decimalParts (text : List Char) : RangeOnly (OcEarley.decimalParts text) := by
  unfold OcEarley.decimalParts
  split
  · refine .bind ?_ fun _ => .mantissaParts _ _
    exact Result.wp_unwrap.2 ⟨fun _ _ => trivial, fun _ => rfl⟩
  · exact .mantissaParts _ _

theorem RangeOnly.plainNumberLength (parts : DecimalParts) :
    RangeOnly (OcEarley.plainNumberLength parts) := by
  unfold OcEarley.plainNumberLength
  dsimp only
  split
  · exact .bind (.usizeOfI128 _) fun _ => .checkedUsize _
  · refine .bind (.usizeOfI128 _) fun _ => ?_
    split
    · exact .checkedUsize _
    · exact .checkedUsize _

theorem RangeOnly.renderPlainNumber (parts : DecimalParts) :
    RangeOnly (OcEarley.renderPlainNumber parts) := by
  unfold OcEarley.renderPlainNumber
  dsimp only
  split
  · exact .bind (.usizeOfI128 _) fun _ => .pure _
  · refine .bind (.usizeOfI128 _) fun _ => ?_
    split
    · exact .pure _
    · exact .pure _

theorem RangeOnly.canonicalNumber (text : List Char) :
    RangeOnly (OcEarley.canonicalNumber text) := by
  refine .bind (.decimalParts text) fun parts => ?_
  split
  · exact .pure _
  · refine .bind (.checkedI128 _) fun _ => .bind (.plainNumberLength _) fun _ => ?_
    split
    · exact .pure _
    · exact .renderPlainNumber _

/-- A plain number is written, and as long as it was computed. -/
theorem renderPlainNumber_length {parts : DecimalParts} {len : ℕ}
    (h : plainNumberLength parts = .ok len) :
    ∃ s, renderPlainNumber parts = .ok s ∧ s.length = len := by
  have hlen := plainNumberLength_eq h
  have husize : ∀ {z : ℤ} {k : ℕ}, usizeOfI128 z = .ok k → k = z.toNat := fun hz => by
    obtain ⟨_, -, hz⟩ := Result.bind_eq_ok.1 hz
    exact (Result.pure_eq_ok.1 hz).symm
  unfold plainNumberLength at h
  unfold renderPlainNumber
  dsimp only at h ⊢
  by_cases hscale : 0 ≤ parts.scale
  · rw [if_pos hscale] at h hlen ⊢
    obtain ⟨zeroes, hz, -⟩ := Result.bind_eq_ok.1 h
    refine ⟨_, Result.bind_eq_ok.2 ⟨zeroes, hz, rfl⟩, ?_⟩
    rw [List.length_append, List.length_append, List.length_replicate, husize hz, hlen,
      Nat.add_assoc]
    split <;> rfl
  · rw [if_neg hscale] at h hlen ⊢
    obtain ⟨places, hz, -⟩ := Result.bind_eq_ok.1 h
    rw [← husize hz] at hlen
    by_cases hlt : places < parts.digits.length
    · rw [if_pos hlt] at hlen
      refine ⟨_, Result.bind_eq_ok.2 ⟨places, hz, if_pos hlt⟩, ?_⟩
      simp only [List.length_append, List.length_take, List.length_drop, List.length_singleton]
      split_ifs at hlen ⊢ <;> simp only [List.length_singleton, List.length_nil] <;> omega
    · rw [if_neg hlt] at hlen
      refine ⟨_, Result.bind_eq_ok.2 ⟨places, hz, if_neg hlt⟩, ?_⟩
      simp only [List.length_append, List.length_replicate, List.length_cons, List.length_nil]
      split_ifs at hlen ⊢ <;> simp only [List.length_singleton, List.length_nil] <;> omega

/-- **Canonical numbers are exact.**  The canonical text of a literal is a literal of the same value
and its own canonical text; two literals have one canonical text iff they have one value; the
literal is found to be an integer iff it is one.  The lengths and exponents are computed within
their ranges, and the only error is that of the range, which every exponent beyond `i128` gives. -/
theorem canonicalNumber_exact (n : NumberLiteral) :
    (∀ e, canonicalNumber n.text = .error e → e = numberRangeError) ∧
    (¬NumberLiteral.InI128 n.exponentValue → canonicalNumber n.text = .error numberRangeError) ∧
    (∀ parts, decimalParts n.text = .ok parts → parts.digits ≠ [] ∧
      parts.digits.length ≤ usizeMax ∧ NumberLiteral.InI128 parts.scale ∧
      ∀ len, plainNumberLength parts = .ok len → len ≤ usizeMax ∧
        ∃ plain, renderPlainNumber parts = .ok plain ∧ plain.length = len) ∧
    ∀ s, canonicalNumber n.text = .ok s →
      (∃ c : NumberLiteral, c.text = s ∧ c.value = n.value) ∧ canonicalNumber s = .ok s ∧
      (numberIsInteger n.text = true ↔ n.IsIntegral) ∧
      ∀ (m : NumberLiteral) (t : List Char), canonicalNumber m.text = .ok t →
        (s = t ↔ n.value = m.value) := by
  refine ⟨fun e he => (RangeOnly.canonicalNumber n.text).eq_of_error he, fun hexponent => ?_,
    fun parts hparts => ⟨?_, ?_, ?_, fun len hlen => ⟨NumberLiteral.plainNumberLength_le hlen,
      renderPlainNumber_length hlen⟩⟩,
    fun s hs => ⟨?_, canonicalNumber_idempotent hs, ?_,
      fun m t ht => ⟨fun heq => ?_, fun heq => ?_⟩⟩⟩
  · rw [canonicalNumber, NumberLiteral.decimalParts_of_not_exponent hexponent]
    rfl
  · obtain ⟨-, rfl⟩ | ⟨hne, rfl⟩ := NumberLiteral.decimalParts_eq hparts
    · exact List.cons_ne_nil _ _
    · exact hne
  · obtain ⟨-, rfl⟩ | ⟨hne, rfl⟩ := NumberLiteral.decimalParts_eq hparts
    · show 1 ≤ usizeMax
      decide
    · exact (NumberLiteral.significant_isPrefix.length_le.trans
        NumberLiteral.leadingDigits_length_le).trans (NumberLiteral.fits_of_decimalParts hparts).2.1
  · obtain ⟨-, rfl⟩ | ⟨hne, rfl⟩ := NumberLiteral.decimalParts_eq hparts
    · exact NumberLiteral.inI128_zero
    · exact (NumberLiteral.fits_of_decimalParts hparts).2.2 hne
  · obtain ⟨c, hc, -, hvalue⟩ := canonicalNumber_literal hs
    exact ⟨c, hc, hvalue⟩
  · obtain ⟨parts, hparts, -⟩ := Result.bind_eq_ok.1 hs
    exact numberIsInteger_iff hparts
  · subst heq
    exact canonicalNumber_injective hs ht
  · exact canonicalNumber_of_value hs ht heq

/-- The literal `10e-1`. -/
def tenTenths : NumberLiteral :=
  .ofDigits false ['1', '0'] [] (-1) ⟨by simp, by simp [Char.isDigit]⟩
    (fun h => absurd (Option.some.inj h) (by decide)) (by simp)

theorem canonicalNumber_exact_tenTenths :
    (numberIsInteger tenTenths.text = true ↔ tenTenths.IsIntegral) ∧
      ∃ c : NumberLiteral, c.text = ['1'] ∧ c.value = tenTenths.value := by
  have hs : canonicalNumber tenTenths.text = .ok ['1'] := by decide +kernel
  obtain ⟨hliteral, -, hinteger, -⟩ := (canonicalNumber_exact tenTenths).2.2.2 ['1'] hs
  exact ⟨hinteger, hliteral⟩

end OcEarley
