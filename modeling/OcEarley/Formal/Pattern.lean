import Mathlib.Computability.Language

/-!
# Patterns over Unicode text

Regular expressions over characters, with the concrete syntax that the standard patterns use:
groups, alternation, the postfix operators, classes with ranges and negation, and escapes.  A
pattern matches a whole text, and the byte strings it accepts are the UTF-8 encodings of these
texts.
-/

namespace OcEarley

/-- The syntax of patterns. -/
inductive Pattern
  | empty
  | chars (negated : Bool) (ranges : List (Char × Char))
  | concat (p q : Pattern)
  | alternate (p q : Pattern)
  | star (p : Pattern)
  deriving DecidableEq, Repr

namespace Pattern

/-- `p?`. -/
def optional (p : Pattern) : Pattern := .alternate p .empty

/-- `p+`. -/
def plus (p : Pattern) : Pattern := .concat p (.star p)

/-- A class that holds a single character. -/
def char (c : Char) : Pattern := .chars false [(c, c)]

/-! ### Concrete syntax -/

/-- The number that a hexadecimal digit stands for. -/
def hexValue (c : Char) : Option ℕ :=
  if '0' ≤ c ∧ c ≤ '9' then some (c.toNat - 48)
  else if 'A' ≤ c ∧ c ≤ 'F' then some (c.toNat - 55)
  else if 'a' ≤ c ∧ c ≤ 'f' then some (c.toNat - 87)
  else none

/-- A character after a backslash: `\xHH`, or punctuation that stands for itself. -/
def parseEscape : List Char → Option (Char × List Char)
  | 'x' :: h :: l :: rest => do
    let high ← hexValue h
    let low ← hexValue l
    some (Char.ofNat (16 * high + low), rest)
  | c :: rest => if c.isAlphanum then none else some (c, rest)
  | [] => none

/-- One end of a range in a class. -/
def parseClassChar : List Char → Option (Char × List Char)
  | '\\' :: rest => parseEscape rest
  | ']' :: _ => none
  | c :: rest => some (c, rest)
  | [] => none

/-- The ranges of a class, up to its bracket. -/
def parseClass : ℕ → List Char → Option (List (Char × Char) × List Char)
  | _, ']' :: rest => some ([], rest)
  | 0, _ => none
  | fuel + 1, s => do
    let (low, rest) ← parseClassChar s
    match rest with
    | '-' :: ']' :: rest => some ([(low, low), ('-', '-')], rest)
    | '-' :: rest => do
      let (high, rest) ← parseClassChar rest
      let (ranges, rest) ← parseClass fuel rest
      some ((low, high) :: ranges, rest)
    | rest => do
      let (ranges, rest) ← parseClass fuel rest
      some ((low, low) :: ranges, rest)

/-- The operators after an atom. -/
def parsePostfix : ℕ → Pattern → List Char → Pattern × List Char
  | fuel + 1, p, '*' :: rest => parsePostfix fuel (.star p) rest
  | fuel + 1, p, '+' :: rest => parsePostfix fuel (plus p) rest
  | fuel + 1, p, '?' :: rest => parsePostfix fuel (optional p) rest
  | _, p, rest => (p, rest)

mutual

/-- Branches between bars. -/
def parseAlternation : ℕ → List Char → Option (Pattern × List Char)
  | 0, _ => none
  | fuel + 1, s => do
    let (p, rest) ← parseConcat fuel s
    match rest with
    | '|' :: rest => do
      let (q, rest) ← parseAlternation fuel rest
      some (.alternate p q, rest)
    | rest => some (p, rest)

/-- Pieces with their operators, up to a bar or a closing parenthesis. -/
def parseConcat : ℕ → List Char → Option (Pattern × List Char)
  | 0, _ => none
  | _ + 1, [] => some (.empty, [])
  | _ + 1, '|' :: rest => some (.empty, '|' :: rest)
  | _ + 1, ')' :: rest => some (.empty, ')' :: rest)
  | fuel + 1, s => do
    let (p, rest) ← parseAtom fuel s
    let (p, rest) := parsePostfix rest.length p rest
    let (q, rest) ← parseConcat fuel rest
    some (if q = .empty then p else .concat p q, rest)

/-- A group, a class, an escape or a character. -/
def parseAtom : ℕ → List Char → Option (Pattern × List Char)
  | 0, _ => none
  | fuel + 1, '(' :: rest => do
    let (p, rest) ← parseAlternation fuel rest
    match rest with
    | ')' :: rest => some (p, rest)
    | _ => none
  | _ + 1, '[' :: '^' :: rest => do
    let (ranges, rest) ← parseClass rest.length rest
    some (.chars true ranges, rest)
  | _ + 1, '[' :: rest => do
    let (ranges, rest) ← parseClass rest.length rest
    some (.chars false ranges, rest)
  | _ + 1, '\\' :: rest => do
    let (c, rest) ← parseEscape rest
    some (char c, rest)
  | _ + 1, c :: rest => some (char c, rest)
  | _ + 1, [] => none

end

/-- The pattern that a text describes. -/
def parse (text : String) : Option Pattern :=
  match parseAlternation (3 * text.toList.length + 3) text.toList with
  | some (p, []) => some p
  | _ => none

/-! ### Languages -/

/-- The character is in the class. -/
def inClass (negated : Bool) (ranges : List (Char × Char)) (c : Char) : Bool :=
  (ranges.any fun range => range.1 ≤ c && c ≤ range.2) != negated

/-- The texts that a pattern matches. -/
def language : Pattern → Language Char
  | .empty => 1
  | .chars negated ranges => {l | ∃ c, inClass negated ranges c = true ∧ l = [c]}
  | .concat p q => p.language * q.language
  | .alternate p q => p.language + q.language
  | .star p => KStar.kstar p.language

/-- The UTF-8 encoding of a text. -/
def encode (l : List Char) : List UInt8 := l.flatMap String.utf8EncodeChar

/-- The byte strings that a pattern matches. -/
def byteLanguage (p : Pattern) : Language UInt8 := {x | ∃ l ∈ p.language, x = encode l}

@[simp] theorem encode_nil : encode [] = [] := rfl

@[simp] theorem encode_cons (c : Char) (l : List Char) :
    encode (c :: l) = String.utf8EncodeChar c ++ encode l := rfl

@[simp] theorem encode_append (l l' : List Char) : encode (l ++ l') = encode l ++ encode l' :=
  List.flatMap_append

/-- A text can be read back from its encoding. -/
theorem encode_injective : Function.Injective encode := by
  intro l l' h
  refine String.ofList_injective (String.toByteArray_inj.1 ?_)
  rw [String.toByteArray_ofList, String.toByteArray_ofList]
  exact congrArg List.toByteArray h

@[simp] theorem encode_mem_byteLanguage {p : Pattern} {l : List Char} :
    encode l ∈ p.byteLanguage ↔ l ∈ p.language := by
  constructor
  · rintro ⟨l', hl', h⟩
    exact encode_injective h ▸ hl'
  · exact fun h => ⟨l, h, rfl⟩

section Mem

variable {p q : Pattern} {c : Char} {l : List Char}

@[simp] theorem mem_language_empty : l ∈ (empty).language ↔ l = [] := Iff.rfl

theorem mem_language_chars {negated : Bool} {ranges : List (Char × Char)} :
    l ∈ (chars negated ranges).language ↔ ∃ c, inClass negated ranges c = true ∧ l = [c] :=
  Iff.rfl

theorem mem_language_concat :
    l ∈ (concat p q).language ↔ ∃ u ∈ p.language, ∃ v ∈ q.language, u ++ v = l :=
  Language.mem_mul

@[simp] theorem mem_language_alternate :
    l ∈ (alternate p q).language ↔ l ∈ p.language ∨ l ∈ q.language :=
  Iff.rfl

@[simp] theorem mem_language_optional : l ∈ (optional p).language ↔ l ∈ p.language ∨ l = [] :=
  Iff.rfl

@[simp] theorem mem_language_char : l ∈ (char c).language ↔ l = [c] := by
  rw [char, mem_language_chars]
  constructor
  · rintro ⟨d, hd, rfl⟩
    simp only [inClass, List.any_cons, List.any_nil, Bool.or_false, bne_iff_ne, ne_eq,
      Bool.not_eq_false, Bool.and_eq_true, decide_eq_true_iff] at hd
    rw [Char.le_antisymm hd.1 hd.2]
  · rintro rfl
    exact ⟨c, by simp [inClass], rfl⟩

theorem mem_language_char_concat :
    l ∈ (concat (char c) p).language ↔ ∃ v ∈ p.language, l = c :: v := by
  simp only [mem_language_concat, mem_language_char, exists_eq_left, List.singleton_append]
  simp only [eq_comm]

/-- Repeating a class matches the texts over the class. -/
theorem mem_language_star_chars {negated : Bool} {ranges : List (Char × Char)} :
    l ∈ (star (chars negated ranges)).language ↔
      ∀ c ∈ l, inClass negated ranges c = true := by
  change l ∈ KStar.kstar (chars negated ranges).language ↔ _
  rw [Language.mem_kstar]
  constructor
  · rintro ⟨L, rfl, hL⟩ c hc
    obtain ⟨y, hy, hcy⟩ := List.mem_flatten.1 hc
    obtain ⟨d, hd, rfl⟩ := hL y hy
    exact List.mem_singleton.1 hcy ▸ hd
  · intro h
    refine ⟨l.map fun c => [c], by simp [← List.flatMap_def], fun y hy => ?_⟩
    obtain ⟨c, hc, rfl⟩ := List.mem_map.1 hy
    exact ⟨c, h c hc, rfl⟩

theorem mem_language_plus_chars {negated : Bool} {ranges : List (Char × Char)} :
    l ∈ (plus (chars negated ranges)).language ↔
      l ≠ [] ∧ ∀ c ∈ l, inClass negated ranges c = true := by
  rw [plus, mem_language_concat]
  constructor
  · rintro ⟨_, ⟨c, hc, rfl⟩, v, hv, rfl⟩
    refine ⟨by simp, fun d hd => ?_⟩
    rcases List.mem_cons.1 hd with rfl | hd
    · exact hc
    · exact mem_language_star_chars.1 hv d hd
  · rintro ⟨hne, h⟩
    obtain ⟨c, v, rfl⟩ := List.exists_cons_of_ne_nil hne
    exact ⟨[c], ⟨c, h c List.mem_cons_self, rfl⟩, v,
      mem_language_star_chars.2 fun d hd => h d (List.mem_cons_of_mem _ hd), rfl⟩

end Mem

/-! ### Literal texts -/

/-- The characters that stand for more than themselves. -/
def metaCharacters : List Char :=
  ['\\', '.', '+', '*', '?', '(', ')', '|', '[', ']', '{', '}', '^', '$', '#', '&', '-', '~']

/-- The text in which a backslash stands before every character with a meaning of its own. -/
def escapeChars (l : List Char) : List Char :=
  l.flatMap fun c => if c ∈ metaCharacters then ['\\', c] else [c]

/-- The pattern of a literal text. -/
def literal : List Char → Pattern
  | [] => .empty
  | [c] => char c
  | c :: l => .concat (char c) (literal l)

theorem literal_ne_empty {c : Char} {l : List Char} : literal (c :: l) ≠ .empty := by
  cases l <;> simp [literal, char]

theorem length_le_escapeChars (l : List Char) : l.length ≤ (escapeChars l).length := by
  induction l with
  | nil => exact le_rfl
  | cons c l ih =>
    rw [escapeChars, List.flatMap_cons, List.length_append, List.length_cons]
    have hpos : 1 ≤ (if c ∈ metaCharacters then ['\\', c] else [c]).length := by
      split <;> simp
    exact Nat.add_comm 1 _ ▸ Nat.add_le_add hpos ih

/-- An escaped text starts with no operator. -/
theorem escapeChars_ne_cons {d : Char} (hd : d ∈ metaCharacters) (hne : d ≠ '\\')
    (l s : List Char) :
    escapeChars l ≠ d :: s := by
  intro h
  cases l with
  | nil => cases h
  | cons c l =>
    rw [escapeChars, List.flatMap_cons] at h
    split at h
    · exact hne (List.cons.inj h).1.symm
    · next hc => exact hc ((List.cons.inj h).1 ▸ hd)

theorem parsePostfix_escapeChars (fuel : ℕ) (p : Pattern) (l : List Char) :
    parsePostfix fuel p (escapeChars l) = (p, escapeChars l) := by
  have hstar := escapeChars_ne_cons (d := '*') (by decide) (by decide) l
  have hplus := escapeChars_ne_cons (d := '+') (by decide) (by decide) l
  have hquestion := escapeChars_ne_cons (d := '?') (by decide) (by decide) l
  cases fuel with
  | zero => rfl
  | succ fuel =>
    rw [parsePostfix]
    · exact fun _ rest _ h => hstar rest h
    · exact fun _ rest _ h => hplus rest h
    · exact fun _ rest _ h => hquestion rest h

theorem parseAtom_escapeChars {fuel : ℕ} (hfuel : 0 < fuel) (c : Char) (l : List Char) :
    parseAtom fuel (escapeChars (c :: l)) = some (char c, escapeChars l) := by
  obtain ⟨fuel, rfl⟩ := Nat.exists_eq_succ_of_ne_zero hfuel.ne'
  by_cases hc : c ∈ metaCharacters
  · have halphanum : ∀ c ∈ metaCharacters, c.isAlphanum = false := by
      have hall : (metaCharacters.all fun c => !c.isAlphanum) = true := by decide
      simpa using hall
    have hx : c ≠ 'x' := by rintro rfl; exact absurd hc (by decide)
    rw [escapeChars, List.flatMap_cons, if_pos hc]
    simp [parseAtom, parseEscape, halphanum c hc, hx, escapeChars]
  · rw [escapeChars, List.flatMap_cons, if_neg hc]
    have hopen : c ≠ '(' := by rintro rfl; exact hc (by decide)
    have hclass : c ≠ '[' := by rintro rfl; exact hc (by decide)
    have hescape : c ≠ '\\' := by rintro rfl; exact hc (by decide)
    rw [List.singleton_append, parseAtom]
    · rfl
    · exact hopen
    · rintro s rfl
      exact absurd rfl hclass
    · exact hclass
    · exact hescape

theorem parseConcat_escapeChars (l : List Char) :
    ∀ {fuel : ℕ}, l.length + 2 ≤ fuel →
      parseConcat fuel (escapeChars l) = some (literal l, []) := by
  induction l with
  | nil =>
    intro fuel hfuel
    obtain ⟨fuel, rfl⟩ := Nat.exists_eq_succ_of_ne_zero (show fuel ≠ 0 by omega)
    rfl
  | cons c l ih =>
    intro fuel hfuel
    obtain ⟨fuel, rfl⟩ := Nat.exists_eq_succ_of_ne_zero (show fuel ≠ 0 by omega)
    rw [List.length_cons] at hfuel
    rw [parseConcat, parseAtom_escapeChars (by omega) c l]
    · simp only [Option.bind_eq_bind, Option.bind_some, parsePostfix_escapeChars,
        ih (show l.length + 2 ≤ fuel by omega)]
      cases l with
      | nil => rfl
      | cons d l => rw [if_neg literal_ne_empty]; rfl
    · intro h
      have hlength := length_le_escapeChars (c :: l)
      rw [h] at hlength
      simp at hlength
    · exact escapeChars_ne_cons (by decide) (by decide) _
    · exact escapeChars_ne_cons (by decide) (by decide) _

/-- The text of a literal pattern. -/
def escape (text : String) : String := String.ofList (escapeChars text.toList)

theorem parse_escape (text : String) : parse (escape text) = some (literal text.toList) := by
  have hlength := length_le_escapeChars text.toList
  rw [parse, escape, String.toList_ofList, parseAlternation, parseConcat_escapeChars _ (by omega)]
  rfl

theorem mem_language_literal {l l' : List Char} : l' ∈ (literal l).language ↔ l' = l := by
  induction l generalizing l' with
  | nil => exact Iff.rfl
  | cons c l ih =>
    cases l with
    | nil => exact mem_language_char
    | cons d l =>
      rw [literal, mem_language_char_concat]
      · simp only [ih, exists_eq_left]
      · simp

end Pattern

/-- The byte strings that the pattern described by a text matches. -/
@[irreducible] def patternLanguage (text : String) : Language UInt8 :=
  match Pattern.parse text with
  | some p => p.byteLanguage
  | none => 0

theorem patternLanguage_eq {text : String} {p : Pattern} (h : Pattern.parse text = some p) :
    patternLanguage text = p.byteLanguage := by
  rw [patternLanguage, h]

/-- **An escaped text matches itself alone.** -/
theorem patternLanguage_escape (text : String) :
    patternLanguage (Pattern.escape text) = {Pattern.encode text.toList} := by
  rw [patternLanguage_eq (Pattern.parse_escape text)]
  ext x
  constructor
  · rintro ⟨l, hl, rfl⟩
    exact congrArg Pattern.encode (Pattern.mem_language_literal.1 hl)
  · rintro rfl
    exact Pattern.encode_mem_byteLanguage.2 (Pattern.mem_language_literal.2 rfl)

end OcEarley
