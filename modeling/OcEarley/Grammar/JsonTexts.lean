import OcEarley.Formal.PatternSyntax
import OcEarley.Grammar.Texts
import OcEarley.Schema.TypeLanguage

/-!
# The patterns of the JSON types

Read in the syntax of the patterns, escaped texts and the patterns of the JSON types denote what
they match, and each of them matches something other than the empty text (`patternsRead`).
-/

namespace OcEarley

namespace JsonPattern

open Pattern

/-- The syntax of the pattern of booleans. -/
def booleanPattern : Pattern :=
  .alternate (literal ['t', 'r', 'u', 'e']) (literal ['f', 'a', 'l', 's', 'e'])

theorem parse_boolean : Pattern.parse boolean = some booleanPattern := by decide +kernel

theorem patternLanguage_null : patternLanguage null = {utf8Bytes "null"} :=
  patternLanguage_escape "null"

/-! ### Reading -/

theorem denotes_null : RegexDenotes patternSyntax null.toList (patternLanguage null) :=
  regexDenotes_escape "null"

theorem denotes_boolean : RegexDenotes patternSyntax boolean.toList (patternLanguage boolean) :=
  regexDenotes_of_parseConcat 40 2 (by decide +kernel) (by decide +kernel)
    (patternLanguage_eq parse_boolean)

theorem denotes_string : RegexDenotes patternSyntax string.toList (patternLanguage string) :=
  regexDenotes_of_parseConcat 80 4 (by decide +kernel) (by decide +kernel)
    (patternLanguage_eq parse_string)

theorem denotes_number : RegexDenotes patternSyntax number.toList (patternLanguage number) :=
  regexDenotes_of_parseConcat 80 4 (by decide +kernel) (by decide +kernel)
    (patternLanguage_eq parse_number)

theorem denotes_integer : RegexDenotes patternSyntax integer.toList (patternLanguage integer) :=
  regexDenotes_of_parseConcat 80 4 (by decide +kernel) (by decide +kernel)
    (patternLanguage_eq parse_integer)

/-! ### Words -/

/-- The pattern matches something, and not the empty text. -/
structure HasWords (text : String) : Prop where
  nonempty : ∃ x, x ∈ patternLanguage text
  nil_notMem : [] ∉ patternLanguage text

theorem hasWords_of_parse {text : String} {p : Pattern} {l : List Char}
    (h : Pattern.parse text = some p)
    (hmem : l ∈ p.language) (hnil : [] ∉ p.language) : HasWords text where
  nonempty := ⟨encode l, (patternLanguage_eq h).ge (encode_mem_byteLanguage.2 hmem)⟩
  nil_notMem hmem := by
    rw [patternLanguage_eq h, ← encode_nil, encode_mem_byteLanguage] at hmem
    exact hnil hmem

theorem hasWords_null : HasWords null where
  nonempty := ⟨_, patternLanguage_null.ge rfl⟩
  nil_notMem h := by
    rw [patternLanguage_null] at h
    exact absurd (Set.mem_singleton_iff.1 h) (by decide)

theorem hasWords_boolean : HasWords boolean := by
  refine hasWords_of_parse (l := ['t', 'r', 'u', 'e']) parse_boolean
    (mem_language_alternate.2 (.inl (mem_language_literal.2 rfl))) fun h => ?_
  rcases mem_language_alternate.1 h with h | h
  · exact absurd (mem_language_literal.1 h) (by simp)
  · exact absurd (mem_language_literal.1 h) (by simp)

theorem nil_notMem_integerPattern : [] ∉ integerPattern.language := by
  intro h
  obtain ⟨sign, ds, -, hds, heq⟩ := mem_integerPattern.1 h
  obtain ⟨-, rfl⟩ := List.append_eq_nil_iff.1 heq
  rcases hds with hzero | ⟨hne, -⟩
  · cases hzero
  · exact hne rfl

theorem hasWords_integer : HasWords integer :=
  hasWords_of_parse parse_integer zero_mem_integer nil_notMem_integerPattern

theorem hasWords_number : HasWords number := by
  refine hasWords_of_parse (l := ['0']) parse_number
    (mem_numberPattern.2 ⟨['0'], zero_mem_integer, [], [], .inl rfl, .inl rfl, rfl⟩) fun h => ?_
  obtain ⟨whole, hwhole, fraction, exponent, -, -, heq⟩ := mem_numberPattern.1 h
  obtain ⟨rfl, -⟩ := List.append_eq_nil_iff.1 heq
  exact nil_notMem_integerPattern hwhole

theorem hasWords_string : HasWords string := by
  refine hasWords_of_parse (l := ['"', '"']) parse_string
    (mem_stringPattern.2 ⟨[], by simp, rfl⟩) fun h => ?_
  obtain ⟨L, -, heq⟩ := mem_stringPattern.1 h
  cases heq

theorem hasWords : ∀ text ∈ JsonPattern.null :: JsonPattern.scalars, HasWords text := by
  simp only [scalars, List.forall_mem_cons]
  exact ⟨hasWords_null, hasWords_boolean, hasWords_string, hasWords_number,
    hasWords_integer, by simp⟩

end JsonPattern

open JsonPattern in
/-- **The patterns are read as what they match.** -/
theorem patternsRead : PatternsRead patternSyntax Pattern.escape patternLanguage where
  escape_eq := patternLanguage_escape
  escape_denotes := Pattern.regexDenotes_escape
  denotes := by
    simp only [scalars, List.forall_mem_cons]
    exact ⟨denotes_null, denotes_boolean, denotes_string, denotes_number, denotes_integer, by simp⟩
  nonempty text htext := (hasWords text htext).nonempty
  nil_notMem text htext := (hasWords text htext).nil_notMem

end OcEarley
