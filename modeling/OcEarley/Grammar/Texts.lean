import OcEarley.Grammar.CollapseExact
import OcEarley.Grammar.ReduceExact
import OcEarley.Schema.Tidy

/-!
# The terminals of a schema

Lowering makes terminals of two sorts only, texts and patterns of the JSON types
(`isJson_of_lower`), and reducing keeps their kinds.  All the library has to know is therefore how
escaped texts and the few patterns are read (`PatternsRead`).
-/

namespace OcEarley

/-- A text that is not empty, or the pattern of a JSON type. -/
def RegularTerminalKind.IsJson : RegularTerminalKind → Prop
  | .literal bytes => GrammarBuilder.IsWord bytes
  | .pattern forward _ => forward ∈ JsonPattern.null :: JsonPattern.scalars

/-- The texts that the library is given are read as what they stand for. -/
structure PatternsRead (S : RegexSyntax UInt8) (escape : String → String)
    (R : String → Language UInt8) : Prop where
  escape_eq : ∀ text, R (escape text) = {utf8Bytes text}
  escape_denotes : ∀ text, RegexDenotes S (escape text).toList (R (escape text))
  denotes : ∀ pattern ∈ JsonPattern.null :: JsonPattern.scalars,
    RegexDenotes S pattern.toList (R pattern)
  nonempty : ∀ pattern ∈ JsonPattern.null :: JsonPattern.scalars, ∃ x, x ∈ R pattern
  nil_notMem : ∀ pattern ∈ JsonPattern.null :: JsonPattern.scalars, [] ∉ R pattern

section Kinds

variable {S : RegexSyntax UInt8} {escape : String → String} {R : String → Language UInt8}
  {kind : RegularTerminalKind} {g : Grammar}

theorem PatternsRead.exists_mem (h : PatternsRead S escape R) (hkind : kind.IsJson) :
    ∃ x, x ∈ kind.language R := by
  cases kind with
  | literal bytes => exact ⟨bytes, rfl⟩
  | pattern forward _ => exact h.nonempty forward hkind

theorem PatternsRead.nil_notMem_language (h : PatternsRead S escape R) (hkind : kind.IsJson) :
    [] ∉ kind.language R := by
  cases kind with
  | literal bytes => exact fun hnil => hkind.1 (Set.mem_singleton_iff.1 hnil).symm
  | pattern forward _ => exact h.nil_notMem forward hkind

theorem PatternsRead.escapes (h : PatternsRead S escape R)
    (hg : ∀ t ∈ g.terminals, t.kind.IsJson) : Escapes escape g R where
  escape := h.escape_eq
  literal t ht bytes hkind := by
    have hjson := hg t ht
    rw [hkind] at hjson
    exact hjson.2

theorem PatternsRead.readable (h : PatternsRead S escape R)
    (hg : ∀ t ∈ g.terminals, t.kind.IsJson) : Readable S escape g R where
  denotes t ht := by
    have hjson := hg t ht
    rw [RegularTerminal.forwardPattern]
    cases hkind : t.kind with
    | literal bytes => exact h.escape_denotes _
    | pattern forward _ =>
      rw [hkind] at hjson
      exact h.denotes forward hjson
  nil_notMem t ht := h.nil_notMem_language (hg t ht)

end Kinds

/-! ### Lowering -/

theorem isWord_canonical {v : JsonValue} {value : CanonicalValue}
    (h : canonicalValue v = .ok value) :
    GrammarBuilder.IsWord (utf8Bytes value.json) := by
  obtain ⟨text, htext, h⟩ := Result.bind_eq_ok.1 h
  obtain rfl := Result.pure_eq_ok.1 h
  obtain ⟨c, rest, rfl, -⟩ := writeCanonical_head htext
  refine ⟨fun hnil => ?_, _, rfl⟩
  simp [utf8Bytes, String.utf8EncodeChar_ne_nil] at hnil

/-- **The terminals of a lowered schema** are texts and patterns of JSON types. -/
theorem isJson_of_lower {arena : SchemaArena} {limits : CompileLimits} {g : Grammar}
    (htidy : ∀ node ∈ arena.nodes, node.kind.Tidy) (h : lower arena limits = .ok g) :
    ∀ t ∈ g.terminals, t.kind.IsJson := by
  intro t ht
  obtain ⟨node, hnode, hkind⟩ := (lower_kinds h).1 t ht
  generalize t.kind = kind at hkind
  generalize hnodeKind : node.kind = nodeKind at hkind
  cases hkind with
  | word _ hword => exact hword
  | value hvalue =>
    obtain ⟨v, hv⟩ := (htidy node hnode).values _ (hnodeKind ▸ hvalue)
    exact isWord_canonical hv
  | null => exact List.mem_cons_self
  | scalar hscalar => exact List.mem_cons_of_mem _ hscalar

theorem Grammar.Image.isJson {g g' : Grammar} {ν τ π : List ℕ} (h : Image g g' ν τ π)
    (hg : ∀ t ∈ g.terminals, t.kind.IsJson) : ∀ t ∈ g'.terminals, t.kind.IsJson := by
  intro t ht
  obtain ⟨i, hi⟩ := List.mem_iff_getElem?.1 ht
  have hlt := h.terminals_length ▸ (List.getElem?_eq_some_iff.1 hi).1
  obtain ⟨found, hfound, hnew⟩ := h.terminals (List.getElem?_eq_getElem hlt)
  obtain rfl := Option.some.inj (hi.symm.trans hnew)
  exact hg found (List.mem_of_getElem? hfound)

end OcEarley
