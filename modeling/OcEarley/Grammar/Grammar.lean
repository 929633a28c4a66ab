import OcEarley.Base.Error
import OcEarley.Formal.Yield
import OcEarley.Formal.Useful

/-!
# Grammars

The grammar that a schema is lowered to.  Its terminals are literals and patterns; every id is
the position of its entry, which `Grammar.WellFormed` states together with the ranges of the ids
in productions.
-/

namespace OcEarley

/-- The symbols of a right-hand side, by terminal and nonterminal ids. -/
abbrev GrammarSymbol := Symbol ℕ ℕ

/-- A nonterminal; its id is its position. -/
structure Nonterminal where
  id : ℕ
  name : String
  provenance : Provenance
  deriving DecidableEq, Repr

/-- What a terminal matches: given bytes, or a pattern and perhaps its reverse. -/
inductive RegularTerminalKind
  | literal (bytes : List UInt8)
  | pattern (forward : String) (reverse : Option String)
  deriving DecidableEq, Repr

/-- A terminal; its id is its position. -/
structure RegularTerminal where
  id : ℕ
  kind : RegularTerminalKind
  provenance : Provenance
  deriving DecidableEq, Repr

/-- A production; its id is its position. -/
structure Production where
  id : ℕ
  lhs : ℕ
  rhs : List GrammarSymbol
  provenance : Provenance
  deriving DecidableEq

/-- A grammar over the terminals of a schema. -/
structure Grammar where
  start : ℕ
  nonterminals : List Nonterminal
  terminals : List RegularTerminal
  productions : List Production
  deriving DecidableEq

namespace Grammar

variable (g : Grammar)

/-- The productions of a nonterminal, in their order. -/
def productionsFor (nonterminal : ℕ) : List Production :=
  g.productions.filter fun production => production.lhs = nonterminal

/-- The productions as a relation. -/
def Rule (A : ℕ) (γ : List GrammarSymbol) : Prop := ∃ p ∈ g.productions, p.lhs = A ∧ p.rhs = γ

/-- The id of a symbol is in range. -/
def SymbolInRange : GrammarSymbol → Prop
  | .nonterminal A => A < g.nonterminals.length
  | .terminal t => t < g.terminals.length

/-- All ids are in range, and every entry stands at the position that its id names.  Ids are of
32 bits, and a right-hand side is a vector. -/
structure WellFormed : Prop where
  start_lt : g.start < g.nonterminals.length
  nonterminal_id : ∀ {i : ℕ} {n : Nonterminal}, g.nonterminals[i]? = some n → n.id = i
  terminal_id : ∀ {i : ℕ} {t : RegularTerminal}, g.terminals[i]? = some t → t.id = i
  production_id : ∀ {i : ℕ} {p : Production}, g.productions[i]? = some p → p.id = i
  lhs_lt : ∀ p ∈ g.productions, p.lhs < g.nonterminals.length
  rhs_inRange : ∀ p ∈ g.productions, ∀ s ∈ p.rhs, g.SymbolInRange s
  nonterminals_length : g.nonterminals.length ≤ u32Max + 1
  terminals_length : g.terminals.length ≤ u32Max + 1
  productions_length : g.productions.length ≤ u32Max + 1
  rhs_length : ∀ p ∈ g.productions, p.rhs.length ≤ usizeMax

instance : DecidablePred g.SymbolInRange := fun s => by
  cases s <;> unfold SymbolInRange <;> infer_instance

variable {g}

/-- `WellFormed` by checks that can be evaluated. -/
theorem WellFormed.of_ids (start_lt : g.start < g.nonterminals.length)
    (nonterminals : g.nonterminals.map Nonterminal.id = List.range g.nonterminals.length)
    (terminals : g.terminals.map RegularTerminal.id = List.range g.terminals.length)
    (productions : g.productions.map Production.id = List.range g.productions.length)
    (lhs_lt : ∀ p ∈ g.productions, p.lhs < g.nonterminals.length)
    (rhs_inRange : ∀ p ∈ g.productions, ∀ s ∈ p.rhs, g.SymbolInRange s)
    (nonterminals_length : g.nonterminals.length ≤ u32Max + 1)
    (terminals_length : g.terminals.length ≤ u32Max + 1)
    (productions_length : g.productions.length ≤ u32Max + 1)
    (rhs_length : ∀ p ∈ g.productions, p.rhs.length ≤ usizeMax) : g.WellFormed := by
  have key : ∀ {α : Type} {l : List α} {id : α → ℕ}, l.map id = List.range l.length →
      ∀ {i : ℕ} {a : α}, l[i]? = some a → id a = i := by
    intro α l id h i a hi
    have hmap : (l.map id)[i]? = some (id a) := by rw [List.getElem?_map, hi]; rfl
    have hlt := (List.getElem?_eq_some_iff.1 hi).1
    rw [h, List.getElem?_eq_getElem (by simpa using hlt), List.getElem_range] at hmap
    exact (Option.some.inj hmap).symm
  exact ⟨start_lt, key nonterminals, key terminals, key productions, lhs_lt, rhs_inRange,
    nonterminals_length, terminals_length, productions_length, rhs_length⟩

theorem rule_iff {A : ℕ} {γ : List GrammarSymbol} :
    g.Rule A γ ↔ ∃ (i : ℕ) (p : Production), g.productions[i]? = some p ∧ p.lhs = A ∧
      p.rhs = γ := by
  unfold Rule
  simp only [List.mem_iff_getElem?]
  constructor
  · rintro ⟨p, ⟨i, hi⟩, h⟩
    exact ⟨i, p, hi, h⟩
  · rintro ⟨i, p, hi, h⟩
    exact ⟨p, ⟨i, hi⟩, h⟩

theorem WellFormed.lhs_lt_of_getElem? (hg : g.WellFormed) {i : ℕ} {p : Production}
    (h : g.productions[i]? = some p) : p.lhs < g.nonterminals.length :=
  hg.lhs_lt p (List.mem_of_getElem? h)

theorem WellFormed.terminal_lt (hg : g.WellFormed) {i t : ℕ} {p : Production}
    (h : g.productions[i]? = some p) (ht : .terminal t ∈ p.rhs) : t < g.terminals.length :=
  hg.rhs_inRange p (List.mem_of_getElem? h) _ ht

/-- What the start symbol reaches is in range. -/
theorem WellFormed.lt_of_reaches (hg : g.WellFormed) {A : ℕ} (h : Reaches g.Rule g.start A) :
    A < g.nonterminals.length := by
  cases h with
  | refl => exact hg.start_lt
  | tail _ hstep =>
    obtain ⟨_, ⟨p, hp, -, rfl⟩, hA⟩ := hstep
    exact hg.rhs_inRange p hp _ hA

end Grammar

end OcEarley
