import OcEarley.Formal.Yield
import OcEarley.Grammar.Grammar
import OcEarley.Grammar.Terminal

/-!
# Residual grammars

The grammar that the structural recognizers work on: its terminals are byte automata.
`ResidualGrammar.language` is the set of its byte strings, the ones that can be split into words
of the terminals of a sentence.  What the preparation of the grammar promises to the recognizers
is stated as separate predicates: `WellFormed` (all ids in range), `IndexExact`, `NullableExact`,
`Productive` and `TerminalsExact`.
-/

namespace OcEarley

/-- A retained nonterminal, and the one it was. -/
structure ResidualNonterminal where
  id : ℕ
  original : ℕ
  name : String
  provenance : Provenance

/-- A production with terminals for what has been collapsed, and the one it was. -/
structure ResidualProduction where
  id : ℕ
  original : ℕ
  lhs : ℕ
  rhs : List GrammarSymbol
  provenance : Provenance

/-- The grammar that the parsers work on, with the tables they need of it. -/
structure ResidualGrammar where
  start : ℕ
  nonterminals : List ResidualNonterminal
  terminals : List CompiledTerminal
  terminalProvenance : List Provenance
  productions : List ResidualProduction
  productionsByLhs : List (List ℕ)
  nullable : List Bool
  productiveSuffixes : List (List Bool)
  collapsedNonterminals : ℕ
  collapsedRegions : ℕ
  terminalDfaStates : ℕ
  terminalDfaBytes : ℕ

namespace ResidualGrammar

variable (g : ResidualGrammar)

/-- The productions as a relation. -/
def Rule (A : ℕ) (γ : List GrammarSymbol) : Prop := ∃ p ∈ g.productions, p.lhs = A ∧ p.rhs = γ

/-- The byte strings of a terminal. -/
def terminalLanguage (t : ℕ) : Language UInt8 :=
  match g.terminals[t]? with
  | some terminal => terminal.language
  | none => 0

/-- The byte strings of a terminal that a scan finds. -/
def scanLanguage (t : ℕ) : Language UInt8 :=
  match g.terminals[t]? with
  | some terminal => terminal.scanned
  | none => 0

/-- The byte strings of the grammar: those that split into words of the
terminals of a sentence. -/
def language : Language UInt8 :=
  {x | ∃ w, Sentence g.Rule [.nonterminal g.start] w ∧ x ∈ (w.map g.terminalLanguage).prod}

/-- The id of a symbol is in range. -/
def SymbolInRange : GrammarSymbol → Prop
  | .nonterminal A => A < g.nonterminals.length
  | .terminal t => t < g.terminals.length

/-- All ids are in range, and the tables have one entry for each nonterminal. -/
structure WellFormed : Prop where
  start_lt : g.start < g.nonterminals.length
  lhs_lt : ∀ p ∈ g.productions, p.lhs < g.nonterminals.length
  rhs_inRange : ∀ p ∈ g.productions, ∀ s ∈ p.rhs, g.SymbolInRange s
  nullable_length : g.nullable.length = g.nonterminals.length

/-- `productions_by_lhs` lists the productions of each nonterminal. -/
structure IndexExact : Prop where
  length_eq : g.productionsByLhs.length = g.nonterminals.length
  mem_iff : ∀ {A : ℕ} {ids : List ℕ}, g.productionsByLhs[A]? = some ids → ∀ p,
    p ∈ ids ↔ ∃ production, g.productions[p]? = some production ∧ production.lhs = A

/-- The nullable flags are exact. -/
def NullableExact : Prop :=
  ∀ A < g.nonterminals.length, g.nullable[A]? = some true ↔ Sentence g.Rule [.nonterminal A] []

/-- Every nonterminal derives some terminal string. -/
def Productive : Prop :=
  ∀ A < g.nonterminals.length, ∃ w, Sentence g.Rule [.nonterminal A] w

/-- Every terminal has a byte string and does not have the empty one, and its
live flags are exact. -/
structure TerminalsExact : Prop where
  nonempty : ∀ t ∈ g.terminals, ∃ w, w ∈ t.language
  nil_notMem : ∀ t ∈ g.terminals, [] ∉ t.language
  live : ∀ t ∈ g.terminals, t.LiveExact

variable {g}

theorem terminalLanguage_eq {t : ℕ} {terminal : CompiledTerminal}
    (h : g.terminals[t]? = some terminal) : g.terminalLanguage t = terminal.language := by
  simp [terminalLanguage, h]

theorem scanLanguage_eq {t : ℕ} {terminal : CompiledTerminal}
    (h : g.terminals[t]? = some terminal) : g.scanLanguage t = terminal.scanned := by
  simp [scanLanguage, h]

theorem nil_notMem_scanLanguage (t : ℕ) : [] ∉ g.scanLanguage t := by
  unfold scanLanguage
  cases ht : g.terminals[t]? with
  | none => exact Set.notMem_empty _
  | some terminal => exact CompiledTerminal.nil_notMem_scanned

theorem mem_language_iff {x : List UInt8} :
    x ∈ g.language ↔ Yields g.Rule g.terminalLanguage [.nonterminal g.start] x :=
  yields_iff_sentence.symm

theorem TerminalsExact.nil_notMem_terminalLanguage (h : g.TerminalsExact) (t : ℕ) :
    [] ∉ g.terminalLanguage t := by
  unfold terminalLanguage
  cases ht : g.terminals[t]? with
  | none => exact Set.notMem_empty _
  | some terminal => exact h.nil_notMem terminal (List.mem_of_getElem? ht)

theorem WellFormed.rule_inRange (hg : g.WellFormed) {A : ℕ} {γ : List GrammarSymbol}
    (h : g.Rule A γ) : ∀ s ∈ γ, g.SymbolInRange s := by
  obtain ⟨p, hp, -, rfl⟩ := h
  exact hg.rhs_inRange p hp

/-- The terminals of a sentence are in range. -/
theorem WellFormed.terminal_lt (hg : g.WellFormed) {β : List GrammarSymbol} {w : List ℕ}
    (hβ : ∀ s ∈ β, g.SymbolInRange s) (h : Sentence g.Rule β w) :
    ∀ t ∈ w, t < g.terminals.length := by
  unfold Sentence at h
  induction h with
  | nil => exact fun t ht => absurd ht List.not_mem_nil
  | @terminal t u v β hu _ ih =>
    obtain rfl := mem_selfLanguage.1 hu
    intro t' ht'
    rcases List.mem_append.1 ht' with ht' | ht'
    · obtain rfl := List.mem_singleton.1 ht'
      exact hβ _ List.mem_cons_self
    · exact ih (fun s hs => hβ s (List.mem_cons_of_mem _ hs)) t' ht'
  | nonterminal hA _ _ ih₁ ih₂ =>
    intro t ht
    rcases List.mem_append.1 ht with ht | ht
    · exact ih₁ (hg.rule_inRange hA) t ht
    · exact ih₂ (fun s hs => hβ s (List.mem_cons_of_mem _ hs)) t ht

/-- A symbol string with a sentence derives a byte string. -/
theorem exists_yields_of_sentence (hg : g.WellFormed) (ht : g.TerminalsExact)
    {β : List GrammarSymbol} {w : List ℕ} (hβ : ∀ s ∈ β, g.SymbolInRange s)
    (h : Sentence g.Rule β w) : ∃ v, Yields g.Rule g.terminalLanguage β v := by
  unfold Sentence at h
  induction h with
  | nil => exact ⟨[], .nil⟩
  | @terminal t u v β _ _ ih =>
    obtain ⟨v, hv⟩ := ih fun s hs => hβ s (List.mem_cons_of_mem _ hs)
    have hlt : t < g.terminals.length := hβ _ List.mem_cons_self
    obtain ⟨w, hw⟩ := ht.nonempty _ (List.getElem_mem hlt)
    rw [← terminalLanguage_eq (List.getElem?_eq_getElem hlt)] at hw
    exact ⟨w ++ v, .terminal hw hv⟩
  | nonterminal hA _ _ ih₁ ih₂ =>
    obtain ⟨v, hv⟩ := ih₂ fun s hs => hβ s (List.mem_cons_of_mem _ hs)
    obtain ⟨u, hu⟩ := ih₁ (hg.rule_inRange hA)
    exact ⟨u ++ v, .nonterminal hA hu hv⟩

/-- Terminals in range have words. -/
theorem TerminalsExact.exists_mem_prod (h : g.TerminalsExact) {w : List ℕ}
    (hw : ∀ t ∈ w, t < g.terminals.length) : ∃ y, y ∈ (w.map g.terminalLanguage).prod := by
  induction w with
  | nil => exact ⟨[], by simp⟩
  | cons t w ih =>
    obtain ⟨v, hv⟩ := ih fun t ht => hw t (List.mem_cons_of_mem _ ht)
    have hlt := hw t List.mem_cons_self
    obtain ⟨u, hu⟩ := h.nonempty _ (List.getElem_mem hlt)
    rw [← terminalLanguage_eq (List.getElem?_eq_getElem hlt)] at hu
    exact ⟨u ++ v, by simpa using Language.append_mem_mul hu hv⟩

/-- Symbol strings in range have a sentence when the grammar is productive. -/
theorem exists_sentence (hp : g.Productive) {β : List GrammarSymbol}
    (hβ : ∀ s ∈ β, g.SymbolInRange s) : ∃ w, Sentence g.Rule β w := by
  induction β with
  | nil => exact ⟨[], .nil⟩
  | cons s β ih =>
    obtain ⟨v, hv⟩ := ih fun s hs => hβ s (List.mem_cons_of_mem _ hs)
    have hs := hβ s List.mem_cons_self
    obtain ⟨w, hw⟩ : ∃ w, Sentence g.Rule [s] w := by
      cases s with
      | terminal t => exact ⟨[t], .of_terminal (mem_selfLanguage.2 rfl)⟩
      | nonterminal A => exact hp A hs
    exact ⟨w ++ v, yields_cons_iff.2 ⟨w, v, rfl, hw, hv⟩⟩

/-- Symbol strings in range derive a byte string when the grammar is productive. -/
theorem exists_yields (hg : g.WellFormed) (hp : g.Productive) (ht : g.TerminalsExact)
    {β : List GrammarSymbol} (hβ : ∀ s ∈ β, g.SymbolInRange s) :
    ∃ v, Yields g.Rule g.terminalLanguage β v := by
  obtain ⟨w, hw⟩ := exists_sentence hp hβ
  exact exists_yields_of_sentence hg ht hβ hw

end ResidualGrammar

/-- When no terminal has the empty word, the empty word is derived iff the empty sentence is. -/
theorem yields_nil_iff_sentence {N T α : Type*} {R : N → List (Symbol T N) → Prop}
    {L : T → Language α} (hL : ∀ t, [] ∉ L t) {β : List (Symbol T N)} :
    Yields R L β [] ↔ Sentence R β [] := by
  rw [yields_iff_sentence]
  constructor
  · rintro ⟨w, hw, hnil⟩
    cases w with
    | nil => exact hw
    | cons t w =>
      rw [List.map_cons, List.prod_cons, Language.mem_mul] at hnil
      obtain ⟨u, hu, v, -, huv⟩ := hnil
      exact absurd ((List.append_eq_nil_iff.1 huv).1 ▸ hu) (hL t)
  · exact fun h => ⟨[], h, by simp⟩

end OcEarley
