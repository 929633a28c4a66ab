import Mathlib.Algebra.Order.BigOperators.Group.List
import OcEarley.Grammar.Retained

/-!
# Collapsing preserves the language

Every symbol of a translated right-hand side stands for what it comes from (`Stands`): a retained
nonterminal has its new id, and all else has become a terminal with the same words.  The two
grammars then have each other's languages for solutions, so that a retained nonterminal generates
the same strings in both.
-/

namespace OcEarley

open OcEarley.RegularExpression

/-! ### Terminals -/

/-- The terminal has the words of the language, none of them empty. -/
structure CompiledTerminal.Realizes (terminal : CompiledTerminal) (L : Language UInt8) : Prop where
  language : terminal.language = L
  nil_notMem : [] ∉ L
  live : terminal.LiveExact

/-- What the terminals of a grammar are read as. -/
structure Readable (S : RegexSyntax UInt8) (escape : String → String) (g : Grammar)
    (R : String → Language UInt8) : Prop where
  denotes : ∀ t ∈ g.terminals, RegexDenotes S (t.forwardPattern escape).toList
    (R (t.forwardPattern escape))
  nil_notMem : ∀ t ∈ g.terminals, [] ∉ t.kind.language R

/-- A limit is exceeded, or the library refuses a text. -/
def CompileError.IsRefused (e : CompileError) : Prop := ∃ pointer, e.IsRefusal pointer

theorem CompileError.IsRefused.limit {e : CompileError} (h : e.IsLimit) : e.IsRefused :=
  ⟨⟨""⟩, .inl h⟩

theorem terminalFailure_isRefused {e : CompileError} {pointer : SchemaPointer}
    (h : e.IsRefusal pointer) : (terminalFailure e).IsRefused := by
  refine ⟨pointer, ?_⟩
  obtain hlimit | ⟨message, rfl⟩ := h
  · cases e with
    | resourceLimitExceeded stage observed limit => exact .inl trivial
    | _ => exact hlimit.elim
  · exact .inr ⟨message, rfl⟩

/-- What the new terminal stands for. -/
def TerminalLanguage.language (R : String → Language UInt8) : TerminalLanguage → Language UInt8
  | .literal bytes => {bytes}
  | .expression e => e.language fun forward _ => R forward

/-- The expressions are built from the terminals' patterns. -/
def TerminalLanguage.Known (escape : String → String) (g : Grammar) : TerminalLanguage → Prop
  | .literal _ => True
  | .expression e => Built (g.Atoms escape) e

section Terminals

variable {ν σ : Type} [DecidableEq σ] {library : RegexLibrary ν σ} {limits : CompileLimits}
  {S : RegexSyntax UInt8} {escape : String → String} {g : Grammar} {R : String → Language UInt8}
  {provenance : Provenance} {table : TerminalTable} {language : TerminalLanguage}

/-- What the cache says is there, every terminal stands for a symbol of the grammar, and there are
ids for all of them. -/
structure TerminalTable.Exact (g : Grammar) (R : String → Language UInt8) (table : TerminalTable) :
    Prop where
  length : table.terminals.length ≤ u32Max + 1
  cached : ∀ {language : TerminalLanguage} {id : ℕ}, table.cache.lookup language = some id →
    ∃ terminal, table.terminals[id]? = some terminal ∧ terminal.Realizes (language.language R)
  sound : ∀ terminal ∈ table.terminals,
    ∃ s, g.SymbolInRange s ∧ terminal.Realizes (g.symbol R s)

/-- The terminal with the id has the words of the language. -/
def HasTerminal (terminals : List CompiledTerminal) (L : Language UInt8) (id : ℕ) : Prop :=
  ∃ terminal, terminals[id]? = some terminal ∧ terminal.Realizes L

theorem HasTerminal.mono {terminals terminals' : List CompiledTerminal}
    {L : Language UInt8} {id : ℕ}
    (h : HasTerminal terminals L id) (hle : terminals <+: terminals') :
    HasTerminal terminals' L id := by
  obtain ⟨terminal, hget, hrealizes⟩ := h
  obtain ⟨more, rfl⟩ := hle
  exact ⟨terminal, by rw [List.getElem?_append_left (List.getElem?_eq_some_iff.1 hget).1, hget],
    hrealizes⟩

theorem wp_terminalFailure {α : Type} {m : Except CompileError α} {pointer : SchemaPointer}
    {Q : α → Prop} (h : Result.wp (CompileError.IsRefusal pointer) m Q) :
    Result.wp CompileError.IsRefused (m.mapError terminalFailure) Q := by
  cases m with
  | ok a => exact h
  | error e => exact terminalFailure_isRefused h

/-- **A new terminal.** -/
theorem compileLanguage_wp (hlibrary : library.Exact S) (hread : Readable S escape g R)
    (hknown : language.Known escape g) (hnil : [] ∉ language.language R) :
    Result.wp CompileError.IsRefused (compileLanguage library limits provenance table language)
      fun result => result.1.Realizes (language.language R) ∧ result.2.cache = table.cache ∧
        result.2.terminals = table.terminals := by
  cases language with
  | literal bytes =>
    refine Result.wp_bind.2 (Result.wp_require.2 ⟨fun _ => ?_, fun hempty => ?_⟩)
    · exact ⟨⟨rfl, hnil, trivial⟩, rfl, rfl⟩
    · exact absurd (Set.mem_singleton_iff.2 (not_not.1 hempty).symm) hnil
  | expression e =>
    have hbuilt : Built (fun forward _ => RegexDenotes S forward.toList (R forward)) e := by
      refine Built.mono hknown ?_
      rintro forward reverse ⟨t, ht, rfl, -⟩
      exact hread.denotes t ht
    refine Result.wp_bind.2 (Result.wp_mono (wp_terminalFailure
      (CompiledByteDfa.compileMeasured_wp hlibrary hbuilt)) fun dfa hdfa => ?_)
    refine Result.wp_bind.2 (Result.wp_require.2 ⟨fun _ => ?_, fun haccepting => ?_⟩)
    · refine Result.wp_bind.2 (Result.wp_require.2 ⟨fun _ => ?_, fun _ => .limit trivial⟩)
      refine Result.wp_bind.2 (Result.wp_require.2 ⟨fun _ => ?_, fun _ => .limit trivial⟩)
      refine Result.wp_bind.2 (Result.wp_require.2 ⟨fun _ => ?_, fun _ => .limit trivial⟩)
      refine Result.wp_bind.2 (Result.wp_require.2 ⟨fun _ => ?_, fun _ => .limit trivial⟩)
      exact ⟨⟨Set.ext hdfa.accepts_iff, hnil, hdfa.live⟩, rfl, rfl⟩
    · exact absurd ((hdfa.accepts_iff []).1 ((Bool.not_eq_false _).mp haccepting)) hnil

/-- **A terminal, new or shared.** -/
theorem compileTerminal_wp (hlibrary : library.Exact S) (hread : Readable S escape g R)
    (htable : table.Exact g R) (hknown : language.Known escape g) {s : GrammarSymbol}
    (hs : g.SymbolInRange s) (hlanguage : language.language R = g.symbol R s)
    (hnil : [] ∉ g.symbol R s) :
    Result.wp CompileError.IsRefused (compileTerminal library limits language provenance table)
      fun result => result.2.Exact g R ∧ table.terminals <+: result.2.terminals ∧
        HasTerminal result.2.terminals (g.symbol R s) result.1 := by
  unfold compileTerminal
  split
  · next id hcached =>
    exact Result.wp_pure.2 ⟨htable, List.prefix_refl _, hlanguage ▸ htable.cached hcached⟩
  · refine Result.wp_bind.2 (Result.wp_mono
      (compileLanguage_wp hlibrary hread hknown (hlanguage ▸ hnil)) ?_)
    rintro ⟨compiled, table'⟩ ⟨hrealizes, hcache, hterminals⟩
    refine Result.wp_bind.2
      (Result.wp_bind.2 (Result.wp_require.2 ⟨fun hlen => ?_, fun _ => .limit trivial⟩))
    dsimp only at hcache hterminals hrealizes hlen
    have hnew : HasTerminal (table.terminals ++ [compiled]) (language.language R)
        table.terminals.length := ⟨compiled, List.getElem?_concat_length, hrealizes⟩
    refine Result.wp_pure.2 (Result.wp_pure.2
      ⟨⟨?_, fun {language' id} hlookup => ?_, ?_⟩, ?_, ?_⟩)
    · rw [hterminals] at hlen
      simpa [hterminals] using hlen
    · dsimp only at hlookup ⊢
      rw [hterminals, hcache] at *
      by_cases hsame : language' = language
      · subst hsame
        rw [AList.lookup_insert] at hlookup
        obtain rfl := Option.some.inj hlookup
        exact hnew
      · rw [AList.lookup_insert_ne hsame] at hlookup
        exact HasTerminal.mono (htable.cached hlookup) (List.prefix_append _ _)
    · dsimp only
      rw [hterminals]
      intro terminal hterminal
      rcases List.mem_append.1 hterminal with hterminal | hterminal
      · exact htable.sound terminal hterminal
      · obtain rfl := List.mem_singleton.1 hterminal
        exact ⟨s, hs, hlanguage ▸ hrealizes⟩
    · exact hterminals ▸ List.prefix_append _ _
    · exact hterminals ▸ hlanguage ▸ hnew

/-! ### Productions -/

/-- What a symbol has become. -/
inductive Stands (g : Grammar) (R : String → Language UInt8) (remap : List (Option ℕ))
    (terminals : List CompiledTerminal) : GrammarSymbol → GrammarSymbol → Prop
  | kept {A id : ℕ} : remap[A]? = some (some id) →
      Stands g R remap terminals (.nonterminal A) (.nonterminal id)
  | terminal {s : GrammarSymbol} {id : ℕ} : HasTerminal terminals (g.symbol R s) id →
      Stands g R remap terminals s (.terminal id)

/-- What a production has become. -/
structure Collapsed (g : Grammar) (R : String → Language UInt8) (remap : List (Option ℕ))
    (terminals : List CompiledTerminal) (p : Production) (p' : ResidualProduction) : Prop where
  lhs : remap[p.lhs]? = some (some p'.lhs)
  rhs : List.Forall₂ (Stands g R remap terminals) p.rhs p'.rhs

variable {remap : List (Option ℕ)} {terminals terminals' : List CompiledTerminal}
  {analysis : RegularAnalysis}

theorem Stands.mono {s s' : GrammarSymbol} (h : Stands g R remap terminals s s')
    (hle : terminals <+: terminals') : Stands g R remap terminals' s s' := by
  cases h with
  | kept hid => exact .kept hid
  | terminal hid => exact .terminal (hid.mono hle)

theorem forall₂_stands_mono {rhs rhs' : List GrammarSymbol}
    (h : List.Forall₂ (Stands g R remap terminals) rhs rhs') (hle : terminals <+: terminals') :
    List.Forall₂ (Stands g R remap terminals') rhs rhs' :=
  h.imp fun _ _ hs => hs.mono hle

theorem Collapsed.mono {p : Production} {p' : ResidualProduction}
    (h : Collapsed g R remap terminals p p') (hle : terminals <+: terminals') :
    Collapsed g R remap terminals' p p' :=
  ⟨h.lhs, forall₂_stands_mono h.rhs hle⟩

/-- A symbol that is not retained has an expression without the empty word. -/
def Collapsible (g : Grammar) (R : String → Language UInt8) (analysis : RegularAnalysis)
    (remap : List (Option ℕ)) (s : GrammarSymbol) : Prop :=
  g.SymbolInRange s ∧ ∀ B, s = .nonterminal B → remap[B]? = some none →
    (∃ e, analysis.expressions[B]? = some (some e)) ∧ [] ∉ g.language R B

theorem Readable.nil_notMem_terminalLanguage (hread : Readable S escape g R) (t : ℕ) :
    [] ∉ g.terminalLanguage R t := by
  unfold Grammar.terminalLanguage
  cases ht : g.terminals[t]? with
  | none => exact Set.notMem_empty _
  | some terminal => exact hread.nil_notMem terminal (List.mem_of_getElem? ht)

theorem RegularTerminalKind.language_terminalLanguage (kind : RegularTerminalKind) :
    kind.terminalLanguage.language R = kind.language R := by
  cases kind <;> rfl

theorem known_terminalLanguage {t : RegularTerminal} (ht : t ∈ g.terminals) :
    t.kind.terminalLanguage.Known escape g := by
  cases hkind : t.kind with
  | literal bytes => exact trivial
  | pattern forward reverse =>
    refine .atom ⟨t, ht, ?_, ?_⟩
    · simp [RegularTerminal.forwardPattern, hkind]
    · simp [RegularTerminal.reversePattern, hkind]

/-- **A symbol of a right-hand side.** -/
theorem collapseSymbol_wp (hlibrary : library.Exact S) (hread : Readable S escape g R)
    (hsolved : Solved escape g R analysis.expressions)
    (hremap : remap.length = g.nonterminals.length)
    {s : GrammarSymbol} (hs : Collapsible g R analysis remap s)
    {state : List GrammarSymbol × TerminalTable} (hstate : state.2.Exact g R) :
    Result.wp CompileError.IsRefused (collapseSymbol library limits g analysis remap state s)
      fun state' => state'.2.Exact g R ∧ state.2.terminals <+: state'.2.terminals ∧
        ∃ s', state'.1 = state.1 ++ [s'] ∧ Stands g R remap state'.2.terminals s s' := by
  obtain ⟨hrange, hdropped⟩ := hs
  cases s with
  | terminal t =>
    have ht := List.getElem?_eq_getElem hrange
    have hsymbol : g.symbol R (.terminal t) = (g.terminals[t]).kind.language R := by
      simp [Grammar.symbol, symbolLanguage, Grammar.terminalLanguage, ht]
    rw [collapseSymbol, ht]
    refine Result.wp_bind.2 (Result.wp_unwrap_some.2 (Result.wp_bind.2 (Result.wp_mono
      (compileTerminal_wp hlibrary hread hstate (known_terminalLanguage (List.getElem_mem hrange))
        hrange ?_ (hread.nil_notMem_terminalLanguage t)) ?_)))
    · rw [RegularTerminalKind.language_terminalLanguage, hsymbol]
    · rintro ⟨id, table⟩ ⟨htable, hle, hid⟩
      exact Result.wp_pure.2 ⟨htable, hle, _, rfl, .terminal hid⟩
  | nonterminal A =>
    obtain ⟨mapped, hget⟩ : ∃ mapped, remap[A]? = some mapped :=
      ⟨_, List.getElem?_eq_getElem (show A < remap.length from hremap ▸ hrange)⟩
    refine Result.wp_bind.2 ((wp_vecGet hget).2 ?_)
    cases mapped with
    | some id => exact Result.wp_pure.2 ⟨hstate, List.prefix_refl _, _, rfl, .kept hget⟩
    | none =>
      obtain ⟨⟨e, he⟩, hnil⟩ := hdropped A rfl hget
      have hexpresses := hsolved.sound he
      refine Result.wp_bind.2 ((wp_vecGet he).2 (Result.wp_bind.2 (Result.wp_unwrap_some.2 ?_)))
      have hknown : TerminalLanguage.Known escape g (.expression e) := hexpresses.1
      refine Result.wp_bind.2 ((wp_vecGet (List.getElem?_eq_getElem hrange)).2 (Result.wp_bind.2
        (Result.wp_mono (compileTerminal_wp hlibrary hread hstate hknown hrange hexpresses.2 hnil)
          ?_)))
      rintro ⟨id, table⟩ ⟨htable, hle, hid⟩
      exact Result.wp_pure.2 ⟨htable, hle, _, rfl, .terminal hid⟩

/-- **A right-hand side.** -/
theorem collapseRhs_wp (hlibrary : library.Exact S) (hread : Readable S escape g R)
    (hsolved : Solved escape g R analysis.expressions)
    (hremap : remap.length = g.nonterminals.length)
    {rhs : List GrammarSymbol} (hrhs : ∀ s ∈ rhs, Collapsible g R analysis remap s)
    (htable : table.Exact g R) :
    Result.wp CompileError.IsRefused
      (rhs.foldlM (collapseSymbol library limits g analysis remap) ([], table)) fun result =>
        result.2.Exact g R ∧ table.terminals <+: result.2.terminals ∧
          List.Forall₂ (Stands g R remap result.2.terminals) rhs result.1 := by
  refine Result.wp_mono (Result.wp_foldlM
    (I := fun p l (result : List GrammarSymbol × TerminalTable) => p ++ l = rhs ∧
      result.2.Exact g R ∧ table.terminals <+: result.2.terminals ∧
        List.Forall₂ (Stands g R remap result.2.terminals) p result.1)
    ?_ [] rhs ([], table) ⟨rfl, htable, List.prefix_refl _, .nil⟩) fun result h => h.2
  rintro p s l state ⟨hl, hstate, hle, hp⟩
  refine Result.wp_mono (collapseSymbol_wp hlibrary hread hsolved hremap
    (hrhs s (hl ▸ by simp)) hstate) ?_
  rintro state' ⟨hstate', hle', s', hs', hstands⟩
  refine ⟨by simpa using hl, hstate', hle.trans hle', ?_⟩
  rw [hs']
  exact List.rel_append (forall₂_stands_mono hp hle') (.cons hstands .nil)

/-- The productions so far are what those that have been read have become. -/
structure Collapsing.Exact (g : Grammar) (R : String → Language UInt8) (remap : List (Option ℕ))
    (done : List Production) (state : Collapsing) : Prop where
  table : state.table.Exact g R
  id : ∀ {i : ℕ} {p' : ResidualProduction}, state.productions[i]? = some p' → p'.id = i
  sound : ∀ p' ∈ state.productions, ∃ p ∈ g.productions,
    Collapsed g R remap state.table.terminals p p'
  complete : ∀ p ∈ done, ∀ id, remap[p.lhs]? = some (some id) →
    ∃ p' ∈ state.productions, Collapsed g R remap state.table.terminals p p'

/-- **The productions.** -/
theorem collapseProductions_wp (hlibrary : library.Exact S) (hread : Readable S escape g R)
    (hg : g.WellFormed) (hsolved : Solved escape g R analysis.expressions)
    (hremap : remap.length = g.nonterminals.length)
    (hrhs : ∀ p ∈ g.productions, ∀ id, remap[p.lhs]? = some (some id) →
      ∀ s ∈ p.rhs, Collapsible g R analysis remap s)
    {init : Collapsing} (hinit : init.Exact g R remap []) :
    Result.wp CompileError.IsRefused
      (g.productions.foldlM (collapseProduction library limits g analysis remap) init)
      (Collapsing.Exact g R remap g.productions) := by
  refine Result.wp_mono (Result.wp_foldlM
    (I := fun done l state => done ++ l = g.productions ∧ Collapsing.Exact g R remap done state)
    ?_ [] g.productions init ⟨rfl, hinit⟩) fun state h => h.2
  rintro done p l state ⟨hl, hstate⟩
  have hp : p ∈ g.productions := hl ▸ by simp
  have hl' : done ++ [p] ++ l = g.productions := by simpa using hl
  obtain ⟨mapped, hget⟩ : ∃ mapped, remap[p.lhs]? = some mapped :=
    ⟨_, List.getElem?_eq_getElem (show p.lhs < remap.length from hremap ▸ hg.lhs_lt p hp)⟩
  refine Result.wp_bind.2 ((wp_vecGet hget).2 ?_)
  -- a production of a nonterminal that is not retained is dropped
  cases mapped with
  | none =>
    refine Result.wp_pure.2 ⟨hl', hstate.table, hstate.id, hstate.sound, fun q hq id hid => ?_⟩
    rcases List.mem_append.1 hq with hq | hq
    · exact hstate.complete q hq id hid
    · obtain rfl := List.mem_singleton.1 hq
      rw [hget] at hid
      cases hid
  | some lhs =>
    refine Result.wp_bind.2 (Result.wp_mono (collapseRhs_wp hlibrary hread hsolved hremap
      (hrhs p hp lhs hget) hstate.table) ?_)
    rintro ⟨rhs, table⟩ ⟨htable, hle, hstands⟩
    refine Result.wp_bind.2 (Result.wp_require.2 ⟨fun _ => ?_, fun _ => .limit trivial⟩)
    refine Result.wp_bind.2 (Result.wp_require.2 ⟨fun _ => ?_, fun _ => .limit trivial⟩)
    refine Result.wp_bind.2 (Result.wp_require.2 ⟨fun _ => ?_, fun _ => .limit trivial⟩)
    refine Result.wp_bind.2
      (Result.wp_bind.2 (Result.wp_require.2 ⟨fun _ => ?_, fun _ => .limit trivial⟩))
    refine Result.wp_pure.2 (Result.wp_pure.2 ⟨hl', htable, fun {i p'} hi => ?_, fun p' hp' => ?_,
      fun q hq id hid => ?_⟩)
    · rcases getElem?_snoc.1 hi with hi | ⟨rfl, rfl⟩
      · exact hstate.id hi
      · rfl
    · rcases List.mem_append.1 hp' with hp' | hp'
      · obtain ⟨q, hq, hcollapsed⟩ := hstate.sound p' hp'
        exact ⟨q, hq, hcollapsed.mono hle⟩
      · obtain rfl := List.mem_singleton.1 hp'
        exact ⟨p, hp, hget, hstands⟩
    · rcases List.mem_append.1 hq with hq | hq
      · obtain ⟨q', hq', hcollapsed⟩ := hstate.complete q hq id hid
        exact ⟨q', List.mem_append_left _ hq', hcollapsed.mono hle⟩
      · obtain rfl := List.mem_singleton.1 hq
        exact ⟨_, List.mem_append_right _ List.mem_cons_self, hget, hstands⟩

/-! ### The languages -/

/-- The byte strings that a nonterminal of the residual grammar generates. -/
def ResidualGrammar.languageOf (residual : ResidualGrammar) (id : ℕ) : Language UInt8 :=
  {x | Yields residual.Rule residual.terminalLanguage [.nonterminal id] x}

/-- The productions of the one grammar are what those of the other have become. -/
structure ResidualGrammar.CollapseOf (g : Grammar) (R : String → Language UInt8)
    (remap : List (Option ℕ)) (residual : ResidualGrammar) : Prop where
  injective : ∀ {A B id : ℕ}, remap[A]? = some (some id) → remap[B]? = some (some id) → A = B
  sound : ∀ p' ∈ residual.productions, ∃ p ∈ g.productions,
    Collapsed g R remap residual.terminals p p'
  complete : ∀ p ∈ g.productions, ∀ id, remap[p.lhs]? = some (some id) →
    ∃ p' ∈ residual.productions, Collapsed g R remap residual.terminals p p'

variable {residual : ResidualGrammar}

theorem HasTerminal.language_eq {L : Language UInt8} {id : ℕ}
    (h : HasTerminal residual.terminals L id) : residual.terminalLanguage id = L := by
  obtain ⟨terminal, hget, hrealizes⟩ := h
  rw [ResidualGrammar.terminalLanguage_eq hget, hrealizes.language]

/-- Products of related lists are compared factor by factor. -/
theorem prod_map_le {r : GrammarSymbol → GrammarSymbol → Prop} {l l' : List GrammarSymbol}
    {f f' : GrammarSymbol → Language UInt8} (hl : List.Forall₂ r l l')
    (hle : ∀ s s', r s s' → f s ≤ f' s') : (l.map f).prod ≤ (l'.map f').prod :=
  List.Forall₂.prod_le_prod'
    (List.forall₂_map_left_iff.2 (List.forall₂_map_right_iff.2 (hl.imp hle)))

/-- **What a retained nonterminal generates, the other grammar does too.** -/
theorem ResidualGrammar.CollapseOf.languageOf_le (h : residual.CollapseOf g R remap) {A id : ℕ}
    (hid : remap[A]? = some (some id)) : residual.languageOf id ≤ g.language R A := by
  -- A new id stands for the language of the nonterminal that has it.
  let M : ℕ → Language UInt8 := fun id =>
    {x | ∀ A : ℕ, remap[A]? = some (some id) → x ∈ g.language R A}
  have hM : ∀ id γ, residual.Rule id γ →
      (γ.map (symbolLanguage residual.terminalLanguage M)).prod ≤ M id := by
    rintro id γ ⟨p', hp', rfl, rfl⟩ x hx A hA
    obtain ⟨p, hp, hcollapsed⟩ := h.sound p' hp'
    obtain rfl := h.injective hA hcollapsed.lhs
    refine Grammar.prod_le_language ⟨p, hp, rfl, rfl⟩ (prod_map_le hcollapsed.rhs.flip ?_ hx)
    intro s' s hs
    cases hs with
    | @kept B id hB => exact fun y hy => hy B hB
    | terminal hterminal => exact hterminal.language_eq.le
  intro x hx
  have hprod := Yields.mem_prod hM (show Yields _ _ [.nonterminal id] x from hx)
  rw [List.map_singleton, List.prod_singleton] at hprod
  exact hprod A hid

/-- **What the other grammar generates, a retained nonterminal does too.** -/
theorem ResidualGrammar.CollapseOf.le_languageOf (h : residual.CollapseOf g R remap) {A id : ℕ}
    (hid : remap[A]? = some (some id)) : g.language R A ≤ residual.languageOf id := by
  let M : ℕ → Language UInt8 := fun A =>
    {x | x ∈ g.language R A ∧ ∀ id, remap[A]? = some (some id) → x ∈ residual.languageOf id}
  have hsymbol : ∀ s, symbolLanguage (g.terminalLanguage R) M s ≤ g.symbol R s := by
    intro s
    cases s with
    | terminal t => exact le_rfl
    | nonterminal B => exact fun y hy => hy.1
  have hM : ∀ A γ, g.Rule A γ → (γ.map (symbolLanguage (g.terminalLanguage R) M)).prod ≤ M A := by
    rintro A γ ⟨p, hp, rfl, rfl⟩ x hx
    have hle : (p.rhs.map (symbolLanguage (g.terminalLanguage R) M)).prod ≤
        (p.rhs.map (g.symbol R)).prod := by
      refine prod_map_le (List.forall₂_same.2 fun _ _ => rfl) ?_
      rintro s _ rfl
      exact hsymbol s
    refine ⟨Grammar.prod_le_language ⟨p, hp, rfl, rfl⟩ (hle hx), fun id hid => ?_⟩
    obtain ⟨p', hp', hcollapsed⟩ := h.complete p hp id hid
    obtain rfl := Option.some.inj (Option.some.inj (hid.symm.trans hcollapsed.lhs))
    refine Yields.of_production ⟨p', hp', rfl, rfl⟩
      (.of_mem_prod (prod_map_le hcollapsed.rhs ?_ hx))
    intro s s' hs
    cases hs with
    | @kept B id hB => exact fun y hy => hy.2 id hB
    | terminal hterminal => exact (hsymbol s).trans hterminal.language_eq.ge
  exact fun x hx => (Grammar.language_le hM A hx).2 id hid

/-! ### The tables -/

/-- **The index of the productions.** -/
theorem indexProductions_wp {count : ℕ} {productions : List ResidualProduction}
    (hlhs : ∀ p ∈ productions, p.lhs < count)
    (hid : ∀ {i : ℕ} {p : ResidualProduction}, productions[i]? = some p → p.id = i) :
    Result.wp (fun _ => False) (indexProductions count productions) fun index =>
      index.length = count ∧ ∀ (A : ℕ) ids, index[A]? = some ids → ∀ i : ℕ,
        i ∈ ids ↔ ∃ p, productions[i]? = some p ∧ p.lhs = A := by
  refine Result.wp_mono (Result.wp_foldlM (I := fun done l (index : List (List ℕ)) =>
    done ++ l = productions ∧ index.length = count ∧ ∀ (A : ℕ) ids, index[A]? = some ids → ∀ i : ℕ,
      i ∈ ids ↔ ∃ p, done[i]? = some p ∧ p.lhs = A)
    ?_ [] productions (List.replicate count []) ⟨rfl, List.length_replicate, ?_⟩) ?_
  · rintro done p l index ⟨hl, hlength, hindex⟩
    have hp : p.id = done.length := hid (by simp [← hl])
    have hlt : p.lhs < index.length := hlength ▸ hlhs p (hl ▸ by simp)
    have hget := List.getElem?_eq_getElem hlt
    refine Result.wp_bind.2 ((wp_vecGet hget).2 ((wp_vecSet hlt).2
      ⟨by simpa using hl, (List.length_set ..).trans hlength, fun A ids hids i => ?_⟩))
    by_cases hA : p.lhs = A
    · subst hA
      rw [List.getElem?_set_self hlt] at hids
      obtain rfl := Option.some.inj hids
      rw [List.mem_append, hindex _ _ hget, List.mem_singleton, hp]
      constructor
      · rintro (⟨q, hq, hlhs⟩ | rfl)
        · exact ⟨q, getElem?_snoc.2 (.inl hq), hlhs⟩
        · exact ⟨p, List.getElem?_concat_length, rfl⟩
      · rintro ⟨q, hq, hlhs⟩
        exact (getElem?_snoc.1 hq).imp (fun hq => ⟨q, hq, hlhs⟩) And.left
    · rw [List.getElem?_set_ne hA] at hids
      rw [hindex A ids hids]
      constructor
      · rintro ⟨q, hq, hlhs⟩
        exact ⟨q, getElem?_snoc.2 (.inl hq), hlhs⟩
      · rintro ⟨q, hq, hlhs⟩
        rcases getElem?_snoc.1 hq with hq | ⟨-, rfl⟩
        · exact ⟨q, hq, hlhs⟩
        · exact absurd hlhs hA
  · intro A ids hids i
    have hmem := List.mem_of_getElem? hids
    simp [(List.mem_replicate.1 hmem).2]
  · exact fun index h => h.2

theorem wp_allM {α : Type} {f : α → Except CompileError Bool} {l : List α}
    (h : ∀ a ∈ l, Result.wp (fun _ => False) (f a) fun _ => True) :
    Result.wp (fun _ => False) (l.allM f) fun _ => True := by
  induction l with
  | nil => trivial
  | cons a l ih =>
    obtain ⟨ha, hl⟩ := List.forall_mem_cons.1 h
    refine Result.wp_bind.2 (Result.wp_mono ha fun keep _ => ?_)
    cases keep with
    | true => exact ih hl
    | false => trivial

theorem countCollapsedRegions_wp {retained : List Bool} {components : List Scc}
    (h : ∀ c ∈ components, ∀ A ∈ c.members, A < retained.length) :
    Result.wp (fun _ => False) (countCollapsedRegions retained components) fun _ => True := by
  induction components with
  | nil => trivial
  | cons c components ih =>
    obtain ⟨hc, hrest⟩ := List.forall_mem_cons.1 h
    refine Result.wp_bind.2 (Result.wp_mono (wp_allM fun A hA => ?_) fun collapsed _ => ?_)
    · exact Result.wp_bind.2 ((wp_vecGet (List.getElem?_eq_getElem (hc A hA))).2 trivial)
    · exact Result.wp_bind.2 (Result.wp_mono (ih hrest) fun _ _ => trivial)

/-! ### The residual grammar -/

/-- What collapsing a grammar gives. -/
structure ResidualGrammar.Exact (g : Grammar) (R : String → Language UInt8)
    (residual : ResidualGrammar) :
    Prop where
  wellFormed : residual.WellFormed
  index : residual.IndexExact
  nullable : residual.NullableExact
  suffixes : List.Forall₂ (fun (p : ResidualProduction) flags => List.Forall₂ (fun β flag =>
    flag = true ↔ Sentence residual.Rule β []) p.rhs.tails flags)
    residual.productions residual.productiveSuffixes
  terminals : ∀ terminal ∈ residual.terminals, ∃ s, g.SymbolInRange s ∧
    terminal.Realizes (g.symbol R s)
  terminals_length : residual.terminals.length ≤ u32Max + 1
  original_lt : ∀ {id : ℕ} {n : ResidualNonterminal}, residual.nonterminals[id]? = some n →
    n.original < g.nonterminals.length
  language : ∀ {id : ℕ} {n : ResidualNonterminal}, residual.nonterminals[id]? = some n →
    residual.languageOf id = g.language R n.original
  start : ∃ n, residual.nonterminals[residual.start]? = some n ∧ n.original = g.start

/-- What the flags are computed from are the productions. -/
theorem pairRule_map {π : Type} {productions : List π} {lhs : π → ℕ}
    {rhs : π → List GrammarSymbol} :
    PairRule (productions.map fun p => (lhs p, rhs p)) =
      fun A γ => ∃ p ∈ productions, lhs p = A ∧ rhs p = γ := by
  funext A γ
  simp [PairRule]

theorem Stands.inRange {s s' : GrammarSymbol} {ids : Remap} {retained : List Bool} {count : ℕ}
    (hids : Remap.Exact g retained count ids) (h : Stands g R ids.remap residual.terminals s s')
    (hnonterminals : residual.nonterminals = ids.nonterminals) : residual.SymbolInRange s' := by
  cases h with
  | kept hA =>
    obtain ⟨n, hn, -⟩ := (hids.mem_iff _ _).1 hA
    rw [← hnonterminals] at hn
    exact (List.getElem?_eq_some_iff.1 hn).1
  | terminal hterminal =>
    obtain ⟨terminal, hget, -⟩ := hterminal
    exact (List.getElem?_eq_some_iff.1 hget).1

/-- **Collapsing preserves the language**, and what it puts in the tables is right. -/
theorem buildResidual_wp (hlibrary : library.Exact S) (hread : Readable S escape g R)
    (hg : g.WellFormed) (hanalysis : analysis.Exact escape g R) :
    Result.wp CompileError.IsRefused (buildResidual library limits g analysis)
      (ResidualGrammar.Exact g R) := by
  have hno : ∀ e : CompileError, False → e.IsRefused := fun _ h => h.elim
  have hpairs : PairsInRange g.nonterminals.length
      (g.productions.map fun production => (production.lhs, production.rhs)) := by
    intro rule hrule
    obtain ⟨p, hp, rfl⟩ := List.mem_map.1 hrule
    exact ⟨hg.lhs_lt p hp, fun A hA => hg.rhs_inRange p hp _ hA⟩
  refine Result.wp_bind.2 (Result.wp_mono (Result.wp_weaken (nullableOf_wp hpairs) hno) ?_)
  rintro nullable ⟨hnullable, hempty⟩
  have hnil : ∀ B, nullable[B]? = some true ↔ [] ∈ g.language R B := by
    intro B
    rw [hempty, pairRule_map]
    exact (yields_nil_iff_sentence hread.nil_notMem_terminalLanguage).symm
  refine Result.wp_bind.2 (Result.wp_mono
    (Result.wp_weaken (retainedNonterminals_wp hg hanalysis hnullable) hno) ?_)
  rintro retained ⟨hretained, hclosed⟩
  refine Result.wp_bind.2 (Result.wp_mono
    (Result.wp_weaken (remapNonterminals_wp hg limits hretained.length) fun _ => .limit)
      fun ids hids => ?_)
  -- A nonterminal of a retained production is collapsed when it is certified and never empty.
  have hrhs : ∀ p ∈ g.productions, ∀ id, ids.remap[p.lhs]? = some (some id) →
      ∀ s ∈ p.rhs, Collapsible g R analysis ids.remap s := by
    refine fun p hp id hid s hs => ⟨hg.rhs_inRange p hp s hs, ?_⟩
    rintro B rfl hB
    have hlt : B < g.nonterminals.length := hg.rhs_inRange p hp _ hs
    have hnot : retained[B]? ≠ some true := by
      intro hkept
      obtain ⟨id', hid'⟩ := (hids.kept_iff B).2 ⟨hlt, hkept⟩
      rw [hB] at hid'
      cases hid'
    refine ⟨hretained.dropped B ?_, fun hmem => hnot ?_⟩
    · have hget := List.getElem?_eq_getElem (hretained.length ▸ hlt : B < retained.length)
      rw [hget] at hnot ⊢
      simpa using hnot
    · exact hclosed p hp ((hids.kept_iff _).1 ⟨id, hid⟩).2 _ hs B rfl ((hnil B).2 hmem)
  refine Result.wp_bind.2 (Result.wp_mono (collapseProductions_wp hlibrary hread hg hanalysis.solved
    hids.length hrhs ?_) fun collapsed hcollapsed => ?_)
  · exact {
      table := ⟨Nat.zero_le _, fun h => (by cases h), by simp⟩
      id := fun h => (by cases h)
      sound := by simp
      complete := by simp }
  have hlhs : ∀ p ∈ collapsed.productions, p.lhs < ids.nonterminals.length := by
    intro p' hp'
    obtain ⟨p, -, hp⟩ := hcollapsed.sound p' hp'
    obtain ⟨n, hn, -⟩ := (hids.mem_iff _ _).1 hp.lhs
    exact (List.getElem?_eq_some_iff.1 hn).1
  refine Result.wp_bind.2 (Result.wp_mono
    (Result.wp_weaken (indexProductions_wp hlhs hcollapsed.id) hno) ?_)
  rintro index ⟨hlength, hindex⟩
  have hnonterminal : ∀ p' ∈ collapsed.productions, ∀ A, .nonterminal A ∈ p'.rhs →
      A < ids.nonterminals.length := by
    intro p' hp' A hA
    obtain ⟨p, -, hp⟩ := hcollapsed.sound p' hp'
    obtain ⟨s, -, hs⟩ := exists_of_forall₂_left hp.rhs.flip hA
    cases hs with
    | kept hid =>
      obtain ⟨n, hn, -⟩ := (hids.mem_iff _ _).1 hid
      exact (List.getElem?_eq_some_iff.1 hn).1
  have hpairs' : PairsInRange ids.nonterminals.length
      (collapsed.productions.map fun production => (production.lhs, production.rhs)) := by
    intro rule hrule
    obtain ⟨p, hp, rfl⟩ := List.mem_map.1 hrule
    exact ⟨hlhs p hp, hnonterminal p hp⟩
  refine Result.wp_bind.2 (Result.wp_mono (Result.wp_weaken (nullableOf_wp hpairs') hno) ?_)
  rintro flags ⟨hflags, hexact⟩
  have hsuffixes : Result.wp (fun _ => False)
      (collapsed.productions.mapM fun production => nullableSuffixes flags production.rhs)
      (List.Forall₂ (fun (p : ResidualProduction) => List.Forall₂ (fun β flag =>
        flag = true ↔ Sentence (PairRule (collapsed.productions.map fun production =>
          (production.lhs, production.rhs))) β []) p.rhs.tails) collapsed.productions) :=
    Result.wp_mapM fun p hp => nullableSuffixes_wp hexact fun A hA =>
      hflags ▸ hnonterminal p hp A hA
  refine Result.wp_bind.2
    (Result.wp_mono (Result.wp_weaken hsuffixes hno) fun suffixes hsuffixes => ?_)
  obtain ⟨start, hstart⟩ := (hids.kept_iff g.start).2 ⟨hg.start_lt, hretained.start⟩
  obtain ⟨n, hn, horiginal⟩ := (hids.mem_iff _ _).1 hstart
  refine Result.wp_bind.2 ((wp_vecGet hstart).2 (Result.wp_bind.2 (Result.wp_unwrap_some.2 ?_)))
  refine Result.wp_bind.2
    (Result.wp_mono (Result.wp_weaken (countCollapsedRegions_wp fun c hc A hA =>
    hretained.length ▸ hanalysis.classified.lt_of_mem hc hA) hno) fun regions _ => ?_)
  rw [pairRule_map] at hexact hsuffixes
  refine Result.wp_pure.2 {
    wellFormed := {
      start_lt := (List.getElem?_eq_some_iff.1 hn).1
      lhs_lt := hlhs
      rhs_inRange := fun p' hp' s' hs' => ?_
      nullable_length := hflags }
    index := ⟨hlength, fun h i => hindex _ _ h i⟩
    nullable := fun A _ => hexact A
    suffixes := hsuffixes
    terminals := hcollapsed.table.sound
    terminals_length := hcollapsed.table.length
    original_lt := fun {id n} hn => ((hids.kept_iff _).1 ⟨id, (hids.mem_iff _ id).2 ⟨n, hn, rfl⟩⟩).1
    language := fun {id n} hn => ?_
    start := ⟨n, hn, horiginal⟩ }
  · obtain ⟨p, -, hp⟩ := hcollapsed.sound p' hp'
    obtain ⟨s, -, hs⟩ := exists_of_forall₂_left hp.rhs.flip hs'
    exact Stands.inRange hids hs rfl
  · have hid := (hids.mem_iff _ id).2 ⟨n, hn, rfl⟩
    exact le_antisymm
      (ResidualGrammar.CollapseOf.languageOf_le ⟨hids.injective, hcollapsed.sound,
        hcollapsed.complete⟩ hid)
      (ResidualGrammar.CollapseOf.le_languageOf ⟨hids.injective, hcollapsed.sound,
        hcollapsed.complete⟩ hid)

/-- **The residual grammar.**  Every retained nonterminal generates what the original one does, the
flags and the index are exact, and no terminal has the empty word; without one, a limit is exceeded
or the library refuses a text. -/
theorem buildResidual_exact (hlibrary : library.Exact S) (hread : Readable S escape g R)
    (hescape : Escapes escape g R) (hg : g.WellFormed)
    (hanalysis : certifyRegular escape g = .ok analysis) (limits : CompileLimits) :
    (∀ residual, buildResidual library limits g analysis = .ok residual →
      residual.WellFormed ∧ residual.IndexExact ∧ residual.NullableExact ∧
      (∀ terminal ∈ residual.terminals, [] ∉ terminal.language ∧ terminal.LiveExact) ∧
      (∀ id n, residual.nonterminals[id]? = some n →
        residual.languageOf id = g.language R n.original) ∧
      residual.language = g.language R g.start) ∧
    ∀ error, buildResidual library limits g analysis = .error error →
      error.IsLimit ∨ ∃ pointer message, error = .automatonBuild pointer message := by
  obtain ⟨result, hresult, hexact⟩ := exists_certifyRegular hg hescape
  obtain rfl : result = analysis := Except.ok.inj (hresult.symm.trans hanalysis)
  have hwp : Result.wp CompileError.IsRefused (buildResidual library limits g result) _ :=
    buildResidual_wp hlibrary hread hg hexact
  refine ⟨fun residual h => ?_, fun error h => ?_⟩
  · rw [h] at hwp
    refine ⟨hwp.wellFormed, hwp.index, hwp.nullable, fun terminal hterminal => ?_,
      fun id n hn => hwp.language hn, ?_⟩
    · obtain ⟨s, -, hrealizes⟩ := hwp.terminals terminal hterminal
      exact ⟨hrealizes.language ▸ hrealizes.nil_notMem, hrealizes.live⟩
    · obtain ⟨n, hn, hstart⟩ := hwp.start
      rw [← hstart, ← hwp.language hn]
      exact Set.ext fun x => ResidualGrammar.mem_language_iff
  · rw [h] at hwp
    obtain ⟨pointer, hlimit | hbuild⟩ := hwp
    · exact .inl hlimit
    · exact .inr ⟨pointer, hbuild⟩

end Terminals

/-- `S → b S c`, `S → A` and `A → a`. -/
def nestedGrammar : Grammar where
  start := 0
  nonterminals := [⟨0, "S", .root⟩, ⟨1, "A", .root⟩]
  terminals := [⟨0, .literal (utf8Bytes "a"), .root⟩, ⟨1, .literal (utf8Bytes "b"), .root⟩,
    ⟨2, .literal (utf8Bytes "c"), .root⟩]
  productions := [⟨0, 0, [.terminal 1, .nonterminal 0, .terminal 2], .root⟩,
    ⟨1, 0, [.nonterminal 1], .root⟩, ⟨2, 1, [.terminal 0], .root⟩]

theorem nestedGrammar_wellFormed : nestedGrammar.WellFormed :=
  .of_ids (by decide) rfl rfl rfl (by decide) (by decide) (by decide) (by decide) (by decide)
    (by decide)

theorem nestedGrammar_escapes : Escapes Pattern.escape nestedGrammar patternLanguage where
  escape := patternLanguage_escape
  literal := by
    simp only [nestedGrammar, List.forall_mem_cons]
    refine ⟨fun bytes h => ⟨"a", ?_⟩, fun bytes h => ⟨"b", ?_⟩, fun bytes h => ⟨"c", ?_⟩, by simp⟩
    all_goals exact (RegularTerminalKind.literal.inj h).symm

theorem nestedGrammar_readable : Readable utf8Syntax Pattern.escape nestedGrammar
    patternLanguage where
  denotes := by
    have ha : patternLanguage "a" = {utf8Bytes "a"} := patternLanguage_escape "a"
    have hb : patternLanguage "b" = {utf8Bytes "b"} := patternLanguage_escape "b"
    have hc : patternLanguage "c" = {utf8Bytes "c"} := patternLanguage_escape "c"
    simp only [nestedGrammar, List.forall_mem_cons]
    refine ⟨?_, ?_, ?_, by simp⟩
    · change RegexDenotes utf8Syntax "a".toList (patternLanguage "a")
      exact ha ▸ regexDenotes_spelled (by decide)
    · change RegexDenotes utf8Syntax "b".toList (patternLanguage "b")
      exact hb ▸ regexDenotes_spelled (by decide)
    · change RegexDenotes utf8Syntax "c".toList (patternLanguage "c")
      exact hc ▸ regexDenotes_spelled (by decide)
  nil_notMem := by
    simp only [nestedGrammar, List.forall_mem_cons]
    refine ⟨?_, ?_, ?_, by simp⟩
    all_goals exact fun h => absurd (Set.mem_singleton_iff.1 h) (by decide)

theorem buildResidual_exact_nested :
    ∃ analysis residual, certifyRegular Pattern.escape nestedGrammar = .ok analysis ∧
      buildResidual oneLetterLibrary CompileLimits.default nestedGrammar analysis = .ok residual ∧
      residual.collapsedNonterminals = 1 ∧
      residual.language = nestedGrammar.language patternLanguage 0 := by
  have hok : ((certifyRegular Pattern.escape nestedGrammar).toOption.bind fun analysis =>
      (buildResidual oneLetterLibrary CompileLimits.default nestedGrammar analysis).toOption.map
        ResidualGrammar.collapsedNonterminals) = some 1 := by decide +kernel
  obtain ⟨analysis, hanalysis, hok⟩ := Option.bind_eq_some_iff.1 hok
  obtain ⟨residual, hresidual, hcollapsed⟩ := Option.map_eq_some_iff.1 hok
  have hanalysis := Result.toOption_eq_some.1 hanalysis
  have hresidual := Result.toOption_eq_some.1 hresidual
  exact ⟨analysis, residual, hanalysis, hresidual, hcollapsed,
    ((buildResidual_exact oneLetterLibrary_exact nestedGrammar_readable nestedGrammar_escapes
      nestedGrammar_wellFormed hanalysis CompileLimits.default).1 residual hresidual).2.2.2.2.2⟩

end OcEarley
