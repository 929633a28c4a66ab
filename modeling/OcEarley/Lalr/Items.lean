import OcEarley.Formal.Lr
import OcEarley.Lalr.First

/-!
# States of LR(1) items

The items of a state exist (`Lr1Item.Ok`) and are closed under prediction (`ClosedItems`).
`closure_spec`, `initial_spec` and `goto_spec` say which items the two operations give at least, and
that all of them come from the kernel by prediction.
-/

namespace OcEarley

namespace ResidualGrammar

variable (g : ResidualGrammar)

/-- The grammar of the parser.  The ids from `productions.length` on
name the augmented production. -/
def lrGrammar : LrGrammar ℕ ℕ ℕ where
  lhs p := match g.productions[p]? with
    | some production => production.lhs
    | none => g.nonterminals.length
  rhs p := match g.productions[p]? with
    | some production => production.rhs
    | none => [.nonterminal g.start]
  prods := {p | p < g.productions.length}
  aug := g.productions.length
  start := g.start
  rhs_aug := by simp
  aug_notMem := by simp

variable {g}

theorem lrGrammar_of_getElem? {p : ℕ} {production : ResidualProduction}
    (h : g.productions[p]? = some production) :
    g.lrGrammar.lhs p = production.lhs ∧ g.lrGrammar.rhs p = production.rhs := by
  simp [lrGrammar, h]

theorem lrGrammar_rule : g.lrGrammar.Rule = g.Rule := by
  funext A γ
  refine propext ⟨?_, ?_⟩
  · rintro ⟨p, hp, rfl, rfl⟩
    have h := List.getElem?_eq_getElem hp
    obtain ⟨hlhs, hrhs⟩ := lrGrammar_of_getElem? h
    exact ⟨_, List.getElem_mem hp, hlhs.symm, hrhs.symm⟩
  · rintro ⟨production, hmem, rfl, rfl⟩
    obtain ⟨p, hp, h⟩ := List.getElem_of_mem hmem
    obtain ⟨hlhs, hrhs⟩ := lrGrammar_of_getElem? (List.getElem?_eq_some_iff.2 ⟨hp, h⟩)
    exact ⟨p, hp, hlhs, hrhs⟩

theorem WellFormed.lrGrammar_inRange (hg : g.WellFormed) (p : ℕ) :
    ∀ s ∈ g.lrGrammar.rhs p, g.SymbolInRange s := by
  intro s hs
  cases h : g.productions[p]? with
  | some production =>
    rw [(lrGrammar_of_getElem? h).2] at hs
    exact hg.rhs_inRange production (List.mem_of_getElem? h) s hs
  | none =>
    obtain rfl : s = .nonterminal g.start := by simpa [lrGrammar, h] using hs
    exact hg.start_lt

theorem WellFormed.rest_inRange (hg : g.WellFormed) (p k : ℕ) :
    ∀ s ∈ g.lrGrammar.rest p k, g.SymbolInRange s :=
  fun s hs => hg.lrGrammar_inRange p s (List.mem_of_mem_drop hs)

theorem lrGrammar_productive (hg : g.WellFormed) (hprod : g.Productive) :
    g.lrGrammar.Productive := by
  intro p _ k
  rw [lrGrammar_rule]
  exact exists_sentence hprod (hg.rest_inRange p k)

end ResidualGrammar

/-- The ids of the parser's productions, and what they say. -/
theorem CompiledLalr.parserProductions_getElem? {g : ResidualGrammar} {provenance : Provenance}
    {p : ℕ} {production : ParserProduction}
    (h : (parserProductions g g.nonterminals.length provenance)[p]? = some production) :
    p ≤ g.productions.length ∧ production.lhs = g.lrGrammar.lhs p ∧
      production.rhs = g.lrGrammar.rhs p := by
  rcases getElem?_snoc.1 h with h | ⟨rfl, rfl⟩
  · rw [List.getElem?_map] at h
    obtain ⟨residual, hresidual, rfl⟩ := Option.map_eq_some_iff.1 h
    obtain ⟨hlhs, hrhs⟩ := ResidualGrammar.lrGrammar_of_getElem? hresidual
    exact ⟨(List.getElem?_eq_some_iff.1 hresidual).1.le, hlhs.symm, hrhs.symm⟩
  · simp [ResidualGrammar.lrGrammar]

/-! ### Prediction -/

section Step

variable {productions : List ParserProduction} {byLhs : List (List ℕ)} {nullable : List Bool}
  {first : List TerminalSet} {item item' : Lr1Item} {l : List Lr1Item}

theorem symbolAfterDot_eq_ok {s : Option GrammarSymbol} :
    symbolAfterDot productions item = .ok s ↔
      ∃ production, productions[item.production]? = some production ∧
        production.rhs[item.dot]? = s := by
  refine Result.bind_eq_ok.trans ⟨?_, ?_⟩
  · rintro ⟨production, h, hs⟩
    exact ⟨production, Result.unwrap_eq_ok.1 h, Result.pure_eq_ok.1 hs⟩
  · rintro ⟨production, h, hs⟩
    exact ⟨production, Result.unwrap_eq_ok.2 h, Result.pure_eq_ok.2 hs⟩

/-- Only items with a nonterminal behind the dot ask for others. -/
theorem closureStep_spec (h : closureStep productions byLhs nullable first item = .ok l) :
    ∃ production, productions[item.production]? = some production ∧
      ∀ A, production.rhs[item.dot]? = some (.nonterminal A) →
        ∃ lookaheads starts, byLhs[A]? = some starts ∧
          firstOfSymbols nullable first item.lookahead (production.rhs.drop (item.dot + 1)) =
            .ok lookaheads ∧
          ∀ item', item' ∈ l ↔
            item'.production ∈ starts ∧ item'.dot = 0 ∧ item'.lookahead ∈ lookaheads := by
  obtain ⟨next, hnext, h⟩ := Result.bind_eq_ok.1 h
  obtain ⟨production, hproduction, hnext⟩ := symbolAfterDot_eq_ok.1 hnext
  refine ⟨production, hproduction, fun A hA => ?_⟩
  obtain rfl : next = some (.nonterminal A) := hnext.symm.trans hA
  obtain ⟨lookaheads, hfirst, h⟩ := Result.bind_eq_ok.1 h
  obtain ⟨starts, hstarts, h⟩ := Result.bind_eq_ok.1 h
  obtain rfl := Result.pure_eq_ok.1 h
  obtain ⟨production', hproduction', hfirst⟩ := Result.bind_eq_ok.1 hfirst
  obtain rfl : production = production' :=
    Option.some.inj (hproduction.symm.trans (Result.unwrap_eq_ok.1 hproduction'))
  obtain ⟨-, -, hfirst⟩ := Result.bind_eq_ok.1 hfirst
  obtain ⟨found, hfound, hfirst⟩ := Result.bind_eq_ok.1 hfirst
  obtain rfl := Result.pure_eq_ok.1 hfirst
  refine ⟨found, starts, Result.unwrap_eq_ok.1 hstarts, hfound, fun item' => ?_⟩
  simp only [List.mem_flatMap, List.mem_map, mem_sortDedup]
  constructor
  · rintro ⟨p, hp, lookahead, hl, rfl⟩
    exact ⟨hp, rfl, hl⟩
  · rintro ⟨hp, hdot, hl⟩
    exact ⟨_, hp, _, hl, hdot ▸ rfl⟩

theorem closureStep_eq_nil (h : closureStep productions byLhs nullable first item = .ok l)
    {production : ParserProduction} (hproduction : productions[item.production]? = some production)
    (hnext : ∀ A, production.rhs[item.dot]? ≠ some (.nonterminal A)) : l = [] := by
  obtain ⟨next, hs, h⟩ := Result.bind_eq_ok.1 h
  obtain ⟨production', hproduction', rfl⟩ := symbolAfterDot_eq_ok.1 hs
  obtain rfl : production = production' := Option.some.inj (hproduction.symm.trans hproduction')
  split at h
  · next A hA => exact absurd hA (hnext A)
  · exact (Result.pure_eq_ok.1 h).symm

/-- The moved items of `goto`. -/
theorem moveItem_spec {X : GrammarSymbol} {items moved : List Lr1Item}
    (h : items.foldlM (moveItem productions X) [] = .ok moved) :
    ∀ item', item' ∈ moved ↔ ∃ item ∈ items, symbolAfterDot productions item = .ok (some X) ∧
      item' = { item with dot := item.dot + 1 } := by
  refine Result.foldlM_induction
    (I := fun (done : List Lr1Item) (moved : List Lr1Item) => ∀ item', item' ∈ moved ↔
      ∃ item ∈ done, symbolAfterDot productions item = .ok (some X) ∧
        item' = { item with dot := item.dot + 1 }) h (by simp) ?_
  intro done item moved moved' hI hmove item'
  obtain ⟨next, hnext, hmove⟩ := Result.bind_eq_ok.1 hmove
  simp only [List.mem_append, List.mem_singleton, or_and_right, exists_or, exists_eq_left, ← hI]
  split at hmove
  · next hX =>
    subst hX
    obtain ⟨-, -, hmove⟩ := Result.bind_eq_ok.1 hmove
    obtain rfl := Result.pure_eq_ok.1 hmove
    simp [hnext]
  · next hX =>
    obtain rfl := Result.pure_eq_ok.1 hmove
    have : ¬symbolAfterDot productions item = .ok (some X) := fun h =>
      hX (Except.ok.inj (hnext.symm.trans h))
    simp [this]

end Step

/-- The symbol behind the dot of an item that exists. -/
theorem CompiledLalr.symbolAfterDot_iff {g : ResidualGrammar} {provenance : Provenance}
    {item : Lr1Item} {s : Option GrammarSymbol} (h : item.production ≤ g.productions.length) :
    symbolAfterDot (parserProductions g g.nonterminals.length provenance) item = .ok s ↔
      (g.lrGrammar.rhs item.production)[item.dot]? = s := by
  have hlt : item.production < (parserProductions g g.nonterminals.length provenance).length := by
    simp only [parserProductions, List.length_append, List.length_map, List.length_singleton]
    omega
  have hproduction := List.getElem?_eq_getElem hlt
  rw [symbolAfterDot_eq_ok, ← (parserProductions_getElem? hproduction).2.2]
  constructor
  · rintro ⟨production, h, rfl⟩
    rw [Option.some.inj (hproduction.symm.trans h)]
  · exact fun hs => ⟨_, hproduction, hs⟩

/-! ### States -/

/-- The item exists, and only the end of the input follows the augmented production. -/
structure Lr1Item.Ok (g : ResidualGrammar) (item : Lr1Item) : Prop where
  dot_le : item.dot ≤ (g.lrGrammar.rhs item.production).length
  production_le : item.production ≤ g.productions.length
  eof : item.production = g.productions.length → item.lookahead = .eof

/-- The items exist and are closed under prediction. -/
structure ClosedItems (g : ResidualGrammar) (items : List Lr1Item) : Prop where
  ok : ∀ item ∈ items, item.Ok g
  closed : ∀ {p k a p' u}, ⟨p, k, lookaheadOf a⟩ ∈ items →
    (g.lrGrammar.rhs p)[k]? = some (.nonterminal (g.lrGrammar.lhs p')) → p' < g.productions.length →
    Sentence g.Rule (g.lrGrammar.rest p (k + 1)) u → ⟨p', 0, lookaheadOf (u.head?.or a)⟩ ∈ items

/-- A property of items that goes over to the predicted ones. -/
def Predictive (g : ResidualGrammar) (V : ℕ → ℕ → Prop) : Prop :=
  ∀ p k p', V p k → (g.lrGrammar.rhs p)[k]? = some (.nonterminal (g.lrGrammar.lhs p')) →
    p' < g.productions.length → V p' 0

/-- The closure of the augmented item. -/
structure IsInitial (g : ResidualGrammar) (items : List Lr1Item) : Prop where
  start : ⟨g.productions.length, 0, .eof⟩ ∈ items
  closed : ClosedItems g items
  generated : ∀ V, Predictive g V → V g.productions.length 0 →
    ∀ item ∈ items, V item.production item.dot

/-- The closure of the items moved over a symbol. -/
structure IsGoto (g : ResidualGrammar) (items : List Lr1Item) (X : GrammarSymbol)
    (target : List Lr1Item) : Prop where
  moved : ∀ item ∈ items, (g.lrGrammar.rhs item.production)[item.dot]? = some X →
    { item with dot := item.dot + 1 } ∈ target
  closed : ClosedItems g target
  generated : ∀ V, Predictive g V →
    (∀ item ∈ items, (g.lrGrammar.rhs item.production)[item.dot]? = some X →
      V item.production (item.dot + 1)) → ∀ item ∈ target, V item.production item.dot

/-- What the construction of the states is given. -/
structure Prepared (g : ResidualGrammar) (first : List TerminalSet) : Prop where
  wellFormed : g.WellFormed
  indexExact : g.IndexExact
  nullableExact : g.NullableExact
  terminals_le : g.terminals.length ≤ u32Max + 1
  closed : FirstPass.Closed g first

namespace Prepared

open CompiledLalr

variable {g : ResidualGrammar} {first : List TerminalSet} {provenance : Provenance}
  {limits : CompileLimits} {item : Lr1Item} {l items seed : List Lr1Item}

/-- The list of productions of each nonterminal, with the augmented one. -/
theorem mem_starts (hp : Prepared g first) {A p : ℕ} {starts : List ℕ}
    (hA : A < g.nonterminals.length)
    (h : (g.productionsByLhs ++ [[g.productions.length]])[A]? = some starts) :
    p ∈ starts ↔ p < g.productions.length ∧ g.lrGrammar.lhs p = A := by
  rw [← hp.indexExact.length_eq] at hA
  rw [List.getElem?_append_left hA] at h
  rw [hp.indexExact.mem_iff h]
  constructor
  · rintro ⟨production, hproduction, rfl⟩
    exact ⟨(List.getElem?_eq_some_iff.1 hproduction).1,
      (ResidualGrammar.lrGrammar_of_getElem? hproduction).1⟩
  · rintro ⟨hlt, rfl⟩
    have hproduction := List.getElem?_eq_getElem hlt
    exact ⟨_, hproduction, (ResidualGrammar.lrGrammar_of_getElem? hproduction).1.symm⟩

/-- The items that one asks for are those that prediction needs, and they are predicted. -/
theorem closureStep_spec (hp : Prepared g first)
    (h : closureStep (parserProductions g g.nonterminals.length provenance)
      (g.productionsByLhs ++ [[g.productions.length]]) g.nullable first item = .ok l) :
    (∀ {a p' u}, item.lookahead = lookaheadOf a →
      (g.lrGrammar.rhs item.production)[item.dot]? = some (.nonterminal (g.lrGrammar.lhs p')) →
      p' < g.productions.length →
      Sentence g.Rule (g.lrGrammar.rest item.production (item.dot + 1)) u →
      ⟨p', 0, lookaheadOf (u.head?.or a)⟩ ∈ l) ∧
    ∀ item' ∈ l, item'.dot = 0 ∧ item'.production < g.productions.length ∧
      (g.lrGrammar.rhs item.production)[item.dot]? =
        some (.nonterminal (g.lrGrammar.lhs item'.production)) := by
  obtain ⟨production, hproduction, hl⟩ := OcEarley.closureStep_spec h
  obtain ⟨-, -, hrhs⟩ := parserProductions_getElem? hproduction
  rw [hrhs] at hl
  have hrange : ∀ {A}, (g.lrGrammar.rhs item.production)[item.dot]? = some (.nonterminal A) →
      A < g.nonterminals.length := fun hA =>
    hp.wellFormed.lrGrammar_inRange _ _ (List.mem_of_getElem? hA)
  constructor
  · intro a p' u ha hnext hp' hu
    obtain ⟨lookaheads, starts, hstarts, hfirst, hmem⟩ := hl _ hnext
    refine (hmem _).2 ⟨(hp.mem_starts (hrange hnext) hstarts).2 ⟨hp', rfl⟩, rfl, ?_⟩
    rw [ha] at hfirst
    exact mem_firstOfSymbols hp.closed hp.wellFormed hp.nullableExact hp.terminals_le
      (hp.wellFormed.rest_inRange _ _) hfirst hu
  · intro item' hitem'
    cases hnext : (g.lrGrammar.rhs item.production)[item.dot]? with
    | none =>
      rw [closureStep_eq_nil h hproduction (by rw [hrhs, hnext]; simp)] at hitem'
      cases hitem'
    | some X =>
      cases X with
      | terminal t =>
        rw [closureStep_eq_nil h hproduction (by rw [hrhs, hnext]; simp)] at hitem'
        cases hitem'
      | nonterminal A =>
        obtain ⟨lookaheads, starts, hstarts, hfirst, hmem⟩ := hl _ hnext
        obtain ⟨hp', hdot, -⟩ := (hmem item').1 hitem'
        obtain ⟨hlt, hA⟩ := (hp.mem_starts (hrange hnext) hstarts).1 hp'
        exact ⟨hdot, hlt, by rw [hA]⟩

/-- A closure holds the seed, is closed, and comes from the seed by prediction. -/
theorem closure_spec (hp : Prepared g first)
    (h : closure (parserProductions g g.nonterminals.length provenance)
      (g.productionsByLhs ++ [[g.productions.length]]) g.nullable first limits seed = .ok items)
    (hseed : ∀ item ∈ seed, item.Ok g) :
    (∀ item ∈ seed, item ∈ items) ∧ ClosedItems g items ∧
      ∀ V, Predictive g V → (∀ item ∈ seed, V item.production item.dot) →
        ∀ item ∈ items, V item.production item.dot := by
  obtain ⟨result, hexplore, h⟩ := Result.bind_eq_ok.1 h
  obtain rfl := Result.pure_eq_ok.1 h
  simp only [mem_sortDedup]
  obtain ⟨hsub, hclosed⟩ := Worklist.explore_closed hexplore (fun _ => id)
    fun a ha hna => absurd ha hna
  simp only [mem_sortDedup] at hsub
  refine ⟨hsub, ⟨fun item hitem => ?_, fun {p k a p' u} hitem hnext hp' hu => ?_⟩,
    fun V hV hstart => ?_⟩
  · refine Worklist.explore_induction hexplore (P := fun item => item.Ok g) ?_ ?_ ?_ item
      (mem_sortDedup.1 hitem)
    · exact fun item hitem => hseed item (mem_sortDedup.1 hitem)
    · exact fun item hitem => hseed item (mem_sortDedup.1 hitem)
    · intro item l _ hstep item' hitem'
      obtain ⟨hdot, hlt, -⟩ := (hp.closureStep_spec hstep).2 item' hitem'
      exact ⟨hdot ▸ Nat.zero_le _, hlt.le, fun h => absurd h hlt.ne⟩
  · obtain ⟨l, hstep, hl⟩ := hclosed _ (mem_sortDedup.1 hitem)
    exact mem_sortDedup.2 (hl _ ((hp.closureStep_spec hstep).1 rfl hnext hp' hu))
  · refine Worklist.explore_induction hexplore (P := fun item => V item.production item.dot)
      ?_ ?_ ?_
    · exact fun item hitem => hstart item (mem_sortDedup.1 hitem)
    · exact fun item hitem => hstart item (mem_sortDedup.1 hitem)
    · intro item l hitem hstep item' hitem'
      obtain ⟨hdot, hlt, hnext⟩ := (hp.closureStep_spec hstep).2 item' hitem'
      rw [hdot]
      exact hV _ _ _ hitem hnext hlt

/-- The first state. -/
theorem initial_spec (hp : Prepared g first)
    (h : closure (parserProductions g g.nonterminals.length provenance)
      (g.productionsByLhs ++ [[g.productions.length]]) g.nullable first limits
      [{ production := g.productions.length, dot := 0, lookahead := .eof }] = .ok items) :
    IsInitial g items := by
  obtain ⟨hsub, hclosed, hgen⟩ := hp.closure_spec h fun item hitem => by
    obtain rfl := List.mem_singleton.1 hitem
    exact ⟨Nat.zero_le _, le_rfl, fun _ => rfl⟩
  refine ⟨hsub _ List.mem_cons_self, hclosed, fun V hV hstart => hgen V hV fun item hitem => ?_⟩
  obtain rfl := List.mem_singleton.1 hitem
  exact hstart

/-- The state that a symbol leads to. -/
theorem goto_spec (hp : Prepared g first) {X : GrammarSymbol} {target : List Lr1Item}
    (h : goto (parserProductions g g.nonterminals.length provenance)
      (g.productionsByLhs ++ [[g.productions.length]]) g.nullable first limits items X = .ok target)
    (hitems : ClosedItems g items) : IsGoto g items X target := by
  obtain ⟨moved, hmoved, h⟩ := Result.bind_eq_ok.1 h
  have hmem := moveItem_spec hmoved
  have hnext : ∀ item ∈ items,
      (symbolAfterDot (parserProductions g g.nonterminals.length provenance) item =
        .ok (some X) ↔ (g.lrGrammar.rhs item.production)[item.dot]? = some X) :=
    fun item hitem => symbolAfterDot_iff (hitems.ok item hitem).production_le
  obtain ⟨hsub, hclosed, hgen⟩ := hp.closure_spec h fun item' hitem' => by
    obtain ⟨item, hitem, hX, rfl⟩ := (hmem item').1 hitem'
    have hX := (hnext item hitem).1 hX
    exact { hitems.ok item hitem with dot_le := (List.getElem?_eq_some_iff.1 hX).1 }
  refine ⟨fun item hitem hX => ?_, hclosed, fun V hV hstart => hgen V hV fun item' hitem' => ?_⟩
  · exact hsub _ ((hmem _).2 ⟨item, hitem, (hnext item hitem).2 hX, rfl⟩)
  · obtain ⟨item, hitem, hX, rfl⟩ := (hmem item').1 hitem'
    exact hstart item hitem ((hnext item hitem).1 hX)

end Prepared

end OcEarley
