import OcEarley.Lalr.Exact
import OcEarley.Lalr.LexicalExact
import OcEarley.Lalr.Totality

/-!
# The construction is total

On a grammar with ids in range `CompiledLalr.build` fails at a limit only, or where the dot of an
item stops being a `u32`; otherwise its rows are sorted and it reports a conflict exactly when two
items ask for different actions (`lalr_total`).  A production with more than `u32::MAX` symbols does
make the dot overflow (`lalr_total_longRule`).
-/

namespace OcEarley

open CompiledLalr

/-! ### Lexical safety -/

theorem exists_terminalIsPrefixFree (terminal : CompiledTerminal) :
    ∃ free, terminalIsPrefixFree terminal = .ok free := by
  cases terminal with
  | literal bytes => exact ⟨true, rfl⟩
  | dfa dfa =>
    unfold terminalIsPrefixFree
    dsimp only
    cases hsearch : (List.range dfa.stateCount).forM fun state => do
        Result.require (state ≤ u32Max) SearchExit.found
        if dfa.isAccepting state then do
          let _ ← searchAccepting dfa state
          pure ()
        else pure () with
    | ok _ => exact ⟨true, rfl⟩
    | error exit =>
      -- the searches end, so that they only stop early when they have found something
      obtain rfl : exit = .found := by
        obtain ⟨state, -, h⟩ := Result.forM_eq_error hsearch
        rcases Result.bind_eq_error.1 h with h | ⟨_, -, h⟩
        · exact (Result.require_eq_error.1 h).2.symm
        · split at h
          · rcases Result.bind_eq_error.1 h with h | ⟨_, -, h⟩
            · exact (CompiledByteDfa.searchAccepting_error h).1
            · cases h
          · cases h
      exact ⟨false, rfl⟩

theorem exists_overlapFree (terminals : List CompiledTerminal) :
    ∃ free, overlapFree terminals = .ok free := by
  induction terminals with
  | nil => exact ⟨true, rfl⟩
  | cons left rest ih =>
    have hwp : Result.wp (fun _ : CompileError => False) (rest.foldlM (fun found right =>
        if found then pure true else terminalLanguagesHavePrefixOverlap left right) false)
        fun _ => True := by
      refine Result.wp_foldlM (I := fun _ _ _ => True) (fun done right rest found _ => ?_) [] rest
        false trivial
      split
      · trivial
      · obtain ⟨overlap, hoverlap, -⟩ := exists_overlap left right
        rw [hoverlap]
        trivial
    obtain ⟨overlap, hoverlap, -⟩ := Result.exists_of_wp hwp
    obtain ⟨free, hfree⟩ := ih
    cases overlap with
    | true => exact ⟨false, Result.bind_eq_ok.2 ⟨true, hoverlap, rfl⟩⟩
    | false => exact ⟨free, Result.bind_eq_ok.2 ⟨false, hoverlap, hfree⟩⟩

theorem exists_lexicalSafety (terminals : List CompiledTerminal) :
    ∃ safe, lexicalSafety terminals = .ok safe := by
  have hwp : Result.wp (fun _ : CompileError => False) (terminals.foldlM (fun safe terminal =>
      if safe then terminalIsPrefixFree terminal else pure false) true) fun _ => True := by
    refine Result.wp_foldlM (I := fun _ _ _ => True) (fun done terminal rest safe _ => ?_) []
      terminals true trivial
    split
    · obtain ⟨free, hfree⟩ := exists_terminalIsPrefixFree terminal
      rw [hfree]
      trivial
    · trivial
  obtain ⟨prefixFree, hprefixFree, -⟩ := Result.exists_of_wp hwp
  cases prefixFree with
  | true =>
    obtain ⟨free, hfree⟩ := exists_overlapFree terminals
    exact ⟨free, Result.bind_eq_ok.2 ⟨true, hprefixFree, hfree⟩⟩
  | false => exact ⟨false, Result.bind_eq_ok.2 ⟨false, hprefixFree, rfl⟩⟩

/-! ### The whole construction -/

/-- The canonical states that `build` computes. -/
structure CanonicalRun (g : ResidualGrammar) (limits : CompileLimits) where
  root : ResidualNonterminal
  first : List TerminalSet
  initial : List Lr1Item
  states : CanonicalStates
  root_eq : g.nonterminals[g.start]? = some root
  first_eq : computeFirst g = .ok first
  initial_eq : closure (parserProductions g g.nonterminals.length root.provenance)
    (g.productionsByLhs ++ [[g.productions.length]]) g.nullable first limits
    [{ production := g.productions.length, dot := 0, lookahead := .eof }] = .ok initial
  states_eq : CanonicalStates.loop (parserProductions g g.nonterminals.length root.provenance)
    (g.productionsByLhs ++ [[g.productions.length]]) g.nullable first limits
    (limits.maxLrStates + 1)
    { canonical := [initial], queue := [0], transitions := [], totalItems := initial.length } =
      .ok states

/-- The merged states that `build` computes. -/
structure MergedRun (g : ResidualGrammar)
    (limits : CompileLimits) extends CanonicalRun g limits where
  merged : List (List Lr1Item)
  mapping : List ℕ
  transitions : Transitions
  merged_eq : mergeCores limits states.canonical = .ok (merged, mapping)
  transitions_eq : states.transitions.foldlM (mergeTransition mapping) ∅ = .ok transitions

section Run

variable {g : ResidualGrammar} {limits : CompileLimits}

theorem indexed_of_computeFirst (hg : g.WellFormed) (hindex : g.IndexExact)
    {first : List TerminalSet} (h : computeFirst g = .ok first) : Indexed g first := by
  obtain ⟨first', hfirst', hlen⟩ := exists_computeFirst hg
  obtain rfl := Except.ok.inj (h.symm.trans hfirst')
  exact ⟨hg, hindex, hlen⟩

theorem Indexed.wp_states {first : List TerminalSet} (hp : Indexed g first)
    (provenance : Provenance) {initial : List Lr1Item} (hinitial : ItemsInRange g initial) :
    Result.wp (Fails g) (CanonicalStates.loop (parserProductions g g.nonterminals.length provenance)
      (g.productionsByLhs ++ [[g.productions.length]]) g.nullable first limits
        (limits.maxLrStates + 1)
      { canonical := [initial], queue := [0], transitions := [], totalItems := initial.length })
      fun states => CanonicalStates.Discovered g first provenance limits (fun _ _ => False) states ∧
        states.queue = [] := by
  refine CanonicalStates.Discovered.wp_loop hp
    ⟨fun items hitems => ?_, fun c hc => ?_, by simp, fun c items item X hc _ _ => .inl ?_⟩ ?_
  · exact List.mem_singleton.1 hitems ▸ hinitial
  · exact List.mem_singleton.1 hc ▸ Nat.one_pos
  · have := (List.getElem?_eq_some_iff.1 hc).1
    simpa using this
  · simp only [List.length_singleton]
    omega

theorem Indexed.wp_initial {first : List TerminalSet} (hp : Indexed g first)
    (provenance : Provenance) :
    Result.wp (Fails g) (closure (parserProductions g g.nonterminals.length provenance)
      (g.productionsByLhs ++ [[g.productions.length]]) g.nullable first limits
      [{ production := g.productions.length, dot := 0, lookahead := .eof }]) (ItemsInRange g) :=
  hp.wp_closure fun item hitem => by
    obtain rfl := List.mem_singleton.1 hitem
    exact le_rfl

theorem CanonicalRun.discovered (hg : g.WellFormed) (hindex : g.IndexExact)
    (run : CanonicalRun g limits) :
    CanonicalStates.Discovered g run.first run.root.provenance limits (fun _ _ => False)
      run.states ∧
      run.states.queue = [] := by
  have hp := indexed_of_computeFirst hg hindex run.first_eq
  have hinitial := Result.wp_ok (hp.wp_initial run.root.provenance) run.initial_eq
  have hstates := Result.wp_ok (hp.wp_states run.root.provenance hinitial) run.states_eq
  exact hstates

/-- The merged states have the transitions that their items need. -/
theorem MergedRun.hasTransitions (hg : g.WellFormed) (hindex : g.IndexExact)
    (run : MergedRun g limits) {q : ℕ} {items : List Lr1Item} (hq : run.merged[q]? = some items) :
    ItemsInRange g items ∧ HasTransitions g run.transitions q items := by
  obtain ⟨hI, hqueue⟩ := run.discovered hg hindex
  have hmerged := mergeCores_spec run.merged_eq
  constructor
  · intro item hitem
    obtain ⟨c, state, -, hstate, hitem⟩ := (hmerged.mem_iff hq item).1 hitem
    exact hI.inRange state (List.mem_of_getElem? hstate) item hitem
  · intro item hitem X hX
    obtain ⟨c, state, hc, hstate, hitem⟩ := (hmerged.mem_iff hq item).1 hitem
    obtain ⟨id, hedge⟩ : ∃ id, ((c, X), id) ∈ run.states.transitions := by
      rcases hI.complete c state item X hstate hitem hX with hwait | hwait | hedge
      · rw [hqueue] at hwait
        cases hwait
      · exact hwait.elim
      · exact hedge
    obtain ⟨_, target, -, htarget, -⟩ := hI.edge hedge
    have hlt := (List.getElem?_eq_some_iff.1 htarget).1
    rw [← hmerged.length_mapping] at hlt
    exact ⟨_, (mergeTransition_spec run.transitions_eq).2
      ⟨c, id, hedge, hc, List.getElem?_eq_getElem hlt⟩⟩

/-- The table that `build` returns. -/
theorem wp_build (hg : g.WellFormed) (hindex : g.IndexExact) (limits : CompileLimits) :
    Result.wp (Fails g) (CompiledLalr.build g limits) fun compiled => ∃ run : MergedRun g limits,
      compiled.table.Sorted ∧ (compiled.conflicts = [] ↔ ∀ q items, run.merged[q]? = some items →
        Agree g run.transitions q items) := by
  obtain ⟨first, hfirst, -⟩ := exists_computeFirst hg
  have hp := indexed_of_computeFirst hg hindex hfirst
  obtain ⟨root, hroot⟩ : ∃ root, g.nonterminals[g.start]? = some root :=
    ⟨_, List.getElem?_eq_getElem hg.start_lt⟩
  unfold CompiledLalr.build
  dsimp only
  rw [Result.wp_bind]
  refine wp_require_limit fun _ => ?_
  rw [hroot, Result.wp_bind, Result.wp_unwrap_some, Result.wp_bind]
  refine wp_require_limit fun _ => ?_
  rw [hfirst]
  change Result.wp _ (closure _ _ _ _ _ _ >>= _) _
  rw [Result.wp_bind]
  refine Result.wp_self (Result.wp_mono (hp.wp_initial root.provenance)
    fun initial hrange hinitial => ?_)
  rw [Result.wp_bind]
  refine Result.wp_self (Result.wp_mono (hp.wp_states root.provenance hrange)
    fun states hI hstates => ?_)
  rw [Result.wp_bind]
  refine Result.wp_self (Result.wp_mono (wp_mergeCores g limits states.canonical)
    fun merged _ hmerged => ?_)
  obtain ⟨transitions, htransitions, -⟩ := Result.exists_of_wp (hI.1.wp_mergeTransition hmerged)
  rw [htransitions]
  change Result.wp _ (buildTable _ _ _ _ _ >>= _) _
  let run : MergedRun g limits := ⟨⟨root, first, initial, states, hroot, hfirst, hinitial, hstates⟩,
    merged.1, merged.2, transitions, hmerged, htransitions⟩
  have htrans := fun {q : ℕ} {items : List Lr1Item} (hq : run.merged[q]? = some items) =>
    run.hasTransitions hg hindex hq
  rw [Result.wp_bind]
  refine Result.wp_self (Result.wp_mono (wp_buildTable (fun items hitems => ?_)
    fun q items hq => (htrans hq).2) fun table htable hbuild => ?_)
  · obtain ⟨q, hq⟩ := List.mem_iff_getElem?.1 hitems
    exact (htrans hq).1
  · obtain ⟨safe, hsafe⟩ := exists_lexicalSafety g.terminals
    rw [hsafe]
    refine ⟨run, htable.1, fun hnone q items hq => ?_, htable.2⟩
    -- without conflicts the row of a state has only one entry for a lookahead
    obtain ⟨-, haction, -⟩ := buildTable_spec (fun hq => (htrans hq).1) hbuild hnone
    intro item hitem item' hitem' lookahead action action' hasks hasks'
    have h := (haction q lookahead action).2 ⟨items, hq, item, hitem, hasks⟩
    have h' := (haction q lookahead action').2 ⟨items, hq, item', hitem', hasks'⟩
    exact Option.some.inj (h.symm.trans h')

end Run

/-- **Totality.**  On a grammar with ids in range the construction of the tables fails at a limit
only, or at a production with more symbols than a dot can count.  States with equal cores have
successors with equal cores, all transitions that the table asks for exist, and a conflict is
reported exactly when two items of a state ask for different actions. -/
theorem lalr_total {g : ResidualGrammar} (hg : g.WellFormed) (hindex : g.IndexExact)
    (limits : CompileLimits) :
    (∀ e, CompiledLalr.build g limits = .error e → e.IsLimit ∨
      e = .internalInvariant "LR item dot overflowed" ∧
        ∃ production ∈ g.productions, u32Max < production.rhs.length) ∧
    (∀ (run : CanonicalRun g limits) (c c' id : ℕ) X items items' target,
      run.states.canonical[c]? = some items → run.states.canonical[c']? = some items' →
      MergedCores.core items = MergedCores.core items' →
      ((c, X), id) ∈ run.states.transitions → run.states.canonical[id]? = some target →
      ∃ id' target', ((c', X), id') ∈ run.states.transitions ∧
        run.states.canonical[id']? = some target' ∧
        MergedCores.core target = MergedCores.core target') ∧
    (∀ (run : CanonicalRun g limits) merged, mergeCores limits run.states.canonical = .ok merged →
      ∃ transitions, run.states.transitions.foldlM (mergeTransition merged.2) ∅ = .ok transitions) ∧
    (∀ (run : MergedRun g limits) q items, run.merged[q]? = some items →
      HasTransitions g run.transitions q items) ∧
    ∀ compiled, CompiledLalr.build g limits = .ok compiled → ∃ run : MergedRun g limits,
      compiled.table.Sorted ∧ (compiled.conflicts = [] ↔ ∀ q items, run.merged[q]? = some items →
        Agree g run.transitions q items) := by
  have hbuild := wp_build hg hindex limits
  refine ⟨fun e he => ?_, ?_, fun run merged hmerged => ?_,
    fun run q items hq => (run.hasTransitions hg hindex hq).2, fun compiled hcompiled => ?_⟩
  · have hfails := Result.wp_error hbuild he
    exact hfails
  · intro run c c' id X items items' target hc hc' hcore hedge hid
    obtain ⟨hI, hqueue⟩ := run.discovered hg hindex
    -- an item of the second state has the symbol behind its dot, too
    obtain ⟨_, _, h₁, -, -, item, hitem, hX⟩ := hI.edge hedge
    obtain rfl := Option.some.inj (h₁.symm.trans hc)
    obtain ⟨item', hitem', hp, hdot⟩ := (core_eq_iff.1 hcore).1 item hitem
    rw [← hp, ← hdot] at hX
    obtain ⟨id', hedge'⟩ : ∃ id', ((c', X), id') ∈ run.states.transitions := by
      rcases hI.complete c' items' item' X hc' hitem' hX with hwait | hwait | hedge'
      · rw [hqueue] at hwait
        cases hwait
      · exact hwait.elim
      · exact hedge'
    obtain ⟨_, target', -, hid', -⟩ := hI.edge hedge'
    exact ⟨id', target', hedge', hid', hI.core_edge hedge hedge' hc hc' hid hid' hcore⟩
  · obtain ⟨transitions, htransitions, -⟩ :=
      Result.exists_of_wp ((run.discovered hg hindex).1.wp_mergeTransition hmerged)
    exact ⟨transitions, htransitions⟩
  · have hresult := Result.wp_ok hbuild hcompiled
    exact hresult

theorem lalr_total_rightRecursive :
    ∃ run : MergedRun rightRecursive .default, rightRecursiveLalr.table.Sorted ∧
      (rightRecursiveLalr.conflicts = [] ↔ ∀ q items, run.merged[q]? = some items →
        Agree rightRecursive run.transitions q items) :=
  (lalr_total rightRecursive.wellFormed rightRecursive.indexExact .default).2.2.2.2
    rightRecursiveLalr rightRecursive.build_lalr_eq

/-! ### A production that is too long -/

/-- The only production names its own left-hand side `n` times. -/
def longRule (n : ℕ) : ResidualGrammar where
  start := 0
  nonterminals := [{ id := 0, original := 0, name := "n0", provenance := .root }]
  terminals := []
  terminalProvenance := []
  productions := [
    { id := 0, original := 0, lhs := 0, rhs := List.replicate n (.nonterminal 0),
      provenance := .root }]
  productionsByLhs := [[0]]
  nullable := [false]
  productiveSuffixes := [List.replicate n false ++ [true]]
  collapsedNonterminals := 0
  collapsedRegions := 0
  terminalDfaStates := 0
  terminalDfaBytes := 0

/-- Limits that leave room for all states and items. -/
def highLimits : CompileLimits :=
  { CompileLimits.default with maxLrStates := usizeMax, maxLrItems := usizeMax }

namespace longRule

variable {n k : ℕ}

theorem wellFormed (n : ℕ) : (longRule n).WellFormed := by
  refine ⟨Nat.one_pos, fun p hp => ?_, fun p hp s hs => ?_, rfl⟩
  · obtain rfl := List.mem_singleton.1 hp
    exact Nat.one_pos
  · obtain rfl := List.mem_singleton.1 hp
    obtain rfl := List.eq_of_mem_replicate hs
    exact Nat.one_pos

theorem indexExact (n : ℕ) : (longRule n).IndexExact := by
  refine ⟨rfl, fun {A ids} h p => ?_⟩
  cases A with
  | zero =>
    obtain rfl : [0] = ids := Option.some.inj h
    cases p with
    | zero => simp [longRule]
    | succ p => simp [longRule]
  | succ A => cases h

theorem computeFirst_eq (hn : 0 < n) : computeFirst (longRule n) = .ok [.new 0] := by
  obtain ⟨m, rfl⟩ := Nat.exists_eq_succ_of_ne_zero hn.ne'
  simp [computeFirst, FirstPass.passes, FirstPass.production, FirstPass.rhs, longRule,
    List.replicate_succ, TerminalSet.new, TerminalSet.unionWithoutEpsilon, Result.unwrap]

/-! The states of the grammar, one for each place of the dot. -/

/-- The productions of the grammar with one rule of that length. -/
abbrev productions (n : ℕ) : List ParserProduction := parserProductions (longRule n) 1 .root

theorem symbolAfterDot_eq (hk : k < n) :
    symbolAfterDot (productions n) ⟨0, k, .eof⟩ = .ok (some (.nonterminal 0)) := by
  refine symbolAfterDot_eq_ok.2 ⟨_, rfl, ?_⟩
  exact List.getElem?_replicate_of_lt hk

theorem closureStep_eq (hk : k + 1 < n) :
    closureStep (productions n) [[0], [1]] [false] [.new 0] ⟨0, k, .eof⟩ = .ok [] := by
  unfold closureStep
  rw [symbolAfterDot_eq (by omega)]
  obtain ⟨m, hm⟩ : ∃ m, n - (k + 1) = m + 1 := ⟨n - (k + 1) - 1, by omega⟩
  have hfirst : firstOfTail (productions n) [false] [.new 0] ⟨0, k, .eof⟩ = .ok [] := by
    refine Result.bind_eq_ok.2 ⟨_, Result.unwrap_eq_ok.2 rfl, Result.bind_eq_ok.2
      ⟨(), Result.require_eq_ok.2 ?_, Result.bind_eq_ok.2 ⟨[], ?_, rfl⟩⟩⟩
    · change k + 1 ≤ (List.replicate n _).length
      rw [List.length_replicate]
      omega
    · change firstOfSymbols _ _ _ ((List.replicate n (.nonterminal 0)).drop (k + 1)) = _
      rw [List.drop_replicate, hm]
      rfl
  change (firstOfTail _ _ _ _ >>= _) = _
  rw [hfirst]
  rfl

/-- The items with the dot behind `k` symbols. -/
def stateAt : ℕ → List Lr1Item
  | 0 => [⟨0, 0, .eof⟩, ⟨1, 0, .eof⟩]
  | 1 => [⟨0, 1, .eof⟩, ⟨1, 1, .eof⟩]
  | k + 2 => [⟨0, k + 2, .eof⟩]

theorem stateAt_injective : Function.Injective stateAt := by
  have hdot : ∀ k, (stateAt k).head?.map Lr1Item.dot = some k
    | 0 => rfl
    | 1 => rfl
    | k + 2 => rfl
  intro k k' h
  have hk := hdot k
  rw [h, hdot k'] at hk
  exact (Option.some.inj hk).symm


theorem explore_nil {limits : CompileLimits} {M : ℕ} {queue seen : List Lr1Item}
    (hstep : ∀ item ∈ queue, closureStep (productions n) [[0], [1]] [false] [.new 0] item = .ok [])
    (hM : queue.length ≤ M) :
    Worklist.explore (closureStep (productions n) [[0], [1]] [false] [.new 0])
      (fun observed => enforceCompileLimit .lrConstruction observed limits.maxLrItems)
      .diverged M queue seen = .ok seen := by
  induction queue generalizing M with
  | nil => cases M <;> rfl
  | cons item queue ih =>
    rw [List.forall_mem_cons] at hstep
    cases M with
    | zero => cases hM
    | succ M =>
      unfold Worklist.explore
      rw [hstep.1]
      exact ih hstep.2 (Nat.le_of_succ_le_succ hM)

/-- Items that ask for nothing are a state. -/
theorem closure_eq {items : List Lr1Item} {limits : CompileLimits}
    (hstep : ∀ item ∈ items, closureStep (productions n) [[0], [1]] [false] [.new 0] item = .ok [])
    (hsorted : sortDedup Lr1Item.key items = items) :
    closure (productions n) [[0], [1]] [false] [.new 0] limits items = .ok items := by
  unfold closure
  dsimp only
  rw [hsorted, explore_nil hstep (Nat.le_add_right _ _)]
  exact congrArg Except.ok hsorted

theorem closureStep_augmented :
    closureStep (productions n) [[0], [1]] [false] [.new 0] ⟨1, 1, .eof⟩ = .ok [] := rfl

theorem initial_eq {limits : CompileLimits} (hn : 1 < n) (hlimit : 2 ≤ limits.maxLrItems) :
    closure (productions n) [[0], [1]] [false]
      [.new 0] limits [⟨1, 0, .eof⟩] = .ok (stateAt 0) := by
  have hstep : closureStep (productions n) [[0], [1]] [false] [.new 0] ⟨1, 0, .eof⟩ =
      .ok [⟨0, 0, .eof⟩] := rfl
  have hvisit : Worklist.visit (fun observed =>
      enforceCompileLimit .lrConstruction observed limits.maxLrItems) [] [⟨1, 0, .eof⟩]
      [(⟨0, 0, .eof⟩ : Lr1Item)] = .ok ([⟨0, 0, .eof⟩], [⟨1, 0, .eof⟩, ⟨0, 0, .eof⟩]) := by
    have hcheck : enforceCompileLimit .lrConstruction 2 limits.maxLrItems = .ok () :=
      Result.require_eq_ok.2 hlimit
    change (enforceCompileLimit .lrConstruction 2 limits.maxLrItems >>= _) = _
    rw [hcheck]
    rfl
  have hexplore : Worklist.explore (closureStep (productions n) [[0], [1]] [false] [.new 0])
      (fun observed => enforceCompileLimit .lrConstruction observed limits.maxLrItems)
      .diverged (1 + limits.maxLrItems) [⟨1, 0, .eof⟩] [⟨1, 0, .eof⟩] =
        .ok [⟨1, 0, .eof⟩, ⟨0, 0, .eof⟩] := by
    rw [Nat.add_comm]
    unfold Worklist.explore
    rw [hstep, Result.bind_eq_ok]
    refine ⟨_, rfl, Result.bind_eq_ok.2 ⟨_, hvisit, explore_nil (fun item hitem => ?_) ?_⟩⟩
    · obtain rfl := List.mem_singleton.1 hitem
      exact closureStep_eq hn
    · exact (Nat.le_succ 1).trans hlimit
  unfold closure
  change (Worklist.explore _ _ _ _ _ _ >>= _) = _
  refine Result.bind_eq_ok.2 ⟨_, hexplore, ?_⟩
  rfl

theorem moveItem_eq (hk : k < n) (hdot : k + 1 ≤ u32Max) (moved : List Lr1Item) :
    moveItem (productions n) (.nonterminal 0) moved ⟨0, k, .eof⟩ =
      .ok (moved ++ [⟨0, k + 1, .eof⟩]) := by
  unfold moveItem
  rw [symbolAfterDot_eq hk]
  exact Result.bind_eq_ok.2 ⟨_, rfl, Result.bind_eq_ok.2 ⟨(), Result.require_eq_ok.2 hdot, rfl⟩⟩

/-- The next state. -/
theorem goto_eq {limits : CompileLimits} (hk : k + 2 < n) (hdot : k + 1 ≤ u32Max) :
    goto (productions n) [[0], [1]] [false] [.new 0] limits (stateAt k) (.nonterminal 0) =
      .ok (stateAt (k + 1)) := by
  have hmove := moveItem_eq (Nat.lt_of_succ_lt (Nat.lt_of_succ_lt hk)) hdot []
  have hstep := closureStep_eq hk
  have hclosure : ∀ item ∈ stateAt (k + 1),
      closureStep (productions n) [[0], [1]] [false] [.new 0] item = .ok [] := by
    intro item hitem
    cases k with
    | zero =>
      rcases List.mem_cons.1 hitem with rfl | hitem
      · exact hstep
      · obtain rfl := List.mem_singleton.1 hitem
        exact closureStep_augmented
    | succ k =>
      obtain rfl := List.mem_singleton.1 hitem
      exact hstep
  have hsorted : sortDedup Lr1Item.key (stateAt (k + 1)) = stateAt (k + 1) := by
    cases k <;> rfl
  refine Result.bind_eq_ok.2 ⟨stateAt (k + 1), ?_, closure_eq hclosure hsorted⟩
  rcases k with _ | _ | k <;>
  · change (moveItem _ _ _ _ >>= _) = _
    rw [hmove]
    rfl

theorem goto_error {limits : CompileLimits} (hn : u32Max < n) :
    goto (productions n) [[0], [1]] [false] [.new 0] limits (stateAt u32Max) (.nonterminal 0) =
      .error (.internalInvariant "LR item dot overflowed") := by
  have hstate : stateAt u32Max = [⟨0, u32Max, .eof⟩] := rfl
  have hmove : moveItem (productions n) (.nonterminal 0) [] ⟨0, u32Max, .eof⟩ =
      .error (.internalInvariant "LR item dot overflowed") := by
    unfold moveItem
    rw [symbolAfterDot_eq hn]
    rfl
  rw [hstate]
  unfold goto
  change (moveItem _ _ _ _ >>= _) >>= _ = _
  rw [hmove]
  rfl

theorem symbols_eq (hk : k < n) : ∃ symbols, (stateAt k).foldlM (fun symbols item => do
      let next ← symbolAfterDot (productions n) item
      pure (symbols ++ next.toList)) [] = .ok symbols ∧
    sortDedup symbolKey symbols = [.nonterminal 0] := by
  have hsymbol := symbolAfterDot_eq hk
  rcases k with _ | _ | k
  · refine ⟨[.nonterminal 0, .nonterminal 0],
      Result.bind_eq_ok.2 ⟨[.nonterminal 0], ?_, rfl⟩, rfl⟩
    exact Result.bind_eq_ok.2 ⟨_, hsymbol, rfl⟩
  · refine ⟨[.nonterminal 0], Result.bind_eq_ok.2 ⟨[.nonterminal 0], ?_, rfl⟩, rfl⟩
    exact Result.bind_eq_ok.2 ⟨_, hsymbol, rfl⟩
  · refine ⟨[.nonterminal 0], Result.bind_eq_ok.2 ⟨_, ?_, rfl⟩, rfl⟩
    exact Result.bind_eq_ok.2 ⟨_, hsymbol, rfl⟩

/-- The states up to `k`. -/
def chain (k : ℕ) : List (List Lr1Item) := (List.range (k + 1)).map stateAt

theorem chain_succ (k : ℕ) : chain (k + 1) = chain k ++ [stateAt (k + 1)] := by
  rw [chain, List.range_succ, List.map_append]
  rfl

theorem chain_getElem? (k : ℕ) : (chain k)[k]? = some (stateAt k) := by
  simp [chain]

theorem idxOf?_chain (k : ℕ) : (chain k).idxOf? (stateAt (k + 1)) = none := by
  rw [List.idxOf?_eq_none_iff]
  intro hmem
  obtain ⟨i, hi, heq⟩ := List.mem_map.1 hmem
  have := stateAt_injective heq
  have := List.mem_range.1 hi
  omega

theorem length_stateAt_le (k : ℕ) : (stateAt k).length ≤ 2 := by
  rcases k with _ | _ | k <;> simp [stateAt]

theorem stateId_eq {total : ℕ} {transitions : List ((ℕ × GrammarSymbol) × ℕ)}
    (hk : k + 1 ≤ u32Max) (htotal : total ≤ 2 * (k + 1)) :
    CanonicalStates.stateId highLimits ⟨chain k, [], transitions, total⟩ (stateAt (k + 1)) =
      .ok (⟨chain (k + 1), [k + 1], transitions, total + (stateAt (k + 1)).length⟩, k + 1) := by
  have hlength : (chain k).length = k + 1 := by simp [chain]
  have hstate := length_stateAt_le (k + 1)
  unfold u32Max at hk
  unfold CanonicalStates.stateId
  dsimp only
  rw [idxOf?_chain, hlength, chain_succ]
  refine Result.bind_eq_ok.2 ⟨(), Result.require_eq_ok.2 ?_, Result.bind_eq_ok.2
    ⟨(), Result.require_eq_ok.2 ?_, Result.bind_eq_ok.2 ⟨(), Result.require_eq_ok.2 ?_,
      Result.bind_eq_ok.2 ⟨(), Result.require_eq_ok.2 hk, rfl⟩⟩⟩⟩
  · exact min_le_right _ _
  · unfold usizeMax
    omega
  · change _ ≤ usizeMax
    unfold usizeMax
    omega

/-- What the loop does with the state at the end of the chain. -/
theorem loop_succ {fuel total : ℕ} {transitions : List ((ℕ × GrammarSymbol) × ℕ)} (hk : k < n) :
    CanonicalStates.loop (productions n) [[0], [1]] [false] [.new 0] highLimits (fuel + 1)
      ⟨chain k, [k], transitions, total⟩ =
    CanonicalStates.transition (productions n) [[0], [1]] [false] [.new 0] highLimits k (stateAt k)
      ⟨chain k, [], transitions, total⟩ (.nonterminal 0) >>=
    CanonicalStates.loop (productions n) [[0], [1]] [false] [.new 0] highLimits fuel := by
  obtain ⟨symbols, hsymbols, hsorted⟩ : ∃ symbols, _ = pure symbols ∧ _ := symbols_eq hk
  -- the kernel unfolds the loop once; its text is that of `CanonicalStates.loop`
  have hloop : CanonicalStates.loop (productions n) [[0], [1]] [false] [.new 0] highLimits
      (fuel + 1) ⟨chain k, [k], transitions, total⟩ = (do
        let items ← Result.unwrap (chain k)[k]? .panicked
        let symbols ← items.foldlM (fun symbols item => do
          let next ← symbolAfterDot (productions n) item
          pure (symbols ++ next.toList)) []
        let states ← (sortDedup symbolKey symbols).foldlM
          (CanonicalStates.transition (productions n) [[0], [1]] [false] [.new 0] highLimits k
            items) ⟨chain k, [], transitions, total⟩
        CanonicalStates.loop (productions n) [[0], [1]] [false] [.new 0] highLimits fuel
          states) := rfl
  rw [hloop, chain_getElem?]
  dsimp only [Result.unwrap, Result.pure_bind_eq]
  rw [hsymbols, pure_bind, hsorted, List.foldlM_cons, bind_assoc]
  rfl

/-- A state is found behind another one until the dot stops being a `u32`. -/
theorem loop_error (hn : u32Max + 2 < n) (m : ℕ) {fuel total : ℕ}
    {transitions : List ((ℕ × GrammarSymbol) × ℕ)} (hk : k + m = u32Max) (hfuel : m < fuel)
    (htotal : total ≤ 2 * (k + 1)) :
    CanonicalStates.loop (productions n) [[0], [1]] [false] [.new 0] highLimits fuel
      ⟨chain k, [k], transitions, total⟩ = .error
        (.internalInvariant "LR item dot overflowed") := by
  induction m generalizing k fuel total transitions with
  | zero =>
    obtain rfl : k = u32Max := hk
    obtain ⟨fuel, rfl⟩ := Nat.exists_eq_succ_of_ne_zero (Nat.ne_zero_of_lt hfuel)
    rw [loop_succ (by omega)]
    unfold CanonicalStates.transition
    rw [goto_error (by omega)]
    rfl
  | succ m ih =>
    obtain ⟨fuel, rfl⟩ := Nat.exists_eq_succ_of_ne_zero (Nat.ne_zero_of_lt hfuel)
    have hdot : k + 1 ≤ u32Max := by omega
    have hstate := length_stateAt_le (k + 1)
    have htransition : CanonicalStates.transition (productions n) [[0], [1]] [false] [.new 0]
        highLimits k (stateAt k) ⟨chain k, [], transitions, total⟩ (.nonterminal 0) =
        .ok ⟨chain (k + 1), [k + 1], transitions ++ [((k, .nonterminal 0), k + 1)],
          total + (stateAt (k + 1)).length⟩ :=
      Result.bind_eq_ok.2 ⟨_, goto_eq (by omega) hdot, Result.bind_eq_ok.2
        ⟨_, stateId_eq hdot htotal, rfl⟩⟩
    rw [loop_succ (by omega), htransition]
    exact ih (by omega) (Nat.lt_of_succ_lt_succ hfuel) (by omega)

theorem build_error (hn : u32Max + 2 < n) :
    CompiledLalr.build (longRule n) highLimits =
      .error (.internalInvariant "LR item dot overflowed") := by
  have hinitial : closure (productions n) [[0], [1]] [false] [.new 0] highLimits
      [⟨1, 0, .eof⟩] = .ok (stateAt 0) := initial_eq (by omega) (by decide)
  have hloop : CanonicalStates.loop (productions n) [[0], [1]] [false] [.new 0] highLimits
      (highLimits.maxLrStates + 1) ⟨chain 0, [0], [], (stateAt 0).length⟩ =
        .error (.internalInvariant "LR item dot overflowed") :=
    loop_error hn u32Max (Nat.zero_add _) (by decide) (by decide)
  unfold CompiledLalr.build
  rw [computeFirst_eq (by omega)]
  change (closure (productions n) [[0], [1]] [false] [.new 0] highLimits [⟨1, 0, .eof⟩] >>= _) = _
  rw [hinitial]
  change (CanonicalStates.loop (productions n) [[0], [1]] [false] [.new 0] highLimits
    (highLimits.maxLrStates + 1) ⟨chain 0, [0], [], (stateAt 0).length⟩ >>= _) = _
  rw [hloop]
  rfl

end longRule

/-- A production with `2 ^ 33` symbols is well-formed, but its dot overflows. -/
theorem lalr_total_longRule :
    (longRule (2 ^ 33)).WellFormed ∧ (longRule (2 ^ 33)).IndexExact ∧
      CompiledLalr.build (longRule (2 ^ 33)) highLimits =
        .error (.internalInvariant "LR item dot overflowed") :=
  ⟨longRule.wellFormed _, longRule.indexExact _, longRule.build_error (by decide)⟩

end OcEarley
