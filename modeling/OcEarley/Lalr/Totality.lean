import OcEarley.Lalr.Cores
import OcEarley.Lalr.Table

/-!
# The steps of the construction

No step of the construction panics on a grammar with ids in range.  Each has a lemma on how it fails
and what it returns: the canonical states with all their transitions (`Discovered.wp_loop`), merging
(`Discovered.wp_mergeTransition`) and the table (`wp_buildTable`).
-/

namespace OcEarley

open CompiledLalr

/-- What the construction of the states needs so that it does not panic. -/
structure Indexed (g : ResidualGrammar) (first : List TerminalSet) : Prop where
  wellFormed : g.WellFormed
  indexExact : g.IndexExact
  length : first.length = g.nonterminals.length

/-- The items are of productions that exist. -/
def ItemsInRange (g : ResidualGrammar) (items : List Lr1Item) : Prop :=
  ∀ item ∈ items, item.production ≤ g.productions.length

/-! ### Items -/

namespace Indexed

variable {g : ResidualGrammar} {first : List TerminalSet} {provenance : Provenance}
  {limits : CompileLimits} {item : Lr1Item} {items seed : List Lr1Item}

theorem exists_firstOfSymbols (hp : Indexed g first) (lookahead : Lookahead)
    {β : List GrammarSymbol} (hβ : ∀ s ∈ β, g.SymbolInRange s) :
    ∃ l, firstOfSymbols g.nullable first lookahead β = .ok l := by
  induction β with
  | nil => exact ⟨_, rfl⟩
  | cons X β ih =>
    rw [List.forall_mem_cons] at hβ
    cases X with
    | terminal t => exact ⟨_, rfl⟩
    | nonterminal A =>
      have hA : A < g.nonterminals.length := hβ.1
      obtain ⟨rest, hrest⟩ := ih hβ.2
      unfold firstOfSymbols
      rw [List.getElem?_eq_getElem (hp.length ▸ hA),
        List.getElem?_eq_getElem (hp.wellFormed.nullable_length ▸ hA), hrest]
      dsimp only [Result.unwrap, Result.pure_bind_eq]
      split
      · exact ⟨_, rfl⟩
      · exact ⟨_, rfl⟩

theorem exists_starts (hp : Indexed g first) {A : ℕ} (hA : A < g.nonterminals.length) :
    ∃ starts, (g.productionsByLhs ++ [[g.productions.length]])[A]? = some starts ∧
      ∀ p ∈ starts, p < g.productions.length := by
  have hlt : A < g.productionsByLhs.length := hp.indexExact.length_eq ▸ hA
  refine ⟨_, (List.getElem?_append_left hlt).trans (List.getElem?_eq_getElem hlt), fun p hmem => ?_⟩
  obtain ⟨production, hproduction, -⟩ :=
    (hp.indexExact.mem_iff (List.getElem?_eq_getElem hlt) p).1 hmem
  exact (List.getElem?_eq_some_iff.1 hproduction).1

theorem wp_closureStep (hp : Indexed g first) (hitem : item.production ≤ g.productions.length) :
    Result.wp (fun _ => False) (closureStep (parserProductions g g.nonterminals.length provenance)
      (g.productionsByLhs ++ [[g.productions.length]]) g.nullable first item) (ItemsInRange g) := by
  have hlt : item.production < (parserProductions g g.nonterminals.length provenance).length := by
    simp only [parserProductions, List.length_append, List.length_map, List.length_singleton]
    omega
  have hproduction := List.getElem?_eq_getElem hlt
  obtain ⟨-, -, hrhs⟩ := parserProductions_getElem? hproduction
  unfold closureStep
  rw [(symbolAfterDot_iff hitem).2 rfl]
  cases hnext : (g.lrGrammar.rhs item.production)[item.dot]? with
  | none => exact fun item' hitem' => absurd hitem' List.not_mem_nil
  | some X =>
    cases X with
    | terminal t => exact fun item' hitem' => absurd hitem' List.not_mem_nil
    | nonterminal A =>
      have hA : A < g.nonterminals.length :=
        hp.wellFormed.lrGrammar_inRange _ _ (List.mem_of_getElem? hnext)
      obtain ⟨found, hfound⟩ := hp.exists_firstOfSymbols item.lookahead
        (hp.wellFormed.rest_inRange item.production (item.dot + 1))
      obtain ⟨starts, hstarts, hmem⟩ := hp.exists_starts hA
      have hdot := (List.getElem?_eq_some_iff.1 hnext).1
      have hfirst : firstOfTail (parserProductions g g.nonterminals.length provenance) g.nullable
          first item = .ok (sortDedup Lookahead.key found) := by
        refine Result.bind_eq_ok.2 ⟨_, Result.unwrap_eq_ok.2 hproduction, Result.bind_eq_ok.2
          ⟨(), Result.require_eq_ok.2 (hrhs ▸ hdot), Result.bind_eq_ok.2 ⟨found, ?_, rfl⟩⟩⟩
        rw [hrhs]
        exact hfound
      change Result.wp _ (firstOfTail _ _ _ _ >>= _) _
      rw [hfirst, hstarts]
      intro item' hitem'
      simp only [List.mem_flatMap, List.mem_map] at hitem'
      obtain ⟨p, hpstarts, lookahead, -, rfl⟩ := hitem'
      exact (hmem p hpstarts).le

theorem wp_closure (hp : Indexed g first) (hseed : ItemsInRange g seed) :
    Result.wp (Fails g) (closure (parserProductions g g.nonterminals.length provenance)
      (g.productionsByLhs ++ [[g.productions.length]]) g.nullable first limits seed)
      (ItemsInRange g) := by
  have hstart : ∀ item ∈ sortDedup Lr1Item.key seed, item.production ≤ g.productions.length :=
    fun item hitem => hseed item (mem_sortDedup.1 hitem)
  have hstep : ∀ (item : Lr1Item) (l : List Lr1Item), item.production ≤ g.productions.length →
      closureStep (parserProductions g g.nonterminals.length provenance)
        (g.productionsByLhs ++ [[g.productions.length]]) g.nullable first item = .ok l →
      ∀ item' ∈ l, item'.production ≤ g.productions.length := by
    intro item l hitem hstep
    exact Result.wp_ok (hp.wp_closureStep hitem) hstep
  unfold closure
  rw [Result.wp_bind]
  cases hexplore : Worklist.explore
    (closureStep (parserProductions g g.nonterminals.length provenance)
      (g.productionsByLhs ++ [[g.productions.length]]) g.nullable first)
      (fun observed => enforceCompileLimit .lrConstruction observed limits.maxLrItems) .diverged
      ((sortDedup Lr1Item.key seed).length + limits.maxLrItems) (sortDedup Lr1Item.key seed)
      (sortDedup Lr1Item.key seed) with
  | ok result =>
    intro item hitem
    exact Worklist.explore_induction hexplore hstart hstart hstep item (mem_sortDedup.1 hitem)
  | error e =>
    have hcheck : ∀ n, enforceCompileLimit .lrConstruction n limits.maxLrItems = .ok () →
        n ≤ limits.maxLrItems := fun n hn => Result.require_eq_ok.1 hn
    rcases Worklist.explore_error_of_check hexplore hstart hstep hcheck (by omega) with
      ⟨item, hitem, h⟩ | ⟨n, h⟩
    · exact (Result.wp_error (hp.wp_closureStep hitem) h).elim
    · obtain ⟨-, rfl⟩ := Result.require_eq_error.1 h
      exact .inl trivial

theorem wp_goto (hp : Indexed g first) (hitems : ItemsInRange g items) (X : GrammarSymbol) :
    Result.wp (Fails g) (goto (parserProductions g g.nonterminals.length provenance)
      (g.productionsByLhs ++ [[g.productions.length]]) g.nullable first limits items X)
      (ItemsInRange g) := by
  unfold goto
  rw [Result.wp_bind]
  have hmoved := Result.wp_foldlM
    (I := fun (_ rest : List Lr1Item) moved => ItemsInRange g moved ∧ ItemsInRange g rest)
    (E := Fails g) (f := moveItem (parserProductions g g.nonterminals.length provenance) X) ?_
    [] items [] ⟨fun item hitem => absurd hitem List.not_mem_nil, hitems⟩
  · exact Result.wp_mono hmoved fun moved hmoved => hp.wp_closure hmoved.1
  · intro done item rest moved hI
    obtain ⟨hitem, hrest⟩ := List.forall_mem_cons.1 hI.2
    unfold moveItem
    rw [(symbolAfterDot_iff hitem).2 rfl]
    change Result.wp _ (if _ then _ else _) _
    split
    · next hX =>
      rw [Result.wp_bind, Result.wp_require]
      refine ⟨fun _ => ⟨fun item' hitem' => ?_, hrest⟩, fun hdot => .inr ⟨rfl, ?_⟩⟩
      · rcases List.mem_append.1 hitem' with hitem' | hitem'
        · exact hI.1 item' hitem'
        · exact List.mem_singleton.1 hitem' ▸ hitem
      · -- the augmented production has only one symbol
        have hlt := (List.getElem?_eq_some_iff.1 hX).1
        unfold ResidualGrammar.lrGrammar at hlt
        dsimp only at hlt
        split at hlt
        · next production hproduction =>
          exact ⟨production, List.mem_of_getElem? hproduction, by omega⟩
        · rw [List.length_singleton] at hlt
          unfold u32Max at hdot
          omega
    · exact ⟨hI.1, hrest⟩

end Indexed

/-! ### Canonical states -/

namespace CanonicalStates

variable {g : ResidualGrammar} {first : List TerminalSet} {provenance : Provenance}
  {limits : CompileLimits} {items target : List Lr1Item} {todo : ℕ → GrammarSymbol → Prop}
  {states states' : CanonicalStates} {state : ℕ} {X : GrammarSymbol}

/-- The items of the states exist, the states in the queue do, and the transitions
go where `goto` says. -/
structure Discovered (g : ResidualGrammar) (first : List TerminalSet) (provenance : Provenance)
    (limits : CompileLimits) (todo : ℕ → GrammarSymbol → Prop) (states : CanonicalStates) :
    Prop where
  inRange : ∀ items ∈ states.canonical, ItemsInRange g items
  queue_lt : ∀ c ∈ states.queue, c < states.canonical.length
  edge : ∀ {c X id}, ((c, X), id) ∈ states.transitions → ∃ items target,
    states.canonical[c]? = some items ∧ states.canonical[id]? = some target ∧
      goto (parserProductions g g.nonterminals.length provenance)
        (g.productionsByLhs ++ [[g.productions.length]]) g.nullable first limits items X =
          .ok target ∧
      ∃ item ∈ items, (g.lrGrammar.rhs item.production)[item.dot]? = some X
  complete : Complete g todo states

/-- What is found is queued, and within the limit. -/
structure Pushed (limits : CompileLimits) (states states' : CanonicalStates) : Prop where
  queue : states'.queue.length + states.canonical.length =
    states.queue.length + states'.canonical.length
  le : states'.canonical.length ≤ max limits.maxLrStates states.canonical.length

theorem Pushed.trans {a b c : CanonicalStates} (h : Pushed limits a b) (h' : Pushed limits b c) :
    Pushed limits a c := by
  have hab := h.queue
  have hbc := h'.queue
  have hb := h.le
  have hc := h'.le
  constructor <;> omega

theorem wp_stateId (limits : CompileLimits) (states : CanonicalStates) (target : List Lr1Item) :
    Result.wp (Fails g) (stateId limits states target) fun r => Pushed limits states r.1 := by
  unfold stateId
  split
  · exact ⟨rfl, le_max_right _ _⟩
  · rw [Result.wp_bind]
    refine wp_enforceCompileLimit fun hstates => ?_
    rw [Result.wp_bind]
    refine wp_require_limit fun _ => ?_
    rw [Result.wp_bind]
    refine wp_enforceCompileLimit fun _ => ?_
    rw [Result.wp_bind]
    refine wp_require_limit fun hid => ⟨?_, ?_⟩
    · simp only [List.length_append, List.length_singleton]
      omega
    · -- a 32-bit id is far from where the count saturates
      unfold saturatingAdd usizeMax at hstates
      unfold u32Max at hid
      simp only [List.length_append, List.length_singleton]
      omega

theorem Discovered.wp_transition (hp : Indexed g first)
    (hI : Discovered g first provenance limits todo states)
    (hitems : states.canonical[state]? = some items)
    (hX : ∃ item ∈ items, (g.lrGrammar.rhs item.production)[item.dot]? = some X) :
    Result.wp (Fails g) (transition (parserProductions g g.nonterminals.length provenance)
      (g.productionsByLhs ++ [[g.productions.length]]) g.nullable first limits state items states X)
      fun states' =>
        Discovered g first provenance limits (fun c Y => todo c Y ∧ ¬(c = state ∧ Y = X)) states' ∧
        states'.canonical[state]? = some items ∧ Pushed limits states states' := by
  unfold CanonicalStates.transition
  rw [Result.wp_bind]
  refine Result.wp_self (Result.wp_mono
    (hp.wp_goto (hI.inRange items (List.mem_of_getElem? hitems)) X)
    fun target htarget hgoto => ?_)
  rw [Result.wp_bind]
  refine Result.wp_self (Result.wp_mono (wp_stateId limits states target) fun r hpushed hid => ?_)
  obtain ⟨hfound, htrans, hcase⟩ := stateId_spec hid
  have hkeep : ∀ {c : ℕ} {items}, states.canonical[c]? = some items →
      r.1.canonical[c]? = some items := by
    intro c items hc
    rcases hcase with ⟨hcan, -⟩ | ⟨hcan, -⟩
    · rw [hcan, hc]
    · rw [hcan, getElem?_append_of_some hc]
  refine ⟨⟨fun items' hitems' => ?_, fun c hc => ?_, fun {c Y id} hedge => ?_,
    hI.complete.stateId hid⟩, hkeep hitems, ⟨hpushed.queue, hpushed.le⟩⟩
  · rcases hcase with ⟨hcan, -⟩ | ⟨hcan, -⟩ <;> simp only [hcan] at hitems'
    · exact hI.inRange items' hitems'
    · rcases List.mem_append.1 hitems' with hitems' | hitems'
      · exact hI.inRange items' hitems'
      · exact List.mem_singleton.1 hitems' ▸ htarget
  · rcases hcase with ⟨hcan, hqueue⟩ | ⟨hcan, hqueue⟩ <;> simp only [hcan, hqueue] at hc ⊢
    · exact hI.queue_lt c hc
    · rw [List.length_append, List.length_singleton]
      rcases List.mem_append.1 hc with hc | hc
      · exact (hI.queue_lt c hc).trans (Nat.lt_succ_self _)
      · exact List.mem_singleton.1 hc ▸ Nat.lt_succ_self _
  · rcases List.mem_append.1 hedge with hedge | hedge
    · rw [htrans] at hedge
      obtain ⟨items', target', hc, hid', hrest⟩ := hI.edge hedge
      exact ⟨items', target', hkeep hc, hkeep hid', hrest⟩
    · obtain ⟨⟨rfl, rfl⟩, rfl⟩ : (c = state ∧ Y = X) ∧ id = r.2 := by simpa using hedge
      exact ⟨items, target, hkeep hitems, hfound, hgoto, hX⟩

theorem Discovered.mono {todo' : ℕ → GrammarSymbol → Prop}
    (hI : Discovered g first provenance limits todo states)
    (h : ∀ c items item X, states.canonical[c]? = some items → item ∈ items →
      (g.lrGrammar.rhs item.production)[item.dot]? = some X → todo c X → todo' c X) :
    Discovered g first provenance limits todo' states :=
  { hI with
    complete := fun c items item X hc hitem hX =>
      (hI.complete c items item X hc hitem hX).imp_right
        (Or.imp_left (h c items item X hc hitem hX)) }

theorem Discovered.wp_transitions (hp : Indexed g first) {l : List GrammarSymbol}
    (hI : Discovered g first provenance limits (fun c _ => c = state) states)
    (hitems : states.canonical[state]? = some items)
    (hl : ∀ X ∈ l, ∃ item ∈ items, (g.lrGrammar.rhs item.production)[item.dot]? = some X) :
    Result.wp (Fails g) (l.foldlM (CanonicalStates.transition
      (parserProductions g g.nonterminals.length provenance)
      (g.productionsByLhs ++ [[g.productions.length]]) g.nullable first limits state items) states)
      fun states' =>
        Discovered g first provenance limits (fun c Y => c = state ∧ Y ∉ l) states' ∧
        states'.canonical[state]? = some items ∧ Pushed limits states states' := by
  refine Result.wp_mono (Result.wp_foldlM (I := fun done rest states' =>
    (∀ X ∈ rest, ∃ item ∈ items, (g.lrGrammar.rhs item.production)[item.dot]? = some X) ∧
      Discovered g first provenance limits (fun c Y => c = state ∧ Y ∉ done) states' ∧
      states'.canonical[state]? = some items ∧ Pushed limits states states') ?_ [] l states
    ⟨hl, hI.mono fun _ _ _ _ _ _ _ h => ⟨h, List.not_mem_nil⟩, hitems, rfl, le_max_right _ _⟩)
    fun _ h => h.2
  rintro done X rest states₁ ⟨hrest, hI₁, hitems₁, hpushed₁⟩
  obtain ⟨hX, hrest⟩ := List.forall_mem_cons.1 hrest
  refine Result.wp_mono (hI₁.wp_transition hp hitems₁ hX) fun states₂ h₂ => ?_
  refine ⟨hrest, h₂.1.mono fun c _ _ Y _ _ _ hY => ⟨hY.1.1, fun hmem => ?_⟩, h₂.2.1,
    hpushed₁.trans h₂.2.2⟩
  rcases List.mem_append.1 hmem with hmem | hmem
  · exact hY.1.2 hmem
  · exact hY.2 ⟨hY.1.1, List.mem_singleton.1 hmem⟩

theorem wp_symbols (hitems : ItemsInRange g items) :
    Result.wp (fun _ : CompileError => False) (items.foldlM (fun symbols item => do
      let next ← symbolAfterDot (parserProductions g g.nonterminals.length provenance) item
      pure (symbols ++ next.toList)) []) fun symbols => ∀ X, X ∈ symbols ↔
        ∃ item ∈ items, (g.lrGrammar.rhs item.production)[item.dot]? = some X := by
  refine Result.wp_self (Result.wp_mono (Result.wp_foldlM
    (I := fun (_ rest : List Lr1Item) (_ : List GrammarSymbol) => ItemsInRange g rest)
      ?_ [] items []
    hitems) fun symbols _ hsymbols X => ?_)
  · intro done item rest symbols hrest
    obtain ⟨hitem, hrest⟩ := List.forall_mem_cons.1 hrest
    rw [(symbolAfterDot_iff hitem).2 rfl]
    exact hrest
  · rw [symbols_spec hsymbols]
    exact exists_congr fun item => and_congr_right fun hitem =>
      symbolAfterDot_iff (hitems item hitem)

/-- **The states.**  The loop does not run out of fuel before it reaches the limit. -/
theorem Discovered.wp_loop (hp : Indexed g first) {fuel : ℕ}
    (hI : Discovered g first provenance limits (fun _ _ => False) states)
    (hfuel : states.queue.length + max limits.maxLrStates states.canonical.length ≤
      fuel + states.canonical.length) :
    Result.wp (Fails g) (loop (parserProductions g g.nonterminals.length provenance)
      (g.productionsByLhs ++ [[g.productions.length]]) g.nullable first limits fuel states)
      fun result => Discovered g first provenance limits (fun _ _ => False) result ∧
        result.queue = [] := by
  induction fuel generalizing states with
  | zero =>
    have : states.queue = [] := List.length_eq_zero_iff.1 (by omega)
    unfold CanonicalStates.loop
    rw [this]
    exact ⟨hI, this⟩
  | succ fuel ih =>
    unfold CanonicalStates.loop
    split
    · next hqueue => exact ⟨hI, hqueue⟩
    · next hfuel' => cases hfuel'
    · next state queue fuel' hqueue hfuel' =>
      obtain rfl := Nat.succ.inj hfuel'
      have hlt := hI.queue_lt state (hqueue ▸ List.mem_cons_self)
      have hitems := List.getElem?_eq_getElem hlt
      have hrange := hI.inRange _ (List.mem_of_getElem? hitems)
      rw [hitems]
      obtain ⟨symbols, hsymbols, hmem⟩ : ∃ symbols, _ ∧ _ :=
        Result.exists_of_wp (wp_symbols hrange)
      rw [Result.wp_bind, Result.wp_unwrap_some, hsymbols, Result.wp_bind]
      change Result.wp _ (List.foldlM _ _ _ >>= _) _
      rw [Result.wp_bind]
      -- the state leaves the queue, so that its transitions are missing for a while
      have hstart : Discovered g first provenance limits (fun c _ => c = state)
          { states with queue := queue } :=
        { hI with
          queue_lt := fun c hc => hI.queue_lt c (hqueue ▸ List.mem_cons_of_mem _ hc)
          complete := fun c items item X hc hitem hX => by
            rcases hI.complete c items item X hc hitem hX with hq | hq | hedge
            · rw [hqueue] at hq
              rcases List.mem_cons.1 hq with rfl | hq
              · exact .inr (.inl rfl)
              · exact .inl hq
            · exact hq.elim
            · exact .inr (.inr hedge) }
      refine Result.wp_mono (hstart.wp_transitions hp hitems fun X hX =>
        (hmem X).1 (mem_sortDedup.1 hX)) fun states' h' => ih (h'.1.mono ?_) ?_
      · rintro c items' item X hc hitem hX ⟨rfl, hnot⟩
        obtain rfl := Option.some.inj (h'.2.1.symm.trans hc)
        exact hnot (mem_sortDedup.2 ((hmem X).2 ⟨item, hitem, hX⟩))
      · have hpushed := h'.2.2.queue
        have hle := h'.2.2.le
        rw [hqueue, List.length_cons] at hfuel
        dsimp only at hpushed hle
        omega

end CanonicalStates

/-! ### Merging -/

section Merging

variable {g : ResidualGrammar} {first : List TerminalSet} {provenance : Provenance}
  {limits : CompileLimits} {canonical : List (List Lr1Item)} {states : CanonicalStates}
  {merged : List (List Lr1Item) × List ℕ}

theorem wp_mergeCores (g : ResidualGrammar) (limits : CompileLimits)
    (canonical : List (List Lr1Item)) :
    Result.wp (Fails g) (mergeCores limits canonical) fun _ => True := by
  unfold mergeCores
  rw [Result.wp_bind]
  refine Result.wp_mono (Result.wp_foldlM (I := fun _ _ _ => True)
    (fun done state rest merged _ => ?_) [] canonical _ trivial) fun _ _ => trivial
  unfold MergedCores.addState
  split
  · trivial
  · rw [Result.wp_bind]
    refine wp_enforceCompileLimit fun _ => ?_
    rw [Result.wp_bind]
    exact wp_require_limit fun _ => trivial

/-- No core has two groups. -/
theorem mergeCores_core (h : mergeCores limits canonical = .ok merged) {c c' q q' : ℕ}
    {state state' : List Lr1Item} (hc : merged.2[c]? = some q) (hc' : merged.2[c']? = some q')
    (hs : canonical[c]? = some state) (hs' : canonical[c']? = some state') :
    MergedCores.core state = MergedCores.core state' ↔ q = q' := by
  obtain ⟨cores, hcores, h⟩ := Result.bind_eq_ok.1 h
  obtain rfl := Result.pure_eq_ok.1 h
  obtain ⟨hI, hnodup⟩ := Result.foldlM_induction
    (I := fun (done : List (List Lr1Item)) (cores : MergedCores) =>
      MergedCores.Groups done cores ∧ cores.cores.Nodup) hcores
    ⟨⟨rfl, rfl, fun _ => rfl, fun h => absurd rfl h, by simp, by simp⟩, List.nodup_nil⟩
    fun done state cores cores' hI hadd => ⟨hI.1.addState hadd, by
      unfold MergedCores.addState at hadd
      split at hadd
      · obtain rfl := Result.pure_eq_ok.1 hadd
        exact hI.2
      · next hnone =>
        obtain ⟨-, -, hadd⟩ := Result.bind_eq_ok.1 hadd
        obtain ⟨-, -, hadd⟩ := Result.bind_eq_ok.1 hadd
        obtain rfl := Result.pure_eq_ok.1 hadd
        exact List.nodup_append.2 ⟨hI.2, List.nodup_singleton _, fun core hcore core' hcore' => by
          rw [List.mem_singleton.1 hcore']
          exact ne_of_mem_of_not_mem hcore (List.idxOf?_eq_none_iff.1 hnone)⟩⟩
  have hq := hI.core_eq hc hs
  have hq' := hI.core_eq hc' hs'
  constructor
  · intro hcore
    rw [← hcore] at hq'
    exact (List.getElem?_inj (List.getElem?_eq_some_iff.1 hq).1 hnodup).1 (hq.trans hq'.symm)
  · rintro rfl
    exact Option.some.inj (hq.symm.trans hq')

/-- The symbols of states with equal cores lead to states with equal cores. -/
theorem CanonicalStates.Discovered.core_edge {todo : ℕ → GrammarSymbol → Prop}
    (hI : CanonicalStates.Discovered g first provenance limits todo states) {c c' id id' : ℕ}
    {X : GrammarSymbol} {items items' target target' : List Lr1Item}
    (hedge : ((c, X), id) ∈ states.transitions) (hedge' : ((c', X), id') ∈ states.transitions)
    (hc : states.canonical[c]? = some items) (hc' : states.canonical[c']? = some items')
    (hid : states.canonical[id]? = some target) (hid' : states.canonical[id']? = some target')
    (hcore : MergedCores.core items = MergedCores.core items') :
    MergedCores.core target = MergedCores.core target' := by
  obtain ⟨_, _, h₁, h₂, hgoto, -⟩ := hI.edge hedge
  obtain rfl := Option.some.inj (h₁.symm.trans hc)
  obtain rfl := Option.some.inj (h₂.symm.trans hid)
  obtain ⟨_, _, h₁, h₂, hgoto', -⟩ := hI.edge hedge'
  obtain rfl := Option.some.inj (h₁.symm.trans hc')
  obtain rfl := Option.some.inj (h₂.symm.trans hid')
  obtain ⟨hsub, hsub'⟩ := core_eq_iff.1 hcore
  exact core_eq_iff.2 ⟨goto_core hgoto hgoto' hsub, goto_core hgoto' hgoto hsub'⟩

/-- **Merging** yields one target for each state and symbol. -/
theorem CanonicalStates.Discovered.wp_mergeTransition {todo : ℕ → GrammarSymbol → Prop}
    (hI : CanonicalStates.Discovered g first provenance limits todo states)
    (hmerged : mergeCores limits states.canonical = .ok merged) :
    Result.wp (fun _ => False) (states.transitions.foldlM (mergeTransition merged.2) ∅)
      fun _ => True := by
  have hlen := (mergeCores_spec hmerged).length_mapping
  have hmapping : ∀ {c : ℕ} {items}, states.canonical[c]? = some items →
      ∃ q, merged.2[c]? = some q := by
    intro c items hc
    have hlt := (List.getElem?_eq_some_iff.1 hc).1
    exact ⟨_, List.getElem?_eq_getElem (hlen ▸ hlt)⟩
  refine Result.wp_mono (Result.wp_foldlM
    (I := fun (_ rest : List ((ℕ × GrammarSymbol) × ℕ)) (found : Transitions) =>
      (∀ edge ∈ rest, edge ∈ states.transitions) ∧ ∀ q X q', found.lookup (q, X) = some q' →
        ∃ c id, ((c, X), id) ∈ states.transitions ∧ merged.2[c]? = some q ∧ merged.2[id]? = some q')
    ?_ [] states.transitions ∅ ⟨fun _ => id, by simp⟩) fun _ _ => trivial
  rintro done ⟨⟨c, X⟩, id⟩ rest found ⟨hrest, hfound⟩
  obtain ⟨hedge, hrest⟩ := List.forall_mem_cons.1 hrest
  obtain ⟨items, target, hc, hid, -⟩ := hI.edge hedge
  obtain ⟨q, hq⟩ := hmapping hc
  obtain ⟨q', hq'⟩ := hmapping hid
  unfold mergeTransition
  dsimp only
  rw [hq, hq']
  simp only [Result.wp_bind, Result.wp_unwrap_some, Result.wp_require]
  refine ⟨fun _ => ⟨hrest, fun r Y r' hr => ?_⟩, fun hne => hne ?_⟩
  · by_cases hkey : (r, Y) = (q, X)
    · obtain ⟨rfl, rfl⟩ := Prod.mk.inj hkey
      rw [AList.lookup_insert] at hr
      obtain rfl := Option.some.inj hr
      exact ⟨c, id, hedge, hq, hq'⟩
    · rw [AList.lookup_insert_ne hkey] at hr
      exact hfound r Y r' hr
  · cases hlookup : found.lookup (q, X) with
    | none => rfl
    | some r' =>
      obtain ⟨c', id', hedge', hc', hid'⟩ := hfound q X r' hlookup
      obtain ⟨items', target', hitems', htarget', -⟩ := hI.edge hedge'
      have hcore := (mergeCores_core hmerged hc' hq hitems' hc).2 rfl
      exact (mergeCores_core hmerged hid' hq' htarget' hid).1
        (hI.core_edge hedge' hedge hitems' hc htarget' hid hcore)

end Merging

/-! ### The table -/

/-- The items of a state do not ask for two different actions on one lookahead. -/
def Agree (g : ResidualGrammar) (transitions : Transitions) (q : ℕ) (items : List Lr1Item) : Prop :=
  ∀ item ∈ items, ∀ item' ∈ items, ∀ lookahead action action',
    item.Asks g transitions q lookahead action → item'.Asks g transitions q lookahead action' →
    action = action'

/-- The rows are sorted, with one entry for each key. -/
structure LalrTable.Sorted (table : LalrTable) : Prop where
  actions : ∀ row ∈ table.actions, row.Pairwise (Lookahead.key ·.1 < Lookahead.key ·.1)
  gotos : ∀ row ∈ table.gotos, row.Pairwise (·.1 < ·.1)

theorem Lookahead.key_injective : Function.Injective Lookahead.key := by
  intro a b h
  cases a <;> cases b <;> simp [Lookahead.key, Prod.ext_iff] at h ⊢
  exact h

/-- The entries of a map, sorted by their keys. -/
theorem pairwise_sortByKey_entries {α β κ : Type} [DecidableEq α] [LinearOrder κ]
    (m : AList fun _ : α => β) {key : α → κ} (hkey : Function.Injective key) :
    (sortByKey (fun e : α × β => key e.1) (m.entries.map fun e => (e.1, e.2))).Pairwise
      (key ·.1 < key ·.1) := by
  have hkeys : ((m.entries.map fun e : (_ : α) × β => (e.1, e.2)).map fun e => key e.1).Nodup := by
    have h : (m.entries.keys.map key).Nodup := List.Nodup.map hkey m.nodupKeys
    unfold List.keys at h
    rw [List.map_map] at h ⊢
    exact h
  have hperm := (List.perm_insertionSort (fun a b : α × β => key a.1 ≤ key b.1)
    (m.entries.map fun e => (e.1, e.2))).map fun e => key e.1
  have hsorted : (sortByKey (fun e : α × β => key e.1) (m.entries.map fun e => (e.1, e.2))).Pairwise
      (key ·.1 ≤ key ·.1) := pairwise_sortByKey _
  exact (hsorted.and (List.pairwise_map.1 (hperm.nodup_iff.2 hkeys))).imp fun h =>
    lt_of_le_of_ne h.1 h.2

section Table

variable {g : ResidualGrammar} {provenance : Provenance} {transitions : Transitions}
  {limits : CompileLimits} {state : ℕ} {items : List Lr1Item} {item : Lr1Item}
  {rows rows' : StateRows} {merged : List (List Lr1Item)} {r : LalrTable × List LalrConflict}

theorem ActionRow.wp_insertAction (g : ResidualGrammar) (productions : List ParserProduction)
    (limits : CompileLimits) (state : ℕ) (lookahead : Lookahead) (action : Action) (source : ℕ)
    (row : ActionRow) :
    Result.wp (Fails g) (row.insertAction productions limits state lookahead action source)
      fun row' => (∀ existing, row.row.lookup lookahead = some existing → existing = action) →
        row'.conflicts = row.conflicts := by
  unfold ActionRow.insertAction
  split
  · exact fun _ => rfl
  · next existing hexisting =>
    split
    · exact fun _ => rfl
    · next hne =>
      rw [Result.wp_bind]
      exact wp_enforceCompileLimit fun _ hsame => absurd (hsame existing hexisting) hne

/-- Every symbol behind a dot has a transition. -/
def HasTransitions (g : ResidualGrammar) (transitions : Transitions) (state : ℕ)
    (items : List Lr1Item) : Prop :=
  ∀ item ∈ items, ∀ X, (g.lrGrammar.rhs item.production)[item.dot]? = some X →
    ∃ target, transitions.lookup (state, X) = some target

/-- The entries of an item; a conflict means that another item asks for something else. -/
theorem StateRows.wp_insertItemActions (items : List Lr1Item)
    (hle : item.production ≤ g.productions.length)
    (htrans : ∀ X, (g.lrGrammar.rhs item.production)[item.dot]? = some X →
      ∃ target, transitions.lookup (state, X) = some target) :
    Result.wp (Fails g) (insertItemActions transitions
      (parserProductions g g.nonterminals.length provenance) g.productions.length limits state rows
      item) fun rows' => rows.Holds g transitions state items →
        Agree g transitions state (items ++ [item]) →
        rows'.actions.conflicts = rows.actions.conflicts := by
  have hsame : ∀ {lookahead action}, item.Asks g transitions state lookahead action →
      rows.Holds g transitions state items → Agree g transitions state (items ++ [item]) →
      ∀ existing, rows.actions.row.lookup lookahead = some existing → existing = action := by
    intro lookahead action hasks hholds hagree existing hexisting
    obtain ⟨item', hitem', hasks'⟩ := (hholds.action_iff lookahead existing).1 hexisting
    exact hagree item' (List.mem_append_left _ hitem') item
      (List.mem_append_right _ (List.mem_singleton_self _)) lookahead existing action hasks' hasks
  unfold insertItemActions
  rw [(symbolAfterDot_iff hle).2 rfl]
  cases hnext : (g.lrGrammar.rhs item.production)[item.dot]? with
  | some X =>
    obtain ⟨target, htarget⟩ := htrans X hnext
    cases X with
    | terminal t =>
      change Result.wp _ (Result.unwrap _ _ >>= _) _
      rw [htarget, Result.wp_bind, Result.wp_unwrap_some, Result.wp_bind]
      exact Result.wp_mono (ActionRow.wp_insertAction _ _ _ _ _ _ _ _) fun row hrow hholds hagree =>
        hrow (hsame (.shift hnext htarget) hholds hagree)
    | nonterminal A =>
      change Result.wp _ (Result.unwrap _ _ >>= _) _
      rw [htarget, Result.wp_bind, Result.wp_unwrap_some]
      exact fun _ _ => rfl
  | none =>
    change Result.wp _ (if _ then _ else _) _
    split
    · next hend =>
      rw [Result.wp_bind]
      exact Result.wp_mono (ActionRow.wp_insertAction _ _ _ _ _ _ _ _) fun row hrow hholds hagree =>
        hrow (hsame (.accept hnext hend.1 hend.2) hholds hagree)
    · next hnot =>
      rw [Result.wp_bind]
      exact Result.wp_mono (ActionRow.wp_insertAction _ _ _ _ _ _ _ _) fun row hrow hholds hagree =>
        hrow (hsame (.reduce hnext hnot) hholds hagree)

/-- The entries of a state. -/
theorem StateRows.wp_items (hrange : ItemsInRange g items)
    (htrans : HasTransitions g transitions state items) :
    Result.wp (Fails g) (items.foldlM (insertItemActions transitions
      (parserProductions g g.nonterminals.length provenance) g.productions.length limits
        state) rows)
      fun rows' => rows.actions.conflicts = [] → rows.Holds g transitions state [] →
        Agree g transitions state items → rows'.actions.conflicts = [] := by
  refine Result.wp_mono (Result.wp_foldlM
    (I := fun (done rest : List Lr1Item) (filled : StateRows) =>
    (∀ item ∈ rest, item ∈ items) ∧ (∀ item ∈ done, item ∈ items) ∧
      (rows.actions.conflicts = [] → rows.Holds g transitions state [] →
        Agree g transitions state items →
        filled.actions.conflicts = [] ∧ filled.Holds g transitions state done))
    ?_ [] items rows ⟨fun _ => id, fun item hitem => absurd hitem List.not_mem_nil,
      fun hnone hholds _ => ⟨hnone, hholds⟩⟩) fun rows' h hnone hholds hagree =>
        (h.2.2 hnone hholds hagree).1
  intro done item rest filled hI
  obtain ⟨hrest, hdone, hfilled⟩ := hI
  obtain ⟨hitem, hrest⟩ := List.forall_mem_cons.1 hrest
  have hdone' : ∀ item' ∈ done ++ [item], item' ∈ items := by
    intro item' hitem'
    rcases List.mem_append.1 hitem' with hitem' | hitem'
    · exact hdone item' hitem'
    · exact List.mem_singleton.1 hitem' ▸ hitem
  refine Result.wp_self (Result.wp_mono (StateRows.wp_insertItemActions done
    (hrange item hitem) (htrans item hitem)) fun filled' hsame hinsert => ⟨hrest, hdone', ?_⟩)
  intro hnone hholds hagree
  obtain ⟨hnone', hholds'⟩ := hfilled hnone hholds hagree
  have hagree' : Agree g transitions state (done ++ [item]) := fun a ha b hb =>
    hagree a (hdone' a ha) b (hdone' b hb)
  have hafter := (hsame hholds' hagree').trans hnone'
  exact ⟨hafter, (StateRows.Holds.insert (fun _ => hholds') (hrange item hitem) hinsert hafter).2⟩

/-- **The table.**  It is sorted, and without a conflict if the items agree. -/
theorem wp_buildTable (hrange : ∀ items ∈ merged, ItemsInRange g items)
    (htrans : ∀ q items, merged[q]? = some items → HasTransitions g transitions q items) :
    Result.wp (Fails g) (buildTable transitions
      (parserProductions g g.nonterminals.length provenance)
      g.productions.length limits merged) fun r => r.1.Sorted ∧
        ((∀ q items, merged[q]? = some items → Agree g transitions q items) → r.2 = []) := by
  unfold buildTable
  rw [Result.wp_bind]
  refine Result.wp_mono (Result.wp_foldlM (I := fun (_ rest : List (List Lr1Item × ℕ))
    (rows : TableRows) => (∀ entry ∈ rest, merged[entry.2]? = some entry.1) ∧
      LalrTable.Sorted ⟨rows.actions, rows.gotos⟩ ∧
      ((∀ q items, merged[q]? = some items → Agree g transitions q items) → rows.conflicts = []))
    ?_ [] merged.zipIdx ⟨[], [], []⟩ ⟨?_, ⟨by simp, by simp⟩, fun _ => rfl⟩) fun rows hrows => ?_
  · rintro done ⟨items, state⟩ rest rows ⟨hrest, hsorted, hnone⟩
    obtain ⟨hstate, hrest⟩ := List.forall_mem_cons.1 hrest
    unfold addStateRows
    rw [Result.wp_bind]
    refine wp_require_limit fun _ => ?_
    rw [Result.wp_bind]
    refine Result.wp_mono (StateRows.wp_items (hrange items (List.mem_of_getElem? hstate))
      (htrans state items hstate)) fun filled hfilled =>
        ⟨hrest, ⟨fun row hrow => ?_, fun row hrow => ?_⟩,
        fun hagree => hfilled (hnone hagree) ⟨by simp, by simp⟩ (hagree state items hstate)⟩
    · rcases List.mem_append.1 hrow with hrow | hrow
      · exact hsorted.actions row hrow
      · rw [List.mem_singleton.1 hrow]
        exact pairwise_sortByKey_entries filled.actions.row Lookahead.key_injective
    · rcases List.mem_append.1 hrow with hrow | hrow
      · exact hsorted.gotos row hrow
      · rw [List.mem_singleton.1 hrow]
        exact pairwise_sortByKey_entries filled.gotos Function.injective_id
  · intro entry hentry
    exact List.mem_zipIdx_iff_getElem?.1 hentry
  · rw [Result.wp_bind]
    refine wp_enforceCompileLimit fun _ => ?_
    rw [Result.wp_bind]
    exact wp_enforceCompileLimit fun _ => hrows.2

end Table

end OcEarley
