import OcEarley.Lalr.Items

/-!
# Canonical and merged states

When the queue of `CanonicalStates.loop` is empty, every symbol behind a dot has a transition to the
state it leads to (`Canonical`).  Merging puts the items of states with equal core together, and no
others (`Merged`); the states of one group agree on the groups that their symbols lead to.
-/

namespace OcEarley

open CompiledLalr

theorem getElem?_of_idxOf? {α : Type*} [BEq α] [LawfulBEq α] {l : List α} {a : α} {i : ℕ}
    (h : l.idxOf? a = some i) : l[i]? = some a := by
  obtain ⟨hlt, hget, -⟩ := List.idxOf?_eq_some_iff.1 h
  exact List.getElem?_eq_some_iff.2 ⟨hlt, hget⟩

theorem getElem?_append_of_some {α : Type*} {l l' : List α} {a : α} {i : ℕ} (h : l[i]? = some a) :
    (l ++ l')[i]? = some a := by
  rw [List.getElem?_append_left (List.getElem?_eq_some_iff.1 h).1, h]

namespace CanonicalStates

variable {g : ResidualGrammar} {first : List TerminalSet} {provenance : Provenance}
  {limits : CompileLimits} {initial items target : List Lr1Item} {todo : ℕ → GrammarSymbol → Prop}
  {states states' : CanonicalStates} {state : ℕ} {X : GrammarSymbol}

/-- The invariant of the loop.  A state has all its transitions unless it waits in the queue or
`todo` says that one is missing. -/
structure Explored (g : ResidualGrammar) (initial : List Lr1Item) (todo : ℕ → GrammarSymbol → Prop)
    (states : CanonicalStates) : Prop where
  zero : states.canonical[0]? = some initial
  closed : ∀ items ∈ states.canonical, ClosedItems g items
  edge : ∀ {c X id}, ((c, X), id) ∈ states.transitions → ∃ items target,
    states.canonical[c]? = some items ∧ states.canonical[id]? = some target ∧
      IsGoto g items X target ∧
      ∃ item ∈ items, (g.lrGrammar.rhs item.production)[item.dot]? = some X
  complete : ∀ {c items item X}, states.canonical[c]? = some items → item ∈ items →
    (g.lrGrammar.rhs item.production)[item.dot]? = some X →
    c ∈ states.queue ∨ todo c X ∨ ∃ id, ((c, X), id) ∈ states.transitions

/-- A state is found, or added at the end and queued. -/
theorem stateId_spec {r : CanonicalStates × ℕ} (h : stateId limits states target = .ok r) :
    r.1.canonical[r.2]? = some target ∧ r.1.transitions = states.transitions ∧
      (r.1.canonical = states.canonical ∧ r.1.queue = states.queue ∨
        r.1.canonical = states.canonical ++ [target] ∧
          r.1.queue = states.queue ++ [states.canonical.length]) := by
  unfold stateId at h
  split at h
  · next id hid =>
    obtain rfl := Result.pure_eq_ok.1 h
    exact ⟨getElem?_of_idxOf? hid, rfl, .inl ⟨rfl, rfl⟩⟩
  · obtain ⟨-, -, h⟩ := Result.bind_eq_ok.1 h
    obtain ⟨-, -, h⟩ := Result.bind_eq_ok.1 h
    obtain ⟨-, -, h⟩ := Result.bind_eq_ok.1 h
    obtain ⟨-, -, h⟩ := Result.bind_eq_ok.1 h
    obtain rfl := Result.pure_eq_ok.1 h
    exact ⟨getElem?_snoc.2 (.inr ⟨rfl, rfl⟩), rfl, .inr ⟨rfl, rfl⟩⟩

/-- A state has all its transitions unless it waits in the queue or `todo` says
that one is missing. -/
def Complete (g : ResidualGrammar) (todo : ℕ → GrammarSymbol → Prop) (states : CanonicalStates) :
    Prop :=
  ∀ c items item X, states.canonical[c]? = some items → item ∈ items →
    (g.lrGrammar.rhs item.production)[item.dot]? = some X →
    c ∈ states.queue ∨ todo c X ∨ ∃ id, ((c, X), id) ∈ states.transitions

/-- A new state waits in the queue, an old one is as complete as before. -/
theorem Complete.stateId {r : CanonicalStates × ℕ} (hI : Complete g todo states)
    (h : stateId limits states target = .ok r) :
    Complete g (fun c Y => todo c Y ∧ ¬(c = state ∧ Y = X))
      { r.1 with transitions := r.1.transitions ++ [((state, X), r.2)] } := by
  obtain ⟨-, htrans, hcase⟩ := stateId_spec h
  intro c items item Y hc hitem hY
  have hold : states.canonical[c]? = some items ∨ c ∈ r.1.queue := by
    rcases hcase with ⟨hcan, -⟩ | ⟨hcan, hqueue⟩
    · exact .inl (hcan ▸ hc)
    · simp only [hcan] at hc
      rcases getElem?_snoc.1 hc with hc | ⟨rfl, -⟩
      · exact .inl hc
      · exact .inr (hqueue ▸ List.mem_append_right _ (List.mem_singleton_self _))
  have hqueue : ∀ {c}, c ∈ states.queue → c ∈ r.1.queue := by
    intro c hc
    rcases hcase with ⟨-, hqueue⟩ | ⟨-, hqueue⟩ <;> rw [hqueue]
    · exact hc
    · exact List.mem_append_left _ hc
  rcases hold with hold | hold
  · rcases hI c items item Y hold hitem hY with hq | htodo | ⟨id, hedge⟩
    · exact .inl (hqueue hq)
    · by_cases hnew : c = state ∧ Y = X
      · obtain ⟨rfl, rfl⟩ := hnew
        exact .inr (.inr ⟨r.2, List.mem_append_right _ (List.mem_singleton_self _)⟩)
      · exact .inr (.inl ⟨htodo, hnew⟩)
    · exact .inr (.inr ⟨id, List.mem_append_left _ (htrans ▸ hedge)⟩)
  · exact .inl hold

theorem Explored.mono {todo' : ℕ → GrammarSymbol → Prop} (hI : Explored g initial todo states)
    (h : ∀ c items item X, states.canonical[c]? = some items → item ∈ items →
      (g.lrGrammar.rhs item.production)[item.dot]? = some X → c ∉ states.queue → todo c X →
      todo' c X) : Explored g initial todo' states :=
  { hI with
    complete := fun {c items item X} hc hitem hX => by
      by_cases hq : c ∈ states.queue
      · exact .inl hq
      · exact .inr ((hI.complete hc hitem hX).resolve_left hq |>.imp_left
          (h c items item X hc hitem hX hq)) }

/-- One transition less is missing. -/
theorem Explored.transition (hp : Prepared g first) (hI : Explored g initial todo states)
    (hitems : states.canonical[state]? = some items)
    (hX : ∃ item ∈ items, (g.lrGrammar.rhs item.production)[item.dot]? = some X)
    (h : transition (parserProductions g g.nonterminals.length provenance)
      (g.productionsByLhs ++ [[g.productions.length]]) g.nullable first limits state
        items states X =
        .ok states') :
    Explored g initial (fun c Y => todo c Y ∧ ¬(c = state ∧ Y = X)) states' ∧
      states'.canonical[state]? = some items := by
  obtain ⟨target, hgoto, h⟩ := Result.bind_eq_ok.1 h
  obtain ⟨⟨states₁, id⟩, hid, h⟩ := Result.bind_eq_ok.1 h
  obtain rfl := Result.pure_eq_ok.1 h
  obtain ⟨htarget, htrans, hcase⟩ := stateId_spec hid
  dsimp only at htarget htrans hcase
  have hclosed := hI.closed items (List.mem_of_getElem? hitems)
  have hgoto := hp.goto_spec hgoto hclosed
  have hkeep : ∀ {c : ℕ} {items}, states.canonical[c]? = some items →
      states₁.canonical[c]? = some items := by
    intro c items hc
    rcases hcase with ⟨hcan, -⟩ | ⟨hcan, -⟩
    · rw [hcan, hc]
    · rw [hcan, getElem?_append_of_some hc]
  refine ⟨⟨hkeep hI.zero, fun items' hitems' => ?_, fun {c Y id'} hedge => ?_,
    fun {c items' item Y} hc hitem hY => ?_⟩, hkeep hitems⟩
  · rcases hcase with ⟨hcan, -⟩ | ⟨hcan, -⟩ <;> simp only [hcan] at hitems'
    · exact hI.closed items' hitems'
    · rcases List.mem_append.1 hitems' with hitems' | hitems'
      · exact hI.closed items' hitems'
      · exact List.mem_singleton.1 hitems' ▸ hgoto.closed
  · rcases List.mem_append.1 hedge with hedge | hedge
    · rw [htrans] at hedge
      obtain ⟨items', target', hc, hid', hrest⟩ := hI.edge hedge
      exact ⟨items', target', hkeep hc, hkeep hid', hrest⟩
    · obtain ⟨⟨rfl, rfl⟩, rfl⟩ : (c = state ∧ Y = X) ∧ id' = id := by simpa using hedge
      exact ⟨items, target, hkeep hitems, htarget, hgoto, hX⟩
  · exact Complete.stateId (fun _ _ _ _ => hI.complete) hid c items' item Y hc hitem hY

theorem Explored.transitions (hp : Prepared g first) {l : List GrammarSymbol}
    (hI : Explored g initial todo states) (hitems : states.canonical[state]? = some items)
    (hl : ∀ X ∈ l, ∃ item ∈ items, (g.lrGrammar.rhs item.production)[item.dot]? = some X)
    (h : l.foldlM (CanonicalStates.transition (parserProductions g g.nonterminals.length provenance)
      (g.productionsByLhs ++ [[g.productions.length]]) g.nullable first limits state items) states =
        .ok states') :
    Explored g initial (fun c Y => todo c Y ∧ ¬(c = state ∧ Y ∈ l)) states' ∧
      states'.canonical[state]? = some items := by
  induction l generalizing todo states with
  | nil =>
    obtain rfl := Result.pure_eq_ok.1 h
    exact ⟨hI.mono fun _ _ _ _ _ _ _ _ h => ⟨h, by simp⟩, hitems⟩
  | cons X l ih =>
    rw [List.foldlM_cons] at h
    obtain ⟨states₁, hX, h⟩ := Result.bind_eq_ok.1 h
    obtain ⟨hI₁, hitems₁⟩ := hI.transition hp hitems (hl X List.mem_cons_self) hX
    obtain ⟨hI', hitems'⟩ := ih hI₁ hitems₁ (fun Y hY => hl Y (List.mem_cons_of_mem _ hY)) h
    refine ⟨hI'.mono fun c _ _ Y _ _ _ _ hY => ⟨hY.1.1, ?_⟩, hitems'⟩
    rintro ⟨rfl, hmem⟩
    rcases List.mem_cons.1 hmem with rfl | hmem
    · exact hY.1.2 ⟨rfl, rfl⟩
    · exact hY.2 ⟨rfl, hmem⟩

/-- The symbols behind the dots of a state. -/
theorem symbols_spec {productions : List ParserProduction} {symbols : List GrammarSymbol}
    (h : items.foldlM (fun symbols item => do
      let next ← symbolAfterDot productions item
      pure (symbols ++ next.toList)) [] = .ok symbols) :
    ∀ X, X ∈ symbols ↔ ∃ item ∈ items, symbolAfterDot productions item = .ok (some X) := by
  refine Result.foldlM_induction
    (I := fun (done : List Lr1Item) (symbols : List GrammarSymbol) => ∀ X, X ∈ symbols ↔
      ∃ item ∈ done, symbolAfterDot productions item = .ok (some X)) h (by simp) ?_
  intro done item symbols symbols' hI hstep X
  obtain ⟨next, hnext, hstep⟩ := Result.bind_eq_ok.1 hstep
  obtain rfl := Result.pure_eq_ok.1 hstep
  have : X ∈ next.toList ↔ symbolAfterDot productions item = .ok (some X) := by
    rw [hnext, Option.mem_toList]
    exact ⟨congrArg _, Except.ok.inj⟩
  simp only [List.mem_append, List.mem_singleton, or_and_right, exists_or, exists_eq_left, hI, this]

theorem Explored.loop (hp : Prepared g first) {fuel : ℕ} {result : CanonicalStates}
    (hI : Explored g initial (fun _ _ => False) states)
    (h : loop (parserProductions g g.nonterminals.length provenance)
      (g.productionsByLhs ++ [[g.productions.length]]) g.nullable first limits fuel states =
        .ok result) :
    Explored g initial (fun _ _ => False) result ∧ result.queue = [] := by
  induction fuel generalizing states with
  | zero =>
    unfold CanonicalStates.loop at h
    split at h
    · next hqueue =>
      obtain rfl := Result.pure_eq_ok.1 h
      exact ⟨hI, hqueue⟩
    · cases h
    · next hfuel => cases hfuel
  | succ fuel ih =>
    unfold CanonicalStates.loop at h
    split at h
    · next hqueue =>
      obtain rfl := Result.pure_eq_ok.1 h
      exact ⟨hI, hqueue⟩
    · cases h
    · next state queue fuel' hqueue hfuel =>
      obtain rfl := Nat.succ.inj hfuel
      obtain ⟨items, hitems, h⟩ := Result.bind_eq_ok.1 h
      have hitems := Result.unwrap_eq_ok.1 hitems
      obtain ⟨symbols, hsymbols, h⟩ := Result.bind_eq_ok.1 h
      obtain ⟨states', hfold, h⟩ := Result.bind_eq_ok.1 h
      have hclosed := hI.closed items (List.mem_of_getElem? hitems)
      have hmem : ∀ X, X ∈ sortDedup symbolKey symbols ↔
          ∃ item ∈ items, (g.lrGrammar.rhs item.production)[item.dot]? = some X := by
        intro X
        rw [mem_sortDedup, symbols_spec hsymbols]
        exact exists_congr fun item => and_congr_right fun hitem =>
          symbolAfterDot_iff (hclosed.ok item hitem).production_le
      -- the state leaves the queue, so that its transitions are missing for a while
      have hstart : Explored g initial (fun c _ => c = state) { states with queue := queue } :=
        { hI with
          complete := fun {c items item X} hc hitem hX => by
            rcases hI.complete hc hitem hX with hq | hq | hedge
            · rw [hqueue] at hq
              rcases List.mem_cons.1 hq with rfl | hq
              · exact .inr (.inl rfl)
              · exact .inl hq
            · exact hq.elim
            · exact .inr (.inr hedge) }
      obtain ⟨hI', hitems'⟩ := hstart.transitions hp hitems (fun X hX => (hmem X).1 hX) hfold
      refine ih (hI'.mono ?_) h
      rintro c items' item X hc hitem hX - ⟨rfl, hnot⟩
      obtain rfl := Option.some.inj (hitems'.symm.trans hc)
      exact hnot ⟨rfl, (hmem X).2 ⟨item, hitem, hX⟩⟩

end CanonicalStates

/-! ### Merging -/

namespace MergedCores

variable {canonical : List (List Lr1Item)} {limits : CompileLimits} {merged merged' : MergedCores}

theorem mem_core {items : List Lr1Item} {p k : ℕ} :
    (p, k) ∈ core items ↔ ∃ item ∈ items, item.production = p ∧ item.dot = k := by
  simp [core]

/-- The invariant of the loop of `merge_cores`. -/
structure Groups (canonical : List (List Lr1Item)) (merged : MergedCores) : Prop where
  length_mapping : merged.mapping.length = canonical.length
  length_cores : merged.cores.length = merged.mergedSets.length
  nil : canonical = [] → merged.cores = []
  zero : canonical ≠ [] → merged.mapping[0]? = some 0
  core_eq : ∀ {c q : ℕ} {items}, merged.mapping[c]? = some q → canonical[c]? = some items →
    merged.cores[q]? = some (core items)
  mem_iff : ∀ {q : ℕ} {items}, merged.mergedSets[q]? = some items → ∀ item, item ∈ items ↔
    ∃ (c : ℕ) (state : List Lr1Item), merged.mapping[c]? = some q ∧ canonical[c]? = some state ∧
      item ∈ state

/-- What one more state adds to a group. -/
theorem mem_snoc_iff {mapping : List ℕ} {state : List Lr1Item} {id q : ℕ} {item : Lr1Item}
    (hlen : mapping.length = canonical.length) :
    (∃ (c : ℕ) (state' : List Lr1Item), (mapping ++ [id])[c]? = some q ∧
      (canonical ++ [state])[c]? = some state' ∧ item ∈ state') ↔
    (∃ (c : ℕ) (state' : List Lr1Item), mapping[c]? = some q ∧ canonical[c]? = some state' ∧
      item ∈ state') ∨ q = id ∧ item ∈ state := by
  simp only [getElem?_snoc]
  constructor
  · rintro ⟨c, state', hc | ⟨rfl, rfl⟩, hc' | ⟨hc', rfl⟩, hitem⟩
    · exact .inl ⟨c, state', hc, hc', hitem⟩
    · have := (List.getElem?_eq_some_iff.1 hc).1
      omega
    · have := (List.getElem?_eq_some_iff.1 hc').1
      omega
    · exact .inr ⟨rfl, hitem⟩
  · rintro (⟨c, state', hc, hc', hitem⟩ | ⟨rfl, hitem⟩)
    · exact ⟨c, state', .inl hc, .inl hc', hitem⟩
    · exact ⟨mapping.length, state, .inr ⟨rfl, rfl⟩, .inr ⟨hlen, rfl⟩, hitem⟩

theorem Groups.addState {state : List Lr1Item} (hI : Groups canonical merged)
    (h : addState limits merged state = .ok merged') : Groups (canonical ++ [state]) merged' := by
  -- cores of groups that exist stay; the new state gets the group with its core
  have hcore : ∀ {id : ℕ} {cores : List (List (ℕ × ℕ))}, cores[id]? = some (core state) →
      (∀ (q : ℕ) c, merged.cores[q]? = some c → cores[q]? = some c) → ∀ {c q : ℕ} {items},
      (merged.mapping ++ [id])[c]? = some q → (canonical ++ [state])[c]? = some items →
      cores[q]? = some (core items) := by
    intro id cores hid hkeep c q items hc hitems
    rcases getElem?_snoc.1 hc with hc | ⟨rfl, rfl⟩
    · rcases getElem?_snoc.1 hitems with hitems | ⟨rfl, -⟩
      · exact hkeep _ _ (hI.core_eq hc hitems)
      · have := (List.getElem?_eq_some_iff.1 hc).1
        rw [hI.length_mapping] at this
        omega
    · rcases getElem?_snoc.1 hitems with hitems | ⟨-, rfl⟩
      · have := (List.getElem?_eq_some_iff.1 hitems).1
        rw [hI.length_mapping] at this
        omega
      · exact hid
  unfold MergedCores.addState at h
  split at h
  -- the state joins the group of its core
  · next id hid =>
    obtain rfl := Result.pure_eq_ok.1 h
    have hid := getElem?_of_idxOf? hid
    refine ⟨by simp [hI.length_mapping], by simp [hI.length_cores], by simp, fun _ => ?_,
      hcore hid fun _ _ h => h, fun {q items} hitems item => ?_⟩
    · by_cases hnil : canonical = []
      · rw [hI.nil hnil] at hid
        cases hid
      · exact getElem?_append_of_some (hI.zero hnil)
    · rw [mem_snoc_iff hI.length_mapping]
      rw [List.getElem?_modify] at hitems
      obtain ⟨old, hold, rfl⟩ := Option.map_eq_some_iff.1 hitems
      rw [← hI.mem_iff hold item]
      by_cases hq : id = q
      · simp [hq]
      · simp [hq, Ne.symm hq]
  -- it begins a group of its own
  · next hid =>
    obtain ⟨-, -, h⟩ := Result.bind_eq_ok.1 h
    obtain ⟨-, -, h⟩ := Result.bind_eq_ok.1 h
    obtain rfl := Result.pure_eq_ok.1 h
    refine ⟨by simp [hI.length_mapping], by simp [hI.length_cores], by simp, fun _ => ?_,
      hcore (getElem?_snoc.2 (.inr ⟨hI.length_cores.symm, rfl⟩)) fun _ _ => getElem?_append_of_some,
      fun {q items} hitems item => ?_⟩
    · by_cases hnil : canonical = []
      · have hlen := hI.length_mapping
        have hcores := hI.length_cores
        rw [hI.nil hnil] at hcores
        subst hnil
        exact getElem?_snoc.2 (.inr ⟨hlen.symm, hcores⟩)
      · exact getElem?_append_of_some (hI.zero hnil)
    · rw [mem_snoc_iff hI.length_mapping]
      rcases getElem?_snoc.1 hitems with hitems | ⟨rfl, rfl⟩
      · rw [← hI.mem_iff hitems item]
        have := (List.getElem?_eq_some_iff.1 hitems).1
        simp [this.ne]
      · -- no earlier state is in the new group
        constructor
        · exact fun hitem => .inr ⟨rfl, hitem⟩
        · rintro (⟨c, state', hc, hc', -⟩ | ⟨-, hitem⟩)
          · have := (List.getElem?_eq_some_iff.1 (hI.core_eq hc hc')).1
            rw [hI.length_cores] at this
            omega
          · exact hitem

end MergedCores

/-- The groups of states with equal core. -/
structure Merged (canonical : List (List Lr1Item)) (merged : List (List Lr1Item))
    (mapping : List ℕ) : Prop where
  length_mapping : mapping.length = canonical.length
  zero : canonical ≠ [] → mapping[0]? = some 0
  exists_group : ∀ {c q : ℕ}, mapping[c]? = some q → ∃ items, merged[q]? = some items
  mem_iff : ∀ {q : ℕ} {items}, merged[q]? = some items → ∀ item, item ∈ items ↔
    ∃ (c : ℕ) (state : List Lr1Item), mapping[c]? = some q ∧ canonical[c]? = some state ∧
      item ∈ state
  core : ∀ {c c' q : ℕ} {state state'}, mapping[c]? = some q → mapping[c']? = some q →
    canonical[c]? = some state → canonical[c']? = some state' → ∀ item ∈ state,
    ∃ item' ∈ state', item'.production = item.production ∧ item'.dot = item.dot

theorem mergeCores_spec {limits : CompileLimits} {canonical : List (List Lr1Item)}
    {r : List (List Lr1Item) × List ℕ} (h : mergeCores limits canonical = .ok r) :
    Merged canonical r.1 r.2 := by
  obtain ⟨merged, hmerged, h⟩ := Result.bind_eq_ok.1 h
  obtain rfl := Result.pure_eq_ok.1 h
  have hI := Result.foldlM_induction (I := MergedCores.Groups) hmerged
    ⟨rfl, rfl, fun _ => rfl, fun h => absurd rfl h, by simp, by simp⟩
    fun done state merged merged' hI hadd => hI.addState hadd
  have hexists : ∀ {c q : ℕ}, merged.mapping[c]? = some q →
      ∃ state, canonical[c]? = some state ∧ merged.cores[q]? = some (MergedCores.core state) := by
    intro c q hc
    have hlt := (List.getElem?_eq_some_iff.1 hc).1
    rw [hI.length_mapping] at hlt
    exact ⟨_, List.getElem?_eq_getElem hlt, hI.core_eq hc (List.getElem?_eq_getElem hlt)⟩
  refine ⟨hI.length_mapping, hI.zero, fun {c q} hc => ?_, fun {q items} hitems item => ?_,
    fun {c c' q state state'} hc hc' hs hs' item hitem => ?_⟩
  · obtain ⟨state, -, hcore⟩ := hexists hc
    have hlt := (List.getElem?_eq_some_iff.1 hcore).1
    rw [hI.length_cores] at hlt
    exact ⟨_, by rw [List.getElem?_map, List.getElem?_eq_getElem hlt]; rfl⟩
  · rw [List.getElem?_map] at hitems
    obtain ⟨old, hold, rfl⟩ := Option.map_eq_some_iff.1 hitems
    rw [mem_sortDedup, hI.mem_iff hold]
  · have hcore := Option.some.inj ((hI.core_eq hc hs).symm.trans (hI.core_eq hc' hs'))
    have hmem : (item.production, item.dot) ∈ MergedCores.core state' :=
      hcore ▸ MergedCores.mem_core.2 ⟨item, hitem, rfl, rfl⟩
    exact MergedCores.mem_core.1 hmem

/-- The merged transitions are the images of the canonical ones, and never disagree. -/
theorem mergeTransition_spec {mapping : List ℕ} {edges : List ((ℕ × GrammarSymbol) × ℕ)}
    {transitions : Transitions} (h : edges.foldlM (mergeTransition mapping) ∅ = .ok transitions)
    {q q' : ℕ} {X : GrammarSymbol} :
    transitions.lookup (q, X) = some q' ↔
      ∃ c id, ((c, X), id) ∈ edges ∧ mapping[c]? = some q ∧ mapping[id]? = some q' := by
  revert q q' X
  refine Result.foldlM_induction
    (I := fun (done : List ((ℕ × GrammarSymbol) × ℕ)) (merged : Transitions) =>
      ∀ {q q' X}, merged.lookup (q, X) = some q' ↔
        ∃ c id, ((c, X), id) ∈ done ∧ mapping[c]? = some q ∧ mapping[id]? = some q') h (by simp) ?_
  rintro done ⟨⟨c, X⟩, id⟩ merged merged' hI hmerge q q' Y
  obtain ⟨source, hsource, hmerge⟩ := Result.bind_eq_ok.1 hmerge
  obtain ⟨target, htarget, hmerge⟩ := Result.bind_eq_ok.1 hmerge
  obtain ⟨_, hsame, hmerge⟩ := Result.bind_eq_ok.1 hmerge
  obtain rfl := Result.pure_eq_ok.1 hmerge
  rw [Result.unwrap_eq_ok] at hsource htarget
  rw [Result.require_eq_ok] at hsame
  dsimp only at hsource htarget hsame ⊢
  by_cases hkey : (q, Y) = (source, X)
  · obtain ⟨rfl, rfl⟩ := Prod.mk.inj hkey
    rw [AList.lookup_insert]
    constructor
    · rintro ⟨rfl⟩
      exact ⟨c, id, by simp, hsource, htarget⟩
    · rintro ⟨c', id', hmem, hc', hid'⟩
      rcases List.mem_append.1 hmem with hmem | hmem
      · rw [hI.2 ⟨c', id', hmem, hc', hid'⟩] at hsame
        rw [← hsame]
        rfl
      · obtain ⟨⟨rfl, -⟩, rfl⟩ : (c' = c ∧ Y = Y) ∧ id' = id := by simpa using hmem
        rw [← htarget, hid']
  · rw [AList.lookup_insert_ne hkey, hI]
    constructor
    · rintro ⟨c', id', hmem, hrest⟩
      exact ⟨c', id', List.mem_append_left _ hmem, hrest⟩
    · rintro ⟨c', id', hmem, hc', hid'⟩
      rcases List.mem_append.1 hmem with hmem | hmem
      · exact ⟨c', id', hmem, hc', hid'⟩
      · obtain ⟨⟨rfl, rfl⟩, rfl⟩ : (c' = c ∧ Y = X) ∧ id' = id := by simpa using hmem
        exact absurd (by rw [Option.some.inj (hc'.symm.trans hsource)]) hkey

/-! ### The merged automaton -/

/-- The item is in the merged state. -/
def HasItem (merged : List (List Lr1Item)) (q p k : ℕ) (a : Option ℕ) : Prop :=
  ∃ items, merged[q]? = some items ∧ ⟨p, k, lookaheadOf a⟩ ∈ items

/-- The merged states are closed under prediction and moved along the transitions, and come from
these two. -/
structure MergedStates (g : ResidualGrammar) (merged : List (List Lr1Item))
    (transitions : Transitions) : Prop where
  ok : ∀ {q : ℕ} {items}, merged[q]? = some items → ∀ item ∈ items, item.Ok g
  init_item : HasItem merged 0 g.productions.length 0 none
  closed : ∀ {q p k a p' u}, HasItem merged q p k a →
    (g.lrGrammar.rhs p)[k]? = some (.nonterminal (g.lrGrammar.lhs p')) → p' < g.productions.length →
    Sentence g.Rule (g.lrGrammar.rest p (k + 1)) u → HasItem merged q p' 0 (u.head?.or a)
  next_item : ∀ {q p k a X}, HasItem merged q p k a → (g.lrGrammar.rhs p)[k]? = some X →
    ∃ q', transitions.lookup (q, X) = some q' ∧ HasItem merged q' p (k + 1) a
  init_generated : ∀ {V}, V g.productions.length 0 → Predictive g V →
    ∀ p k a, HasItem merged 0 p k a → V p k
  next_generated : ∀ {q X q' V}, transitions.lookup (q, X) = some q' →
    (∀ p k a, HasItem merged q p k a → (g.lrGrammar.rhs p)[k]? = some X → V p (k + 1)) →
    Predictive g V → ∀ p k a, HasItem merged q' p k a → V p k
  nonempty : ∀ {q X q'}, transitions.lookup (q, X) = some q' →
    ∃ p k a, HasItem merged q p k a ∧ (g.lrGrammar.rhs p)[k]? = some X

theorem exists_lookaheadOf (lookahead : Lookahead) : ∃ a, lookahead = lookaheadOf a := by
  cases lookahead with
  | terminal t => exact ⟨some t, rfl⟩
  | eof => exact ⟨none, rfl⟩

theorem CanonicalStates.Explored.mergedStates {g : ResidualGrammar} {initial : List Lr1Item}
    {states : CanonicalStates} {merged : List (List Lr1Item)} {mapping : List ℕ}
    {transitions : Transitions} (hI : Explored g initial (fun _ _ => False) states)
    (hqueue : states.queue = []) (hinitial : IsInitial g initial)
    (hmerged : Merged states.canonical merged mapping)
    (htrans : states.transitions.foldlM (mergeTransition mapping) ∅ = .ok transitions) :
    MergedStates g merged transitions := by
  have hlookup := @mergeTransition_spec _ _ _ htrans
  have hne : states.canonical ≠ [] := fun hnil => by
    have := hI.zero
    rw [hnil] at this
    cases this
  have hmapping : ∀ {c : ℕ} {state}, states.canonical[c]? = some state →
      ∃ q, mapping[c]? = some q := by
    intro c state hc
    have hlt := (List.getElem?_eq_some_iff.1 hc).1
    rw [← hmerged.length_mapping] at hlt
    exact ⟨_, List.getElem?_eq_getElem hlt⟩
  -- an item is in a merged state iff it is in one of the canonical states mapped to it
  have hhas : ∀ {c q p k : ℕ} {state} {a : Option ℕ}, mapping[c]? = some q →
      states.canonical[c]? = some state → ⟨p, k, lookaheadOf a⟩ ∈ state →
        HasItem merged q p k a := by
    intro c q p k state a hc hstate hitem
    obtain ⟨items, hitems⟩ := hmerged.exists_group hc
    exact ⟨items, hitems, (hmerged.mem_iff hitems _).2 ⟨c, state, hc, hstate, hitem⟩⟩
  have hof : ∀ {q p k : ℕ} {a : Option ℕ}, HasItem merged q p k a →
      ∃ (c : ℕ) (state : List Lr1Item), mapping[c]? = some q ∧
        states.canonical[c]? = some state ∧ ⟨p, k, lookaheadOf a⟩ ∈ state := by
    rintro q p k a ⟨items, hitems, hitem⟩
    exact (hmerged.mem_iff hitems _).1 hitem
  refine ⟨?_, ?_, ?_, ?_, ?_, ?_, ?_⟩
  · intro q items hitems item hitem
    obtain ⟨c, state, -, hstate, hitem⟩ := (hmerged.mem_iff hitems _).1 hitem
    exact (hI.closed _ (List.mem_of_getElem? hstate)).ok item hitem
  · exact hhas (hmerged.zero hne) hI.zero hinitial.start
  · intro q p k a p' u hitem hnext hp' hu
    obtain ⟨c, state, hc, hstate, hitem⟩ := hof hitem
    exact hhas hc hstate ((hI.closed _ (List.mem_of_getElem? hstate)).closed hitem hnext hp' hu)
  · intro q p k a X hitem hX
    obtain ⟨c, state, hc, hstate, hitem⟩ := hof hitem
    obtain ⟨id, hedge⟩ : ∃ id, ((c, X), id) ∈ states.transitions := by
      rcases hI.complete hstate hitem hX with hq | hq | hq
      · rw [hqueue] at hq
        cases hq
      · exact hq.elim
      · exact hq
    obtain ⟨items, target, hitems, htarget, hgoto, -⟩ := hI.edge hedge
    obtain rfl := Option.some.inj (hstate.symm.trans hitems)
    obtain ⟨q', hq'⟩ := hmapping htarget
    exact ⟨q', hlookup.2 ⟨c, id, hedge, hc, hq'⟩, hhas hq' htarget (hgoto.moved _ hitem hX)⟩
  -- the cores agree, so a set of items closed under the construction may ignore lookaheads
  · intro V hstart hV p k a hitem
    obtain ⟨c, state, hc, hstate, hitem⟩ := hof hitem
    obtain ⟨item', hitem', hp', hk'⟩ := hmerged.core hc (hmerged.zero hne) hstate hI.zero _ hitem
    have := hinitial.generated V hV hstart item' hitem'
    rwa [hp', hk'] at this
  · intro q X q' V hq hmoved hV p k a hitem
    obtain ⟨c, id, hedge, hc, hid⟩ := hlookup.1 hq
    obtain ⟨items, target, hitems, htarget, hgoto, -⟩ := hI.edge hedge
    obtain ⟨c', state, hc', hstate, hitem⟩ := hof hitem
    obtain ⟨item', hitem', hp', hk'⟩ := hmerged.core hc' hid hstate htarget _ hitem
    have := hgoto.generated V hV (fun item hitem hX => by
      obtain ⟨a, ha⟩ := exists_lookaheadOf item.lookahead
      exact hmoved _ _ a (hhas hc hitems (ha ▸ hitem)) hX) item' hitem'
    rwa [hp', hk'] at this
  · intro q X q' hq
    obtain ⟨c, id, hedge, hc, hid⟩ := hlookup.1 hq
    obtain ⟨items, target, hitems, htarget, hgoto, item, hitem, hX⟩ := hI.edge hedge
    obtain ⟨a, ha⟩ := exists_lookaheadOf item.lookahead
    exact ⟨item.production, item.dot, a, hhas hc hitems (ha ▸ hitem), hX⟩

end OcEarley
