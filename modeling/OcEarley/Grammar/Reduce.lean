import OcEarley.Grammar.Productive

/-!
# Grammar reduction

`reduce` keeps the nonterminals that are productive and reachable, the productions between them and
the terminals of these productions, and renumbers all three.  `Image` says how the reduced grammar
is related to the original one, `reduce_spec` what is kept, and `reduce_preserves_language` that no
sentence is lost.
-/

namespace OcEarley

/-- How much a reduction has removed. -/
structure ReductionStats where
  removedNonterminals : ℕ
  removedTerminals : ℕ
  removedProductions : ℕ
  deriving DecidableEq, Repr

namespace Grammar

/-! ### The reduction -/

/-- Give the entries whose flag is set new ids, in order; the table maps old ids to new ones. -/
def renumber {α : Type} (keep : List Bool) (idOf : α → ℕ) (withId : ℕ → α → α) (items : List α) :
    Except CompileError (List (Option ℕ) × List α) :=
  items.foldlM (fun state item => do
    if ← vecGet keep (idOf item) then do
      let id ← toU32 state.2.length .grammarReduction
      let map ← vecSet state.1 (idOf item) (some id)
      pure (map, state.2 ++ [withId id item])
    else pure state) (List.replicate items.length none, [])

/-- The left-hand side and the nonterminals of the right-hand side are retained. -/
def isRetained (retained : List Bool) (production : Production) : Except CompileError Bool := do
  if ← vecGet retained production.lhs then
    production.rhs.allM fun
      | .nonterminal id => vecGet retained id
      | .terminal _ => pure true
  else pure false

/-- The terminals of a production are used. -/
def markTerminals (used : List Bool) (production : Production) : Except CompileError (List Bool) :=
  production.rhs.foldlM (fun used symbol => match symbol with
    | .terminal id => vecSet used id true
    | .nonterminal _ => pure used) used

/-- A symbol under its new id. -/
def renumberSymbol (nonterminalMap terminalMap : List (Option ℕ)) :
    GrammarSymbol → Except CompileError GrammarSymbol
  | .nonterminal id => do
    let new ← vecGet nonterminalMap id
    let id ← Result.unwrap new
      (.internalInvariant "retained production references removed nonterminal")
    pure (.nonterminal id)
  | .terminal id => do
    let new ← vecGet terminalMap id
    let id ← Result.unwrap new
      (.internalInvariant "retained production references removed terminal")
    pure (.terminal id)

/-- A production under its new ids. -/
def renumberProduction (nonterminalMap terminalMap : List (Option ℕ))
    (productions : List Production) (production : Production) :
    Except CompileError (List Production) := do
  let new ← vecGet nonterminalMap production.lhs
  let lhs ← Result.unwrap new (.internalInvariant "retained production has removed lhs")
  let rhs ← production.rhs.mapM (renumberSymbol nonterminalMap terminalMap)
  let id ← toU32 productions.length .grammarReduction
  pure (productions ++ [{ id, lhs, rhs, provenance := production.provenance }])

variable (g : Grammar)

/-- The grammar without what is useless, with new ids; one that generates nothing
keeps its start alone. -/
def reduce : Except CompileError (ReductionStats × Grammar) := do
  let productive ← g.productiveNonterminals
  if ← vecGet productive g.start then do
    let reachable ← g.reachableNonterminals
    let retained := List.zipWith (· && ·) productive reachable
    let nonterminals ← renumber retained Nonterminal.id (fun id n => { n with id })
      g.nonterminals
    let retainedProductions ← g.productions.filterM (isRetained retained)
    let terminalUsed ← retainedProductions.foldlM markTerminals
      (List.replicate g.terminals.length false)
    let terminals ← renumber terminalUsed RegularTerminal.id (fun id t => { t with id })
      g.terminals
    let productions ← retainedProductions.foldlM
      (renumberProduction nonterminals.1 terminals.1) []
    let new ← vecGet nonterminals.1 g.start
    let start ← Result.unwrap new
      (.internalInvariant "productive reachable start was removed")
    pure (⟨g.nonterminals.length - nonterminals.2.length, g.terminals.length - terminals.2.length,
        g.productions.length - productions.length⟩,
      { start, nonterminals := nonterminals.2, terminals := terminals.2, productions })
  else do
    -- the language is empty: only the start symbol stays
    let start ← vecGet g.nonterminals g.start
    pure (⟨g.nonterminals.length - 1, g.terminals.length, g.productions.length⟩,
      { start := 0, nonterminals := [{ start with id := 0 }], terminals := [], productions := [] })

/-! ### The reduced grammar as an image -/

/-- The entry with the id `new` had the id `old` before. -/
def Renamed (ids : List ℕ) (new old : ℕ) : Prop := ids[new]? = some old

/-- `new` is `old` with the ids of its symbols renumbered, and the id `id`. -/
def ProductionImage (ν τ : List ℕ) (old : Production) (id : ℕ) (new : Production) : Prop :=
  ∃ lhs rhs, new = { id, lhs, rhs, provenance := old.provenance } ∧ Renamed ν lhs old.lhs ∧
    List.Forall₂ (SymbolRel (Renamed ν) (Renamed τ)) rhs old.rhs

variable {g}

/-- The grammar `g'` consists of the nonterminals `ν`, the terminals `τ` and the productions `π` of
`g`, in this order, with their positions as their new ids. -/
structure Image (g g' : Grammar) (ν τ π : List ℕ) : Prop where
  nonterminals_ascending : ν.Pairwise (· < ·)
  terminals_ascending : τ.Pairwise (· < ·)
  productions_ascending : π.Pairwise (· < ·)
  nonterminals_length : g'.nonterminals.length = ν.length
  terminals_length : g'.terminals.length = τ.length
  productions_length : g'.productions.length = π.length
  start : Renamed ν g'.start g.start
  nonterminals : ∀ {i A : ℕ}, Renamed ν i A → ∃ n, g.nonterminals[A]? = some n ∧
    g'.nonterminals[i]? = some { n with id := i }
  terminals : ∀ {i t : ℕ}, Renamed τ i t → ∃ found, g.terminals[t]? = some found ∧
    g'.terminals[i]? = some { found with id := i }
  productions : ∀ {i p : ℕ}, Renamed π i p → ∃ old, g.productions[p]? = some old ∧
    ∃ new, g'.productions[i]? = some new ∧ ProductionImage ν τ old i new

/-! ### Renumbering -/

/-- What renumbering entries by the flags `keep` returns: `ids` are the old ids of what is kept. -/
structure Renumbered {α : Type} (keep : List Bool) (withId : ℕ → α → α) (items : List α)
    (ids : List ℕ) (result : List (Option ℕ) × List α) : Prop where
  ascending : ids.Pairwise (· < ·)
  mem_iff : ∀ i, i ∈ ids ↔ i < items.length ∧ keep[i]? = some true
  map_iff : ∀ i j, result.1[i]? = some (some j) ↔ Renamed ids j i
  length_eq : result.2.length = ids.length
  kept : ∀ {i j : ℕ}, Renamed ids j i → ∃ a, items[i]? = some a ∧ result.2[j]? = some (withId j a)

theorem length_le_of_ascending {ids : List ℕ} {n : ℕ} (h : ids.Pairwise (· < ·))
    (hlt : ∀ i ∈ ids, i < n) : ids.length ≤ n := by
  have hsub : ids ⊆ List.range n := fun i hi => List.mem_range.2 (hlt i hi)
  have hnodup : ids.Nodup := h.imp fun hlt => hlt.ne
  simpa using (hnodup.subperm hsub).length_le

section Renumber

variable {α : Type} {keep : List Bool} {withId : ℕ → α → α} {p : List α} {ids : List ℕ}
  {map : List (Option ℕ)} {kept : List α} {a : α}

theorem Renumbered.lt (h : Renumbered keep withId p ids (map, kept)) {i : ℕ} (hi : i ∈ ids) :
    i < p.length :=
  ((h.mem_iff i).1 hi).1

theorem Renumbered.skip (h : Renumbered keep withId p ids (map, kept))
    (hflag : keep[p.length]? = some false) : Renumbered keep withId (p ++ [a]) ids (map, kept) where
  ascending := h.ascending
  mem_iff i := by
    rw [h.mem_iff, List.length_append, List.length_singleton]
    constructor
    · exact fun hi => ⟨by omega, hi.2⟩
    · rintro ⟨hlt, hi⟩
      refine ⟨lt_of_le_of_ne (by omega) fun heq => ?_, hi⟩
      rw [heq, hflag] at hi
      cases hi
  map_iff := h.map_iff
  length_eq := h.length_eq
  kept hj := by
    obtain ⟨b, hb, hb'⟩ := h.kept hj
    exact ⟨b, List.getElem?_append_left (List.getElem?_eq_some_iff.1 hb).1 ▸ hb, hb'⟩

theorem Renumbered.push (h : Renumbered keep withId p ids (map, kept))
    (hflag : keep[p.length]? = some true) (hmap : p.length < map.length) :
    Renumbered keep withId (p ++ [a]) (ids ++ [p.length])
      (map.set p.length (some kept.length), kept ++ [withId kept.length a]) where
  ascending := by
    refine List.pairwise_append.2 ⟨h.ascending, List.pairwise_singleton _ _, fun i hi j hj => ?_⟩
    exact List.mem_singleton.1 hj ▸ h.lt hi
  mem_iff i := by
    rw [List.mem_append, h.mem_iff, List.mem_singleton, List.length_append, List.length_singleton]
    constructor
    · rintro (hi | rfl)
      · exact ⟨by omega, hi.2⟩
      · exact ⟨Nat.lt_succ_self _, hflag⟩
    · rintro ⟨hlt, hi⟩
      rcases Nat.lt_succ_iff_lt_or_eq.1 hlt with hlt | rfl
      · exact .inl ⟨hlt, hi⟩
      · exact .inr rfl
  map_iff i j := by
    -- no id was given to the new entry before
    have hnew : ∀ j, ¬ Renamed ids j p.length := fun j hj =>
      (h.lt (List.mem_of_getElem? hj)).ne rfl
    change (map.set p.length (some kept.length))[i]? = _ ↔ (ids ++ [p.length])[j]? = some i
    rw [getElem?_snoc, List.getElem?_set, ← h.length_eq]
    by_cases hi : p.length = i
    · subst hi
      rw [if_pos rfl, if_pos hmap]
      constructor
      · intro heq
        exact .inr ⟨(Option.some.inj (Option.some.inj heq)).symm, rfl⟩
      · rintro (hj | ⟨rfl, -⟩)
        · exact absurd hj (hnew j)
        · rfl
    · rw [if_neg hi]
      refine (h.map_iff i j).trans ⟨.inl, ?_⟩
      rintro (hj | ⟨-, hj⟩)
      · exact hj
      · exact absurd hj.symm hi
  length_eq := by
    rw [List.length_append, List.length_append]
    exact congrArg (· + 1) h.length_eq
  kept {i j} hj := by
    have hlen : kept.length = ids.length := h.length_eq
    rcases getElem?_snoc.1 hj with hj | ⟨rfl, rfl⟩
    · obtain ⟨b, hb, hb'⟩ := h.kept hj
      exact ⟨b, List.getElem?_append_left (List.getElem?_eq_some_iff.1 hb).1 ▸ hb,
        List.getElem?_append_left (List.getElem?_eq_some_iff.1 hb').1 ▸ hb'⟩
    · exact ⟨a, by simp, by simp [hlen]⟩

theorem renumber_wp {idOf : α → ℕ} {items : List α}
    (hid : ∀ {i : ℕ} {a : α}, items[i]? = some a → idOf a = i)
    (hkeep : keep.length = items.length) (hlen : items.length ≤ u32Max + 1) :
    Result.wp (fun _ => False) (renumber keep idOf withId items) fun result =>
      ∃ ids, Renumbered keep withId items ids result := by
  unfold renumber
  refine Result.wp_mono (Result.wp_foldlM (I := fun p l result => p ++ l = items ∧
    result.1.length = items.length ∧ ∃ ids, Renumbered keep withId p ids result)
    ?_ [] items _ ⟨rfl, List.length_replicate, [], ?_⟩) ?_
  · rintro p a l ⟨map, kept⟩ ⟨hl, hmap, ids, h⟩
    have hl' : p ++ [a] ++ l = items := by simpa using hl
    have hget : items[p.length]? = some a := by rw [← hl]; simp
    have hlt : p.length < items.length := (List.getElem?_eq_some_iff.1 hget).1
    obtain ⟨flag, hflag⟩ : ∃ flag, keep[p.length]? = some flag :=
      ⟨_, List.getElem?_eq_getElem (hkeep ▸ hlt)⟩
    rw [hid hget]
    simp only [Result.wp_bind, wp_vecGet hflag]
    cases flag with
    | false => exact ⟨hl', hmap, ids, h.skip hflag⟩
    | true =>
      have hids : ids.length ≤ p.length := length_le_of_ascending h.ascending fun i => h.lt
      have hkept : kept.length = ids.length := h.length_eq
      change map.length = _ at hmap
      rw [if_pos rfl]
      simp only [Result.wp_bind]
      rw [wp_toU32 (by omega), wp_vecSet (by omega)]
      exact ⟨hl', by simpa using hmap, _, h.push hflag (by omega)⟩
  · refine ⟨.nil, fun i => by simp, fun i j => ?_, rfl, fun hj => by cases hj⟩
    simp [Renamed, List.getElem?_replicate]
  · rintro result ⟨-, -, h⟩
    exact h

end Renumber

/-! ### What is kept -/

/-- The nonterminal stays: it is productive and reachable. -/
def Retained (g : Grammar) (A : ℕ) : Prop := IsProductive g.Rule A ∧ Reaches g.Rule g.start A

/-- The production stays: its nonterminals do. -/
def RetainedProduction (g : Grammar) (production : Production) : Prop :=
  g.Retained production.lhs ∧ ∀ B, .nonterminal B ∈ production.rhs → g.Retained B

/-- `g'` is the image of what `reduce` has to keep of `g`. -/
structure Reduced (g g' : Grammar) (ν τ π : List ℕ) : Prop extends Image g g' ν τ π where
  mem_nonterminals : ∀ A, A ∈ ν ↔ g.Retained A
  mem_terminals : ∀ t, t ∈ τ ↔
    ∃ p ∈ g.productions, g.RetainedProduction p ∧ .terminal t ∈ p.rhs
  mem_productions : ∀ p, p ∈ π ↔
    ∃ production, g.productions[p]? = some production ∧ g.RetainedProduction production

/-- The test of `isRetained` on flags that are in range. -/
def keeps (retained : List Bool) (production : Production) : Bool :=
  decide (retained[production.lhs]? = some true) && production.rhs.all fun
    | .nonterminal B => decide (retained[B]? = some true)
    | .terminal _ => true

theorem vecGet_bool {flags : List Bool} {i : ℕ} (h : i < flags.length) :
    vecGet flags i = .ok (decide (flags[i]? = some true)) := by
  rw [vecGet_of (List.getElem?_eq_getElem h), List.getElem?_eq_getElem h]
  cases flags[i] <;> rfl

theorem isRetained_eq (hg : g.WellFormed) {retained : List Bool}
    (hlen : retained.length = g.nonterminals.length) {production : Production}
    (hp : production ∈ g.productions) :
    isRetained retained production = .ok (keeps retained production) := by
  have hrhs : production.rhs.allM (fun symbol => match symbol with
      | .nonterminal id => vecGet retained id
      | .terminal _ => pure true) = .ok (production.rhs.all fun
        | .nonterminal B => decide (retained[B]? = some true)
        | .terminal _ => true) := by
    refine Result.allM_eq_all fun symbol hs => ?_
    cases symbol with
    | terminal t => rfl
    | nonterminal B => exact vecGet_bool (hlen ▸ hg.rhs_inRange production hp _ hs)
  rw [isRetained, vecGet_bool (hlen ▸ hg.lhs_lt production hp), keeps]
  by_cases hlhs : retained[production.lhs]? = some true
  · rw [decide_eq_true hlhs]
    exact hrhs
  · rw [decide_eq_false hlhs]
    rfl

theorem keeps_iff {retained : List Bool} (h : ∀ A, retained[A]? = some true ↔ g.Retained A)
    {production : Production} :
    keeps retained production = true ↔ g.RetainedProduction production := by
  unfold keeps RetainedProduction
  rw [Bool.and_eq_true, decide_eq_true_iff, h, List.all_eq_true]
  refine and_congr_right fun _ => ⟨fun hall B hB => ?_, fun hall symbol hs => ?_⟩
  · exact (h B).1 (of_decide_eq_true (hall _ hB))
  · cases symbol with
    | terminal t => rfl
    | nonterminal B => exact decide_eq_true ((h B).2 (hall B hs))

theorem markTerminals_wp (hg : g.WellFormed) {production : Production} {used : List Bool}
    (hp : production ∈ g.productions) (hlen : used.length = g.terminals.length) :
    Result.wp (fun _ => False) (markTerminals used production) fun used' =>
      used'.length = g.terminals.length ∧
        ∀ t, used'[t]? = some true ↔ used[t]? = some true ∨ .terminal t ∈ production.rhs := by
  unfold markTerminals
  refine Result.wp_mono (Result.wp_foldlM (I := fun p l used' => p ++ l = production.rhs ∧
    used'.length = g.terminals.length ∧
    ∀ t, used'[t]? = some true ↔ used[t]? = some true ∨ .terminal t ∈ p)
    ?_ [] production.rhs used ⟨rfl, hlen, fun t => by simp⟩) fun used' h => h.2
  rintro p symbol l used' ⟨hl, hlen', hp'⟩
  have hl' : p ++ [symbol] ++ l = production.rhs := by simpa using hl
  cases symbol with
  | nonterminal A => exact ⟨hl', hlen', fun t => by simpa using hp' t⟩
  | terminal t =>
    have ht : t < g.terminals.length :=
      hg.rhs_inRange production hp (.terminal t) (by rw [← hl]; simp)
    simp only
    rw [wp_vecSet (hlen' ▸ ht)]
    refine ⟨hl', by simpa using hlen', fun t' => ?_⟩
    rw [List.getElem?_set, List.mem_append, List.mem_singleton]
    by_cases htt : t = t'
    · subst htt
      simp [hlen', ht]
    · rw [if_neg htt, hp' t']
      simp [Ne.symm htt]

theorem markAllTerminals_wp (hg : g.WellFormed) {kept : List Production}
    (hkept : ∀ p ∈ kept, p ∈ g.productions) :
    Result.wp (fun _ => False)
      (kept.foldlM markTerminals (List.replicate g.terminals.length false)) fun used =>
      used.length = g.terminals.length ∧
        ∀ t, used[t]? = some true ↔ ∃ p ∈ kept, .terminal t ∈ p.rhs := by
  refine Result.wp_mono (Result.wp_foldlM (I := fun p l used => p ++ l = kept ∧
    used.length = g.terminals.length ∧
    ∀ t, used[t]? = some true ↔ ∃ production ∈ p, .terminal t ∈ production.rhs)
    ?_ [] kept _ ⟨rfl, List.length_replicate, fun t => by simp [List.getElem?_replicate]⟩)
    fun used h => h.2
  rintro p production l used ⟨hl, hlen, hused⟩
  refine Result.wp_mono (markTerminals_wp hg (hkept production (by rw [← hl]; simp)) hlen) ?_
  rintro used' ⟨hlen', hused'⟩
  refine ⟨by simpa using hl, hlen', fun t => ?_⟩
  rw [hused', hused]
  simp [or_and_right, exists_or]

theorem renumberSymbol_wp {ν τ : List ℕ} {nonterminalMap terminalMap : List (Option ℕ)}
    (hν : ∀ i j, nonterminalMap[i]? = some (some j) ↔ Renamed ν j i)
    (hτ : ∀ i j, terminalMap[i]? = some (some j) ↔ Renamed τ j i) {symbol : GrammarSymbol}
    (h : match symbol with
      | .nonterminal A => A ∈ ν
      | .terminal t => t ∈ τ) :
    Result.wp (fun _ => False) (renumberSymbol nonterminalMap terminalMap symbol)
      fun symbol' => SymbolRel (Renamed ν) (Renamed τ) symbol' symbol := by
  cases symbol with
  | nonterminal A =>
    obtain ⟨j, hj⟩ := List.mem_iff_getElem?.1 h
    simp only [renumberSymbol, Result.wp_bind]
    rw [wp_vecGet ((hν A j).2 hj)]
    exact .nonterminal hj
  | terminal t =>
    obtain ⟨j, hj⟩ := List.mem_iff_getElem?.1 h
    simp only [renumberSymbol, Result.wp_bind]
    rw [wp_vecGet ((hτ t j).2 hj)]
    exact .terminal hj

theorem renumberProduction_wp {ν τ : List ℕ} {nonterminalMap terminalMap : List (Option ℕ)}
    (hν : ∀ i j, nonterminalMap[i]? = some (some j) ↔ Renamed ν j i)
    (hτ : ∀ i j, terminalMap[i]? = some (some j) ↔ Renamed τ j i) {productions : List Production}
    {production : Production} (hlen : productions.length ≤ u32Max) (hlhs : production.lhs ∈ ν)
    (hrhs : ∀ symbol ∈ production.rhs, match symbol with
      | .nonterminal A => A ∈ ν
      | .terminal t => t ∈ τ) :
    Result.wp (fun _ => False)
      (renumberProduction nonterminalMap terminalMap productions production) fun productions' =>
        ∃ new, productions' = productions ++ [new] ∧
          ProductionImage ν τ production productions.length new := by
  obtain ⟨lhs, hlhs⟩ := List.mem_iff_getElem?.1 hlhs
  simp only [renumberProduction, Result.wp_bind]
  rw [wp_vecGet ((hν _ lhs).2 hlhs)]
  rw [Result.wp_unwrap_some]
  refine Result.wp_mono (Result.wp_mapM fun symbol hs => renumberSymbol_wp hν hτ (hrhs symbol hs))
    fun rhs hrhs => ?_
  rw [wp_toU32 hlen]
  exact ⟨_, rfl, lhs, rhs, rfl, hlhs, hrhs.flip⟩

theorem renumberProductions_wp {ν τ : List ℕ} {nonterminalMap terminalMap : List (Option ℕ)}
    (hν : ∀ i j, nonterminalMap[i]? = some (some j) ↔ Renamed ν j i)
    (hτ : ∀ i j, terminalMap[i]? = some (some j) ↔ Renamed τ j i) {kept : List Production}
    (hlen : kept.length ≤ u32Max + 1) (hlhs : ∀ p ∈ kept, p.lhs ∈ ν)
    (hrhs : ∀ p ∈ kept, ∀ symbol ∈ p.rhs, match symbol with
      | .nonterminal A => A ∈ ν
      | .terminal t => t ∈ τ) :
    Result.wp (fun _ => False)
      (kept.foldlM (renumberProduction nonterminalMap terminalMap) []) fun productions =>
        productions.length = kept.length ∧ ∀ {i : ℕ} {old : Production}, kept[i]? = some old →
          ∃ new, productions[i]? = some new ∧ ProductionImage ν τ old i new := by
  refine Result.wp_mono (Result.wp_foldlM (I := fun p l productions => p ++ l = kept ∧
    productions.length = p.length ∧ ∀ {i : ℕ} {old : Production}, p[i]? = some old →
      ∃ new, productions[i]? = some new ∧ ProductionImage ν τ old i new)
    ?_ [] kept [] ⟨rfl, rfl, fun h => by cases h⟩) fun productions h => h.2
  rintro p production l productions ⟨hl, hplen, hp⟩
  have hmem : production ∈ kept := by rw [← hl]; simp
  have hle : p.length + 1 ≤ kept.length := by rw [← hl]; simp
  refine Result.wp_mono (renumberProduction_wp hν hτ (by omega) (hlhs production hmem)
    (hrhs production hmem)) ?_
  rintro _ ⟨new, rfl, hnew⟩
  refine ⟨by simpa using hl, by simp [hplen], fun {i old} hi => ?_⟩
  rcases getElem?_snoc.1 hi with hi | ⟨rfl, rfl⟩
  · obtain ⟨found, hfound, himage⟩ := hp hi
    exact ⟨found, List.getElem?_append_left (List.getElem?_eq_some_iff.1 hfound).1 ▸ hfound, himage⟩
  · exact ⟨new, by simp [hplen], hplen ▸ hnew⟩

/-! ### The reduction as a whole -/

theorem reaches_start_retained (hstart : IsProductive g.Rule g.start) : g.Retained g.start :=
  ⟨hstart, Relation.ReflTransGen.refl⟩

theorem WellFormed.map_production_id (hg : g.WellFormed) :
    g.productions.map Production.id = List.range g.productions.length := by
  refine List.ext_getElem (by simp) fun i h _ => ?_
  rw [List.getElem_map, List.getElem_range]
  exact hg.production_id (List.getElem?_eq_getElem (by simpa using h))

/-- The ids of the productions that pass a test, in order. -/
theorem filter_production_ids (hg : g.WellFormed) (keep : Production → Bool) :
    ((g.productions.filter keep).map Production.id).Pairwise (· < ·) ∧
      ∀ p, p ∈ (g.productions.filter keep).map Production.id ↔
        ∃ production, g.productions[p]? = some production ∧ keep production = true := by
  constructor
  · have hsub := (List.filter_sublist (p := keep) (l := g.productions)).map Production.id
    rw [hg.map_production_id] at hsub
    exact List.pairwise_lt_range.sublist hsub
  · intro p
    rw [List.mem_map]
    constructor
    · rintro ⟨production, hmem, rfl⟩
      obtain ⟨hmem, hkeep⟩ := List.mem_filter.1 hmem
      obtain ⟨i, hi⟩ := List.mem_iff_getElem?.1 hmem
      exact ⟨production, (hg.production_id hi).symm ▸ hi, hkeep⟩
    · rintro ⟨production, hp, hkeep⟩
      exact ⟨production, List.mem_filter.2 ⟨List.mem_of_getElem? hp, hkeep⟩, hg.production_id hp⟩

/-- The flags of what is both productive and reachable. -/
theorem retained_flags {productive reachable : List Bool}
    (hp : ∀ A, productive[A]? = some true ↔ IsProductive g.Rule A)
    (hr : ∀ A, reachable[A]? = some true ↔ Reaches g.Rule g.start A) (A : ℕ) :
    (List.zipWith (· && ·) productive reachable)[A]? = some true ↔ g.Retained A := by
  rw [Retained, ← hp, ← hr, List.getElem?_zipWith]
  cases productive[A]? <;> cases reachable[A]? <;> simp

/-- With a productive start symbol, exactly the productive and reachable part is kept. -/
theorem reduce_wp (hg : g.WellFormed) (hstart : IsProductive g.Rule g.start) :
    Result.wp (fun _ => False) g.reduce fun result => ∃ ν τ π, Reduced g result.2 ν τ π ∧
      result.1 = ⟨g.nonterminals.length - result.2.nonterminals.length,
        g.terminals.length - result.2.terminals.length,
        g.productions.length - result.2.productions.length⟩ := by
  obtain ⟨productive, hproductive, hplen, hpiff⟩ := productiveNonterminals_spec hg
  obtain ⟨reachable, hreachable, hrlen, hriff⟩ := reachableNonterminals_spec hg
  have hstartFlag : productive[g.start]? = some true := (hpiff g.start).2 hstart
  set retained := List.zipWith (· && ·) productive reachable with hretainedDef
  have hlen : retained.length = g.nonterminals.length := by
    simp [hretainedDef, hplen, hrlen]
  have hretained : ∀ A, retained[A]? = some true ↔ g.Retained A := retained_flags hpiff hriff
  have hkept : g.productions.filterM (isRetained retained) =
      .ok (g.productions.filter (keeps retained)) :=
    Result.filterM_eq_filter fun p hp => isRetained_eq hg hlen hp
  obtain ⟨hascending, hmemIds⟩ := filter_production_ids hg (keeps retained)
  set kept := g.productions.filter (keeps retained) with hkeptDef
  have hmemKept : ∀ p, p ∈ kept ↔ p ∈ g.productions ∧ g.RetainedProduction p := fun p => by
    rw [hkeptDef, List.mem_filter, keeps_iff hretained]
  -- the two analyses, the renumbering of the nonterminals, the marking of the used terminals
  simp only [reduce, Result.wp_bind]
  rw [hproductive]
  change Result.wp _ (vecGet productive g.start) _
  rw [wp_vecGet hstartFlag, if_pos rfl]
  simp only [Result.wp_bind]
  rw [hreachable]
  change Result.wp _ (renumber retained _ _ _) _
  refine Result.wp_mono (renumber_wp hg.nonterminal_id hlen hg.nonterminals_length) ?_
  rintro ⟨nonterminalMap, nonterminals⟩ ⟨ν, hν⟩
  rw [hkept]
  change Result.wp _ (kept.foldlM markTerminals _) _
  refine Result.wp_mono (markAllTerminals_wp hg fun p hp => ((hmemKept p).1 hp).1) ?_
  rintro used ⟨hulen, hused⟩
  refine Result.wp_mono (renumber_wp hg.terminal_id hulen hg.terminals_length) ?_
  rintro ⟨terminalMap, terminals⟩ ⟨τ, hτ⟩
  -- the new ids are those of the retained nonterminals and of the terminals of kept productions
  have hmemν : ∀ A, A ∈ ν ↔ g.Retained A := fun A => by
    rw [hν.mem_iff, hretained]
    refine and_iff_right_of_imp fun hA => hlen ▸ ?_
    exact (List.getElem?_eq_some_iff.1 ((hretained A).2 hA)).1
  have hmemτ : ∀ t, t ∈ τ ↔ ∃ p ∈ kept, .terminal t ∈ p.rhs := fun t => by
    rw [hτ.mem_iff, hused]
    refine and_iff_right_of_imp ?_
    rintro ⟨p, hp, ht⟩
    exact hg.rhs_inRange p ((hmemKept p).1 hp).1 _ ht
  have hklen : kept.length ≤ u32Max + 1 :=
    (List.length_filter_le _ _).trans hg.productions_length
  refine Result.wp_mono (renumberProductions_wp hν.map_iff hτ.map_iff hklen
    (fun p hp => (hmemν _).2 ((hmemKept p).1 hp).2.1) fun p hp symbol hs => ?_) ?_
  · cases symbol with
    | nonterminal A => exact (hmemν A).2 (((hmemKept p).1 hp).2.2 A hs)
    | terminal t => exact (hmemτ t).2 ⟨p, hp, hs⟩
  rintro productions ⟨hprlen, hproductions⟩
  -- the start symbol is retained because it reaches itself and is productive
  obtain ⟨start, hstart'⟩ :=
    List.mem_iff_getElem?.1 ((hmemν g.start).2 (reaches_start_retained hstart))
  rw [wp_vecGet ((hν.map_iff _ start).2 hstart'), Result.wp_unwrap_some]
  refine ⟨ν, τ, kept.map Production.id, {
    nonterminals_ascending := hν.ascending
    terminals_ascending := hτ.ascending
    productions_ascending := hascending
    nonterminals_length := hν.length_eq
    terminals_length := hτ.length_eq
    productions_length := by simpa using hprlen
    start := hstart'
    nonterminals := hν.kept
    terminals := hτ.kept
    productions := ?_
    mem_nonterminals := hmemν
    mem_terminals := ?_
    mem_productions := ?_ }, rfl⟩
  · intro i p hi
    rw [Renamed, List.getElem?_map] at hi
    obtain ⟨old, hold, rfl⟩ := Option.map_eq_some_iff.1 hi
    obtain ⟨new, hnew, himage⟩ := hproductions hold
    obtain ⟨hmem, -⟩ := (hmemKept old).1 (List.mem_of_getElem? hold)
    obtain ⟨j, hj⟩ := List.mem_iff_getElem?.1 hmem
    exact ⟨old, (hg.production_id hj).symm ▸ hj, new, hnew, himage⟩
  · intro t
    rw [hmemτ]
    simp only [hmemKept, and_assoc]
  · intro p
    rw [hmemIds]
    simp only [keeps_iff hretained]

/-- Without a productive start symbol, only the start symbol is kept. -/
theorem reduce_of_not_productive (hg : g.WellFormed) (hstart : ¬ IsProductive g.Rule g.start) :
    ∃ g', Image g g' [g.start] [] [] ∧ g'.productions = [] ∧
      g.reduce = .ok (⟨g.nonterminals.length - 1, g.terminals.length,
        g.productions.length⟩, g') := by
  obtain ⟨productive, hproductive, hplen, hpiff⟩ := productiveNonterminals_spec hg
  have hlt : g.start < productive.length := hplen ▸ hg.start_lt
  have hflag : vecGet productive g.start = .ok false := by
    rw [vecGet_bool hlt]
    exact congrArg Except.ok (decide_eq_false (mt (hpiff g.start).1 hstart))
  have hget := List.getElem?_eq_getElem hg.start_lt
  set found := g.nonterminals[g.start] with hfound
  refine ⟨⟨0, [{ found with id := 0 }], [], []⟩, ?_, rfl, ?_⟩
  · refine ⟨List.pairwise_singleton _ _, .nil, .nil, rfl, rfl, rfl, rfl, fun {i A} hi => ?_,
      fun h => (by cases h), fun h => (by cases h)⟩
    obtain ⟨rfl, rfl⟩ : i = 0 ∧ A = g.start := by
      cases i with
      | zero => exact ⟨rfl, (Option.some.inj hi).symm⟩
      | succ i => cases hi
    exact ⟨found, hget, rfl⟩
  · unfold reduce
    rw [hproductive]
    change (vecGet productive g.start >>= _) = _
    rw [hflag]
    change (vecGet g.nonterminals g.start >>= _) = _
    rw [vecGet_of hget]
    rfl

/-! ### Sentences of an image -/

theorem Renamed.unique {ids : List ℕ} (h : ids.Pairwise (· < ·)) {i j a : ℕ}
    (hi : Renamed ids i a) (hj : Renamed ids j a) : i = j := by
  have hnodup : ids.Nodup := h.imp fun hlt => hlt.ne
  exact (List.getElem?_inj (List.getElem?_eq_some_iff.1 hi).1 hnodup).1 (hi.trans hj.symm)

theorem Renamed.lt {ids : List ℕ} {i a : ℕ} (h : Renamed ids i a) : i < ids.length :=
  (List.getElem?_eq_some_iff.1 h).1

section Image

variable {g' : Grammar} {ν τ π : List ℕ}

theorem Image.of_production (h : Image g g' ν τ π) {i : ℕ} {new : Production}
    (hi : g'.productions[i]? = some new) :
    ∃ old, old ∈ g.productions ∧ ProductionImage ν τ old i new := by
  have hlt : i < π.length := h.productions_length ▸ (List.getElem?_eq_some_iff.1 hi).1
  obtain ⟨old, hold, found, hfound, himage⟩ :=
    h.productions (show Renamed π i π[i] from List.getElem?_eq_getElem hlt)
  obtain rfl := Option.some.inj (hi.symm.trans hfound)
  exact ⟨old, List.mem_of_getElem? hold, himage⟩

/-- Every production of the image comes from one of the grammar. -/
theorem Image.rule (h : Image g g' ν τ π) {A' A : ℕ} {γ' : List GrammarSymbol}
    (hA : Renamed ν A' A) (hrule : g'.Rule A' γ') :
    ∃ γ, g.Rule A γ ∧ List.Forall₂ (SymbolRel (Renamed ν) (Renamed τ)) γ' γ := by
  obtain ⟨i, new, hi, rfl, rfl⟩ := rule_iff.1 hrule
  obtain ⟨old, hold, lhs, rhs, rfl, hlhs, hrhs⟩ := h.of_production hi
  obtain rfl := Option.some.inj (hA.symm.trans hlhs)
  exact ⟨old.rhs, ⟨old, hold, rfl, rfl⟩, hrhs⟩

/-- Every production of the grammar that is kept is in the image. -/
theorem Image.rule_of_mem (h : Image g g' ν τ π) {A' A p i : ℕ} {production : Production}
    (hA : Renamed ν A' A) (hi : Renamed π i p) (hp : g.productions[p]? = some production)
    (hlhs : production.lhs = A) : ∃ γ', g'.Rule A' γ' ∧
      List.Forall₂ (SymbolRel (Renamed ν) (Renamed τ)) γ' production.rhs := by
  obtain ⟨old, hold, new, hnew, lhs, rhs, rfl, hlhs', hrhs⟩ := h.productions hi
  obtain rfl := Option.some.inj (hp.symm.trans hold)
  subst hlhs
  obtain rfl := Renamed.unique h.nonterminals_ascending hA hlhs'
  exact ⟨rhs, ⟨_, List.mem_of_getElem? hnew, rfl, rfl⟩, hrhs⟩

/-- A sentence of the image is one of the grammar. -/
theorem Image.sentence (h : Image g g' ν τ π) {β' β : List GrammarSymbol} {w' : List ℕ}
    (hβ : List.Forall₂ (SymbolRel (Renamed ν) (Renamed τ)) β' β)
    (hw : Sentence g'.Rule β' w') :
    ∃ w, List.Forall₂ (Renamed τ) w' w ∧ Sentence g.Rule β w :=
  hw.transport (fun _ _ _ hA hrule => h.rule hA hrule) hβ

/-- A sentence of the grammar is one of the image, if it is derived from
nonterminals that are kept. -/
theorem Reduced.sentence (h : Reduced g g' ν τ π) {β' β : List GrammarSymbol} {w : List ℕ}
    (hβ : List.Forall₂ (SymbolRel (Renamed ν) (Renamed τ)) β' β)
    (hretained : ∀ B, .nonterminal B ∈ β → g.Retained B) (hw : Sentence g.Rule β w) :
    ∃ w', List.Forall₂ (Renamed τ) w' w ∧ Sentence g'.Rule β' w' := by
  have hrestrict : Sentence (fun A γ => g.Rule A γ ∧ g.Retained A ∧
      ∀ B, .nonterminal B ∈ γ → g.Retained B) β w :=
    hw.restrict (fun A γ hA hrule hγ B hB => ⟨hγ B hB, hA.2.tail ⟨γ, hrule, hB⟩⟩) hretained
  have hβ' : List.Forall₂
      (SymbolRel (fun A A' => Renamed ν A' A) fun t t' => Renamed τ t' t) β β' :=
    hβ.flip.imp fun _ _ => SymbolRel.flip
  obtain ⟨w', hτ, hw'⟩ : ∃ w', List.Forall₂ (fun t t' => Renamed τ t' t) w w' ∧
      Sentence g'.Rule β' w' := by
    refine hrestrict.transport ?_ hβ'
    rintro A A' γ hA ⟨hrule, hAr, hγ⟩
    obtain ⟨p, production, hp, rfl, rfl⟩ := rule_iff.1 hrule
    obtain ⟨i, hi⟩ := List.mem_iff_getElem?.1 ((h.mem_productions p).2 ⟨production, hp, hAr, hγ⟩)
    obtain ⟨γ', hγ', hrel⟩ := h.rule_of_mem hA hi hp rfl
    exact ⟨γ', hγ', hrel.flip.imp fun _ _ => SymbolRel.flip⟩
  exact ⟨w', hτ.flip, hw'⟩

/-- An image of a well-formed grammar is well-formed. -/
theorem Image.wellFormed (hg : g.WellFormed) (h : Image g g' ν τ π) : g'.WellFormed where
  start_lt := h.nonterminals_length ▸ h.start.lt
  nonterminal_id {i n} hi := by
    have hlt : i < ν.length := h.nonterminals_length ▸ (List.getElem?_eq_some_iff.1 hi).1
    obtain ⟨found, -, hfound⟩ := h.nonterminals (List.getElem?_eq_getElem hlt)
    obtain rfl := Option.some.inj (hi.symm.trans hfound)
    rfl
  terminal_id {i t} hi := by
    have hlt : i < τ.length := h.terminals_length ▸ (List.getElem?_eq_some_iff.1 hi).1
    obtain ⟨found, -, hfound⟩ := h.terminals (List.getElem?_eq_getElem hlt)
    obtain rfl := Option.some.inj (hi.symm.trans hfound)
    rfl
  production_id {i p} hi := by
    obtain ⟨old, hold, lhs, rhs, rfl, -⟩ := h.of_production hi
    rfl
  lhs_lt p hp := by
    obtain ⟨i, hi⟩ := List.mem_iff_getElem?.1 hp
    obtain ⟨old, hold, lhs, rhs, rfl, hlhs, -⟩ := h.of_production hi
    exact h.nonterminals_length ▸ hlhs.lt
  rhs_inRange p hp symbol hs := by
    obtain ⟨i, hi⟩ := List.mem_iff_getElem?.1 hp
    obtain ⟨old, hold, lhs, rhs, rfl, -, hrhs⟩ := h.of_production hi
    obtain ⟨symbol', -, hrel⟩ := exists_of_forall₂_left hrhs hs
    cases hrel with
    | nonterminal hA => exact hA.lt.trans_eq h.nonterminals_length.symm
    | terminal ht => exact ht.lt.trans_eq h.terminals_length.symm
  nonterminals_length := by
    refine h.nonterminals_length ▸ (length_le_of_ascending h.nonterminals_ascending fun A hA => ?_)
      |>.trans hg.nonterminals_length
    obtain ⟨i, hi⟩ := List.mem_iff_getElem?.1 hA
    obtain ⟨n, hn, -⟩ := h.nonterminals hi
    exact (List.getElem?_eq_some_iff.1 hn).1
  terminals_length := by
    refine h.terminals_length ▸ (length_le_of_ascending h.terminals_ascending fun t ht => ?_)
      |>.trans hg.terminals_length
    obtain ⟨i, hi⟩ := List.mem_iff_getElem?.1 ht
    obtain ⟨n, hn, -⟩ := h.terminals hi
    exact (List.getElem?_eq_some_iff.1 hn).1
  productions_length := by
    refine h.productions_length ▸ (length_le_of_ascending h.productions_ascending fun p hp => ?_)
      |>.trans hg.productions_length
    obtain ⟨i, hi⟩ := List.mem_iff_getElem?.1 hp
    obtain ⟨n, hn, -⟩ := h.productions hi
    exact (List.getElem?_eq_some_iff.1 hn).1
  rhs_length p hp := by
    obtain ⟨i, hi⟩ := List.mem_iff_getElem?.1 hp
    obtain ⟨old, hold, lhs, rhs, rfl, -, hrhs⟩ := h.of_production hi
    exact hrhs.length_eq ▸ hg.rhs_length old hold

end Image

/-- **The reduction preserves the language.**  It succeeds; what it keeps is renumbered densely,
every production being the image of an original one; and the sentences are the same, up to the
renumbering of the terminals. -/
theorem reduce_preserves_language (hg : g.WellFormed) :
    ∃ stats g' ν τ π, g.reduce = .ok (stats, g') ∧ Image g g' ν τ π ∧ g'.WellFormed ∧
      ∀ w, Sentence g.Rule [.nonterminal g.start] w ↔
        ∃ w', List.Forall₂ (Renamed τ) w' w ∧ Sentence g'.Rule [.nonterminal g'.start] w' := by
  by_cases hstart : IsProductive g.Rule g.start
  · obtain ⟨⟨stats, g'⟩, hreduce, ν, τ, π, h, -⟩ := Result.exists_of_wp (reduce_wp hg hstart)
    have hβ : List.Forall₂ (SymbolRel (Renamed ν) (Renamed τ)) [.nonterminal g'.start]
        [.nonterminal g.start] := .cons (.nonterminal h.start) .nil
    refine ⟨stats, g', ν, τ, π, hreduce, h.toImage, h.toImage.wellFormed hg, fun w => ⟨?_, ?_⟩⟩
    · refine h.sentence hβ fun B hB => ?_
      cases List.mem_singleton.1 hB
      exact reaches_start_retained hstart
    · rintro ⟨w', hτ, hw'⟩
      obtain ⟨found, hfound, hw⟩ := h.toImage.sentence hβ hw'
      have hunique : Relator.RightUnique (Renamed τ) := fun _ _ _ h₁ h₂ =>
        Option.some.inj (h₁.symm.trans h₂)
      exact List.right_unique_forall₂' hunique hfound hτ ▸ hw
  · obtain ⟨g', h, hempty, hreduce⟩ := reduce_of_not_productive hg hstart
    refine ⟨_, g', _, _, _, hreduce, h, h.wellFormed hg, fun w => ⟨fun hw => ?_, ?_⟩⟩
    · exact absurd ⟨w, hw⟩ hstart
    · rintro ⟨w', -, hw'⟩
      obtain ⟨γ, ⟨p, hp, -⟩, -⟩ := yields_nonterminal_iff.1 hw'
      rw [hempty] at hp
      cases hp

/-- `S → a | U B`, `U → U`, `B → b`: the start symbol reaches `B` only through a production that
mentions the unproductive `U`. -/
def orphaning : Grammar where
  start := 0
  nonterminals := [⟨0, "S", .root⟩, ⟨1, "U", .root⟩, ⟨2, "B", .root⟩]
  terminals := [⟨0, .literal [97], .root⟩, ⟨1, .literal [98], .root⟩]
  productions := [⟨0, 0, [.terminal 0], .root⟩, ⟨1, 0, [.nonterminal 1, .nonterminal 2], .root⟩,
    ⟨2, 1, [.nonterminal 1], .root⟩, ⟨3, 2, [.terminal 1], .root⟩]

theorem orphaning_wellFormed : orphaning.WellFormed :=
  .of_ids (by decide) (by decide) (by decide) (by decide) (by decide) (by decide) (by decide)
    (by decide) (by decide) (by decide)

theorem reduce_preserves_language_orphaning :
    ∃ stats g' ν τ π, orphaning.reduce = .ok (stats, g') ∧ Image orphaning g' ν τ π ∧
      g'.WellFormed ∧
      ∀ w, Sentence orphaning.Rule [.nonterminal orphaning.start] w ↔
        ∃ w', List.Forall₂ (Renamed τ) w' w ∧ Sentence g'.Rule [.nonterminal g'.start] w' :=
  reduce_preserves_language orphaning_wellFormed

end Grammar

end OcEarley
