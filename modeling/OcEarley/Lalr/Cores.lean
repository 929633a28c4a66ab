import OcEarley.Lalr.States

/-!
# Cores

On a grammar with ids in range `closure` and `goto` fail at a limit only, or where the dot of an
item stops being a `u32` (`CompiledLalr.Fails`).  The core of what they return depends on nothing
but the core of what they are given (`goto_core`), because the lookaheads of an item have no
influence on whether there are any for the items that it asks for.
-/

namespace OcEarley

open CompiledLalr

/-- How the construction of the tables fails. -/
def CompiledLalr.Fails (g : ResidualGrammar) (e : CompileError) : Prop :=
  e.IsLimit ∨ e = .internalInvariant "LR item dot overflowed" ∧
    ∃ production ∈ g.productions, u32Max < production.rhs.length

theorem wp_enforceCompileLimit {g : ResidualGrammar} {stage : CompileStage} {observed limit : ℕ}
    {Q : Unit → Prop} (h : observed ≤ limit → Q ()) :
    Result.wp (Fails g) (enforceCompileLimit stage observed limit) Q :=
  Result.wp_require.2 ⟨h, fun _ => .inl trivial⟩

theorem wp_require_limit {g : ResidualGrammar} {p : Prop} [Decidable p] {stage : CompileStage}
    {observed limit : ℕ} {Q : Unit → Prop} (h : p → Q ()) :
    Result.wp (Fails g) (Result.require p (.resourceLimitExceeded stage observed limit)) Q :=
  Result.wp_require.2 ⟨h, fun _ => .inl trivial⟩

/-! ### Equal cores -/

/-- Every item has one with the same production and dot in the other list. -/
def SubCore (l l' : List Lr1Item) : Prop :=
  ∀ item ∈ l, ∃ item' ∈ l', item'.production = item.production ∧ item'.dot = item.dot

theorem core_eq_iff {l l' : List Lr1Item} :
    MergedCores.core l = MergedCores.core l' ↔ SubCore l l' ∧ SubCore l' l := by
  have hsub : ∀ {l l' : List Lr1Item}, (∀ c, c ∈ MergedCores.core l → c ∈ MergedCores.core l') ↔
      SubCore l l' := by
    intro l l'
    constructor
    · intro h item hitem
      exact MergedCores.mem_core.1 (h (item.production, item.dot)
        (MergedCores.mem_core.2 ⟨item, hitem, rfl, rfl⟩))
    · rintro h ⟨p, k⟩ hc
      obtain ⟨item, hitem, rfl, rfl⟩ := MergedCores.mem_core.1 hc
      exact MergedCores.mem_core.2 (h item hitem)
  rw [← hsub, ← hsub]
  constructor
  · intro h
    exact ⟨fun c hc => h ▸ hc, fun c hc => h ▸ hc⟩
  · rintro ⟨h, h'⟩
    refine (sortDedup_eq_iff toLex.injective).2 fun c => ?_
    have hc := h c
    have hc' := h' c
    unfold MergedCores.core at hc hc'
    simp only [mem_sortDedup] at hc hc'
    exact ⟨hc, hc'⟩

section Core

variable {productions : List ParserProduction} {byLhs : List (List ℕ)} {nullable : List Bool}
  {first : List TerminalSet} {limits : CompileLimits} {item item' : Lr1Item}
  {l items items' seed seed' target target' : List Lr1Item} {X : GrammarSymbol}

theorem symbolAfterDot_congr (hp : item'.production = item.production)
    (hdot : item'.dot = item.dot) :
    symbolAfterDot productions item' = symbolAfterDot productions item := by
  unfold symbolAfterDot
  rw [hp, hdot]

/-- Whether a tail has lookaheads does not depend on the one behind it. -/
theorem firstOfSymbols_eq_nil_iff {a a' : Lookahead} {β : List GrammarSymbol}
    {found : List Lookahead} (h : firstOfSymbols nullable first a β = .ok found) :
    ∃ found', firstOfSymbols nullable first a' β = .ok found' ∧ (found' = [] ↔ found = []) := by
  induction β generalizing found with
  | nil =>
    obtain rfl := Result.pure_eq_ok.1 h
    exact ⟨[a'], rfl, by simp⟩
  | cons X β ih =>
    cases X with
    | terminal t => exact ⟨found, h, Iff.rfl⟩
    | nonterminal A =>
      obtain ⟨set, hset, h⟩ := Result.bind_eq_ok.1 h
      obtain ⟨nullableSymbol, hnullable, h⟩ := Result.bind_eq_ok.1 h
      cases nullableSymbol with
      | false =>
        exact ⟨found, Result.bind_eq_ok.2 ⟨set, hset, Result.bind_eq_ok.2 ⟨false, hnullable, h⟩⟩,
          Iff.rfl⟩
      | true =>
        obtain ⟨rest, hrest, h⟩ := Result.bind_eq_ok.1 h
        obtain rfl := Result.pure_eq_ok.1 h
        obtain ⟨rest', hrest', hnil⟩ := ih hrest
        refine ⟨set.terminals.map Lookahead.terminal ++ rest', ?_, ?_⟩
        · exact Result.bind_eq_ok.2 ⟨set, hset, Result.bind_eq_ok.2 ⟨true, hnullable,
            Result.bind_eq_ok.2 ⟨rest', hrest', rfl⟩⟩⟩
        · rw [List.append_eq_nil_iff, List.append_eq_nil_iff, hnil]

/-- Items with the same production and dot ask for the same productions. -/
theorem closureStep_core (hp : item'.production = item.production) (hdot : item'.dot = item.dot)
    (h : closureStep productions byLhs nullable first item = .ok l) :
    ∃ l', closureStep productions byLhs nullable first item' = .ok l' ∧ SubCore l l' := by
  obtain ⟨next, hnext, h⟩ := Result.bind_eq_ok.1 h
  have hnext' := (symbolAfterDot_congr hp hdot).trans hnext
  split at h
  · next A =>
    obtain ⟨lookaheads, hfirst, h⟩ := Result.bind_eq_ok.1 h
    obtain ⟨starts, hstarts, h⟩ := Result.bind_eq_ok.1 h
    obtain rfl := Result.pure_eq_ok.1 h
    obtain ⟨production, hproduction, hfirst⟩ := Result.bind_eq_ok.1 hfirst
    obtain ⟨⟨⟩, hlen, hfirst⟩ := Result.bind_eq_ok.1 hfirst
    obtain ⟨found, hfound, hfirst⟩ := Result.bind_eq_ok.1 hfirst
    obtain rfl := Result.pure_eq_ok.1 hfirst
    obtain ⟨found', hfound', hnil⟩ : ∃ found', firstOfSymbols nullable first item'.lookahead _ =
        .ok found' ∧ (found' = [] ↔ found = []) := firstOfSymbols_eq_nil_iff hfound
    have hfirst' : firstOfTail productions nullable first item' =
        .ok (sortDedup Lookahead.key found') := by
      unfold firstOfTail
      rw [hp, hdot]
      exact Result.bind_eq_ok.2 ⟨production, hproduction, Result.bind_eq_ok.2 ⟨(), hlen,
        Result.bind_eq_ok.2 ⟨found', hfound', rfl⟩⟩⟩
    refine ⟨_, Result.bind_eq_ok.2 ⟨_, hnext', Result.bind_eq_ok.2 ⟨_, hfirst',
      Result.bind_eq_ok.2 ⟨starts, hstarts, rfl⟩⟩⟩, fun start hstart => ?_⟩
    simp only [List.mem_flatMap, List.mem_map, mem_sortDedup] at hstart ⊢
    obtain ⟨p, hpstarts, lookahead, hlookahead, rfl⟩ := hstart
    obtain ⟨lookahead', hlookahead'⟩ := List.exists_mem_of_ne_nil found' fun h =>
      List.ne_nil_of_mem hlookahead (hnil.1 h)
    exact ⟨_, ⟨p, hpstarts, lookahead', hlookahead', rfl⟩, rfl, rfl⟩
  · obtain rfl := Result.pure_eq_ok.1 h
    refine ⟨[], Result.bind_eq_ok.2 ⟨next, hnext', ?_⟩,
      fun start hstart => absurd hstart List.not_mem_nil⟩
    split
    · next hne => exact absurd rfl (hne _)
    · rfl

theorem closure_core (h : closure productions byLhs nullable first limits seed = .ok items)
    (h' : closure productions byLhs nullable first limits seed' = .ok items')
    (hseed : SubCore seed seed') : SubCore items items' := by
  obtain ⟨result, hexplore, h⟩ := Result.bind_eq_ok.1 h
  obtain rfl := Result.pure_eq_ok.1 h
  obtain ⟨result', hexplore', h'⟩ := Result.bind_eq_ok.1 h'
  obtain rfl := Result.pure_eq_ok.1 h'
  obtain ⟨hsub, hclosed⟩ := Worklist.explore_closed hexplore' (fun _ => id)
    fun a ha hna => absurd ha hna
  have hstart : ∀ item ∈ sortDedup Lr1Item.key seed, ∃ item' ∈ result',
      item'.production = item.production ∧ item'.dot = item.dot := by
    intro item hitem
    obtain ⟨item', hitem', hcore⟩ := hseed item (mem_sortDedup.1 hitem)
    exact ⟨item', hsub item' (mem_sortDedup.2 hitem'), hcore⟩
  have key := Worklist.explore_induction hexplore hstart hstart ?_
  · simpa only [SubCore, mem_sortDedup] using key
  · rintro item l ⟨item', hitem', hp, hdot⟩ hstep start hmem
    obtain ⟨l', hstep', hl⟩ := closureStep_core hp hdot hstep
    obtain ⟨l'', hstep'', hl''⟩ := hclosed item' hitem'
    obtain rfl := Except.ok.inj (hstep'.symm.trans hstep'')
    obtain ⟨start', hstart', hcore⟩ := hl start hmem
    exact ⟨start', hl'' start' hstart', hcore⟩

/-- **Cores.**  The core of the items behind a symbol depends on the core of the items alone. -/
theorem goto_core (h : goto productions byLhs nullable first limits items X = .ok target)
    (h' : goto productions byLhs nullable first limits items' X = .ok target')
    (hitems : SubCore items items') : SubCore target target' := by
  obtain ⟨moved, hmoved, h⟩ := Result.bind_eq_ok.1 h
  obtain ⟨moved', hmoved', h'⟩ := Result.bind_eq_ok.1 h'
  refine closure_core h h' fun item hitem => ?_
  obtain ⟨item, hmem, hX, rfl⟩ := (moveItem_spec hmoved item).1 hitem
  obtain ⟨item', hmem', hp, hdot⟩ := hitems item hmem
  refine ⟨{ item' with dot := item'.dot + 1 },
    (moveItem_spec hmoved' _).2 ⟨item', hmem', ?_, rfl⟩, hp, ?_⟩
  · rw [symbolAfterDot_congr hp hdot, hX]
  · exact congrArg (· + 1) hdot

end Core

end OcEarley
