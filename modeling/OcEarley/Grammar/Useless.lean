import OcEarley.Grammar.Reduce

/-!
# Useless symbols after the reduction

`reduce` computes what is reachable before it drops the unproductive productions.  A productive
nonterminal that is reachable only through a production with an unproductive sibling is therefore
kept although nothing mentions it any more (`orphan_survives`).  `reduce_useful_iff` says that
this is the only way in which something useless can stay: without such nonterminals, everything in
the reduced grammar is useful and a second reduction changes nothing.
-/

namespace OcEarley

namespace Grammar

variable {g g' : Grammar} {ν τ π : List ℕ}

/-- Every nonterminal is reachable and productive, and every terminal and production occurs in a
derivation of some sentence. -/
structure Useful (g : Grammar) : Prop where
  nonterminal : ∀ A < g.nonterminals.length,
    Reaches g.Rule g.start A ∧ IsProductive g.Rule A
  terminal : ∀ t < g.terminals.length, ∃ w, Sentence g.Rule [.nonterminal g.start] w ∧ t ∈ w
  production : ∀ p ∈ g.productions, OccursIn g.Rule g.start p.lhs p.rhs

/-- The productions all of whose nonterminals are productive. -/
def ProductiveRule (g : Grammar) (A : ℕ) (γ : List GrammarSymbol) : Prop :=
  g.Rule A γ ∧ ∀ B, .nonterminal B ∈ γ → IsProductive g.Rule B

/-- Every nonterminal that `reduce` keeps is reachable through productive productions. -/
def NoOrphans (g : Grammar) : Prop :=
  ∀ A, g.Retained A → Reaches g.ProductiveRule g.start A

/-! ### Reaching in the reduced grammar -/

theorem Image.exists_renamed (h : Image g g' ν τ π) {A' : ℕ}
    (hA : A' < g'.nonterminals.length) : ∃ A, Renamed ν A' A :=
  ⟨_, List.getElem?_eq_getElem (h.nonterminals_length ▸ hA)⟩

/-- What the reduced grammar reaches is reached through productive productions. -/
theorem Reduced.reaches (h : Reduced g g' ν τ π) {A' A : ℕ} (hA : Renamed ν A' A)
    (hreach : Reaches g'.Rule g'.start A') : Reaches g.ProductiveRule g.start A := by
  induction hreach generalizing A with
  | refl =>
    obtain rfl := Option.some.inj (h.start.symm.trans hA)
    exact .refl
  | @tail B' C' _ hstep ih =>
    obtain ⟨γ', hrule, hC⟩ := hstep
    obtain ⟨i, p, hi, rfl, rfl⟩ := rule_iff.1 hrule
    obtain ⟨old, hold, lhs, rhs, rfl, hlhs, hrhs⟩ := h.toImage.of_production hi
    obtain ⟨symbol, hmem, hrel⟩ := exists_of_forall₂_left hrhs hC
    cases hrel with | nonterminal hC' => ?_
    obtain rfl := Option.some.inj (hC'.symm.trans hA)
    refine (ih hlhs).tail ⟨old.rhs, ⟨⟨old, hold, rfl, rfl⟩, fun B hB => ?_⟩, hmem⟩
    obtain ⟨symbol', -, hrel'⟩ := exists_of_forall₂_left hrhs.flip hB
    cases hrel' with | nonterminal hB' => ?_
    exact ((h.mem_nonterminals B).1 (List.mem_of_getElem? hB')).1

/-- Nonterminals reached through productive productions stay reachable. -/
theorem Reduced.reaches_of_productive (h : Reduced g g' ν τ π)
    (hstart : IsProductive g.Rule g.start) {A : ℕ}
    (hreach : Reaches g.ProductiveRule g.start A) :
    ∃ A', Renamed ν A' A ∧ Reaches g'.Rule g'.start A' := by
  have hretained : ∀ {A}, Reaches g.ProductiveRule g.start A → g.Retained A := by
    intro A hA
    induction hA with
    | refl => exact reaches_start_retained hstart
    | tail _ hstep ih =>
      obtain ⟨γ, ⟨hrule, hγ⟩, hB⟩ := hstep
      exact ⟨hγ _ hB, ih.2.tail ⟨γ, hrule, hB⟩⟩
  induction hreach with
  | refl => exact ⟨g'.start, h.start, .refl⟩
  | @tail B C hB hstep ih =>
    obtain ⟨B', hB', hreach'⟩ := ih
    obtain ⟨γ, ⟨hrule, hγ⟩, hC⟩ := hstep
    obtain ⟨p, production, hp, rfl, rfl⟩ := rule_iff.1 hrule
    have hlhs := hretained hB
    obtain ⟨i, hi⟩ := List.mem_iff_getElem?.1 ((h.mem_productions p).2 ⟨production, hp, hlhs,
      fun D hD => ⟨hγ D hD, hlhs.2.tail ⟨_, hrule, hD⟩⟩⟩)
    obtain ⟨γ', hrule', hrel⟩ := h.toImage.rule_of_mem hB' hi hp rfl
    obtain ⟨symbol', hmem, hsymbol⟩ := exists_of_forall₂_left hrel.flip hC
    cases hsymbol with | nonterminal hC' => ?_
    exact ⟨_, hC', hreach'.tail ⟨γ', hrule', hmem⟩⟩

theorem Reduced.isProductive (h : Reduced g g' ν τ π) {A' A : ℕ} (hA : Renamed ν A' A) :
    IsProductive g'.Rule A' := by
  have hretained := (h.mem_nonterminals A).1 (List.mem_of_getElem? hA)
  obtain ⟨w, hw⟩ := hretained.1
  obtain ⟨w', -, hw'⟩ := h.sentence (.cons (.nonterminal hA) .nil) (fun B hB => by
    cases List.mem_singleton.1 hB
    exact hretained) hw
  exact ⟨w', hw'⟩

/-- Without orphans, everything in the reduced grammar is useful. -/
theorem Reduced.useful (hg : g.WellFormed) (h : Reduced g g' ν τ π)
    (hstart : IsProductive g.Rule g.start) (horphans : g.NoOrphans) : g'.Useful := by
  have hreach : ∀ {A' A}, Renamed ν A' A → Reaches g'.Rule g'.start A' := by
    intro A' A hA
    have hretained := (h.mem_nonterminals A).1 (List.mem_of_getElem? hA)
    obtain ⟨B', hB', hreach⟩ := h.reaches_of_productive hstart (horphans A hretained)
    exact Renamed.unique h.nonterminals_ascending hA hB' ▸ hreach
  have hall : ∀ B', Reaches g'.Rule g'.start B' → IsProductive g'.Rule B' := fun B' hB' =>
    let ⟨_, hB⟩ := h.exists_renamed ((h.toImage.wellFormed hg).lt_of_reaches hB')
    h.isProductive hB
  have hproduction : ∀ p ∈ g'.productions, OccursIn g'.Rule g'.start p.lhs p.rhs := by
    intro p hp
    obtain ⟨i, hi⟩ := List.mem_iff_getElem?.1 hp
    obtain ⟨old, -, lhs, rhs, rfl, hlhs, -⟩ := h.toImage.of_production hi
    exact occursIn_of_reaches hall (hreach hlhs) ⟨_, hp, rfl, rfl⟩
  refine ⟨fun A' hA' => ?_, fun t' ht' => ?_, hproduction⟩
  · obtain ⟨A, hA⟩ := h.exists_renamed hA'
    exact ⟨hreach hA, h.isProductive hA⟩
  · obtain ⟨t, ht⟩ : ∃ t, Renamed τ t' t :=
      ⟨_, List.getElem?_eq_getElem (h.terminals_length ▸ ht')⟩
    obtain ⟨p, hp, hretained, hmem⟩ := (h.mem_terminals t).1 (List.mem_of_getElem? ht)
    obtain ⟨j, hj⟩ := List.mem_iff_getElem?.1 hp
    obtain ⟨i, hi⟩ := List.mem_iff_getElem?.1 ((h.mem_productions j).2 ⟨p, hj, hretained⟩)
    obtain ⟨old, hold, new, hnew, lhs, rhs, rfl, -, hrhs⟩ := h.productions hi
    obtain rfl := Option.some.inj (hj.symm.trans hold)
    obtain ⟨symbol', hmem', hsymbol⟩ := exists_of_forall₂_left hrhs.flip hmem
    cases hsymbol with | terminal ht'' => ?_
    obtain rfl := Renamed.unique h.terminals_ascending ht ht''
    exact (hproduction _ (List.mem_of_getElem? hnew)).exists_sentence hmem'

/-- Whatever is reachable in the reduced grammar was no orphan. -/
theorem Reduced.noOrphans (h : Reduced g g' ν τ π) (huseful : g'.Useful) : g.NoOrphans := by
  intro A hA
  obtain ⟨A', hA'⟩ := List.mem_iff_getElem?.1 ((h.mem_nonterminals A).2 hA)
  have hlt : A' < g'.nonterminals.length := h.nonterminals_length ▸ (Renamed.lt hA')
  exact h.reaches hA' (huseful.nonterminal A' hlt).1

/-! ### Reducing again -/

/-- An ascending list of all numbers below `n`. -/
theorem eq_range_of_ascending {ids : List ℕ} {n : ℕ} (h : ids.Pairwise (· < ·))
    (hmem : ∀ i, i ∈ ids ↔ i < n) : ids = List.range n :=
  h.eq_of_mem_iff List.pairwise_lt_range fun {i} => by rw [hmem, List.mem_range]

theorem renamed_range {n i j : ℕ} : Renamed (List.range n) i j ↔ i < n ∧ i = j := by
  unfold Renamed
  rw [List.getElem?_eq_some_iff]
  simp

/-- A reduction that keeps everything changes nothing. -/
theorem Image.eq_of_range (hg : g.WellFormed)
    (h : Image g g' (List.range g.nonterminals.length) (List.range g.terminals.length)
      (List.range g.productions.length)) : g' = g := by
  have hstart : g'.start = g.start := (renamed_range.1 h.start).2
  have hnonterminals : g'.nonterminals = g.nonterminals := by
    refine List.ext_getElem (by simpa using h.nonterminals_length) fun i hi' hi => ?_
    obtain ⟨n, hn, hn'⟩ := h.nonterminals (renamed_range.2 ⟨hi, rfl⟩)
    have hid : { n with id := i } = n := by rw [← hg.nonterminal_id hn]
    rw [hid, ← hn, List.getElem?_eq_getElem hi', List.getElem?_eq_getElem hi] at hn'
    exact Option.some.inj hn'
  have hterminals : g'.terminals = g.terminals := by
    refine List.ext_getElem (by simpa using h.terminals_length) fun i hi' hi => ?_
    obtain ⟨t, ht, ht'⟩ := h.terminals (renamed_range.2 ⟨hi, rfl⟩)
    have hid : { t with id := i } = t := by rw [← hg.terminal_id ht]
    rw [hid, ← ht, List.getElem?_eq_getElem hi', List.getElem?_eq_getElem hi] at ht'
    exact Option.some.inj ht'
  have hproductions : g'.productions = g.productions := by
    refine List.ext_getElem (by simpa using h.productions_length) fun i hi' hi => ?_
    obtain ⟨old, hold, new, hnew, lhs, rhs, rfl, hlhs, hrhs⟩ :=
      h.productions (renamed_range.2 ⟨hi, rfl⟩)
    obtain ⟨-, rfl⟩ := renamed_range.1 hlhs
    obtain rfl : rhs = old.rhs := by
      refine List.forall₂_eq_eq_eq ▸ hrhs.imp fun a b hab => ?_
      cases hab with
      | nonterminal h => rw [(renamed_range.1 h).2]
      | terminal h => rw [(renamed_range.1 h).2]
    have hid : Production.mk i old.lhs old.rhs old.provenance = old := by
      rw [← hg.production_id hold]
    rw [hid, ← hold, List.getElem?_eq_getElem hi', List.getElem?_eq_getElem hi] at hnew
    exact Option.some.inj hnew
  obtain ⟨start, nonterminals, terminals, productions⟩ := g'
  simp_all

/-- Reducing a grammar in which everything is useful changes nothing. -/
theorem Useful.reduce_eq (hg : g.WellFormed) (h : g.Useful) :
    g.reduce = .ok (⟨0, 0, 0⟩, g) := by
  have hretained : ∀ {A}, A < g.nonterminals.length → g.Retained A := fun hA =>
    ⟨(h.nonterminal _ hA).2, (h.nonterminal _ hA).1⟩
  have hproduction : ∀ p ∈ g.productions, g.RetainedProduction p := fun p hp =>
    ⟨hretained (hg.lhs_lt p hp), fun B hB => hretained (hg.rhs_inRange p hp _ hB)⟩
  obtain ⟨⟨stats, g'⟩, hreduce, ν, τ, π, hr, hstats⟩ :=
    Result.exists_of_wp (reduce_wp hg (hretained hg.start_lt).1)
  obtain rfl : ν = List.range g.nonterminals.length :=
    eq_range_of_ascending hr.nonterminals_ascending fun A => by
      rw [hr.mem_nonterminals]
      exact ⟨fun hA => hg.lt_of_reaches hA.2, hretained⟩
  obtain rfl : τ = List.range g.terminals.length :=
    eq_range_of_ascending hr.terminals_ascending fun t => by
      rw [hr.mem_terminals]
      constructor
      · rintro ⟨p, hp, -, ht⟩
        exact hg.rhs_inRange p hp _ ht
      · intro ht
        obtain ⟨w, hw, hmem⟩ := h.terminal t ht
        rcases hw.mem_terminal hmem with hmem | ⟨A, γ, ⟨p, hp, -, rfl⟩, hmem⟩
        · simp at hmem
        · exact ⟨p, hp, hproduction p hp, hmem⟩
  obtain rfl : π = List.range g.productions.length :=
    eq_range_of_ascending hr.productions_ascending fun p => by
      rw [hr.mem_productions]
      constructor
      · rintro ⟨production, hp, -⟩
        exact (List.getElem?_eq_some_iff.1 hp).1
      · intro hp
        exact ⟨_, List.getElem?_eq_getElem hp, hproduction _ (List.getElem_mem hp)⟩
  obtain rfl := hr.toImage.eq_of_range hg
  rw [hreduce]
  simp only at hstats
  simp [hstats]

/-- **When the reduction leaves nothing useless.**  The reduced grammar has only useful symbols
and productions, and a second reduction removes nothing, if and only if every nonterminal that is
kept is reachable through productive productions. -/
theorem reduce_useful_iff (hg : g.WellFormed) (hstart : IsProductive g.Rule g.start) :
    ∃ stats g', g.reduce = .ok (stats, g') ∧
      ((g'.Useful ∧ g'.reduce = .ok (⟨0, 0, 0⟩, g')) ↔ g.NoOrphans) := by
  obtain ⟨⟨stats, g'⟩, hreduce, ν, τ, π, hr, -⟩ := Result.exists_of_wp (reduce_wp hg hstart)
  refine ⟨stats, g', hreduce, fun h => hr.noOrphans h.1, fun h => ?_⟩
  have huseful := hr.useful hg hstart h
  exact ⟨huseful, huseful.reduce_eq (hr.toImage.wellFormed hg)⟩

theorem orphaning_productive : IsProductive orphaning.Rule orphaning.start :=
  ⟨[0], .of_production ⟨⟨0, 0, [.terminal 0], .root⟩, by decide, rfl, rfl⟩
    (.of_terminal (mem_selfLanguage.2 rfl))⟩

theorem reduce_useful_iff_orphaning :
    ∃ stats g', orphaning.reduce = .ok (stats, g') ∧
      ((g'.Useful ∧ g'.reduce = .ok (⟨0, 0, 0⟩, g')) ↔ orphaning.NoOrphans) :=
  reduce_useful_iff orphaning_wellFormed orphaning_productive

/-- What `reduce` makes of `orphaning`: `S → a`, and still `B → b`. -/
def orphaned : Grammar where
  start := 0
  nonterminals := [⟨0, "S", .root⟩, ⟨1, "B", .root⟩]
  terminals := [⟨0, .literal [97], .root⟩, ⟨1, .literal [98], .root⟩]
  productions := [⟨0, 0, [.terminal 0], .root⟩, ⟨1, 1, [.terminal 1], .root⟩]

/-- The nonterminal `B` of `orphaning` is still there after the reduction, out of reach of the
start symbol, and a second reduction removes it. -/
theorem orphan_survives :
    orphaning.WellFormed ∧ IsProductive orphaning.Rule orphaning.start ∧
      orphaning.reduce = .ok (⟨1, 0, 2⟩, orphaned) ∧
      (1 < orphaned.nonterminals.length ∧ ¬ Reaches orphaned.Rule orphaned.start 1) ∧
      orphaned.reduce = .ok (⟨1, 1, 1⟩,
        ⟨0, [⟨0, "S", .root⟩], [⟨0, .literal [97], .root⟩], [⟨0, 0, [.terminal 0], .root⟩]⟩) := by
  refine ⟨orphaning_wellFormed, orphaning_productive, rfl, ⟨by decide, fun h => ?_⟩, rfl⟩
  rcases h.cases_head with h | ⟨A, ⟨γ, ⟨p, hp, hlhs, rfl⟩, hA⟩, -⟩
  · cases h
  · -- the only production of the start symbol is `S → a`
    simp only [orphaned, List.mem_cons, List.not_mem_nil, or_false] at hp hlhs
    rcases hp with rfl | rfl
    · simp at hA
    · cases hlhs

end Grammar

end OcEarley
