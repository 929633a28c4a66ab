import OcEarley.Grammar.Builder
import OcEarley.Grammar.LowerObject

/-!
# What lowering does to the tables

The elementary calls keep ids in the order of the tables and within 32 bits (`WellSized`), the cache
of literals right (`CacheSound`), and everything that stands in the tables already (`Grows`); hence
so does the lowering of a node.
-/

namespace OcEarley

namespace GrammarBuilder

/-! ### Ids -/

/-- Ids are positions, which are of 32 bits. -/
structure WellSized (b : GrammarBuilder) : Prop where
  nonterminal_id : ∀ {i : ℕ} {n : Nonterminal}, b.nonterminals[i]? = some n → n.id = i
  terminal_id : ∀ {i : ℕ} {t : RegularTerminal}, b.terminals[i]? = some t → t.id = i
  production_id : ∀ {i : ℕ} {p : Production}, b.productions[i]? = some p → p.id = i
  nonterminals_length : b.nonterminals.length ≤ u32Max + 1
  terminals_length : b.terminals.length ≤ u32Max + 1
  productions_length : b.productions.length ≤ u32Max + 1
  rhs_length : ∀ p ∈ b.productions, p.rhs.length ≤ usizeMax

theorem new_wellSized (limits : CompileLimits) : (new limits).WellSized where
  nonterminal_id := by simp [new]
  terminal_id := by simp [new]
  production_id := by simp [new]
  nonterminals_length := Nat.zero_le _
  terminals_length := Nat.zero_le _
  productions_length := Nat.zero_le _
  rhs_length := by simp [new]

/-- A new entry at the end. -/
theorem id_of_snoc {α : Type} {l : List α} {a : α} {id : α → ℕ}
    (h : ∀ {i : ℕ} {b : α}, l[i]? = some b → id b = i) (ha : id a = l.length) {i : ℕ} {b : α}
    (hb : (l ++ [a])[i]? = some b) : id b = i := by
  rcases getElem?_snoc.1 hb with hb | ⟨rfl, rfl⟩
  · exact h hb
  · exact ha

theorem length_snoc_le {α : Type} {l : List α} (a : α) (h : l.length ≤ u32Max) :
    (l ++ [a]).length ≤ u32Max + 1 := by
  rw [List.length_append]
  exact Nat.succ_le_succ h

theorem stateOf_nextId_bind {α : Type} {f : Unit → Lowering α} {J : GrammarBuilder → Prop}
    {b : GrammarBuilder} {observed limit id : ℕ} (hb : J b)
    (hf : id ≤ u32Max → J (Method.stateOf (f () b))) :
    J (Method.stateOf ((nextId observed limit id >>= f) b)) := by
  rw [nextId, bind_assoc]
  exact Method.stateOf_require_bind_cases hb fun _ => Method.stateOf_require_bind_cases hb hf

theorem wellSized_addTerminal (kind : RegularTerminalKind) (provenance : Provenance) :
    Method.Moves (Method.Preserves WellSized) (addTerminal kind provenance) := by
  intro b hb
  rw [addTerminal, Method.stateOf_get_bind]
  refine stateOf_nextId_bind hb fun hid => ?_
  exact { hb with
    terminal_id := id_of_snoc hb.terminal_id rfl
    terminals_length := length_snoc_le _ hid }

/-- **The elementary calls keep ids in order.** -/
theorem elementary_wellSized : Elementary (Method.Preserves WellSized) fun _ => True where
  nonterminal name provenance := by
    intro b hb
    rw [addNonterminal, Method.stateOf_get_bind]
    refine stateOf_nextId_bind hb fun hid => ?_
    exact { hb with
      nonterminal_id := id_of_snoc hb.nonterminal_id rfl
      nonterminals_length := length_snoc_le _ hid }
  terminal _ := wellSized_addTerminal _
  literal _ provenance := by
    refine Method.moves_bind Method.moves_get fun b => ?_
    dsimp only
    split
    · exact Method.moves_pure _
    · exact Method.moves_bind (wellSized_addTerminal _ provenance) fun _ =>
        Method.moves_bind (Method.moves_modify fun _ hb => { hb with }) fun _ => Method.moves_pure _
  production lhs rhs provenance := by
    intro b hb
    rw [addProduction, Method.stateOf_get_bind]
    refine Method.stateOf_require_bind_cases hb fun _ => ?_
    refine Method.stateOf_require_bind_cases hb fun hrhs => stateOf_nextId_bind hb fun hid => ?_
    refine { hb with
      production_id := id_of_snoc hb.production_id rfl
      productions_length := length_snoc_le _ hid
      rhs_length := fun p hp => ?_ }
    rcases List.mem_append.1 hp with hp | hp
    · exact hb.rhs_length p hp
    · obtain rfl := List.mem_singleton.1 hp
      dsimp only at hrhs ⊢
      omega

/-! ### The cache of literals -/

theorem cacheSound_addTerminal (kind : RegularTerminalKind) (provenance : Provenance) :
    Method.Moves (Method.Preserves CacheSound) (addTerminal kind provenance) := by
  intro b hb
  rw [addTerminal, Method.stateOf_get_bind]
  exact stateOf_nextId_bind hb fun _ key id hkey => (hb key id hkey).mono (List.prefix_append _ _)

theorem elementary_cacheSound : Elementary (Method.Preserves CacheSound) fun _ => True where
  nonterminal name provenance := by
    intro b hb
    rw [addNonterminal, Method.stateOf_get_bind]
    exact stateOf_nextId_bind hb fun _ => hb
  terminal _ := cacheSound_addTerminal _
  literal _ provenance := by
    intro b hb
    generalize hliteral : addLiteral _ provenance b = result
    cases result with
    | ok id b' => exact (Method.wp_ok (addLiteral_returns hb) hliteral).1
    | error e b' =>
      -- only the call that adds the terminal can fail
      rw [addLiteral, Method.get_bind_apply] at hliteral
      cases hcache : b.literalCache.lookup (_, provenance.pointer.text, provenance.keyword) with
      | some id =>
        rw [hcache] at hliteral
        cases hliteral
      | none =>
        rw [hcache] at hliteral
        rcases Method.bind_eq_error.1 hliteral with hfail | ⟨_, _, -, hfail⟩
        · exact (cacheSound_addTerminal _ provenance).of_error hfail hb
        · cases hfail
  production lhs rhs provenance := by
    intro b hb
    rw [addProduction, Method.stateOf_get_bind]
    exact Method.stateOf_require_bind_cases hb fun _ =>
      Method.stateOf_require_bind_cases hb fun _ => stateOf_nextId_bind hb fun _ => hb

/-! ### Growth -/

/-- The tables are kept and grow at the end. -/
structure Grows (b b' : GrammarBuilder) : Prop where
  nonterminals : b.nonterminals <+: b'.nonterminals
  terminals : b.terminals <+: b'.terminals
  productions : b.productions <+: b'.productions

instance : Std.Refl Grows :=
  ⟨fun _ => ⟨List.prefix_refl _, List.prefix_refl _, List.prefix_refl _⟩⟩

instance : IsTrans GrammarBuilder Grows := ⟨fun _ _ _ h h' =>
  ⟨h.nonterminals.trans h'.nonterminals, h.terminals.trans h'.terminals,
    h.productions.trans h'.productions⟩⟩

theorem grows_addTerminal (kind : RegularTerminalKind) (provenance : Provenance) :
    Method.Moves Grows (addTerminal kind provenance) := by
  intro b
  rw [addTerminal, Method.stateOf_get_bind]
  exact stateOf_nextId_bind (refl_of Grows b) fun _ =>
    ⟨List.prefix_refl _, List.prefix_append _ _, List.prefix_refl _⟩

/-- **The elementary calls leave what is there.** -/
theorem elementary_grows : Elementary Grows fun _ => True where
  nonterminal name provenance := by
    intro b
    rw [addNonterminal, Method.stateOf_get_bind]
    exact stateOf_nextId_bind (refl_of Grows b) fun _ =>
      ⟨List.prefix_append _ _, List.prefix_refl _, List.prefix_refl _⟩
  terminal _ := grows_addTerminal _
  literal _ provenance := by
    refine Method.moves_bind Method.moves_get fun b => ?_
    dsimp only
    split
    · exact Method.moves_pure _
    · exact Method.moves_bind (grows_addTerminal _ provenance) fun _ =>
        Method.moves_bind (Method.moves_modify fun _ =>
          ⟨List.prefix_refl _, List.prefix_refl _, List.prefix_refl _⟩) fun _ =>
          Method.moves_pure _
  production lhs rhs provenance := by
    intro b
    rw [addProduction, Method.stateOf_get_bind]
    refine Method.stateOf_require_bind_cases (refl_of Grows b) fun _ => ?_
    exact Method.stateOf_require_bind_cases (refl_of Grows b) fun _ =>
      stateOf_nextId_bind (refl_of Grows b) fun _ =>
        ⟨List.prefix_refl _, List.prefix_refl _, List.prefix_append _ _⟩

end GrammarBuilder

end OcEarley
