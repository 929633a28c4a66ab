import OcEarley.Formal.LrMachine
import OcEarley.Lalr.Recognizer
import OcEarley.Lalr.States

/-!
# The tables of the automaton

A table without conflicts has exactly the entries that the items ask for (`buildTable_spec`), so it
drives an automaton whose states carry the merged items (`build_describes`).
-/

namespace OcEarley

open CompiledLalr

/-- What an item asks for: `accept` at the end of the augmented production, the reduction at the end
of another one, and the shift of the terminal behind the dot. -/
inductive Lr1Item.Asks (g : ResidualGrammar) (transitions : Transitions) (q : ℕ) (item : Lr1Item) :
    Lookahead → Action → Prop
  | shift {t target : ℕ} (hnext : (g.lrGrammar.rhs item.production)[item.dot]? = some (.terminal t))
    (htarget : transitions.lookup (q, .terminal t) = some target) :
    Asks g transitions q item (.terminal t) (.shift target)
  | accept (hend : (g.lrGrammar.rhs item.production)[item.dot]? = none)
    (haug : item.production = g.productions.length) (heof : item.lookahead = .eof) :
    Asks g transitions q item .eof .accept
  | reduce (hend : (g.lrGrammar.rhs item.production)[item.dot]? = none)
    (hnot : ¬(item.production = g.productions.length ∧ item.lookahead = .eof)) :
    Asks g transitions q item item.lookahead (.reduce item.production)

/-- The search in a sorted row finds what the map holds. -/
theorem find?_sortByKey_entries {α β κ : Type} [DecidableEq α] [LinearOrder κ]
    (m : AList fun _ : α => β) (key : α × β → κ) (a : α) :
    (((sortByKey key (m.entries.map fun e => (e.1, e.2))).find? fun e => e.1 = a).map Prod.snd) =
      m.lookup a := by
  have hmem : ∀ {e : α × β}, e ∈ sortByKey key (m.entries.map fun e => (e.1, e.2)) ↔
      m.lookup e.1 = some e.2 := by
    rintro ⟨a, b⟩
    rw [mem_sortByKey, List.mem_map, ← Option.mem_def, AList.mem_lookup_iff]
    constructor
    · rintro ⟨⟨a, b⟩, he, ⟨rfl, rfl⟩⟩
      exact he
    · exact fun he => ⟨_, he, rfl⟩
  cases hfind : (sortByKey key (m.entries.map fun e => (e.1, e.2))).find? fun e => e.1 = a with
  | some e =>
    have ha : e.1 = a := by simpa using List.find?_some hfind
    rw [Option.map_some, ← ha, hmem.1 (List.mem_of_find?_eq_some hfind)]
  | none =>
    rw [Option.map_none]
    refine (Option.eq_none_iff_forall_ne_some.2 fun b hb => ?_).symm
    simpa using List.find?_eq_none.1 hfind (a, b) (hmem.2 hb)

theorem findAction_eq {table : LalrTable} {state : ℕ} {row : List (Lookahead × Action)}
    (h : table.actions[state]? = some row) (lookahead : Lookahead) :
    findAction table state lookahead = (row.find? fun entry => entry.1 = lookahead).map
      Prod.snd := by
  unfold findAction
  rw [h]
  exact Option.map_eq_bind.symm

theorem findGoto_eq {table : LalrTable} {state : ℕ} {row : List (ℕ × ℕ)}
    (h : table.gotos[state]? = some row) (nonterminal : ℕ) :
    findGoto table state nonterminal =
      (row.find? fun entry => entry.1 = nonterminal).map Prod.snd := by
  unfold findGoto
  rw [h]
  exact Option.map_eq_bind.symm

namespace ActionRow

variable {productions : List ParserProduction} {limits : CompileLimits} {state source : ℕ}
  {lookahead : Lookahead} {action : Action} {r r' : ActionRow}

/-- Without a conflict the entry is in the row, and nothing else changes. -/
theorem insertAction_spec
    (h : insertAction productions limits state lookahead action source r = .ok r')
    (hnone : r'.conflicts = []) :
    r.conflicts = [] ∧ ∀ l a, r'.row.lookup l = some a ↔
      r.row.lookup l = some a ∨ l = lookahead ∧ a = action := by
  unfold insertAction at h
  split at h
  · next hlookup =>
    obtain rfl := Result.pure_eq_ok.1 h
    refine ⟨hnone, fun l a => ?_⟩
    by_cases hl : l = lookahead
    · subst hl
      simp [hlookup, eq_comm]
    · simp [AList.lookup_insert_ne hl, hl]
  · next existing hlookup =>
    split at h
    · next hsame =>
      obtain rfl := Result.pure_eq_ok.1 h
      subst hsame
      refine ⟨hnone, fun l a => ⟨.inl, ?_⟩⟩
      rintro (h | ⟨rfl, rfl⟩)
      · exact h
      · exact hlookup
    · obtain ⟨-, -, h⟩ := Result.bind_eq_ok.1 h
      obtain rfl := Result.pure_eq_ok.1 h
      simp at hnone

end ActionRow

section Table

variable {g : ResidualGrammar} {provenance : Provenance} {transitions : Transitions}
  {limits : CompileLimits} {state : ℕ} {items : List Lr1Item} {item : Lr1Item}
  {rows rows' : StateRows}

/-- The rows hold what the items ask for. -/
structure StateRows.Holds (g : ResidualGrammar) (transitions : Transitions) (state : ℕ)
    (items : List Lr1Item) (rows : StateRows) : Prop where
  action_iff : ∀ lookahead action, rows.actions.row.lookup lookahead = some action ↔
    ∃ item ∈ items, item.Asks g transitions state lookahead action
  goto_iff : ∀ A target, rows.gotos.lookup A = some target ↔
    (∃ item ∈ items, (g.lrGrammar.rhs item.production)[item.dot]? = some (.nonterminal A)) ∧
      transitions.lookup (state, .nonterminal A) = some target

theorem exists_mem_snoc {α : Type*} {P : α → Prop} {l : List α} {a : α} :
    (∃ b ∈ l ++ [a], P b) ↔ (∃ b ∈ l, P b) ∨ P a := by
  simp [or_and_right, exists_or]

/-- An item that asks for one action. -/
theorem StateRows.Holds.insertAction {productions : List ParserProduction} {lookahead : Lookahead}
    {action : Action} {actions : ActionRow} (hI : rows.Holds g transitions state items)
    (hasks : ∀ l a, item.Asks g transitions state l a ↔ l = lookahead ∧ a = action)
    (hno : ∀ A, (g.lrGrammar.rhs item.production)[item.dot]? ≠ some (.nonterminal A))
    (h : rows.actions.insertAction productions limits state lookahead action item.production =
      .ok actions) (hnone : actions.conflicts = []) :
    rows.actions.conflicts = [] ∧
      StateRows.Holds g transitions state (items ++ [item]) { rows with actions := actions } := by
  obtain ⟨hbefore, hlookup⟩ := ActionRow.insertAction_spec h hnone
  refine ⟨hbefore, ⟨fun l a => ?_, fun A target => ?_⟩⟩
  · rw [exists_mem_snoc, hlookup, hI.action_iff, hasks]
  · rw [exists_mem_snoc, hI.goto_iff]
    simp [hno A]

/-- One more item. -/
theorem StateRows.Holds.insert (hI : rows.actions.conflicts = [] →
    rows.Holds g transitions state items)
    (hle : item.production ≤ g.productions.length)
    (h : insertItemActions transitions (parserProductions g g.nonterminals.length provenance)
      g.productions.length limits state rows item = .ok rows')
    (hnone : rows'.actions.conflicts = []) :
    rows.actions.conflicts = [] ∧ rows'.Holds g transitions state (items ++ [item]) := by
  obtain ⟨next, hnext, h⟩ := Result.bind_eq_ok.1 h
  rw [symbolAfterDot_iff hle] at hnext
  split at h
  -- the item shifts a terminal, goes to a state by a nonterminal, or is complete
  · next t =>
    obtain ⟨target, htarget, h⟩ := Result.bind_eq_ok.1 h
    have htarget := Result.unwrap_eq_ok.1 htarget
    obtain ⟨actions, hactions, h⟩ := Result.bind_eq_ok.1 h
    obtain rfl := Result.pure_eq_ok.1 h
    have hbefore := (ActionRow.insertAction_spec hactions hnone).1
    refine (hI hbefore).insertAction (fun l a => ⟨fun hasks => ?_, ?_⟩)
      (by simp [hnext]) hactions hnone
    · cases hasks with
      | shift hX htarget' =>
        obtain ⟨rfl⟩ := hnext.symm.trans hX
        rw [Option.some.inj (htarget.symm.trans htarget')]
        exact ⟨rfl, rfl⟩
      | accept hend => simp [hnext] at hend
      | reduce hend => simp [hnext] at hend
    · rintro ⟨rfl, rfl⟩
      exact .shift hnext htarget
  · next A =>
    obtain ⟨target, htarget, h⟩ := Result.bind_eq_ok.1 h
    have htarget := Result.unwrap_eq_ok.1 htarget
    obtain rfl := Result.pure_eq_ok.1 h
    refine ⟨hnone, ⟨fun l a => ?_, fun B target' => ?_⟩⟩
    · rw [exists_mem_snoc, (hI hnone).action_iff]
      refine ⟨.inl, fun h => h.resolve_right fun hasks => ?_⟩
      cases hasks with
      | shift hX => simp [hnext] at hX
      | accept hend => simp [hnext] at hend
      | reduce hend => simp [hnext] at hend
    · rw [exists_mem_snoc, hnext]
      by_cases hB : B = A
      · subst hB
        simp [AList.lookup_insert, htarget]
      · have : ¬A = B := fun h => hB h.symm
        simp [AList.lookup_insert_ne hB, (hI hnone).goto_iff, this]
  · have hno : ∀ A, (g.lrGrammar.rhs item.production)[item.dot]? ≠ some (.nonterminal A) := by
      simp [hnext]
    split at h
    · next hend =>
      obtain ⟨actions, hactions, h⟩ := Result.bind_eq_ok.1 h
      obtain rfl := Result.pure_eq_ok.1 h
      have hbefore := (ActionRow.insertAction_spec hactions hnone).1
      refine (hI hbefore).insertAction (fun l a => ⟨fun hasks => ?_, ?_⟩) hno hactions hnone
      · cases hasks with
        | shift hX => simp [hnext] at hX
        | accept => exact ⟨rfl, rfl⟩
        | reduce _ hnot => exact absurd hend hnot
      · rintro ⟨rfl, rfl⟩
        exact .accept hnext hend.1 hend.2
    · next hnot =>
      obtain ⟨actions, hactions, h⟩ := Result.bind_eq_ok.1 h
      obtain rfl := Result.pure_eq_ok.1 h
      have hbefore := (ActionRow.insertAction_spec hactions hnone).1
      refine (hI hbefore).insertAction (fun l a => ⟨fun hasks => ?_, ?_⟩) hno hactions hnone
      · cases hasks with
        | shift hX => simp [hnext] at hX
        | accept _ haug heof => exact absurd ⟨haug, heof⟩ hnot
        | reduce => exact ⟨rfl, rfl⟩
      · rintro ⟨rfl, rfl⟩
        exact .reduce hnext hnot

/-- All items of a state. -/
theorem StateRows.holds_of_foldlM (hle : ∀ item ∈ items, item.production ≤ g.productions.length)
    (h₀ : rows.actions.conflicts = [] → rows.Holds g transitions state [])
    (h : items.foldlM (insertItemActions transitions
      (parserProductions g g.nonterminals.length provenance) g.productions.length limits
        state) rows =
        .ok rows') (hnone : rows'.actions.conflicts = []) :
    rows.actions.conflicts = [] ∧ rows'.Holds g transitions state items := by
  have key := Result.foldlM_induction
    (I := fun (done : List Lr1Item) (filled : StateRows) =>
      (∀ item ∈ done, item.production ≤ g.productions.length) → filled.actions.conflicts = [] →
      rows.actions.conflicts = [] ∧ filled.Holds g transitions state done) h
    (fun _ hnone => ⟨hnone, h₀ hnone⟩) ?_
  · exact key hle hnone
  · intro done item filled filled' hI hinsert hle hnone
    have hdone := fun item hitem => hle item (List.mem_append_left _ hitem)
    obtain ⟨hbefore, hholds⟩ := StateRows.Holds.insert (fun h => (hI hdone h).2)
      (hle item (List.mem_append_right _ (List.mem_singleton_self _))) hinsert hnone
    exact ⟨(hI hdone hbefore).1, hholds⟩

variable {merged : List (List Lr1Item)} {r : LalrTable × List LalrConflict}

/-- The rows of the states filled so far. -/
structure TableRows.Holds (g : ResidualGrammar) (transitions : Transitions)
    (done : List (List Lr1Item × ℕ)) (rows : TableRows) : Prop where
  length_actions : rows.actions.length = done.length
  length_gotos : rows.gotos.length = done.length
  row : ∀ {q state : ℕ} {items}, done[q]? = some (items, state) →
    ∃ filled : StateRows, filled.Holds g transitions state items ∧
      rows.actions[q]? = some (sortByKey (fun e => e.1.key)
        (filled.actions.row.entries.map fun e => (e.1, e.2))) ∧
      rows.gotos[q]? = some
        (sortByKey (fun e => e.1) (filled.gotos.entries.map fun e => (e.1, e.2)))

theorem TableRows.holds_of_foldlM {states : List (List Lr1Item × ℕ)} {rows : TableRows}
    (hle : ∀ entry ∈ states, ∀ item ∈ entry.1, item.production ≤ g.productions.length)
    (h : states.foldlM (addStateRows transitions
      (parserProductions g g.nonterminals.length provenance) g.productions.length limits)
        ⟨[], [], []⟩ = .ok rows) (hnone : rows.conflicts = []) :
    rows.Holds g transitions states := by
  have key := Result.foldlM_induction
    (I := fun (done : List (List Lr1Item × ℕ)) (rows : TableRows) =>
      (∀ entry ∈ done, ∀ item ∈ entry.1, item.production ≤ g.productions.length) →
      rows.conflicts = [] → rows.Holds g transitions done) h (fun _ _ => ⟨rfl, rfl, by simp⟩) ?_
  · exact key hle hnone
  · rintro done ⟨items, state⟩ rows rows' hI hadd hle hnone
    obtain ⟨-, -, hadd⟩ := Result.bind_eq_ok.1 hadd
    obtain ⟨filled, hfilled, hadd⟩ := Result.bind_eq_ok.1 hadd
    obtain rfl := Result.pure_eq_ok.1 hadd
    have hempty : StateRows.Holds g transitions state [] ⟨⟨∅, ∅, rows.conflicts⟩, ∅⟩ :=
      ⟨by simp, by simp⟩
    obtain ⟨hbefore, hholds⟩ := StateRows.holds_of_foldlM
      (hle _ (List.mem_append_right _ (List.mem_singleton_self _))) (fun _ => hempty) hfilled hnone
    have hI := hI (fun entry hentry => hle entry (List.mem_append_left _ hentry)) hbefore
    refine ⟨by simp [hI.length_actions], by simp [hI.length_gotos], fun {q state' items'} hq => ?_⟩
    rcases getElem?_snoc.1 hq with hq | ⟨rfl, heq⟩
    · obtain ⟨filled', hholds', hactions, hgotos⟩ := hI.row hq
      exact ⟨filled', hholds', getElem?_append_of_some hactions, getElem?_append_of_some hgotos⟩
    · obtain ⟨rfl, rfl⟩ := Prod.mk.inj heq
      exact ⟨filled, hholds, getElem?_snoc.2 (.inr ⟨hI.length_actions.symm, rfl⟩),
        getElem?_snoc.2 (.inr ⟨hI.length_gotos.symm, rfl⟩)⟩

/-- **The table.**  Without conflicts its entries are those that the items ask for. -/
theorem buildTable_spec
    (hle : ∀ {q : ℕ} {items}, merged[q]? = some items →
      ∀ item ∈ items, item.production ≤ g.productions.length)
    (h : buildTable transitions (parserProductions g g.nonterminals.length provenance)
      g.productions.length limits merged = .ok r) (hnone : r.2 = []) :
    r.1.actions.length = merged.length ∧
    (∀ q lookahead action, findAction r.1 q lookahead = some action ↔ ∃ items,
      merged[q]? = some items ∧ ∃ item ∈ items, item.Asks g transitions q lookahead action) ∧
    ∀ q A target, findGoto r.1 q A = some target ↔ (∃ items, merged[q]? = some items ∧
      ∃ item ∈ items, (g.lrGrammar.rhs item.production)[item.dot]? = some (.nonterminal A)) ∧
        transitions.lookup (q, .nonterminal A) = some target := by
  obtain ⟨rows, hrows, h⟩ := Result.bind_eq_ok.1 h
  obtain ⟨-, -, h⟩ := Result.bind_eq_ok.1 h
  obtain ⟨-, -, h⟩ := Result.bind_eq_ok.1 h
  obtain rfl := Result.pure_eq_ok.1 h
  -- without conflicts each row holds what the items of its state ask for
  have hI := TableRows.holds_of_foldlM (fun entry hentry => by
    obtain ⟨q, hq⟩ := List.mem_iff_getElem?.1 hentry
    rw [List.getElem?_zipIdx] at hq
    obtain ⟨items, hitems, rfl⟩ := Option.map_eq_some_iff.1 hq
    exact hle hitems) hrows hnone
  have hrow : ∀ {q : ℕ} {items}, merged[q]? = some items →
      (merged.zipIdx)[q]? = some (items, q) := by
    intro q items hitems
    rw [List.getElem?_zipIdx, hitems]
    simp
  have hlen : merged.zipIdx.length = merged.length := List.length_zipIdx
  refine ⟨hI.length_actions.trans hlen, ?_, ?_⟩
  · intro q lookahead action
    cases hq : merged[q]? with
    | none =>
      have : rows.actions[q]? = none := by
        rw [List.getElem?_eq_none_iff] at hq ⊢
        rw [hI.length_actions, hlen]
        exact hq
      simp [findAction, this]
    | some items =>
      obtain ⟨filled, hholds, hactions, -⟩ := hI.row (hrow hq)
      rw [findAction_eq hactions, find?_sortByKey_entries, hholds.action_iff]
      simp
  · intro q A target
    cases hq : merged[q]? with
    | none =>
      have : rows.gotos[q]? = none := by
        rw [List.getElem?_eq_none_iff] at hq ⊢
        rw [hI.length_gotos, hlen]
        exact hq
      simp [findGoto, this]
    | some items =>
      obtain ⟨filled, hholds, -, hgotos⟩ := hI.row (hrow hq)
      rw [findGoto_eq hgotos, find?_sortByKey_entries, hholds.goto_iff]
      simp

end Table

/-! ### The automaton -/

/-- The action of an LR machine. -/
def Action.toLr : Action → LrAction ℕ ℕ
  | .shift state => .shift state
  | .reduce production => .reduce production
  | .accept => .accept

/-- The automaton of a table, with the items of its states. -/
def LalrTable.automaton (table : LalrTable) (merged : List (List Lr1Item)) :
    LrAutomaton ℕ ℕ ℕ ℕ where
  init := 0
  item := HasItem merged
  action q a := (findAction table q (lookaheadOf a)).map Action.toLr
  goto := findGoto table

section Describes

variable {g : ResidualGrammar} {table : LalrTable} {merged : List (List Lr1Item)} {q p : ℕ}
  {a : Option ℕ}

theorem lookaheadOf_injective : Function.Injective lookaheadOf
  | none, none, _ => rfl
  | some _, some _, h => congrArg some (Lookahead.terminal.inj h)

@[simp] theorem automaton_action_eq_shift {q' : ℕ} :
    (table.automaton merged).action q a = some (.shift q') ↔
      findAction table q (lookaheadOf a) = some (.shift q') := by
  rcases h : findAction table q (lookaheadOf a) with _ | (_ | _ | _) <;>
    simp [LalrTable.automaton, h, Action.toLr]

@[simp] theorem automaton_action_eq_reduce :
    (table.automaton merged).action q a = some (.reduce p) ↔
      findAction table q (lookaheadOf a) = some (.reduce p) := by
  rcases h : findAction table q (lookaheadOf a) with _ | (_ | _ | _) <;>
    simp [LalrTable.automaton, h, Action.toLr]

@[simp] theorem automaton_action_eq_accept :
    (table.automaton merged).action q a = some .accept ↔
      findAction table q (lookaheadOf a) = some .accept := by
  rcases h : findAction table q (lookaheadOf a) with _ | (_ | _ | _) <;>
    simp [LalrTable.automaton, h, Action.toLr]

theorem MergedStates.describes {transitions : Transitions} (hM : MergedStates g merged transitions)
    (haction : ∀ q lookahead action, findAction table q lookahead = some action ↔ ∃ items,
      merged[q]? = some items ∧ ∃ item ∈ items, item.Asks g transitions q lookahead action)
    (hgoto : ∀ q A target, findGoto table q A = some target ↔ (∃ items, merged[q]? = some items ∧
      ∃ item ∈ items, (g.lrGrammar.rhs item.production)[item.dot]? = some (.nonterminal A)) ∧
        transitions.lookup (q, .nonterminal A) = some target) :
    (table.automaton merged).Describes g.lrGrammar := by
  -- the tables follow a transition exactly when an item asks for it
  have hnext : ∀ {q X q'}, (table.automaton merged).Next q X q' ↔
      (∃ items, merged[q]? = some items ∧
        ∃ item ∈ items, (g.lrGrammar.rhs item.production)[item.dot]? = some X) ∧
          transitions.lookup (q, X) = some q' := by
    intro q X q'
    cases X with
    | nonterminal A => exact hgoto q A q'
    | terminal t =>
      change (table.automaton merged).action q (some t) = some (.shift q') ↔ _
      rw [automaton_action_eq_shift, haction]
      constructor
      · rintro ⟨items, hitems, item, hitem, hasks⟩
        generalize hl : lookaheadOf (some t) = l at hasks
        cases hasks with
        | shift hX htarget =>
          obtain rfl := Lookahead.terminal.inj hl
          exact ⟨⟨items, hitems, item, hitem, hX⟩, htarget⟩
      · rintro ⟨⟨items, hitems, item, hitem, hX⟩, htarget⟩
        exact ⟨items, hitems, item, hitem, .shift hX htarget⟩
  refine ⟨hM.init_item, ?_, ?_, hM.init_generated, ?_, ?_, ?_, ?_, ?_, ?_, ?_⟩
  · intro q p k a p' u hitem hX hp' hu
    rw [ResidualGrammar.lrGrammar_rule] at hu
    exact hM.closed hitem hX hp' hu
  · intro q p k a X hitem hX
    obtain ⟨q', hq', hitem'⟩ := hM.next_item hitem hX
    obtain ⟨items, hitems, hmem⟩ := hitem
    exact ⟨q', hnext.2 ⟨⟨items, hitems, _, hmem, hX⟩, hq'⟩, hitem'⟩
  · exact fun h => hM.next_generated (hnext.1 h).2
  · exact fun h => hM.nonempty (hnext.1 h).2
  · rintro q p a ⟨items, hitems, hmem⟩ hp
    rw [automaton_action_eq_reduce, haction]
    exact ⟨items, hitems, _, hmem, .reduce (by simp) fun h => hp h.1⟩
  · rintro q ⟨items, hitems, hmem⟩
    rw [automaton_action_eq_accept, haction]
    refine ⟨items, hitems, _, hmem, .accept ?_ rfl rfl⟩
    change (g.lrGrammar.rhs g.lrGrammar.aug)[1]? = none
    rw [g.lrGrammar.rhs_aug]
    rfl
  · intro q p a h
    rw [automaton_action_eq_reduce, haction] at h
    obtain ⟨items, hitems, item, hitem, hasks⟩ := h
    have hok := hM.ok hitems item hitem
    generalize hl : lookaheadOf a = l at hasks
    cases hasks with
    | reduce hend hnot =>
      have hdot : item.dot = (g.lrGrammar.rhs item.production).length :=
        le_antisymm hok.dot_le (List.getElem?_eq_none_iff.1 hend)
      refine ⟨⟨items, hitems, ?_⟩, fun haug => hnot ⟨haug, hok.eof haug⟩⟩
      rw [hl, ← hdot]
      exact hitem
  · intro q a h
    rw [automaton_action_eq_accept, haction] at h
    obtain ⟨items, hitems, item, hitem, hasks⟩ := h
    have hok := hM.ok hitems item hitem
    generalize hl : lookaheadOf a = l at hasks
    cases hasks with
    | accept hend haug heof =>
      obtain rfl : a = none := lookaheadOf_injective hl
      have hrhs : (g.lrGrammar.rhs item.production).length = 1 := by
        rw [haug]
        exact congrArg List.length g.lrGrammar.rhs_aug
      have hdot : item.dot = 1 := by
        have := hok.dot_le
        have := List.getElem?_eq_none_iff.1 hend
        omega
      refine ⟨rfl, items, hitems, ?_⟩
      have : item = ⟨g.productions.length, 1, .eof⟩ := by
        cases item
        cases haug
        cases heof
        cases hdot
        rfl
      exact this ▸ hitem
  · intro q a q' h
    rw [automaton_action_eq_shift, haction] at h
    obtain ⟨items, hitems, item, hitem, hasks⟩ := h
    generalize hl : lookaheadOf a = l at hasks
    cases hasks with
    | @shift t _ _ _ => exact ⟨t, lookaheadOf_injective hl⟩

end Describes

/-- What a build without conflicts gives. -/
structure CompiledLalr.Built (g : ResidualGrammar) (merged : List (List Lr1Item))
    (compiled : CompiledLalr) : Prop where
  grammar_eq : compiled.grammar = g
  describes : (compiled.table.automaton merged).Describes g.lrGrammar
  state_lt : ∀ {q p k a}, HasItem merged q p k a → q < compiled.table.actions.length
  production : ∀ {q p k a}, HasItem merged q p k a → ∃ production,
    compiled.productions[p]? = some production ∧ production.lhs = g.lrGrammar.lhs p ∧
      production.rhs = g.lrGrammar.rhs p
  lexicalSafe : lexicalSafety g.terminals = .ok compiled.lexicalSafe

/-- **Building.**  Tables without conflicts drive the automaton of the merged states. -/
theorem CompiledLalr.build_built {g : ResidualGrammar} {limits : CompileLimits}
    {compiled : CompiledLalr} (h : build g limits = .ok compiled) (hconf : compiled.conflicts = [])
    (hg : g.WellFormed) (hindex : g.IndexExact) (hnull : g.NullableExact)
    (hterm : g.terminals.length ≤ u32Max + 1) : ∃ merged, Built g merged compiled := by
  obtain ⟨-, -, h⟩ := Result.bind_eq_ok.1 h
  obtain ⟨root, -, h⟩ := Result.bind_eq_ok.1 h
  obtain ⟨-, -, h⟩ := Result.bind_eq_ok.1 h
  obtain ⟨first, hfirst, h⟩ := Result.bind_eq_ok.1 h
  obtain ⟨initial, hinitial, h⟩ := Result.bind_eq_ok.1 h
  obtain ⟨states, hstates, h⟩ := Result.bind_eq_ok.1 h
  obtain ⟨merged, hmerged, h⟩ := Result.bind_eq_ok.1 h
  obtain ⟨transitions, htrans, h⟩ := Result.bind_eq_ok.1 h
  obtain ⟨table, htable, h⟩ := Result.bind_eq_ok.1 h
  obtain ⟨lexicalSafe, hsafe, h⟩ := Result.bind_eq_ok.1 h
  obtain rfl := Result.pure_eq_ok.1 h
  have hp : Prepared g first := ⟨hg, hindex, hnull, hterm, computeFirst_closed hfirst⟩
  have hinitial := hp.initial_spec hinitial
  have hstart : CanonicalStates.Explored g initial (fun _ _ => False) {
      canonical := [initial], queue := [0], transitions := [], totalItems := initial.length } := by
    refine ⟨rfl, fun items hitems => ?_, by simp, fun {c items item X} hc _ _ => .inl ?_⟩
    · exact List.mem_singleton.1 hitems ▸ hinitial.closed
    · have := (List.getElem?_eq_some_iff.1 hc).1
      simpa using this
  obtain ⟨hI, hqueue⟩ := hstart.loop hp hstates
  have hM := hI.mergedStates hqueue hinitial (mergeCores_spec hmerged) htrans
  obtain ⟨hlen, haction, hgoto⟩ := buildTable_spec
    (fun hitems item hitem => (hM.ok hitems item hitem).production_le) htable hconf
  refine ⟨merged.1, rfl, hM.describes haction hgoto, ?_, ?_, hsafe⟩
  · rintro q p k a ⟨items, hitems, -⟩
    rw [hlen]
    exact (List.getElem?_eq_some_iff.1 hitems).1
  · rintro q p k a ⟨items, hitems, hmem⟩
    have hlt : p < (parserProductions g g.nonterminals.length root.provenance).length := by
      simp only [parserProductions, List.length_append, List.length_map, List.length_singleton]
      exact Nat.lt_succ_of_le (hM.ok hitems _ hmem).production_le
    exact ⟨_, List.getElem?_eq_getElem hlt,
      (parserProductions_getElem? (List.getElem?_eq_getElem hlt)).2⟩

end OcEarley
