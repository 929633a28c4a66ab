import Mathlib.Data.Finset.Prod
import OcEarley.Formal.PrefixCode
import OcEarley.Lalr.Lexical

/-!
# Lexical safety decides the prefix code

The searches of `lexicalSafety` find only what exists.  A pair of cursors that the product search
meets has been moved over a word of which both terminals have read the same bytes, and such a word
begins a word of a terminal or a word of the terminal begins it.
-/

namespace OcEarley

/-! ### Cursors -/

namespace CompiledTerminal

variable {t : CompiledTerminal} {c : TerminalCursorState} {w : List UInt8}

/-- The cursors that a terminal may have. -/
def cursors : CompiledTerminal → Finset TerminalCursorState
  | .literal bytes => (Finset.range (bytes.length + 1)).image .literal
  | .dfa d => (Finset.range (d.stateCount + 1)).image .dfa

theorem card_cursors_le (t : CompiledTerminal) : t.cursors.card ≤ t.cursorCount := by
  cases t <;> exact Finset.card_image_le.trans (Finset.card_range _).le

theorem mem_cursors_of_runFrom (h : t.runFrom t.start w = some c) : c ∈ t.cursors := by
  rcases List.eq_nil_or_concat' w with rfl | ⟨w, b, rfl⟩
  · obtain rfl := Option.some.inj h
    cases t <;> exact Finset.mem_image_of_mem _ (Finset.mem_range.2 (Nat.succ_pos _))
  · rw [runFrom_snoc] at h
    obtain ⟨c₀, -, h⟩ := Option.bind_eq_some_iff.1 h
    cases t with
    | literal bytes =>
      cases c₀ with
      | dfa state => cases h
      | literal offset =>
        simp only [advance] at h
        split at h
        · cases h
        · next found hfound =>
          have hlt := (List.getElem?_eq_some_iff.1 hfound).1
          split at h
          · cases h
          · split at h
            · obtain rfl := Option.some.inj h
              exact Finset.mem_image_of_mem _ (Finset.mem_range.2 (by omega))
            · cases h
    | dfa d =>
      obtain ⟨q, rfl, hq⟩ := exists_of_advance_dfa h
      exact Finset.mem_image_of_mem _ (Finset.mem_range.2 (by omega))

/-- A literal is read up to the largest 32-bit offset. -/
theorem offset_le_of_runFrom {bytes : List UInt8} {offset : ℕ}
    (h : (literal bytes).runFrom (literal bytes).start w = some (.literal offset)) :
    offset ≤ u32Max := by
  rcases List.eq_nil_or_concat' w with rfl | ⟨w, b, rfl⟩
  · obtain rfl : 0 = offset := TerminalCursorState.literal.inj (Option.some.inj h)
    exact Nat.zero_le _
  · rw [runFrom_snoc] at h
    obtain ⟨c₀, -, h⟩ := Option.bind_eq_some_iff.1 h
    cases c₀ with
    | dfa state => cases h
    | literal offset₀ =>
      simp only [advance] at h
      split at h
      · cases h
      · split at h
        · cases h
        · split at h
          · next hle =>
            obtain rfl := TerminalCursorState.literal.inj (Option.some.inj h)
            exact hle
          · cases h

end CompiledTerminal

/-! ### What the searches find -/

section Pair

variable {left right : CompiledTerminal} {c c' : TerminalCursorState} {u : List UInt8}

/-- A pair of cursors that have been moved over the same word. -/
def MovedOver (left right : CompiledTerminal) (pair : TerminalCursorState × TerminalCursorState)
    (u : List UInt8) : Prop :=
  left.runFrom left.start u = some pair.1 ∧ right.runFrom right.start u = some pair.2

theorem MovedOver.snoc {pair : TerminalCursorState × TerminalCursorState} {b : UInt8}
    (h : MovedOver left right pair u) (hc : left.advance pair.1 b = some c)
    (hc' : right.advance pair.2 b = some c') : MovedOver left right (c, c') (u ++ [b]) := by
  constructor
  · rw [CompiledTerminal.runFrom_snoc, h.1, Option.bind_some, hc]
  · rw [CompiledTerminal.runFrom_snoc, h.2, Option.bind_some, hc']

/-- The next pairs come from the same byte, and the search stops at an accepting cursor. -/
theorem stepPair_wp (pair : TerminalCursorState × TerminalCursorState) :
    Result.wp (fun exit => exit = .found ∧ ∃ b c c', left.advance pair.1 b = some c ∧
        right.advance pair.2 b = some c' ∧
          (left.isAccepting c = true ∨ right.isAccepting c' = true))
      (stepPair left right pair)
      (fun pairs => ∀ next ∈ pairs, ∃ b, left.advance pair.1 b = some next.1 ∧
        right.advance pair.2 b = some next.2) := by
  refine Result.wp_foldlM (I := fun _ _ (pairs : List (TerminalCursorState ×
    TerminalCursorState)) => ∀ next ∈ pairs, ∃ b, left.advance pair.1 b = some next.1 ∧
      right.advance pair.2 b = some next.2) ?_ [] allBytes [] (by simp)
  intro done b rest pairs hpairs
  split
  · next c c' hc hc' =>
    split
    · next hacc => exact ⟨rfl, b, c, c', hc, hc', by simpa using hacc⟩
    · intro next hnext
      rcases List.mem_append.1 hnext with hnext | hnext
      · exact hpairs next hnext
      · obtain rfl := List.mem_singleton.1 hnext
        exact ⟨b, hc, hc'⟩
  · exact hpairs

/-- The search of two terminals ends, and finds a word only if both have read it and one of them
accepts it. -/
theorem exists_overlap (left right : CompiledTerminal) :
    ∃ found, terminalLanguagesHavePrefixOverlap left right = .ok found ∧
      (found = true → ∃ u c c', u ≠ [] ∧ left.runFrom left.start u = some c ∧
        right.runFrom right.start u = some c' ∧
          (left.isAccepting c = true ∨ right.isAccepting c' = true)) := by
  unfold terminalLanguagesHavePrefixOverlap
  dsimp only
  cases hsearch : Worklist.explore (stepPair left right) (fun _ => pure ()) .diverged
      (left.cursorCount * right.cursorCount) [(left.start, right.start)]
      [(left.start, right.start)] with
  | ok result => exact ⟨false, rfl, nofun⟩
  | error exit =>
    have hstart : ∀ pair ∈ [(left.start, right.start)], ∃ u, MovedOver left right pair u := by
      intro pair hpair
      obtain rfl := List.mem_singleton.1 hpair
      exact ⟨[], rfl, rfl⟩
    have hnext : ∀ pair pairs, (∃ u, MovedOver left right pair u) →
        stepPair left right pair = .ok pairs → ∀ next ∈ pairs, ∃ u,
          MovedOver left right next u := by
      rintro pair pairs ⟨u, hu⟩ hstep next hnext
      obtain ⟨b, hc, hc'⟩ := Result.wp_ok (stepPair_wp pair) hstep next hnext
      exact ⟨u ++ [b], hu.snoc hc hc'⟩
    have hcursors : ∀ pair, (∃ u, MovedOver left right pair u) →
        pair ∈ left.cursors ×ˢ right.cursors := fun pair ⟨u, hu⟩ =>
      Finset.mem_product.2 ⟨CompiledTerminal.mem_cursors_of_runFrom hu.1,
        CompiledTerminal.mem_cursors_of_runFrom hu.2⟩
    have hcard : (left.cursors ×ˢ right.cursors).card ≤ left.cursorCount * right.cursorCount := by
      rw [Finset.card_product]
      exact Nat.mul_le_mul left.card_cursors_le right.card_cursors_le
    rcases Worklist.explore_error hsearch hstart hnext hcursors hstart (List.nodup_singleton _)
        (by rw [List.length_singleton]; omega) with ⟨pair, ⟨u, hu⟩, hstep⟩ | ⟨_, hcheck⟩
    · obtain ⟨rfl, b, c, c', hc, hc', hacc⟩ := Result.wp_error (stepPair_wp pair) hstep
      have hmoved := hu.snoc hc hc'
      exact ⟨true, rfl, fun _ => ⟨u ++ [b], c, c', by simp, hmoved.1, hmoved.2, hacc⟩⟩
    · cases hcheck

end Pair

namespace CompiledByteDfa

variable {dfa : CompiledByteDfa} {state : ℕ}

/-- What the construction of an automaton guarantees: targets are 32-bit, every state is reached,
and the live flags are exact. -/
structure WellFormed (dfa : CompiledByteDfa) : Prop where
  target_le : ∀ row ∈ dfa.transitions, ∀ b, row b ≤ u32Max
  reached : ∀ state < dfa.stateCount, ∃ w,
    (CompiledTerminal.dfa dfa).runFrom (.dfa startState) w = some (.dfa state)
  live : dfa.LiveExact

/-- A state that is not live is entered only after an accepting state has been passed. -/
def LiveUntilAccepting (dfa : CompiledByteDfa) : Prop :=
  ∀ w state, w ≠ [] →
    (CompiledTerminal.dfa dfa).runFrom (.dfa startState) w = some (.dfa state) →
    dfa.isLive state = false → ∃ u, u <+: w ∧ dfa.accepts u = true

theorem WellFormed.state_le (h : dfa.WellFormed) (hstate : state < dfa.stateCount) :
    state ≤ u32Max := by
  obtain ⟨w, hw⟩ := h.reached state hstate
  rcases List.eq_nil_or_concat' w with rfl | ⟨w, b, rfl⟩
  · obtain rfl : startState = state := TerminalCursorState.dfa.inj (Option.some.inj hw)
    exact Nat.zero_le _
  · rw [CompiledTerminal.runFrom_snoc] at hw
    obtain ⟨c, -, hadvance⟩ := Option.bind_eq_some_iff.1 hw
    cases c with
    | literal offset => cases hadvance
    | dfa source =>
      simp only [CompiledTerminal.advance] at hadvance
      split at hadvance
      · cases hadvance
      · obtain rfl := TerminalCursorState.dfa.inj (Option.some.inj hadvance)
        unfold nextState
        split
        · next row hrow => exact h.target_le row (List.mem_of_getElem? hrow) b
        · exact le_rfl

/-- The search after a state ends, and finds an accepting state only if there is one. -/
theorem searchAccepting_error {exit : SearchExit} (h : searchAccepting dfa state = .error exit) :
    exit = .found ∧ ∃ z, z ≠ [] ∧ dfa.acceptsFrom state z = true := by
  have hsuccessor : ∀ {current next : ℕ}, next ∈ dfa.successors current →
      ∃ b, (CompiledTerminal.dfa dfa).advance (.dfa current) b = some (.dfa next) := by
    intro current next hnext
    obtain ⟨⟨b, rfl⟩, hdead⟩ := mem_successors.1 hnext
    exact ⟨b, by simp [CompiledTerminal.advance, hdead]⟩
  rcases Result.bind_eq_error.1 h with h | ⟨⟨queue, seen⟩, hvisit, h⟩
  · obtain ⟨_, hcheck⟩ := Worklist.visit_error h
    cases hcheck
  obtain ⟨hseen, hqueue, -, -⟩ := Worklist.visit_spec hvisit
  obtain ⟨hnodup, hlen⟩ := Worklist.visit_nodup hvisit List.nodup_nil
  have hnext : ∀ next ∈ dfa.successors state, ∃ z, z ≠ [] ∧
      (CompiledTerminal.dfa dfa).runFrom (.dfa state) z = some (.dfa next) := by
    intro next hmem
    obtain ⟨b, hb⟩ := hsuccessor hmem
    exact ⟨[b], by simp, by rw [CompiledTerminal.runFrom_cons, hb]; rfl⟩
  -- the invariant of the search: what it comes upon is reached by some nonempty word
  let Behind (current : ℕ) : Prop := ∃ z, z ≠ [] ∧
    (CompiledTerminal.dfa dfa).runFrom (.dfa state) z = some (.dfa current)
  have hstep : ∀ current l, Behind current →
      (if dfa.isAccepting current then throw .found else pure (dfa.successors current) :
        Except SearchExit (List ℕ)) = .ok l → ∀ next ∈ l, Behind next := by
    rintro current l ⟨z, -, hrun⟩ hstep next hmem
    split at hstep
    · cases hstep
    · obtain rfl := Result.pure_eq_ok.1 hstep
      obtain ⟨b, hb⟩ := hsuccessor hmem
      exact ⟨z ++ [b], by simp, by rw [CompiledTerminal.runFrom_snoc, hrun, Option.bind_some, hb]⟩
  have hlt : ∀ current, Behind current → current ∈ Finset.range dfa.stateCount := by
    rintro current ⟨z, hz, hrun⟩
    obtain ⟨z, b, rfl⟩ := (List.eq_nil_or_concat' z).resolve_left hz
    rw [CompiledTerminal.runFrom_snoc] at hrun
    obtain ⟨_, -, hadvance⟩ := Option.bind_eq_some_iff.1 hrun
    obtain ⟨q, hq, hlt⟩ := CompiledTerminal.exists_of_advance_dfa hadvance
    obtain rfl := TerminalCursorState.dfa.inj hq
    exact Finset.mem_range.2 hlt
  have hfuel : queue.length + (Finset.range dfa.stateCount).card ≤
      dfa.stateCount + seen.length := by
    rw [Finset.card_range]
    dsimp only [List.length_nil] at hlen
    omega
  rcases Worklist.explore_error h
      (fun a ha => hnext a ((hqueue a ha).resolve_left List.not_mem_nil)) hstep hlt
      (fun a ha => hnext a (((hseen a).1 ha).resolve_left List.not_mem_nil)) hnodup hfuel
    with ⟨current, ⟨z, hz, hrun⟩, hstep⟩ | ⟨_, hcheck⟩
  · split at hstep
    · next hacc =>
      obtain rfl := Except.error.inj hstep
      exact ⟨rfl, z, hz, CompiledTerminal.acceptsFrom_iff_runFrom.2 ⟨_, hrun, hacc⟩⟩
    · cases hstep
  · cases hcheck

end CompiledByteDfa

/-! ### The check -/

/-- A terminal that the parser may read: a literal that is not empty and has 32-bit offsets, or an
automaton that does not accept the empty string and is left only behind an accepting state. -/
def CompiledTerminal.Lexical : CompiledTerminal → Prop
  | .literal bytes => bytes ≠ [] ∧ bytes.length ≤ u32Max
  | .dfa d => d.WellFormed ∧ d.accepts [] = false ∧ d.LiveUntilAccepting

namespace CompiledTerminal.Lexical

variable {t left right : CompiledTerminal} {c : TerminalCursorState} {u w : List UInt8}

theorem readable (h : t.Lexical) : t.Readable := by
  cases t with
  | literal bytes => exact h.2
  | dfa d => trivial

theorem nil_notMem (h : t.Lexical) : [] ∉ t.language := by
  cases t with
  | literal bytes => exact fun hnil => h.1 (show [] = bytes from hnil).symm
  | dfa d => exact fun hnil => Bool.false_ne_true (h.2.1.symm.trans hnil)

theorem ne_nil (h : t.Lexical) (hu : u ∈ t.language) : u ≠ [] := by
  rintro rfl
  exact h.nil_notMem hu

/-- A word that a terminal has read begins one of its words, or one of its words begins it. -/
theorem exists_word (h : t.Lexical) (hw : w ≠ []) (hc : t.runFrom t.start w = some c) :
    ∃ u ∈ t.language, u <+: w ∨ w <+: u := by
  cases t with
  | literal bytes => exact ⟨bytes, rfl, .inr ((run_readable_literal_iff h.2).1 hc).2⟩
  | dfa d =>
    obtain ⟨hwf, -, hlive⟩ := h
    obtain ⟨v, b, rfl⟩ := (List.eq_nil_or_concat' w).resolve_left hw
    have hstep := hc
    rw [runFrom_snoc] at hstep
    obtain ⟨c₀, -, hadvance⟩ := Option.bind_eq_some_iff.1 hstep
    obtain ⟨q, rfl, hq⟩ := exists_of_advance_dfa hadvance
    cases hflag : d.isLive q with
    | false =>
      obtain ⟨u, hu, hacc⟩ := hlive _ q hw hc hflag
      exact ⟨u, hacc, .inl hu⟩
    | true =>
      obtain ⟨z, hz⟩ := (hwf.live q hq).1 hflag
      obtain ⟨c', hc', hacc⟩ := acceptsFrom_iff_runFrom.1 hz
      refine ⟨v ++ [b] ++ z, acceptsFrom_iff_runFrom.2 ⟨c', ?_, hacc⟩,
        .inr (List.prefix_append _ _)⟩
      have hc : (dfa d).runFrom (.dfa CompiledByteDfa.startState) (v ++ [b]) = some (.dfa q) := hc
      rw [runFrom_append, hc, Option.bind_some, hc']

/-- The search of two terminals finds exactly whether a word of one begins a word of the other. -/
theorem overlap_eq (hl : left.Lexical) (hr : right.Lexical) :
    ∃ found, terminalLanguagesHavePrefixOverlap left right = .ok found ∧
      (found = true ↔ ∃ u ∈ left.language, ∃ v ∈ right.language, u <+: v ∨ v <+: u) := by
  obtain ⟨found, hfound, hexists⟩ := exists_overlap left right
  refine ⟨found, hfound, fun h => ?_, fun ⟨u, hu, v, hv, hcomparable⟩ => ?_⟩
  · obtain ⟨u, c, c', hne, hc, hc', hacc | hacc⟩ := hexists h
    · obtain ⟨v, hv, hcomparable⟩ := hr.exists_word hne hc'
      exact ⟨u, hl.readable.mem_language_iff_runFrom.2 ⟨c, hc, hacc⟩, v, hv, hcomparable.symm⟩
    · obtain ⟨v, hv, hcomparable⟩ := hl.exists_word hne hc
      exact ⟨v, hv, u, hr.readable.mem_language_iff_runFrom.2 ⟨c', hc', hacc⟩, hcomparable⟩
  · by_contra hfalse
    rw [Bool.not_eq_true] at hfalse
    subst hfalse
    obtain ⟨c, hc, hacc⟩ := hl.readable.mem_language_iff_runFrom.1 hu
    obtain ⟨c', hc', hacc'⟩ := hr.readable.mem_language_iff_runFrom.1 hv
    rcases hcomparable with ⟨z, rfl⟩ | ⟨z, rfl⟩
    · rw [runFrom_append] at hc'
      obtain ⟨d', hd', -⟩ := Option.bind_eq_some_iff.1 hc'
      have hreject := (isAccepting_eq_false_of_overlap hfound (hl.ne_nil hu) hc hd').1
      exact Bool.false_ne_true (hreject.symm.trans hacc)
    · rw [runFrom_append] at hc
      obtain ⟨d, hd, -⟩ := Option.bind_eq_some_iff.1 hc
      have hreject := (isAccepting_eq_false_of_overlap hfound (hr.ne_nil hv) hd hc').2
      exact Bool.false_ne_true (hreject.symm.trans hacc')

/-- The search of one terminal finds exactly whether one of its words begins another one. -/
theorem isPrefixFree_eq (h : t.Lexical) :
    ∃ free, terminalIsPrefixFree t = .ok free ∧
      (free = true ↔ ∀ u z, u ∈ t.language → u ++ z ∈ t.language → z = []) := by
  suffices hfree : ∃ free, terminalIsPrefixFree t = .ok free ∧
      ((∀ u z, u ∈ t.language → u ++ z ∈ t.language → z = []) → free = true) by
    obtain ⟨free, hfree, himp⟩ := hfree
    refine ⟨free, hfree, fun htrue u z hu hz => ?_, himp⟩
    exact terminalIsPrefixFree_spec (htrue ▸ hfree) (h.ne_nil hu) hu hz
  cases t with
  | literal bytes => exact ⟨true, rfl, fun _ => rfl⟩
  | dfa d =>
    cases hsearch : ((List.range d.stateCount).forM fun state => do
        Result.require (state ≤ u32Max) .found
        if d.isAccepting state then do
          let _ ← searchAccepting d state
          pure ()
        else pure () : Except SearchExit Unit) with
    | ok =>
      refine ⟨true, ?_, fun _ => rfl⟩
      unfold terminalIsPrefixFree
      dsimp only
      rw [hsearch]
      rfl
    | error exit =>
      obtain ⟨state, hstate, hfail⟩ := Result.forM_eq_error hsearch
      obtain ⟨u, hu⟩ := h.1.reached state (List.mem_range.1 hstate)
      rcases Result.bind_eq_error.1 hfail with hfail | ⟨_, -, hfail⟩
      · exact absurd (h.1.state_le (List.mem_range.1 hstate)) (Result.require_eq_error.1 hfail).1
      · split at hfail
        · next hacc =>
          rcases Result.bind_eq_error.1 hfail with hfail | ⟨_, -, hfail⟩
          · obtain ⟨rfl, z, hz, haccepts⟩ := CompiledByteDfa.searchAccepting_error hfail
            refine ⟨false, ?_, fun hfree => absurd (hfree u z ?_ ?_) hz⟩
            · unfold terminalIsPrefixFree
              dsimp only
              rw [hsearch]
              rfl
            · exact acceptsFrom_iff_runFrom.2 ⟨_, hu, hacc⟩
            · obtain ⟨c, hc, hacc'⟩ := acceptsFrom_iff_runFrom.1 haccepts
              refine acceptsFrom_iff_runFrom.2 ⟨c, ?_, hacc'⟩
              rw [runFrom_append, hu, Option.bind_some, hc]
          · cases hfail
        · cases hfail

end CompiledTerminal.Lexical

/-- The languages of the terminals by index. -/
def terminalLanguages (terminals : List CompiledTerminal) (t : ℕ) : Language UInt8 :=
  (terminals[t]?.map CompiledTerminal.language).getD 0

section Safety

variable {terminals : List CompiledTerminal}

theorem mem_terminalLanguages {t : ℕ} {w : List UInt8} :
    w ∈ terminalLanguages terminals t ↔
      ∃ terminal, terminals[t]? = some terminal ∧ w ∈ terminal.language := by
  unfold terminalLanguages
  cases terminals[t]? with
  | none => simp
  | some terminal => simp

theorem overlapFree_eq {overlap : CompiledTerminal → CompiledTerminal → Bool}
    (h : ∀ left ∈ terminals, ∀ right ∈ terminals,
      terminalLanguagesHavePrefixOverlap left right = .ok (overlap left right)) :
    ∃ safe, overlapFree terminals = .ok safe ∧
      (safe = true ↔ terminals.Pairwise fun left right => overlap left right = false) := by
  induction terminals with
  | nil => exact ⟨true, rfl, by simp⟩
  | cons left rest ih =>
    obtain ⟨safe, hsafe, hiff⟩ := ih fun l hl r hr =>
      h l (List.mem_cons_of_mem _ hl) r (List.mem_cons_of_mem _ hr)
    have hleft := Result.foldlM_any (fun right hright =>
      h left List.mem_cons_self right (List.mem_cons_of_mem left hright)) false
    rw [Bool.false_or] at hleft
    rw [overlapFree, hleft, List.pairwise_cons]
    cases hany : rest.any (overlap left) with
    | true =>
      refine ⟨false, rfl, nofun, fun hboth => ?_⟩
      obtain ⟨right, hright, hoverlap⟩ := List.any_eq_true.1 hany
      rw [hboth.1 right hright] at hoverlap
      cases hoverlap
    | false =>
      refine ⟨safe, hsafe, hiff.trans ⟨fun hpair => ⟨fun right hright => ?_, hpair⟩, And.right⟩⟩
      exact Bool.eq_false_iff.2 (List.any_eq_false.1 hany right hright)

/-- The check ends, and passes when both kinds of searches find nothing. -/
theorem lexicalSafety_eq (h : ∀ t ∈ terminals, t.Lexical) :
    ∃ safe, lexicalSafety terminals = .ok safe ∧ (safe = true ↔
      (∀ t ∈ terminals, ∀ u z, u ∈ t.language → u ++ z ∈ t.language → z = []) ∧
      terminals.Pairwise fun left right =>
        ¬∃ u ∈ left.language, ∃ v ∈ right.language, u <+: v ∨ v <+: u) := by
  classical
  let free (t : CompiledTerminal) : Bool :=
    decide (∀ u z, u ∈ t.language → u ++ z ∈ t.language → z = [])
  let overlap (left right : CompiledTerminal) : Bool :=
    decide (∃ u ∈ left.language, ∃ v ∈ right.language, u <+: v ∨ v <+: u)
  have hfree : ∀ t ∈ terminals, terminalIsPrefixFree t = .ok (free t) := by
    intro t ht
    obtain ⟨found, hfound, hiff⟩ := (h t ht).isPrefixFree_eq
    rw [hfound]
    exact congrArg _ (Bool.eq_iff_iff.2 (hiff.trans decide_eq_true_iff.symm))
  have hoverlap : ∀ left ∈ terminals, ∀ right ∈ terminals,
      terminalLanguagesHavePrefixOverlap left right = .ok (overlap left right) := by
    intro left hleft right hright
    obtain ⟨found, hfound, hiff⟩ := (h left hleft).overlap_eq (h right hright)
    rw [hfound]
    exact congrArg _ (Bool.eq_iff_iff.2 (hiff.trans decide_eq_true_iff.symm))
  obtain ⟨safe, hsafe, hpairs⟩ := overlapFree_eq hoverlap
  have hall := Result.foldlM_all hfree true
  unfold lexicalSafety
  rw [Bool.true_and] at hall
  rw [hall]
  cases hfreeAll : terminals.all free with
  | false =>
    refine ⟨false, rfl, nofun, fun hboth => ?_⟩
    obtain ⟨t, ht, hnot⟩ := List.all_eq_false.1 hfreeAll
    exact absurd (decide_eq_true (hboth.1 t ht)) hnot
  | true =>
    refine ⟨safe, hsafe, hpairs.trans ⟨fun hpair => ⟨fun t ht => ?_, ?_⟩, fun hboth => ?_⟩⟩
    · exact decide_eq_true_iff.1 (List.all_eq_true.1 hfreeAll t ht)
    · exact hpair.imp fun hfalse => decide_eq_false_iff_not.1 hfalse
    · exact hboth.2.imp fun hnot => decide_eq_false_iff_not.2 hnot

theorem isPrefixCode_iff : IsPrefixCode (terminalLanguages terminals) ↔
    (∀ t ∈ terminals, ∀ u z, u ∈ t.language → u ++ z ∈ t.language → z = []) ∧
    terminals.Pairwise fun left right =>
      ¬∃ u ∈ left.language, ∃ v ∈ right.language, u <+: v ∨ v <+: u := by
  constructor
  · intro h
    refine ⟨fun t ht u z hu hz => ?_, List.pairwise_iff_getElem.2 fun i j hi hj hij => ?_⟩
    · obtain ⟨i, hi⟩ := List.getElem?_of_mem ht
      exact h.prefix_free (mem_terminalLanguages.2 ⟨t, hi, hu⟩)
        (mem_terminalLanguages.2 ⟨t, hi, hz⟩)
    · rintro ⟨u, hu, v, hv, hcomparable⟩
      have hu := mem_terminalLanguages.2 ⟨_, List.getElem?_eq_getElem hi, hu⟩
      have hv := mem_terminalLanguages.2 ⟨_, List.getElem?_eq_getElem hj, hv⟩
      rcases hcomparable with ⟨z, rfl⟩ | ⟨z, rfl⟩
      · obtain ⟨hindex, -⟩ := h.eq_of_append_eq hu hv (List.append_nil (u ++ z)).symm
        omega
      · obtain ⟨hindex, -⟩ := h.eq_of_append_eq hu hv (List.append_nil (v ++ z))
        omega
  · rintro ⟨hfree, hpairs⟩
    have hsame : ∀ {i j u z}, u ∈ terminalLanguages terminals i →
        u ++ z ∈ terminalLanguages terminals j → i = j ∧ z = [] := by
      intro i j u z hu hz
      obtain ⟨left, hleft, hu⟩ := mem_terminalLanguages.1 hu
      obtain ⟨right, hright, hz⟩ := mem_terminalLanguages.1 hz
      obtain ⟨hi, rfl⟩ := List.getElem?_eq_some_iff.1 hleft
      obtain ⟨hj, rfl⟩ := List.getElem?_eq_some_iff.1 hright
      rcases Nat.lt_trichotomy i j with hij | rfl | hij
      · exact absurd ⟨u, hu, _, hz, .inl (List.prefix_append u z)⟩
          (List.pairwise_iff_getElem.1 hpairs i j hi hj hij)
      · exact ⟨rfl, hfree _ (List.getElem_mem hi) u z hu hz⟩
      · exact absurd ⟨_, hz, u, hu, .inr (List.prefix_append u z)⟩
          (List.pairwise_iff_getElem.1 hpairs j i hj hi hij)
    exact ⟨fun hu hz => (hsame hu hz).2, fun {i j u} hu hu' =>
      (hsame hu (z := []) (by rwa [List.append_nil])).1⟩

/-- **Lexical safety decides the prefix code.**  The check ends with the answer whether a word of a
terminal begins another one or belongs to two of them.  If it passes, a byte string has at most one
split into words of the terminals, and at most one terminal accepts after a byte. -/
theorem lexicalSafety_exact (h : ∀ t ∈ terminals, t.Lexical) :
    (∃ safe, lexicalSafety terminals = .ok safe ∧
      (safe = true ↔ IsPrefixCode (terminalLanguages terminals))) ∧
    (lexicalSafety terminals = .ok true →
      (∀ xs ys : List (ℕ × List UInt8), (∀ x ∈ xs, x.2 ∈ terminalLanguages terminals x.1) →
        (∀ y ∈ ys, y.2 ∈ terminalLanguages terminals y.1) →
        (xs.map Prod.snd).flatten = (ys.map Prod.snd).flatten → xs = ys) ∧
      ∀ (w : List UInt8) (i j : ℕ) (t t' : CompiledTerminal) (c c' : TerminalCursorState),
        terminals[i]? = some t → terminals[j]? = some t' → t.runFrom t.start w = some c →
        t'.runFrom t'.start w = some c' → t.isAccepting c = true →
        t'.isAccepting c' = true → i = j) := by
  obtain ⟨safe, hsafe, hiff⟩ := lexicalSafety_eq h
  rw [← isPrefixCode_iff] at hiff
  refine ⟨⟨safe, hsafe, hiff⟩, fun htrue => ?_⟩
  have hcode := hiff.1 (Except.ok.inj (hsafe.symm.trans htrue))
  constructor
  · intro xs ys hxs hys heq
    refine hcode.split_unique (fun t hnil => ?_) hxs hys heq
    obtain ⟨terminal, hterminal, hnil⟩ := mem_terminalLanguages.1 hnil
    exact (h terminal (List.mem_of_getElem? hterminal)).nil_notMem hnil
  · intro w i j t t' c c' ht ht' hc hc' hacc hacc'
    have hw := (h t (List.mem_of_getElem? ht)).readable.mem_language_iff_runFrom.2 ⟨c, hc, hacc⟩
    have hw' := (h t' (List.mem_of_getElem? ht')).readable.mem_language_iff_runFrom.2
      ⟨c', hc', hacc'⟩
    exact hcode.disjoint (mem_terminalLanguages.2 ⟨t, ht, hw⟩)
      (mem_terminalLanguages.2 ⟨t', ht', hw'⟩)

end Safety

/-- An automaton for the letter `c`. -/
def letterDfa : CompiledByteDfa where
  transitions := [fun b => if b = 99 then 1 else deadDfaState, fun _ => deadDfaState]
  accepting := [false, true]
  live := [true, true]
  nfaStates := 2
  nfaTransitions := 1
  memoryBytes := 0

theorem letterDfa_lexical : (CompiledTerminal.dfa letterDfa).Lexical := by
  refine ⟨⟨?_, ?_, ?_⟩, by decide, ?_⟩
  · intro row hrow b
    simp only [letterDfa, List.mem_cons, List.not_mem_nil, or_false] at hrow
    rcases hrow with rfl | rfl
    · dsimp only
      split <;> decide
    · exact le_rfl
  · intro state hstate
    match state with
    | 0 => exact ⟨[], rfl⟩
    | 1 => exact ⟨[99], rfl⟩
  · intro state hstate
    match state with
    | 0 => exact ⟨fun _ => ⟨[99], rfl⟩, fun _ => rfl⟩
    | 1 => exact ⟨fun _ => ⟨[], rfl⟩, fun _ => rfl⟩
  · intro w state hw hrun hlive
    obtain ⟨w, b, rfl⟩ := (List.eq_nil_or_concat' w).resolve_left hw
    rw [CompiledTerminal.runFrom_snoc] at hrun
    obtain ⟨_, -, hadvance⟩ := Option.bind_eq_some_iff.1 hrun
    obtain ⟨q, hq, hlt⟩ := CompiledTerminal.exists_of_advance_dfa hadvance
    obtain rfl := TerminalCursorState.dfa.inj hq
    match state with
    | 0 | 1 => cases hlive

theorem lexicalSafety_exact_letters :
    (∃ safe, lexicalSafety [.literal [97, 98], .dfa letterDfa] = .ok safe ∧
      (safe = true ↔ IsPrefixCode (terminalLanguages [.literal [97, 98], .dfa letterDfa]))) ∧
    ∀ xs ys : List (ℕ × List UInt8),
      (∀ x ∈ xs, x.2 ∈ terminalLanguages [.literal [97, 98], .dfa letterDfa] x.1) →
      (∀ y ∈ ys, y.2 ∈ terminalLanguages [.literal [97, 98], .dfa letterDfa] y.1) →
      (xs.map Prod.snd).flatten = (ys.map Prod.snd).flatten → xs = ys := by
  have hlexical : ∀ t ∈ [CompiledTerminal.literal [97, 98], .dfa letterDfa], t.Lexical := by
    intro t ht
    rcases List.mem_cons.1 ht with rfl | ht
    · exact ⟨by decide, by decide⟩
    · obtain rfl := List.mem_singleton.1 ht
      exact letterDfa_lexical
  have hexact := lexicalSafety_exact hlexical
  exact ⟨hexact.1, (hexact.2 (by decide +kernel)).1⟩

/-- Between two literals the check passes when the product search finds nothing. -/
theorem lexicalSafety_literals {bytes bytes' : List UInt8}
    (h : terminalLanguagesHavePrefixOverlap (.literal bytes) (.literal bytes') = .ok false) :
    lexicalSafety [.literal bytes, .literal bytes'] = .ok true := by
  have hpair : overlapFree [.literal bytes, .literal bytes'] = .ok true := by
    rw [overlapFree, List.foldlM_cons, if_neg Bool.false_ne_true, h]
    rfl
  exact hpair

/-- A literal whose offsets are not 32-bit. -/
def longLiteral : List UInt8 := List.replicate (2 ^ 32) 0

/-- The cursor of a literal with `2 ^ 32` bytes never accepts, so the check misses that two such
terminals share their string. -/
theorem lexicalSafety_misses_longLiteral :
    longLiteral ≠ [] ∧
    lexicalSafety [.literal longLiteral, .literal longLiteral] = .ok true ∧
    ¬ IsPrefixCode (terminalLanguages [.literal longLiteral, .literal longLiteral]) := by
  have hlen : longLiteral.length = 2 ^ 32 := List.length_replicate
  have hreject : ∀ {w : List UInt8} {c : TerminalCursorState},
      (CompiledTerminal.literal longLiteral).runFrom (.literal 0) w = some c →
        (CompiledTerminal.literal longLiteral).isAccepting c = false := by
    intro w c hc
    cases c with
    | dfa state => rfl
    | literal offset =>
      have hle : offset ≤ u32Max := CompiledTerminal.offset_le_of_runFrom hc
      have hlt : offset < 2 ^ 32 := hle.trans_lt (by decide)
      change (offset == longLiteral.length) = false
      rw [hlen]
      exact beq_false_of_ne hlt.ne
  refine ⟨fun hnil => ?_, ?_, fun hcode => ?_⟩
  · rw [hnil] at hlen
    cases hlen
  · obtain ⟨found, hfound, hexists⟩ :=
      exists_overlap (.literal longLiteral) (.literal longLiteral)
    have hfalse : found = false := by
      rw [← Bool.not_eq_true]
      intro htrue
      obtain ⟨u, c, c', -, hc, hc', hacc | hacc⟩ := hexists htrue
      · exact Bool.false_ne_true ((hreject hc).symm.trans hacc)
      · exact Bool.false_ne_true ((hreject hc').symm.trans hacc)
    rw [hfalse] at hfound
    exact lexicalSafety_literals hfound
  · have hmem : ∀ i, i < 2 → longLiteral ∈
        terminalLanguages [.literal longLiteral, .literal longLiteral] i := by
      intro i hi
      match i with
      | 0 | 1 => exact rfl
    cases hcode.disjoint (hmem 0 (by decide)) (hmem 1 (by decide))

end OcEarley
