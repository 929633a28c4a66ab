import OcEarley.Lalr.Reductions

/-!
# Candidates of the recognizer

`startCandidates` finds one candidate for each terminal that the stack can shift, and the candidates
that read on are those whose cursor is live (`Tracks`).  The limits apart, a byte never fails.
-/

namespace OcEarley

open Method

namespace LalrRecognizer

variable {A : LrAutomaton ℕ ℕ ℕ ℕ} {G : LrGrammar ℕ ℕ ℕ} {g : ResidualGrammar} {σ : List ℕ} {t : ℕ}
  {u : List UInt8} {candidates : List TerminalCandidate}

/-- The stack settles on the terminal and shifts it. -/
def Shifts (A : LrAutomaton ℕ ℕ ℕ ℕ) (G : LrGrammar ℕ ℕ ℕ) (σ : List ℕ) (t : ℕ) (stack : List ℕ)
    (shift : ℕ) : Prop :=
  ∃ q τ, stack = q :: τ ∧ A.Settles G (some t) σ q τ ∧ A.action q (some t) = some (.shift shift)

/-- The candidates are those of the terminals that the stack can shift, moved over
`u` and still live. -/
structure Tracks (A : LrAutomaton ℕ ℕ ℕ ℕ) (G : LrGrammar ℕ ℕ ℕ) (g : ResidualGrammar) (σ : List ℕ)
    (u : List UInt8) (candidates : List TerminalCandidate) : Prop where
  sound : ∀ c ∈ candidates, Shifts A G σ c.terminal c.stack c.shift ∧
    ∃ terminal, g.terminals[c.terminal]? = some terminal ∧ terminal.liveRun u = some c.cursor
  complete : ∀ {t stack shift terminal cursor}, Shifts A G σ t stack shift →
    g.terminals[t]? = some terminal → terminal.liveRun u = some cursor →
    ∃ c ∈ candidates, c.terminal = t ∧ c.cursor = cursor
  nodup : (candidates.map TerminalCandidate.terminal).Nodup

end LalrRecognizer

namespace CompiledLalr.Built

open LrAutomaton LalrRecognizer

variable {g : ResidualGrammar} {merged : List (List Lr1Item)} {compiled : CompiledLalr}
  {s : LalrRecognizer} {w : List ℕ} {σ : List ℕ} {t : ℕ} {u : List UInt8} {b : UInt8}
  {candidates : List TerminalCandidate}

/-- One terminal is tried: it adds its candidate if the stack can shift it. -/
theorem wp_startCandidate (hB : Built g merged compiled) (hprod : g.lrGrammar.Productive)
    (hs : s.compiled = compiled)
    (hw : (compiled.table.automaton merged).Shifted g.lrGrammar w s.stack)
    (ht : t < g.terminals.length) (hle : t ≤ u32Max) :
    wp RuntimeError.IsLimit (startCandidate candidates t) (fun r s' => SameButStats s s' ∧
      ((r = candidates ∧ ∀ stack shift,
          ¬Shifts (compiled.table.automaton merged) g.lrGrammar s.stack t stack shift) ∨
        ∃ c, r = candidates ++ [c] ∧ c.terminal = t ∧
          Shifts (compiled.table.automaton merged) g.lrGrammar s.stack t c.stack c.shift ∧
          c.cursor = g.terminals[t].start)) s := by
  subst hs
  simp only [startCandidate, wp_bind, wp_get, wp_require, modifyStats]
  refine ⟨fun _ => ?_, fun hnot => absurd hle hnot⟩
  refine wp_mono (hB.wp_actionAfterReductions (a := some t) hprod rfl hw) ?_
  rintro r s₁ ⟨q, τ, rfl, hsettles, stats, rfl⟩
  -- any other way to settle ends in the same state
  have hunique : ∀ {stack shift},
      Shifts (s.compiled.table.automaton merged) g.lrGrammar s.stack t stack shift →
      findAction s.compiled.table q (.terminal t) = some (.shift shift) := by
    rintro stack shift ⟨q', τ', -, hsettles', haction⟩
    obtain ⟨rfl, -⟩ := hsettles.unique hsettles'
    exact automaton_action_eq_shift.1 haction
  split
  · next shift haction =>
    have haction : findAction s.compiled.table q (.terminal t) = some (.shift shift) := haction
    have hterm : s.compiled.grammar.terminals[t]? = some g.terminals[t] := by
      rw [hB.grammar_eq]
      exact List.getElem?_eq_getElem ht
    simp only [wp_bind, hterm, wp_unwrap_some, wp_get, wp_pure, wp_modify]
    refine ⟨⟨_, rfl⟩, .inr ⟨_, rfl, rfl, ⟨q, τ, rfl, hsettles, ?_⟩, rfl⟩⟩
    exact automaton_action_eq_shift.2 haction
  · next hnot =>
    simp only [wp_bind, wp_pure, wp_modify]
    exact ⟨⟨_, rfl⟩, .inl ⟨trivial, fun stack shift h => hnot shift (hunique h)⟩⟩

/-- All terminals are tried. -/
theorem wp_startCandidates (hB : Built g merged compiled) (hprod : g.lrGrammar.Productive)
    (hfits : g.terminals.length ≤ u32Max + 1) (hs : s.compiled = compiled)
    (hw : (compiled.table.automaton merged).Shifted g.lrGrammar w s.stack) :
    wp RuntimeError.IsLimit startCandidates (fun _ s' =>
      (∃ stats, s' = { s with candidates := s'.candidates, stats := stats }) ∧
        Tracks (compiled.table.automaton merged) g.lrGrammar g s.stack [] s'.candidates) s := by
  subst hs
  simp only [startCandidates, wp_bind, wp_get, hB.grammar_eq]
  -- below `n`, the candidates are just the terminals that the reductions end up shifting
  refine wp_mono (wp_foldlM (I := fun (rest : List ℕ) (found : List TerminalCandidate) s' =>
    SameButStats s s' ∧ ∃ n, rest = (List.range g.terminals.length).drop n ∧
      (∀ c ∈ found, c.terminal < n ∧
        Shifts (s.compiled.table.automaton merged) g.lrGrammar s.stack c.terminal c.stack c.shift ∧
          g.terminals[c.terminal]?.map CompiledTerminal.start = some c.cursor) ∧
      (∀ t < n, t < g.terminals.length → ∀ stack shift,
        Shifts (s.compiled.table.automaton merged) g.lrGrammar s.stack t stack shift →
          ∃ c ∈ found, c.terminal = t) ∧
      (found.map TerminalCandidate.terminal).Nodup) ?_ _ _ _
        ⟨.refl s, 0, rfl, by simp, by simp, by simp⟩) ?_
  · rintro t rest found s₁ ⟨⟨stats, rfl⟩, n, hrest, hsound, hcomplete, hnodup⟩
    have hn : n < (List.range g.terminals.length).length := by
      by_contra hle
      rw [List.drop_eq_nil_of_le (not_lt.1 hle)] at hrest
      cases hrest
    rw [List.drop_eq_getElem_cons hn, List.getElem_range] at hrest
    obtain ⟨rfl, rfl⟩ := List.cons.inj hrest
    rw [List.length_range] at hn
    refine wp_mono (hB.wp_startCandidate hprod (s := { s with stats := stats }) rfl hw hn
      (by omega)) ?_
    rintro r s₂ ⟨⟨stats', rfl⟩, hr⟩
    refine ⟨⟨stats', rfl⟩, t + 1, rfl, ?_⟩
    rcases hr with ⟨rfl, hnone⟩ | ⟨c, rfl, rfl, hshifts, hcursor⟩
    · refine ⟨fun c hc => (hsound c hc).imp_left fun h => by omega,
        fun t' ht' hlt stack shift h => ?_, hnodup⟩
      rcases Nat.lt_succ_iff_lt_or_eq.1 ht' with ht' | rfl
      · exact hcomplete t' ht' hlt stack shift h
      · exact absurd h (hnone stack shift)
    · refine ⟨fun c' hc' => ?_, fun t' ht' hlt stack shift h => ?_, ?_⟩
      · rcases List.mem_append.1 hc' with hc' | hc'
        · exact (hsound c' hc').imp_left fun h => by omega
        · obtain rfl := List.mem_singleton.1 hc'
          refine ⟨Nat.lt_succ_self _, hshifts, ?_⟩
          rw [List.getElem?_eq_getElem hn, hcursor]
          rfl
      · rcases Nat.lt_succ_iff_lt_or_eq.1 ht' with ht' | rfl
        · obtain ⟨c', hc', hterm⟩ := hcomplete t' ht' hlt stack shift h
          exact ⟨c', List.mem_append_left _ hc', hterm⟩
        · exact ⟨c, List.mem_append_right _ (List.mem_singleton_self _), rfl⟩
      · rw [List.map_append, List.nodup_append]
        refine ⟨hnodup, List.nodup_singleton _, fun a ha b hb => ?_⟩
        obtain ⟨c', hc', rfl⟩ := List.mem_map.1 ha
        obtain rfl := List.mem_singleton.1 hb
        exact (hsound c' hc').1.ne
  · rintro found s₁ ⟨⟨stats, rfl⟩, n, hrest, hsound, hcomplete, hnodup⟩
    have hn : g.terminals.length ≤ n := by simpa using (List.drop_eq_nil_iff.1 hrest.symm)
    simp only [enforceRuntimeLimit, wp_bind, wp_require, wp_modify]
    refine ⟨fun _ => ⟨⟨stats, rfl⟩, ⟨fun c hc => ?_, ?_, hnodup⟩⟩, fun _ => trivial⟩
    · obtain ⟨-, hshifts, hcursor⟩ := hsound c hc
      obtain ⟨terminal, hterminal, hstart⟩ := Option.map_eq_some_iff.1 hcursor
      exact ⟨hshifts, terminal, hterminal, congrArg some hstart⟩
    · intro t stack shift terminal cursor hshifts hterminal hcursor
      have hlt := (List.getElem?_eq_some_iff.1 hterminal).1
      obtain ⟨c, hc, rfl⟩ := hcomplete t (by omega) hlt stack shift hshifts
      refine ⟨c, hc, rfl, ?_⟩
      have := (hsound c hc).2.2
      rw [hterminal] at this
      exact Option.some.inj (this.symm.trans hcursor)

end CompiledLalr.Built

/-! ### One byte -/

namespace LalrRecognizer

variable {A : LrAutomaton ℕ ℕ ℕ ℕ} {G : LrGrammar ℕ ℕ ℕ} {g : ResidualGrammar} {σ : List ℕ} {t : ℕ}
  {u : List UInt8} {b : UInt8} {candidates : List TerminalCandidate}
  {keep : CompiledTerminal → TerminalCursorState → Bool} {s : LalrRecognizer}

/-- The candidate moved over a byte, if its cursor is to be kept. -/
def moved (g : ResidualGrammar) (b : UInt8) (keep : CompiledTerminal → TerminalCursorState → Bool)
    (c : TerminalCandidate) : Option TerminalCandidate :=
  g.terminals[c.terminal]?.bind fun terminal =>
    ((terminal.advance c.cursor b).filter (keep terminal)).map fun cursor =>
      { c with cursor := cursor }

theorem moved_eq_some {c c' : TerminalCandidate} : moved g b keep c = some c' ↔
    ∃ terminal cursor, g.terminals[c.terminal]? = some terminal ∧
      terminal.advance c.cursor b = some cursor ∧ keep terminal cursor = true ∧
      c' = { c with cursor := cursor } := by
  unfold moved
  rw [Option.bind_eq_some_iff]
  constructor
  · rintro ⟨terminal, hterminal, h⟩
    obtain ⟨cursor, hcursor, rfl⟩ := Option.map_eq_some_iff.1 h
    obtain ⟨hadvance, hkeep⟩ := Option.filter_eq_some_iff.1 hcursor
    exact ⟨terminal, cursor, hterminal, hadvance, hkeep, rfl⟩
  · rintro ⟨terminal, cursor, hterminal, hadvance, hkeep, rfl⟩
    refine ⟨terminal, hterminal, Option.map_eq_some_iff.2 ⟨cursor, ?_, rfl⟩⟩
    exact Option.filter_eq_some_iff.2 ⟨hadvance, hkeep⟩

/-- Moving keeps the terminals apart. -/
theorem nodup_moved (h : (candidates.map TerminalCandidate.terminal).Nodup) :
    ((candidates.filterMap (moved g b keep)).map TerminalCandidate.terminal).Nodup := by
  refine List.Nodup.sublist ?_ h
  clear h
  induction candidates with
  | nil => exact List.Sublist.slnil
  | cons c candidates ih =>
    rw [List.filterMap_cons]
    cases hmoved : moved g b keep c with
    | none => exact ih.cons _
    | some c' =>
      obtain ⟨terminal, cursor, -, -, -, rfl⟩ := moved_eq_some.1 hmoved
      exact ih.cons_cons _

theorem wp_advanceCandidates (hs : s.compiled.grammar = g) {advanced : Advanced}
    (h : ∀ c ∈ candidates, c.terminal < g.terminals.length) :
    wp RuntimeError.IsLimit (candidates.foldlM (advanceCandidate b) advanced) (fun r s' => s' = s ∧
      r = ⟨advanced.next ++ candidates.filterMap (moved g b CompiledTerminal.isLive),
        advanced.accepted ++ candidates.filterMap (moved g b CompiledTerminal.isAccepting)⟩) s := by
  induction candidates generalizing advanced with
  | nil =>
    rw [List.foldlM_nil, wp_pure]
    exact ⟨rfl, by simp⟩
  | cons c candidates ih =>
    obtain ⟨terminal, hterminal⟩ : ∃ terminal, g.terminals[c.terminal]? = some terminal :=
      ⟨_, List.getElem?_eq_getElem (h c List.mem_cons_self)⟩
    have ih := fun advanced => @ih advanced fun c hc => h c (List.mem_cons_of_mem _ hc)
    rw [List.foldlM_cons, wp_bind]
    simp only [advanceCandidate, wp_bind, wp_get, hs, hterminal, wp_unwrap_some]
    split
    · next hnone =>
      rw [wp_pure]
      refine wp_mono (ih advanced) ?_
      rintro r s' ⟨rfl, rfl⟩
      simp [moved, hterminal, hnone]
    · next cursor hcursor =>
      rw [wp_pure]
      refine wp_mono (ih _) ?_
      rintro r s' ⟨rfl, rfl⟩
      refine ⟨rfl, ?_⟩
      cases hlive : terminal.isLive cursor <;> cases hacc : terminal.isAccepting cursor <;>
        simp [moved, hterminal, hcursor, hlive, hacc]

namespace Tracks

variable (h : Tracks A G g σ u candidates)
include h

theorem lt_of_mem {c : TerminalCandidate} (hc : c ∈ candidates) :
    c.terminal < g.terminals.length := by
  obtain ⟨-, terminal, hterminal, -⟩ := h.sound c hc
  exact (List.getElem?_eq_some_iff.1 hterminal).1

/-- The candidates that read on. -/
theorem next : Tracks A G g σ (u ++ [b])
    (candidates.filterMap (moved g b CompiledTerminal.isLive)) := by
  refine ⟨fun c' hc' => ?_, fun {t stack shift terminal cursor} hshifts hterminal hcursor => ?_,
    nodup_moved h.nodup⟩
  · obtain ⟨c, hc, hmoved⟩ := List.mem_filterMap.1 hc'
    obtain ⟨terminal, cursor, hterminal, hadvance, hlive, rfl⟩ := moved_eq_some.1 hmoved
    obtain ⟨hshifts, terminal', hterminal', hrun⟩ := h.sound c hc
    obtain rfl := Option.some.inj (hterminal.symm.trans hterminal')
    refine ⟨hshifts, terminal, hterminal, ?_⟩
    rw [CompiledTerminal.liveRun_snoc, hrun, Option.bind_some]
    exact Option.filter_eq_some_iff.2 ⟨hadvance, hlive⟩
  · rw [CompiledTerminal.liveRun_snoc] at hcursor
    obtain ⟨before, hrun, hcursor⟩ := Option.bind_eq_some_iff.1 hcursor
    obtain ⟨hadvance, hlive⟩ := Option.filter_eq_some_iff.1 hcursor
    obtain ⟨c, hc, rfl, rfl⟩ := h.complete hshifts hterminal hrun
    exact ⟨_, List.mem_filterMap.2 ⟨c, hc, moved_eq_some.2
      ⟨terminal, cursor, hterminal, hadvance, hlive, rfl⟩⟩, rfl, rfl⟩

/-- The candidates that accept have read a word of their terminal. -/
theorem sound_accepted {c' : TerminalCandidate}
    (hc' : c' ∈ candidates.filterMap (moved g b CompiledTerminal.isAccepting)) :
    Shifts A G σ c'.terminal c'.stack c'.shift ∧
      ∃ terminal, g.terminals[c'.terminal]? = some terminal ∧ u ++ [b] ∈ terminal.scanned := by
  obtain ⟨c, hc, hmoved⟩ := List.mem_filterMap.1 hc'
  obtain ⟨terminal, cursor, hterminal, hadvance, hacc, rfl⟩ := moved_eq_some.1 hmoved
  obtain ⟨hshifts, terminal', hterminal', hrun⟩ := h.sound c hc
  obtain rfl := Option.some.inj (hterminal.symm.trans hterminal')
  exact ⟨hshifts, terminal, hterminal, u, b, c.cursor, cursor, rfl, hrun, hadvance, hacc⟩

/-- Every terminal that has read a word accepts. -/
theorem exists_accepted {stack : List ℕ} {shift : ℕ} {terminal : CompiledTerminal}
    (hshifts : Shifts A G σ t stack shift) (hterminal : g.terminals[t]? = some terminal)
    (hword : u ++ [b] ∈ terminal.scanned) :
    ∃ c ∈ candidates.filterMap (moved g b CompiledTerminal.isAccepting), c.terminal = t := by
  obtain ⟨v, b', before, cursor, hv, hrun, hadvance, hacc⟩ := hword
  obtain ⟨rfl, hb⟩ := List.append_inj' hv rfl
  obtain rfl := List.singleton_inj.1 hb
  obtain ⟨c, hc, rfl, rfl⟩ := h.complete hshifts hterminal hrun
  exact ⟨_, List.mem_filterMap.2 ⟨c, hc, moved_eq_some.2
    ⟨terminal, cursor, hterminal, hadvance, hacc, rfl⟩⟩, rfl⟩

end Tracks

end LalrRecognizer

end OcEarley
