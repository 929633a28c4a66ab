import OcEarley.Formal.LrTermination
import OcEarley.Lalr.Exact

/-!
# Reductions end

Whatever bytes come, right or wrong, the stack of a recognizer is one on which terminals of some
beginning of a sentence have been shifted, and the candidates are on the way from it (`OnCourse`).
So a call of `action_after_reductions` makes only finitely many reductions, whatever the lookahead,
and only a resource limit can fail (`lalr_terminates`).
-/

namespace OcEarley

open Method LrAutomaton

/-! ### Finite tables -/

namespace CompiledLalr.Built

variable {g : ResidualGrammar} {merged : List (List Lr1Item)} {compiled : CompiledLalr}

theorem finite_actions (table : LalrTable) (merged : List (List Lr1Item)) (q : ℕ) :
    {a | (table.automaton merged).action q a ≠ none}.Finite := by
  refine ((((table.actions[q]?).getD []).map Prod.fst).toFinset.finite_toSet.preimage
    lookaheadOf_injective.injOn).subset fun a ha => ?_
  obtain ⟨action, haction⟩ := Option.ne_none_iff_exists'.1 ha
  obtain ⟨action, haction, -⟩ := Option.map_eq_some_iff.1 haction
  obtain ⟨row, hrow, haction⟩ := Option.bind_eq_some_iff.1 haction
  obtain ⟨entry, hentry, -⟩ := Option.bind_eq_some_iff.1 haction
  have hmem := List.mem_map_of_mem (f := Prod.fst) (List.mem_of_find?_eq_some hentry)
  have hkey : entry.1 = lookaheadOf a := by simpa using List.find?_some hentry
  rw [hkey] at hmem
  simpa [hrow] using hmem

theorem finite_reachableStates (hB : Built g merged compiled) :
    (compiled.table.automaton merged).reachableStates.Finite :=
  (Set.finite_lt_nat compiled.table.actions.length).subset fun _ ⟨_, _, h, hq⟩ =>
    hB.lt_of_mem h _ hq

end CompiledLalr.Built

/-! ### Reachable recognizers -/

namespace LalrRecognizer

variable {A : LrAutomaton ℕ ℕ ℕ ℕ} {g : ResidualGrammar} {σ : List ℕ} {u : List UInt8} {b : UInt8}
  {candidates : List TerminalCandidate} {s : LalrRecognizer} {merged : List (List Lr1Item)}
  {compiled : CompiledLalr} {position : ℕ}

/-- A terminal that accepts does so alone. -/
theorem Tracks.length_accepted_le_one {G : LrGrammar ℕ ℕ ℕ} (h : Tracks A G g σ u candidates)
    (hsafe : lexicalSafety g.terminals = .ok true) :
    (candidates.filterMap (moved g b CompiledTerminal.isAccepting)).length ≤ 1 := by
  have hnodup : ((candidates.filterMap (moved g b CompiledTerminal.isAccepting)).map
      TerminalCandidate.terminal).Nodup := nodup_moved h.nodup
  have hword : ∀ c ∈ candidates.filterMap (moved g b CompiledTerminal.isAccepting),
      ∃ terminal cursor, g.terminals[c.terminal]? = some terminal ∧
        terminal.runFrom terminal.start (u ++ [b]) = some cursor ∧
          terminal.isAccepting cursor = true := by
    intro c hc
    obtain ⟨-, terminal, hterminal, hword⟩ := h.sound_accepted hc
    obtain ⟨cursor, hrun, hacc⟩ := CompiledTerminal.exists_runFrom_of_mem_scanned hword
    exact ⟨terminal, cursor, hterminal, hrun, hacc⟩
  generalize candidates.filterMap (moved g b CompiledTerminal.isAccepting) =
    accepted at hnodup hword ⊢
  rcases accepted with _ | ⟨c, _ | ⟨c', rest⟩⟩
  · exact Nat.zero_le _
  · exact le_rfl
  · obtain ⟨terminal, cursor, hterminal, hrun, hacc⟩ := hword c List.mem_cons_self
    obtain ⟨terminal', cursor', hterminal', hrun', -⟩ :=
      hword c' (List.mem_cons_of_mem _ List.mem_cons_self)
    have hne : c.terminal ≠ c'.terminal := by
      intro heq
      simp [heq] at hnodup
    have := isAccepting_eq_false_of_ne (lexicalSafety_eq_ok_true hsafe).2 hne hterminal hterminal'
      (by simp) hrun hrun'
    rw [hacc] at this
    cases this

/-- Terminals of a beginning of a sentence have been shifted, and the candidates have
read on from there. -/
structure OnCourse (A : LrAutomaton ℕ ℕ ℕ ℕ) (g : ResidualGrammar) (s : LalrRecognizer) : Prop where
  shifted : ∃ w, A.Shifted g.lrGrammar w s.stack
  candidates : s.candidates = [] ∨ ∃ u, Tracks A g.lrGrammar g s.stack u s.candidates

theorem OnCourse.of_sameButStats {s' : LalrRecognizer} (h : OnCourse A g s)
    (hs : SameButStats s s') : OnCourse A g s' := by
  obtain ⟨stats, rfl⟩ := hs
  exact ⟨h.shifted, h.candidates⟩

/-- The candidates read a byte. -/
theorem keeps_readByte (hgrammar : s.compiled.grammar = g)
    (hsafe : lexicalSafety g.terminals = .ok true) {w : List ℕ}
    (hw : A.Shifted g.lrGrammar w s.stack)
    (htracks : Tracks A g.lrGrammar g s.stack u s.candidates) :
    Keeps RuntimeError.IsLimit (OnCourse A g) (readByte b position) s := by
  have hread := @wp_advanceCandidates g b s.candidates { s with candidates := [] } hgrammar ⟨[], []⟩
    fun c hc => htracks.lt_of_mem hc
  refine keeps_get_bind (keeps_modify_bind (keeps_bind hread (fun e s' hfold => ?_) ?_))
  · have hsame := (moves_foldlM (moves_advanceCandidate b) _ _).of_error hfold
    exact OnCourse.of_sameButStats (s := { s with candidates := [] }) ⟨⟨w, hw⟩, .inl rfl⟩ hsame
  rintro _ _ ⟨rfl, rfl⟩
  refine keeps_require_bind (fun _ => ?_) fun hnot =>
    absurd (htracks.length_accepted_le_one hsafe) hnot
  dsimp only
  rw [List.nil_append, List.nil_append]
  split
  · next c hc =>
    -- the accepted terminal is shifted
    obtain ⟨⟨q, τ, hstack, hsettles, haction⟩, -⟩ :=
      htracks.sound_accepted (List.mem_of_getLast? hc)
    rw [shiftCandidate, bind_assoc]
    refine keeps_get_bind ?_
    rw [bind_assoc]
    refine keeps_require_bind (fun _ => ?_) fun _ => ⟨trivial, ⟨w, hw⟩, .inl rfl⟩
    have hcourse : ∃ w, A.Shifted g.lrGrammar w (c.shift :: c.stack) :=
      ⟨_, hstack ▸ hw.snoc hsettles haction⟩
    refine keeps_modify_bind
      (keeps_require_bind (fun _ => ?_) fun _ => ⟨trivial, hcourse, .inl rfl⟩)
    exact ⟨hcourse, .inl rfl⟩
  · refine keeps_modify_bind ?_
    have hcourse : ∃ u, Tracks A g.lrGrammar g s.stack u
        (s.candidates.filterMap (moved g b CompiledTerminal.isLive)) := ⟨_, htracks.next⟩
    split
    · exact keeps_pure ⟨⟨w, hw⟩, .inr hcourse⟩
    · refine keeps_require_bind (fun _ => ?_) fun _ => ⟨trivial, ⟨w, hw⟩, .inr hcourse⟩
      exact ⟨⟨w, hw⟩, .inr hcourse⟩

/-- **One byte**, whether it is consumed, rejected or fails. -/
theorem OnCourse.keeps_advanceByte (hB : compiled.Built g merged)
    (hprod : g.lrGrammar.Productive) (hfits : g.terminals.length ≤ u32Max + 1)
    (hsafe : lexicalSafety g.terminals = .ok true) (hs : s.compiled = compiled)
    (h : OnCourse (compiled.table.automaton merged) g s) :
    Keeps RuntimeError.IsLimit (OnCourse (compiled.table.automaton merged) g)
      (advanceByte b) s := by
  subst hs
  obtain ⟨w, hw⟩ := h.shifted
  unfold Keeps
  rw [advanceByte_apply]
  refine keeps_require_bind (fun _ => ?_) fun _ => ⟨trivial, h⟩
  have hstart : wp RuntimeError.IsLimit
      (if s.candidates.isEmpty then startCandidates else pure ()) (fun _ s' =>
        (∃ stats, s' = { s with candidates := s'.candidates, stats := stats }) ∧
          ∃ u, Tracks (s.compiled.table.automaton merged) g.lrGrammar g s.stack u
            s'.candidates) s := by
    split
    · refine wp_mono (hB.wp_startCandidates hprod hfits rfl hw) ?_
      exact fun _ _ ⟨hsame, htracks⟩ => ⟨hsame, [], htracks⟩
    · next hne =>
      exact ⟨⟨s.stats, rfl⟩, h.candidates.resolve_left fun hnil => hne (by rw [hnil]; rfl)⟩
  refine keeps_bind hstart (fun e s' herr => ?_) ?_
  · split at herr
    · exact h.of_sameButStats (startCandidates_error herr)
    · exact absurd herr (by simp)
  · rintro _ s' ⟨⟨stats, hs'⟩, u, htracks⟩
    have hstack : s'.stack = s.stack := by rw [hs']
    refine keeps_readByte ?_ hsafe (w := w) (u := u) (by rwa [hstack]) (by rwa [hstack])
    rw [hs']
    exact hB.grammar_eq

/-- The recognizers that a fresh one turns into, byte by byte, whatever the answers. -/
inductive Reachable (compiled : CompiledLalr) (limits : RuntimeLimits) (generation : ℕ) :
    LalrRecognizer → Prop
  | start : Reachable compiled limits generation (compiled.recognizer limits generation)
  | advance {s : LalrRecognizer} (byte : UInt8) (h : Reachable compiled limits generation s) :
    Reachable compiled limits generation (stateOf (advanceByte byte s))

theorem Reachable.onCourse {limits : RuntimeLimits} {generation : ℕ} (hB : compiled.Built g merged)
    (hprod : g.lrGrammar.Productive) (hfits : g.terminals.length ≤ u32Max + 1)
    (hsafe : lexicalSafety g.terminals = .ok true) (h : Reachable compiled limits generation s) :
    s.compiled = compiled ∧ OnCourse (compiled.table.automaton merged) g s := by
  induction h with
  | start => exact ⟨rfl, ⟨[], .nil⟩, .inl rfl⟩
  | @advance s byte _ ih =>
    obtain ⟨hs, hcourse⟩ := ih
    exact ⟨(moves_advanceByte byte s).compiled.trans hs,
      (hcourse.keeps_advanceByte hB hprod hfits hsafe hs).stateOf⟩

end LalrRecognizer

/-! ### Termination -/

open LalrRecognizer

/-- **Reductions end** on the stack of every recognizer that can be reached, whatever the lookahead:
when the limit on the height of the stack allows for it, the call returns after finitely many of
them.  Nothing but a resource limit is ever exceeded, neither by reductions nor by a byte. -/
theorem lalr_terminates {g : ResidualGrammar} {compileLimits : CompileLimits}
    {compiled : CompiledLalr}
    (hbuild : CompiledLalr.build g compileLimits = .ok compiled)
    (husable : compiled.isUsable = true)
    (hg : g.WellFormed) (hindex : g.IndexExact) (hnull : g.NullableExact) (hprod : g.Productive)
    (hfits : g.terminals.length ≤ u32Max + 1) {limits : RuntimeLimits} {generation : ℕ}
    {s : LalrRecognizer} (h : Reachable compiled limits generation s) :
    (∀ lookahead, ∃ height, ∀ limits' : RuntimeLimits, height ≤ limits'.maxParseStack →
      ∃ r s', actionAfterReductions s.stack lookahead { s with limits := limits' } = .ok r s') ∧
    (∀ lookahead e s', actionAfterReductions s.stack lookahead s = .error e s' → e.IsLimit) ∧
    ∀ b e s', advanceByte b s = .error e s' → e.IsLimit := by
  obtain ⟨hconf, hsafe⟩ := Bool.and_eq_true_iff.1 husable
  obtain ⟨merged, hB⟩ :=
    CompiledLalr.build_built hbuild (List.isEmpty_iff.1 hconf) hg hindex hnull hfits
  have hsafe : lexicalSafety g.terminals = .ok true := by rw [hB.lexicalSafe, hsafe]
  have hprod := ResidualGrammar.lrGrammar_productive hg hprod
  obtain ⟨hs, hcourse⟩ := h.onCourse hB hprod hfits hsafe
  obtain ⟨w, hw⟩ := hcourse.shifted
  refine ⟨fun lookahead => ?_, fun lookahead e s' herr => ?_, fun b e s' herr => ?_⟩
  · obtain ⟨a, rfl⟩ := exists_lookaheadOf lookahead
    obtain ⟨N, hN⟩ := hw.exists_reduces_le hB.describes hprod
      (CompiledLalr.Built.finite_actions compiled.table merged) hB.finite_reachableStates a
    refine ⟨s.stack.length + N, fun limits' hheight => ?_⟩
    have hwp := hB.wp_settles (a := a) hprod (s := { s with limits := limits' }) hs hw
    cases hr : actionAfterReductions s.stack (lookaheadOf a) { s with limits := limits' } with
    | ok r s' => exact ⟨r, s', rfl⟩
    | error e s' =>
      -- a reduction adds at most one state
      obtain ⟨-, n, τ, hτ, hlt⟩ := wp_error hwp hr
      have hlen := hτ.length_le
      have hn := hN n τ hτ
      dsimp only at hlt
      omega
  · obtain ⟨a, rfl⟩ := exists_lookaheadOf lookahead
    exact wp_error (hB.wp_actionAfterReductions hprod hs hw) herr
  · exact (hcourse.keeps_advanceByte hB hprod hfits hsafe hs).error herr

/-- The list of one `a` is reduced at the end of the input. -/
theorem lalr_terminates_rightRecursive :
    let s := stateOf (advanceByte 97 (rightRecursiveLalr.recognizer .default 1))
    ∃ height, ∀ limits' : RuntimeLimits, height ≤ limits'.maxParseStack →
      ∃ r s', actionAfterReductions s.stack .eof { s with limits := limits' } = .ok r s' :=
  (lalr_terminates rightRecursive.build_lalr_eq rfl rightRecursive.wellFormed
    rightRecursive.indexExact
    rightRecursive.nullableExact rightRecursive.productive (by decide) (.advance 97 .start)).1 .eof

end OcEarley
