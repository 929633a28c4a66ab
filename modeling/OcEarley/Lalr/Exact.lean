import OcEarley.Earley.Language
import OcEarley.Lalr.Candidates
import OcEarley.Lalr.Frame
import OcEarley.Lalr.Lexical

/-!
# LALR recognition is exact

A recognizer that has consumed `x` has shifted the terminals of a beginning of `x`, in the only way
that `x` can be split, and tracks the terminals that the rest can begin (`Consumed`).

* `CompiledLalr.run` : a fresh recognizer that consumes a byte string;
* `lalr_exact` : it never answers `false` exactly on the prefixes of the byte strings of the
  grammar, and then `is_accepting` decides these byte strings.
-/

namespace OcEarley

open Method

/-! ### Splitting into terminals -/

/-- Byte strings split into words of terminals in one way only. -/
theorem ResidualGrammar.PrefixSafe.split {g : ResidualGrammar} (hsafe : g.PrefixSafe)
    (hterm : g.TerminalsExact) {w w' : List ℕ} {v y : List UInt8} (hlen : v.length ≤ u32Max)
    (hv : v ∈ (w.map g.terminalLanguage).prod) (hy : v ++ y ∈ (w'.map g.terminalLanguage).prod) :
    ∃ w'', w' = w ++ w'' ∧ y ∈ (w''.map g.terminalLanguage).prod := by
  induction w generalizing w' v with
  | nil =>
    obtain rfl : v = [] := by simpa using hv
    exact ⟨w', rfl, hy⟩
  | cons t w ih =>
    rw [List.map_cons, List.prod_cons, Language.mem_mul] at hv
    obtain ⟨a, ha, v, hv, rfl⟩ := hv
    rw [List.length_append] at hlen
    have hne : a ≠ [] := fun h => hterm.nil_notMem_terminalLanguage t (h ▸ ha)
    cases w' with
    | nil =>
      have hnil : a ++ v ++ y = [] := by simpa using hy
      simp [hne] at hnil
    | cons t' w' =>
      rw [List.map_cons, List.prod_cons, Language.mem_mul] at hy
      obtain ⟨a', ha', y', hy', heq⟩ := hy
      have hne' : a' ≠ [] := fun h => hterm.nil_notMem_terminalLanguage t' (h ▸ ha')
      -- of the two first words one begins with the other, so that they are equal
      obtain ⟨rfl, rfl⟩ : t = t' ∧ a = a' := by
        rw [List.append_assoc] at heq
        rcases List.append_eq_append_iff.1 heq with ⟨r, rfl, -⟩ | ⟨r, rfl, -⟩
        · rw [List.length_append] at hlen
          obtain ⟨rfl, rfl⟩ := hsafe (by omega) hne' ha' ha
          exact ⟨rfl, List.append_nil _⟩
        · obtain ⟨rfl, rfl⟩ := hsafe (by omega) hne ha ha'
          exact ⟨rfl, (List.append_nil _).symm⟩
      rw [List.append_assoc, List.append_cancel_left_eq] at heq
      obtain ⟨w'', rfl, hw''⟩ := ih (by omega) hv (heq ▸ hy')
      exact ⟨w'', rfl, hw''⟩

/-! ### The invariant -/

namespace LalrRecognizer

variable {A : LrAutomaton ℕ ℕ ℕ ℕ} {g : ResidualGrammar} {w : List ℕ} {u v y : List UInt8}
  {b : UInt8} {s : LalrRecognizer}

/-- The terminals `w` have been shifted over `v`, and `u` has been read of the next one. -/
structure Consumed (A : LrAutomaton ℕ ℕ ℕ ℕ) (g : ResidualGrammar) (w : List ℕ) (v u : List UInt8)
    (s : LalrRecognizer) : Prop where
  tokens : v ∈ (w.map g.terminalLanguage).prod
  shifted : A.Shifted g.lrGrammar w s.stack
  candidates : u = [] ∧ s.candidates = [] ∨
    u ≠ [] ∧ s.candidates ≠ [] ∧ Tracks A g.lrGrammar g s.stack u s.candidates
  no_word : ∀ {t stack shift p r}, Shifts A g.lrGrammar s.stack t stack shift → u = p ++ r →
    p ∉ g.terminalLanguage t

namespace Consumed

variable (hA : A.Describes g.lrGrammar) (hterm : g.TerminalsExact)
include hA hterm

/-- A byte string of the grammar that goes on does so with a word of a terminal that the stack
shifts, and this word goes on, too. -/
theorem exists_shifts (h : Consumed A g w v u s) (hsafe : g.PrefixSafe) (hlen : v.length ≤ u32Max)
    (hne : u ++ y ≠ []) (hmem : v ++ (u ++ y) ∈ g.language) :
    ∃ t stack shift r y', Shifts A g.lrGrammar s.stack t stack shift ∧
      u ++ r ∈ g.terminalLanguage t ∧ r ≠ [] ∧ y = r ++ y' := by
  obtain ⟨w', hsentence, hword⟩ := hmem
  obtain ⟨w'', rfl, hrest⟩ := hsafe.split hterm hlen h.tokens hword
  cases w'' with
  | nil => exact absurd (by simpa using hrest) hne
  | cons t w'' =>
    rw [List.map_cons, List.prod_cons, Language.mem_mul] at hrest
    obtain ⟨a, ha, y', -, heq⟩ := hrest
    obtain ⟨stack, shift, hshifts⟩ : ∃ stack shift, Shifts A g.lrGrammar s.stack t stack shift := by
      rw [← ResidualGrammar.lrGrammar_rule, List.append_cons] at hsentence
      obtain ⟨σ, hσ⟩ := LrAutomaton.Shifted.of_sentence hA hsentence
      obtain ⟨σ', q, τ, q', -, hσ', hsettles, haction⟩ := hσ.of_snoc
      obtain rfl := h.shifted.unique hσ'
      exact ⟨_, q', q, τ, rfl, hsettles, haction⟩
    rcases List.append_eq_append_iff.1 heq with ⟨r, hu, -⟩ | ⟨r, rfl, hy⟩
    · exact absurd ha (h.no_word hshifts hu)
    · refine ⟨t, stack, shift, r, y', hshifts, ha, ?_, hy⟩
      rintro rfl
      rw [List.append_nil] at ha
      exact h.no_word hshifts (List.append_nil u).symm ha

/-- What has been consumed is a byte string of the grammar iff the terminals are a sentence. -/
theorem mem_language_iff (h : Consumed A g w v u s) (hsafe : g.PrefixSafe)
    (hlen : v.length ≤ u32Max) :
    v ++ u ∈ g.language ↔ u = [] ∧ Sentence g.Rule [.nonterminal g.start] w := by
  constructor
  · intro hmem
    have hu : u = [] := by
      by_contra hu
      obtain ⟨-, -, -, r, y', -, -, hr, hnil⟩ := h.exists_shifts hA hterm hsafe (y := []) hlen
        (by simpa using hu) (by simpa using hmem)
      exact hr (List.append_eq_nil_iff.1 hnil.symm).1
    subst hu
    obtain ⟨w', hsentence, hword⟩ := hmem
    obtain ⟨w'', rfl, hrest⟩ := hsafe.split hterm hlen h.tokens hword
    cases w'' with
    | nil => exact ⟨rfl, by simpa using hsentence⟩
    | cons t w'' =>
      rw [List.map_cons, List.prod_cons, Language.mem_mul] at hrest
      obtain ⟨a, ha, y', -, heq⟩ := hrest
      exact absurd ((List.append_eq_nil_iff.1 heq).1 ▸ ha) (hterm.nil_notMem_terminalLanguage t)
  · rintro ⟨rfl, hsentence⟩
    rw [List.append_nil]
    exact ⟨w, hsentence, h.tokens⟩

/-- What has been consumed can be completed. -/
theorem exists_mem_language (h : Consumed A g w v u s) (hg : g.WellFormed) (hprod : g.Productive)
    (hlen : u.length ≤ u32Max) : ∃ z, v ++ u ++ z ∈ g.language := by
  have hprodLr := ResidualGrammar.lrGrammar_productive hg hprod
  have hstart : ∀ X ∈ [Symbol.nonterminal g.start], g.SymbolInRange X := by
    intro X hX
    obtain rfl := List.mem_singleton.1 hX
    exact hg.start_lt
  have hwords : ∀ {w' z}, Sentence g.Rule [.nonterminal g.start] (w' ++ z) →
      ∃ y, y ∈ (z.map g.terminalLanguage).prod := fun hsentence =>
    hterm.exists_mem_prod fun t ht =>
      hg.terminal_lt hstart hsentence t (List.mem_append_right _ ht)
  rcases h.candidates with ⟨rfl, -⟩ | ⟨hu, hne, htracks⟩
  · obtain ⟨z, hz⟩ := h.shifted.viable hA hprodLr
    rw [ResidualGrammar.lrGrammar_rule] at hz
    obtain ⟨y, hy⟩ := hwords hz
    refine ⟨y, w ++ z, hz, ?_⟩
    rw [List.append_nil, List.map_append, List.prod_append]
    exact Language.append_mem_mul h.tokens hy
  · -- a candidate is in the middle of its terminal
    obtain ⟨c, hc⟩ := List.exists_mem_of_ne_nil _ hne
    obtain ⟨⟨q, τ, -, hsettles, haction⟩, terminal, hterminal, hrun⟩ := htracks.sound c hc
    obtain ⟨z, hz⟩ := (h.shifted.snoc hsettles haction).viable hA hprodLr
    rw [ResidualGrammar.lrGrammar_rule] at hz
    obtain ⟨y, hy⟩ := hwords hz
    have hlive := hterm.live _ (List.mem_of_getElem? hterminal)
    obtain ⟨hrun, hcursor⟩ := (CompiledTerminal.liveRun_eq_some_iff hlive hlen).1 hrun
    obtain ⟨r, hr⟩ := (CompiledTerminal.isLive_iff_of_runFrom hlive hlen hu hrun).1 (hcursor hu)
    rw [← ResidualGrammar.terminalLanguage_eq hterminal] at hr
    refine ⟨r ++ y, w ++ [c.terminal] ++ z, hz, ?_⟩
    rw [List.map_append, List.prod_append, List.map_append, List.prod_append, List.map_singleton,
      List.prod_singleton, List.append_assoc, ← List.append_assoc u, ← List.append_assoc v]
    exact Language.append_mem_mul (Language.append_mem_mul h.tokens hr) hy

end Consumed

/-! ### One byte -/

section Byte

variable {merged : List (List Lr1Item)} {compiled : CompiledLalr} {position : ℕ}

/-- The candidates read a byte. -/
theorem wp_readByte {A : LrAutomaton ℕ ℕ ℕ ℕ} (hgrammar : s.compiled.grammar = g)
    (hterm : g.TerminalsExact) (hsafe : g.PrefixSafe) (hlen : (u ++ [b]).length ≤ u32Max)
    (hv : v ∈ (w.map g.terminalLanguage).prod) (hw : A.Shifted g.lrGrammar w s.stack)
    (htracks : Tracks A g.lrGrammar g s.stack u s.candidates)
    (hno : ∀ {t stack shift p r}, Shifts A g.lrGrammar s.stack t stack shift → u = p ++ r →
      p ∉ g.terminalLanguage t) :
    wp RuntimeError.IsLimit (readByte b position) (fun answer s' => s'.compiled = s.compiled ∧
      s'.limits = s.limits ∧
      (answer = true → ∃ w' v' u', v' ++ u' = v ++ u ++ [b] ∧ Consumed A g w' v' u' s') ∧
      (answer = false → ∀ {t stack shift r}, Shifts A g.lrGrammar s.stack t stack shift →
        u ++ [b] ++ r ∉ g.terminalLanguage t)) s := by
  have hscanned : ∀ {t terminal}, g.terminals[t]? = some terminal →
      (u ++ [b] ∈ terminal.scanned ↔ u ++ [b] ∈ g.terminalLanguage t) := by
    intro t terminal hterminal
    rw [ResidualGrammar.terminalLanguage_eq hterminal,
      CompiledTerminal.mem_scanned_iff (hterm.live _ (List.mem_of_getElem? hterminal)) hlen]
    simp
  simp only [readByte, wp_bind, wp_get, wp_modify]
  refine wp_mono (wp_advanceCandidates (g := g) (by exact hgrammar) fun c hc =>
    htracks.lt_of_mem hc) ?_
  rintro _ s₁ ⟨rfl, rfl⟩
  have hnext := htracks.next (b := b)
  dsimp only
  rw [List.nil_append, List.nil_append]
  generalize s.candidates.filterMap (moved g b CompiledTerminal.isLive) = next at hnext
  generalize haccEq : s.candidates.filterMap (moved g b CompiledTerminal.isAccepting) = accepted
  have hsound : ∀ c ∈ accepted, Shifts A g.lrGrammar s.stack c.terminal c.stack c.shift ∧
      u ++ [b] ∈ g.terminalLanguage c.terminal := by
    intro c hc
    obtain ⟨hshifts, terminal, hterminal, hword⟩ := htracks.sound_accepted (haccEq ▸ hc)
    exact ⟨hshifts, (hscanned hterminal).1 hword⟩
  have hcomplete : ∀ {t stack shift}, Shifts A g.lrGrammar s.stack t stack shift →
      u ++ [b] ∈ g.terminalLanguage t → accepted ≠ [] := by
    intro t stack shift hshifts hword
    obtain ⟨terminal, hterminal, -⟩ := mem_terminalLanguage.1 hword
    obtain ⟨c, hc, -⟩ := htracks.exists_accepted hshifts hterminal ((hscanned hterminal).2 hword)
    exact haccEq ▸ List.ne_nil_of_mem hc
  have hnodup : (accepted.map TerminalCandidate.terminal).Nodup :=
    haccEq ▸ nodup_moved htracks.nodup
  -- two terminals never accept at the same byte
  have hone : accepted.length ≤ 1 := by
    rcases accepted with _ | ⟨c, _ | ⟨c', rest⟩⟩
    · exact Nat.zero_le _
    · exact le_rfl
    · have hc := (hsound c List.mem_cons_self).2
      have hc' := (hsound c' (List.mem_cons_of_mem _ List.mem_cons_self)).2
      have heq := (hsafe hlen (by simp) hc (z := []) (by simpa using hc')).1
      simp [heq] at hnodup
  rw [wp_bind, wp_require]
  refine ⟨fun _ => ?_, fun hnot => absurd hone hnot⟩
  split
  · next c hc =>
    -- the accepted terminal is shifted
    obtain ⟨⟨q, τ, hstack, hsettles, haction⟩, hword⟩ := hsound c (List.mem_of_getLast? hc)
    simp only [shiftCandidate, finishByte, modifyStats, enforceRuntimeLimit, wp_bind, wp_get,
      wp_require, wp_modify, wp_pure]
    refine ⟨fun _ => ⟨fun _ => ⟨trivial, trivial, fun _ => ?_,
      fun hanswer => absurd hanswer (by simp)⟩,
      fun _ => trivial⟩, fun _ => trivial⟩
    refine ⟨w ++ [c.terminal], v ++ (u ++ [b]), [], by simp, ?_, ?_, .inl ⟨rfl, rfl⟩, ?_⟩
    · rw [List.map_append, List.prod_append, List.map_singleton, List.prod_singleton]
      exact Language.append_mem_mul hv hword
    · rw [hstack]
      exact hw.snoc hsettles haction
    · intro t stack shift p r _ hp
      rw [(List.append_eq_nil_iff.1 hp.symm).1]
      exact hterm.nil_notMem_terminalLanguage t
  · next hnone =>
    obtain rfl := List.getLast?_eq_none_iff.1 hnone
    have hnot : ∀ {t stack shift}, Shifts A g.lrGrammar s.stack t stack shift →
        u ++ [b] ∉ g.terminalLanguage t := fun hshifts hword => hcomplete hshifts hword rfl
    simp only [wp_bind, wp_modify]
    by_cases hempty : next.isEmpty = true
    · rw [if_pos hempty, wp_pure]
      refine ⟨rfl, rfl, fun hanswer => absurd hanswer (by simp),
        fun _ {t stack shift r} hshifts hword => ?_⟩
      by_cases hr : r = []
      · subst hr
        exact hnot hshifts (by simpa using hword)
      · -- the word goes on, so its terminal would have been kept
        obtain ⟨terminal, hterminal, hword⟩ := mem_terminalLanguage.1 hword
        have hlive := hterm.live _ (List.mem_of_getElem? hterminal)
        obtain ⟨cursor, hrun⟩ := CompiledTerminal.exists_runFrom_of_mem hlen hword
        have hcursor := (CompiledTerminal.isLive_iff_of_runFrom hlive hlen (by simp)
          hrun).2 r hr hword
        obtain ⟨c, hc, -⟩ := hnext.complete hshifts hterminal
          ((CompiledTerminal.liveRun_eq_some_iff hlive hlen).2 ⟨hrun, fun _ => hcursor⟩)
        rw [List.isEmpty_iff.1 hempty] at hc
        cases hc
    · rw [if_neg hempty]
      simp only [finishByte, modifyStats, wp_bind, wp_require, wp_modify, wp_pure]
      refine ⟨fun _ => ⟨trivial, trivial, fun _ => ?_, fun hanswer => absurd hanswer (by simp)⟩,
        fun _ => trivial⟩
      refine ⟨w, v, u ++ [b], by simp, hv, hw, .inr ⟨by simp, by simpa using hempty, hnext⟩, ?_⟩
      intro t stack shift p r hshifts hp
      rcases List.prefix_concat_iff.1 ⟨r, hp.symm⟩ with rfl | ⟨r', hr'⟩
      · exact hnot hshifts
      · exact hno hshifts hr'.symm

/-- What the recognizer is to track before a byte. -/
theorem Consumed.wp_start (hB : compiled.Built g merged) (hprod : g.lrGrammar.Productive)
    (hfits : g.terminals.length ≤ u32Max + 1) (hs : s.compiled = compiled)
    (h : Consumed (compiled.table.automaton merged) g w v u s) :
    wp RuntimeError.IsLimit (if s.candidates.isEmpty then startCandidates else pure ()) (fun _ s' =>
      (∃ stats, s' = { s with candidates := s'.candidates, stats := stats }) ∧
        Tracks (compiled.table.automaton merged) g.lrGrammar g s.stack u s'.candidates) s := by
  rcases h.candidates with ⟨rfl, hnil⟩ | ⟨-, hne, htracks⟩
  · rw [if_pos (List.isEmpty_iff.2 hnil)]
    exact hB.wp_startCandidates hprod hfits hs h.shifted
  · rw [if_neg (by simpa using hne), wp_pure]
    exact ⟨⟨s.stats, rfl⟩, htracks⟩

/-- **One byte.**  The answer is `false` only when no byte string of the grammar begins with what
was read. -/
theorem Consumed.wp_advanceByte (hB : compiled.Built g merged) (hg : g.WellFormed)
    (hprod : g.Productive) (hterm : g.TerminalsExact) (hsafe : g.PrefixSafe)
    (hfits : g.terminals.length ≤ u32Max + 1) (hs : s.compiled = compiled)
    (h : Consumed (compiled.table.automaton merged) g w v u s)
    (hlen : (v ++ u ++ [b]).length ≤ u32Max) :
    wp RuntimeError.IsLimit (advanceByte b) (fun answer s' => s'.compiled = compiled ∧
      (answer = true → ∃ w' v' u', v' ++ u' = v ++ u ++ [b] ∧
        Consumed (compiled.table.automaton merged) g w' v' u' s') ∧
      (answer = false → ∀ z, v ++ u ++ [b] ++ z ∉ g.language)) s := by
  subst hs
  simp only [List.length_append, List.length_singleton] at hlen
  have hub : (u ++ [b]).length ≤ u32Max := by
    simp only [List.length_append, List.length_singleton]
    omega
  have hread : ∀ {s'}, (∃ stats, s' = { s with candidates := s'.candidates, stats := stats }) →
      Tracks (s.compiled.table.automaton merged) g.lrGrammar g s.stack u s'.candidates →
      wp RuntimeError.IsLimit (readByte b (s.bytePosition + 1)) (fun answer s' =>
        s'.compiled = s.compiled ∧
        (answer = true → ∃ w' v' u', v' ++ u' = v ++ u ++ [b] ∧
          Consumed (s.compiled.table.automaton merged) g w' v' u' s') ∧
        (answer = false → ∀ z, v ++ u ++ [b] ++ z ∉ g.language)) s' := by
    rintro s' ⟨stats, hs'⟩ htracks
    generalize s'.candidates = candidates at hs' htracks
    subst hs'
    refine wp_mono (wp_readByte (v := v) (w := w) hB.grammar_eq hterm hsafe hub h.tokens h.shifted
      htracks h.no_word) ?_
    rintro answer s' ⟨hcompiled, -, htrue, hfalse⟩
    refine ⟨hcompiled, htrue, fun hanswer z hz => ?_⟩
    obtain ⟨t, stack, shift, r, y', hshifts, hword, hr, hy⟩ :=
      h.exists_shifts hB.describes hterm hsafe
      (y := b :: z) (by omega) (by simp) (by simpa using hz)
    obtain ⟨b', r, rfl⟩ := List.exists_cons_of_ne_nil hr
    obtain ⟨rfl, -⟩ := List.cons.inj hy
    exact hfalse hanswer hshifts (r := r) (by simpa using hword)
  unfold wp
  rw [advanceByte_apply]
  change wp RuntimeError.IsLimit _ _ s
  rw [wp_bind, enforceRuntimeLimit, wp_require]
  refine ⟨fun _ => ?_, fun _ => trivial⟩
  rw [wp_bind]
  refine wp_mono (h.wp_start hB (ResidualGrammar.lrGrammar_productive hg hprod) hfits rfl) ?_
  rintro _ s₁ ⟨hs₁, htracks⟩
  exact hread hs₁ htracks

/-- `is_accepting` decides the byte strings of the grammar, unless its reductions exceed a limit. -/
theorem Consumed.isAccepting_iff (hB : compiled.Built g merged) (hg : g.WellFormed)
    (hprod : g.Productive) (hterm : g.TerminalsExact) (hsafe : g.PrefixSafe)
    (hs : s.compiled = compiled) (h : Consumed (compiled.table.automaton merged) g w v u s)
    (hlen : v.length ≤ u32Max)
    (hprobe : ∀ err, valueOf (actionAfterReductions s.stack .eof s) = .error err → ¬err.IsLimit) :
    s.isAccepting = true ↔ v ++ u ∈ g.language := by
  rw [h.mem_language_iff hB.describes hterm hsafe hlen]
  unfold isAccepting
  rcases h.candidates with ⟨rfl, hnil⟩ | ⟨hu, hne, -⟩
  · have hlr := LrAutomaton.Shifted.accepts_iff hB.describes h.shifted
    rw [ResidualGrammar.lrGrammar_rule] at hlr
    rw [hnil, if_neg (by simp), and_iff_right rfl]
    refine Iff.trans ?_ hlr
    have hwp := hB.wp_actionAfterReductions (a := none)
      (ResidualGrammar.lrGrammar_productive hg hprod) hs h.shifted
    change wp _ (actionAfterReductions s.stack .eof) _ s at hwp
    cases hact : actionAfterReductions s.stack .eof s with
    | error err s' => exact absurd (wp_error hwp hact) (hprobe err (by rw [hact]; rfl))
    | ok r s' =>
      obtain ⟨q, τ, rfl, hsettles, -⟩ := wp_ok hwp hact
      have haccept : (∃ q τ, (compiled.table.automaton merged).Settles g.lrGrammar none
          s.stack q τ ∧
            (compiled.table.automaton merged).action q none = some .accept) ↔
            findAction compiled.table q .eof = some .accept := by
        constructor
        · rintro ⟨q', τ', hsettles', haction⟩
          obtain ⟨rfl, -⟩ := hsettles.unique hsettles'
          exact automaton_action_eq_accept.1 haction
        · exact fun haction => ⟨q, τ, hsettles, automaton_action_eq_accept.2 haction⟩
      rw [haccept]
      change _ ↔ findAction compiled.table q (lookaheadOf none) = _
      rcases findAction compiled.table q (lookaheadOf none) with _ | (_ | _ | _) <;> simp
  · rw [if_pos (by simpa using hne)]
    exact iff_of_false Bool.false_ne_true fun h => hu h.1

end Byte

/-! ### Runs -/

/-- Consume a byte string one byte at a time, up to the first `false`. -/
def consume : List UInt8 → Method RuntimeError LalrRecognizer Bool
  | [] => pure true
  | byte :: bytes => do
    let consumed ← advanceByte byte
    if consumed then consume bytes else pure false

/-- A fresh recognizer has consumed nothing. -/
theorem consumed_start (hterm : g.TerminalsExact) (merged : List (List Lr1Item))
    (compiled : CompiledLalr) (limits : RuntimeLimits) (generation : ℕ) :
    Consumed (compiled.table.automaton merged) g [] [] [] (compiled.recognizer limits generation) :=
  ⟨by simp, .nil, .inl ⟨rfl, rfl⟩, fun _ hp => by
    rw [(List.append_eq_nil_iff.1 hp.symm).1]
    exact hterm.nil_notMem_terminalLanguage _⟩

theorem Consumed.wp_consume {merged : List (List Lr1Item)} {compiled : CompiledLalr}
    (hB : compiled.Built g merged) (hg : g.WellFormed) (hprod : g.Productive)
    (hterm : g.TerminalsExact) (hsafe : g.PrefixSafe) (hfits : g.terminals.length ≤ u32Max + 1)
    (x : List UInt8) : ∀ {w u v s}, s.compiled = compiled →
      Consumed (compiled.table.automaton merged) g w v u s → (v ++ u ++ x).length ≤ u32Max →
      wp RuntimeError.IsLimit (consume x) (fun answer s' => s'.compiled = compiled ∧
        (answer = true → ∃ w' v' u', v' ++ u' = v ++ u ++ x ∧
          Consumed (compiled.table.automaton merged) g w' v' u' s') ∧
        (answer = false → ∀ z, v ++ u ++ x ++ z ∉ g.language)) s := by
  induction x with
  | nil =>
    intro w u v s hs h hlen
    exact ⟨hs, fun _ => ⟨w, v, u, (List.append_nil _).symm, h⟩, nofun⟩
  | cons b x ih =>
    intro w u v s hs h hlen
    rw [List.append_cons, List.length_append] at hlen
    unfold consume
    rw [wp_bind]
    refine wp_mono (h.wp_advanceByte hB hg hprod hterm hsafe hfits hs (by omega)) ?_
    rintro answer s₁ ⟨hs₁, htrue, hfalse⟩
    cases answer with
    | true =>
      obtain ⟨w', v', u', heq, h'⟩ := htrue rfl
      rw [if_pos rfl]
      refine wp_mono (ih hs₁ h' (by rw [heq, List.length_append]; exact hlen)) ?_
      rw [heq, ← List.append_cons]
      exact fun _ _ => id
    | false =>
      rw [if_neg Bool.false_ne_true, wp_pure]
      refine ⟨hs₁, nofun, fun _ z => ?_⟩
      rw [List.append_cons, List.append_assoc]
      exact hfalse rfl (x ++ z)

end LalrRecognizer

namespace CompiledLalr

open LalrRecognizer

/-- A fresh recognizer that consumes `x`, with its last answer. -/
def run (compiled : CompiledLalr) (limits : RuntimeLimits) (generation : ℕ) (x : List UInt8) :
    Except RuntimeError (Bool × LalrRecognizer) :=
  match consume x (compiled.recognizer limits generation) with
  | .ok answer s => pure (answer, s)
  | .error err _ => throw err

/-- No limit is exceeded while `x` is consumed, nor by `is_accepting` afterwards, and positions fit
a `u32`. -/
structure WithinLimits (compiled : CompiledLalr) (limits : RuntimeLimits) (generation : ℕ)
    (x : List UInt8) : Prop where
  position : x.length ≤ u32Max
  run : ∀ err, compiled.run limits generation x = .error err → ¬err.IsLimit
  probe : ∀ answer s, compiled.run limits generation x = .ok (answer, s) → ∀ err,
    valueOf (actionAfterReductions s.stack .eof s) = .error err → ¬err.IsLimit

theorem withinLimits_of_isOk {compiled : CompiledLalr} {limits : RuntimeLimits} {generation : ℕ}
    {x : List UInt8} (hx : x.length ≤ u32Max)
    (h : ((compiled.run limits generation x).bind fun r =>
      valueOf (actionAfterReductions r.2.stack .eof r.2)).isOk = true) :
    compiled.WithinLimits limits generation x := by
  refine ⟨hx, fun err herr => ?_, fun answer s hs err herr => ?_⟩
  · rw [herr] at h
    cases h
  · rw [hs] at h
    change (valueOf (actionAfterReductions s.stack .eof s)).isOk = true at h
    rw [herr] at h
    cases h

end CompiledLalr

/-- **LALR recognition is exact.**  When the tables of a grammar are usable, a recognizer that
consumes `x` within its limits never answers `false` iff `x` is a prefix of a byte string of the
grammar, and then accepts iff `x` is itself one. -/
theorem lalr_exact {g : ResidualGrammar} {compileLimits : CompileLimits} {compiled : CompiledLalr}
    (hbuild : CompiledLalr.build g compileLimits = .ok compiled)
    (husable : compiled.isUsable = true)
    (hg : g.WellFormed) (hindex : g.IndexExact) (hnull : g.NullableExact) (hprod : g.Productive)
    (hterm : g.TerminalsExact) (hfits : g.terminals.length ≤ u32Max + 1) {limits : RuntimeLimits}
    {generation : ℕ} {x : List UInt8} (hlim : compiled.WithinLimits limits generation x) :
    ∃ answer s, compiled.run limits generation x = .ok (answer, s) ∧
      (answer = true ↔ ∃ z, x ++ z ∈ g.language) ∧
      (answer = true → (s.isAccepting = true ↔ x ∈ g.language)) := by
  obtain ⟨hconf, hsafe⟩ := Bool.and_eq_true_iff.1 husable
  obtain ⟨merged, hB⟩ :=
    CompiledLalr.build_built hbuild (List.isEmpty_iff.1 hconf) hg hindex hnull hfits
  have hsafe : g.PrefixSafe := lexicalSafety_spec (by rw [hB.lexicalSafe, hsafe])
  have hstart := LalrRecognizer.consumed_start hterm merged compiled limits generation
  have hwp := hstart.wp_consume hB hg hprod hterm hsafe hfits x rfl hlim.position
  have hrun := hlim.run
  have hprobe := hlim.probe
  unfold CompiledLalr.run at hrun hprobe ⊢
  cases hc : LalrRecognizer.consume x (compiled.recognizer limits generation) with
  | error err s =>
    rw [hc] at hrun
    exact absurd (wp_error hwp hc) (hrun err rfl)
  | ok answer s =>
    rw [hc] at hprobe
    obtain ⟨hs, htrue, hfalse⟩ := wp_ok hwp hc
    refine ⟨answer, s, rfl, ⟨fun hanswer => ?_, fun ⟨z, hz⟩ => ?_⟩, fun hanswer => ?_⟩
    · obtain ⟨w, v, u, rfl, h⟩ := htrue hanswer
      have hlen := hlim.position
      rw [List.length_append] at hlen
      exact h.exists_mem_language hB.describes hterm hg hprod (by omega)
    · by_contra hanswer
      exact hfalse (by simpa using hanswer) z hz
    · obtain ⟨w, v, u, heq, h⟩ := htrue hanswer
      obtain rfl : v ++ u = x := heq
      have hlen := hlim.position
      rw [List.length_append] at hlen
      exact h.isAccepting_iff hB hg hprod hterm hsafe hs (by omega) (hprobe answer s rfl)

/-! ### The tables of the right-recursive list -/

/-- The tables built for `rightRecursive`. -/
def rightRecursiveLalr : CompiledLalr where
  grammar := rightRecursive
  productions := [⟨0, [.terminal 0, .nonterminal 0], .root, some 0⟩, ⟨0, [], .root, some 1⟩,
    ⟨1, [.nonterminal 0], .root, none⟩]
  table := {
    actions := [[(.terminal 0, .shift 1), (.eof, .reduce 1)],
      [(.terminal 0, .shift 1), (.eof, .reduce 1)], [(.eof, .accept)], [(.eof, .reduce 0)]]
    gotos := [[(0, 2)], [(0, 3)], [], []] }
  conflicts := []
  lexicalSafe := true
  stats := {
    canonicalStates := 4
    mergedStates := 4
    lrItems := 8
    actionEntries := 6
    gotoEntries := 2
    conflicts := 0 }

namespace rightRecursive

theorem build_lalr_eq : CompiledLalr.build rightRecursive .default = .ok rightRecursiveLalr := rfl

theorem indexExact : rightRecursive.IndexExact where
  length_eq := rfl
  mem_iff {A ids} h p := by
    obtain ⟨hA, rfl⟩ := List.getElem?_eq_some_iff.1 h
    obtain rfl : A = 0 := Nat.lt_one_iff.1 hA
    rcases p with _ | _ | p <;> simp [rightRecursive]

theorem withinLimits_lalr : rightRecursiveLalr.WithinLimits .default 1 [97, 97] :=
  CompiledLalr.withinLimits_of_isOk (by decide) (by decide +kernel)

end rightRecursive

theorem lalr_exact_rightRecursive :
    ∃ answer s, rightRecursiveLalr.run .default 1 [97, 97] = .ok (answer, s) ∧
      (answer = true ↔ ∃ z, [97, 97] ++ z ∈ rightRecursive.language) ∧
      (answer = true → (s.isAccepting = true ↔ [97, 97] ∈ rightRecursive.language)) :=
  lalr_exact rightRecursive.build_lalr_eq rfl rightRecursive.wellFormed rightRecursive.indexExact
    rightRecursive.nullableExact rightRecursive.productive rightRecursive.terminalsExact (by decide)
    rightRecursive.withinLimits_lalr

end OcEarley
