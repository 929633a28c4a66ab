import OcEarley.Engine.Live

/-!
# What a recognizer decides

A recognizer stands for a language: having consumed `x`, it takes a byte exactly when some word of
the language goes on with it, and it tells whether `x` is a word and whether it begins one
(`RecognizerState.Decides`).  Each backend decides the language that it has been built for, and a
client that feeds chunks of bytes gets the answers of the language (`Decides.feed`).
-/

namespace OcEarley

open Method

/-- What the recognizers rely on of the grammar that they are built for. -/
structure ResidualGrammar.Recognizable (g : ResidualGrammar) : Prop where
  wellFormed : g.WellFormed
  index : g.IndexExact
  nullable : g.NullableExact
  productive : g.Productive
  terminals : g.TerminalsExact
  terminals_length : g.terminals.length ≤ u32Max + 1

/-! ### Languages read from left to right -/

/-- Some word of the language begins with `x`. -/
def Viable (K : Language UInt8) (x : List UInt8) : Prop := ∃ z, x ++ z ∈ K

variable {K : Language UInt8} {x y : List UInt8}

theorem viable_of_mem (h : x ∈ K) : Viable K x := ⟨[], by rwa [List.append_nil]⟩

theorem Viable.of_append (h : Viable K (x ++ y)) : Viable K x := by
  obtain ⟨z, hz⟩ := h
  exact ⟨y ++ z, by rwa [← List.append_assoc]⟩

/-- What a chunk is answered after `x`, and what has been taken then. -/
inductive Answers (K : Language UInt8) (x chunk : List UInt8) : Advance → List UInt8 → Prop
  | rejected (h : ¬ Viable K (x ++ chunk)) : Answers K x chunk .rejected x
  | live (h : Viable K (x ++ chunk)) (hmem : x ++ chunk ∉ K) : Answers K x chunk .live (x ++ chunk)
  | accepting (hmem : x ++ chunk ∈ K) : Answers K x chunk .accepting (x ++ chunk)

/-- What a sequence of chunks is answered. -/
inductive Session.Answers (K : Language UInt8) :
    List UInt8 → List (List UInt8) → List Advance → List UInt8 → Prop
  | nil (x : List UInt8) : Answers K x [] [] x
  | cons {x y z chunk : List UInt8} {chunks : List (List UInt8)} {answer : Advance}
    {answers : List Advance} (h : OcEarley.Answers K x chunk answer y)
    (hrest : Answers K y chunks answers z) : Answers K x (chunk :: chunks) (answer :: answers) z

theorem Answers.unique {chunk y y' : List UInt8} {answer answer' : Advance}
    (h : Answers K x chunk answer y) (h' : Answers K x chunk answer' y') :
    answer = answer' ∧ y = y' := by
  cases h with
  | rejected h =>
    cases h' with
    | rejected => exact ⟨rfl, rfl⟩
    | live hviable => exact absurd hviable h
    | accepting hmem => exact absurd (viable_of_mem hmem) h
  | live hviable hnot =>
    cases h' with
    | rejected h => exact absurd hviable h
    | live => exact ⟨rfl, rfl⟩
    | accepting hmem => exact absurd hmem hnot
  | accepting hmem =>
    cases h' with
    | rejected h => exact absurd (viable_of_mem hmem) h
    | live _ hnot => exact absurd hmem hnot
    | accepting => exact ⟨rfl, rfl⟩

/-- The language fixes the answers. -/
theorem Session.Answers.unique {chunks : List (List UInt8)} {answers answers' : List Advance}
    {y y' : List UInt8} (h : Session.Answers K x chunks answers y)
    (h' : Session.Answers K x chunks answers' y') : answers = answers' ∧ y = y' := by
  induction h generalizing answers' with
  | nil x =>
    cases h' with
    | nil => exact ⟨rfl, rfl⟩
  | cons h _ ih =>
    cases h' with
    | cons h' hrest' =>
      obtain ⟨rfl, rfl⟩ := h.unique h'
      obtain ⟨rfl, rfl⟩ := ih hrest'
      exact ⟨rfl, rfl⟩

namespace RecognizerState

variable {r s t : RecognizerState}

/-- The recognizer answers by running its tables on. -/
def usesTables : RecognizerState → Bool
  | .lalr _ => true
  | _ => false

/-- The positions of a recognizer with tables have 32 bits. -/
theorem Consumes.length_le {x : List UInt8} (h : r.Consumes x s) (htables : r.usesTables = true) :
    x.length ≤ u32Max := by
  cases r with
  | dfa _ => cases htables
  | earley _ => cases htables
  | lalr a =>
    obtain ⟨b, -, hconsume⟩ := consume_of_consumes h
    rcases LalrRecognizer.consume_position hconsume rfl with rfl | hlen
    · exact Nat.zero_le _
    · exact (Nat.le_add_left _ _).trans hlen

/-- The recognizer answers for the language, whatever it has consumed. -/
structure Decides (r : RecognizerState) (K : Language UInt8) : Prop where
  advance : ∀ {x : List UInt8} {s : RecognizerState} (byte : UInt8), r.Consumes x s →
    (r.usesTables = true → x.length + 1 ≤ u32Max) →
    wp RuntimeError.IsLimit (advanceByte byte)
      (fun answer _ => answer = true ↔ Viable K (x ++ [byte])) s
  accepting : ∀ {x : List UInt8} {s : RecognizerState}, r.Consumes x s → s.AcceptanceFits →
    (s.isAccepting = true ↔ x ∈ K)
  live : ∀ {x : List UInt8} {s : RecognizerState}, r.Consumes x s → s.LivenessFits →
    (s.isLive = true ↔ Viable K x)

/-! ### Automata -/

section Dfa

variable {dfa : CompiledByteDfa} {limits : RuntimeLimits} {generation : ℕ}

/-- The state that the bytes lead to accepts what completes them. -/
theorem Consumes.accepts {a : DfaRecognizer} (hpos : 0 < dfa.stateCount)
    (h : (RecognizerState.dfa (dfa.recognizer limits generation)).Consumes x (.dfa a)) :
    a.dfa = dfa ∧ a.state < dfa.stateCount ∧
      ∀ w, dfa.accepts (x ++ w) = dfa.acceptsFrom a.state w := by
  induction x using List.reverseRecOn generalizing a with
  | nil =>
    obtain rfl := RecognizerState.dfa.inj h
    exact ⟨rfl, hpos, fun _ => rfl⟩
  | append_singleton x byte ih =>
    obtain ⟨t, ht, u, hu, rfl⟩ := consumes_append.1 h
    have hext := ht.extends
    cases hext with
    | @dfa _ b =>
      obtain ⟨hdfa, hlt, haccepts⟩ := ih ht
      have hstep : wp (fun _ => True) (advanceByte byte) (fun answer t => answer = true →
          ∀ a, t = .dfa a → a.dfa = dfa ∧ a.state = dfa.nextState b.state byte ∧
            dfa.isDead a.state = false) (.dfa b) := by
        refine wp_zoom rfl ?_
        simp only [DfaRecognizer.advanceByte, enforceRuntimeLimit, wp_bind, wp_get, wp_require,
          implies_true, and_true]
        intro _
        split
        · exact fun h => (by cases h)
        · next halive =>
          simp only [wp_bind, wp_modify, wp_require, wp_pure, implies_true, and_true]
          intro _ _ a' ha'
          obtain rfl := RecognizerState.dfa.inj ha'
          rw [Bool.or_eq_true, not_or, Bool.not_eq_true] at halive
          exact ⟨hdfa, hdfa ▸ rfl, hdfa ▸ halive.1⟩
      obtain ⟨hdfa', hstate, hdead⟩ := wp_ok hstep hu rfl a rfl
      refine ⟨hdfa', CompiledByteDfa.lt_of_isDead_eq_false hdead, fun w => ?_⟩
      rw [List.append_assoc, haccepts, List.singleton_append, CompiledByteDfa.acceptsFrom]
      simp only [← hstate, hdead, Bool.false_eq_true, if_false]

theorem Consumes.exists_dfa
    (h : (RecognizerState.dfa (dfa.recognizer limits generation)).Consumes x s) :
    ∃ a, s = .dfa a := by
  have hext := h.extends
  cases hext with
  | @dfa _ a => exact ⟨a, rfl⟩

/-- **An automaton decides what it accepts.** -/
theorem decides_dfa (hpos : 0 < dfa.stateCount) (hlive : dfa.LiveExact)
    (hK : ∀ w, dfa.accepts w = true ↔ w ∈ K) :
    (RecognizerState.dfa (dfa.recognizer limits generation)).Decides K where
  advance := by
    intro x s byte h _
    obtain ⟨a, rfl⟩ := h.exists_dfa
    obtain ⟨hdfa, hlt, haccepts⟩ := h.accepts hpos
    -- the words that go on with the byte are those that its state accepts
    have hviable : Viable K (x ++ [byte]) ↔ ∃ w, dfa.acceptsFrom a.state (byte :: w) = true := by
      refine exists_congr fun w => ?_
      rw [← hK, List.append_assoc, haccepts]
      rfl
    refine wp_zoom rfl ?_
    simp only [DfaRecognizer.advanceByte, enforceRuntimeLimit, wp_bind, wp_get, wp_require,
      RuntimeError.isLimit_resourceLimitExceeded, implies_true, and_true, hdfa, hviable,
      CompiledByteDfa.acceptsFrom]
    intro _
    cases hdead : dfa.isDead (dfa.nextState a.state byte) with
    | true => simp
    | false =>
      have hexact := hlive _ (CompiledByteDfa.lt_of_isDead_eq_false hdead)
      simp only [Bool.false_or, Bool.false_eq_true, if_false, ← hexact]
      cases hnext : dfa.isLive (dfa.nextState a.state byte) with
      | true =>
        simp only [Bool.not_true, Bool.false_eq_true, if_false, wp_bind, wp_modify, wp_require,
          wp_pure, RuntimeError.isLimit_resourceLimitExceeded, implies_true, and_true]
      | false => simp
  accepting := by
    intro x s h _
    obtain ⟨a, rfl⟩ := h.exists_dfa
    obtain ⟨hdfa, -, haccepts⟩ := h.accepts hpos
    have haccept := haccepts []
    rw [List.append_nil] at haccept
    rw [← hK, haccept]
    change a.dfa.isAccepting a.state = true ↔ dfa.isAccepting a.state = true
    rw [hdfa]
  live := by
    intro x s h _
    obtain ⟨a, rfl⟩ := h.exists_dfa
    obtain ⟨hdfa, hlt, haccepts⟩ := h.accepts hpos
    change a.dfa.isLive a.state = true ↔ _
    rw [hdfa, hlive _ hlt]
    refine exists_congr fun w => ?_
    rw [← hK, haccepts]

end Dfa

/-! ### Parsers -/

section Lalr

variable {g : ResidualGrammar} {compileLimits : CompileLimits} {compiled : CompiledLalr}
  {limits : RuntimeLimits} {generation : ℕ}

/-- **Usable tables decide the byte strings of their grammar.** -/
theorem decides_lalr (hg : g.Recognizable)
    (hbuild : CompiledLalr.build g compileLimits = .ok compiled)
    (husable : compiled.isUsable = true) :
    (RecognizerState.lalr (compiled.recognizer limits generation)).Decides g.language := by
  obtain ⟨hconf, hsafe⟩ := Bool.and_eq_true_iff.1 husable
  obtain ⟨merged, hB⟩ := CompiledLalr.build_built hbuild (List.isEmpty_iff.1 hconf) hg.wellFormed
    hg.index hg.nullable hg.terminals_length
  have hsafe : g.PrefixSafe := lexicalSafety_spec (by rw [hB.lexicalSafe, hsafe])
  -- a recognizer that has consumed `x` is between two terminals or inside one
  have hconsumed : ∀ {x : List UInt8} {s : RecognizerState},
      (RecognizerState.lalr (compiled.recognizer limits generation)).Consumes x s →
      ∃ a, s = .lalr a ∧ a.compiled = compiled ∧ ∃ w v u, v ++ u = x ∧
        LalrRecognizer.Consumed (compiled.table.automaton merged) g w v u a := by
    intro x s h
    have hlen := h.length_le rfl
    obtain ⟨a, rfl, hconsume⟩ := consume_of_consumes h
    have hstart := LalrRecognizer.consumed_start hg.terminals merged compiled limits generation
    obtain ⟨hs, htrue, -⟩ := wp_ok
      (hstart.wp_consume hB hg.wellFormed hg.productive hg.terminals hsafe hg.terminals_length x
        rfl hlen) hconsume
    exact ⟨a, rfl, hs, htrue rfl⟩
  refine ⟨fun {x s} byte h hlen => ?_, fun {x s} h hfits => ?_, fun {x s} h hfits => ?_⟩
  · replace hlen := hlen rfl
    obtain ⟨a, rfl, hs, w, v, u, rfl, hc⟩ := hconsumed h
    refine wp_zoom rfl (wp_mono (hc.wp_advanceByte hB hg.wellFormed hg.productive hg.terminals hsafe
      hg.terminals_length hs (by rwa [List.length_append])) ?_)
    rintro answer b ⟨-, htrue, hfalse⟩
    cases answer with
    | true =>
      obtain ⟨w', v', u', heq, h'⟩ := htrue rfl
      have hlen' := congrArg List.length heq
      simp only [List.length_append, List.length_singleton] at hlen hlen'
      rw [← heq]
      exact iff_of_true rfl (h'.exists_mem_language hB.describes hg.terminals hg.wellFormed
        hg.productive (by omega))
    | false =>
      refine iff_of_false Bool.false_ne_true fun hviable => ?_
      obtain ⟨z, hz⟩ := hviable
      exact hfalse rfl z hz
  · have hlen := h.length_le rfl
    obtain ⟨a, rfl, hs, w, v, u, rfl, hc⟩ := hconsumed h
    rw [List.length_append] at hlen
    have hprobe := hc.isAccepting_iff hB hg.wellFormed hg.productive hg.terminals hsafe
      hs (by omega)
    rcases hc.candidates with ⟨-, hnil⟩ | ⟨hu, hne, -⟩
    · exact hprobe (hfits hnil)
    · -- no probe is made inside a terminal, where nothing is complete
      have hnot : v ++ u ∉ g.language := fun hmem =>
        hu ((hc.mem_language_iff hB.describes hg.terminals hsafe (by omega)).1 hmem).1
      change LalrRecognizer.isAccepting a = true ↔ _
      unfold LalrRecognizer.isAccepting
      rw [if_pos (by simpa using hne)]
      exact iff_of_false Bool.false_ne_true hnot
  · have hlen := h.length_le rfl
    obtain ⟨a, rfl, hs, w, v, u, rfl, hc⟩ := hconsumed h
    rw [List.length_append] at hlen
    exact iff_of_true
      (hc.isLive hB hg.wellFormed hg.productive hg.terminals hsafe hg.terminals_length hs
        (by omega) hfits.1 hfits.2)
      (hc.exists_mem_language hB.describes hg.terminals hg.wellFormed hg.productive (by omega))

end Lalr

section Earley

variable {g : ResidualGrammar} {compileLimits : CompileLimits} {compiled : CompiledEarley}
  {limits : RuntimeLimits} {leo : Bool} {generation : ℕ} {r : EarleyRecognizer}

open EarleyRecognizer in
/-- A fresh recognizer that has consumed `x` has done so whatever comes next. -/
theorem Consumes.consumed_earley (hlaid : compiled.Laid) (hg : compiled.grammar.WellFormed)
    (hnull : compiled.grammar.NullableExact)
    (hfresh : compiled.recognizer limits leo generation = .ok r) (h : (earley r).Consumes x s) :
    ∃ a, s = .earley a ∧ ∀ z, Consumed hlaid hg (x ++ z) x.length a := by
  induction x using List.reverseRecOn generalizing s with
  | nil =>
    obtain rfl : earley r = s := h
    refine ⟨r, rfl, fun z => ?_⟩
    obtain ⟨-, -, hfresh⟩ := Result.bind_eq_ok.1 hfresh
    have hprep := wp_prepare hlaid hg hnull z limits leo generation
    cases hp : CompiledEarley.prepare (compiled.blank limits leo generation) with
    | error err s =>
      rw [hp] at hfresh
      cases hfresh
    | ok u s =>
      rw [hp] at hfresh
      obtain rfl := Except.ok.inj hfresh
      exact (wp_ok hprep hp).1
  | append_singleton x byte ih =>
    obtain ⟨t, ht, u, hu, rfl⟩ := consumes_append.1 h
    obtain ⟨a, rfl, hconsumed⟩ := ih ht
    have hbyte : ∀ z, (x ++ ([byte] ++ z))[x.length]? = some byte := fun z => by simp
    change zoom _ _ a = _ at hu
    unfold zoom at hu
    cases hstep : EarleyRecognizer.advanceByte byte a with
    | error e b =>
      rw [hstep] at hu
      cases hu
    | ok answer b =>
      rw [hstep] at hu
      obtain ⟨rfl, rfl⟩ := EStateM.Result.ok.inj hu
      refine ⟨b, rfl, fun z => ?_⟩
      rw [List.append_assoc, List.length_append]
      exact (wp_ok ((hconsumed _).wp_advanceByte hnull (hbyte z)) hstep).1

open EarleyRecognizer in
/-- **A chart decides the byte strings of its grammar.** -/
theorem decides_earley (hg : g.Recognizable)
    (hbuild : CompiledEarley.build g compileLimits = .ok compiled)
    (hfresh : compiled.recognizer limits leo generation = .ok r) :
    (RecognizerState.earley r).Decides g.language := by
  obtain ⟨rfl, hlaid⟩ := CompiledEarley.build_laid hbuild
  have hrest : ∀ d sym β, compiled.rest d = sym :: β →
      ∃ v, Yields compiled.grammar.Rule compiled.grammar.terminalLanguage β v := by
    intro d sym β hr
    exact ResidualGrammar.exists_yields hg.wellFormed hg.productive hg.terminals fun s' hs' =>
      hlaid.rest_inRange hg.wellFormed d s' (hr ▸ List.mem_cons_of_mem _ hs')
  have hconsumed : ∀ {x : List UInt8} {s : RecognizerState}, (earley r).Consumes x s →
      ∃ a, s = .earley a ∧ ∀ z, Consumed hlaid hg.wellFormed (x ++ z) x.length a :=
    fun h => h.consumed_earley hlaid hg.wellFormed hg.nullable hfresh
  have hend : ∀ {x : List UInt8} {a : EarleyRecognizer},
      (∀ z, Consumed hlaid hg.wellFormed (x ++ z) x.length a) →
      Consumed hlaid hg.wellFormed x x.length a := by
    intro x a h
    simpa using h []
  refine ⟨fun {x s} byte h _ => ?_, fun {x s} h _ => ?_, fun {x s} h _ => ?_⟩
  · obtain ⟨a, rfl, hc⟩ := hconsumed h
    refine wp_zoom rfl (wp_mono ((hc [byte]).wp_advanceByte hg.nullable (by simp)) ?_)
    rintro answer b ⟨h', rfl, -⟩
    have hlast : Consumed hlaid hg.wellFormed (x ++ [byte]) (x ++ [byte]).length b := by
      simpa using h'
    exact hlast.isLive_iff_exists hg.nullable hg.terminals hrest
  · obtain ⟨a, rfl, hc⟩ := hconsumed h
    exact (hend hc).isAccepting_iff_mem hg.nullable hg.terminals
  · obtain ⟨a, rfl, hc⟩ := hconsumed h
    exact (hend hc).isLive_iff_exists hg.nullable hg.terminals hrest

end Earley

/-! ### Chunks of bytes -/

variable {chunk : List UInt8} {chunks : List (List UInt8)} {answer : Advance}
  {answers : List Advance}

theorem LivenessFits.acceptance (h : s.LivenessFits) : s.AcceptanceFits := by
  cases s with
  | dfa _ => trivial
  | lalr _ => exact h.1
  | earley _ => trivial

theorem Consumes.snoc {byte : UInt8} (h : r.Consumes x s)
    (hbyte : advanceByte byte s = .ok true t) :
    r.Consumes (x ++ [byte]) t :=
  consumes_append.2 ⟨s, h, t, hbyte, rfl⟩

/-- The loop over a chunk: either all of it is taken, or no word of the language goes on with it. -/
theorem Decides.wp_advanceLoop (hr : r.Decides K) (hcol : s.HasColumn) (bytes : List UInt8) :
    ∀ {x : List UInt8} {t : RecognizerState}, s.Extends t → r.Consumes x t →
      x.length + bytes.length ≤ u32Max → Viable K x →
      wp RuntimeError.IsLimit (advanceLoop s.checkpoint bytes) (fun answer u =>
        Viable K (x ++ bytes) ∧ r.Consumes (x ++ bytes) u ∧ answer = u.outcome ∨
          ¬ Viable K (x ++ bytes) ∧ answer = .rejected ∧ u = s) t := by
  induction bytes with
  | nil =>
    intro x t _ hx _ hviable
    rw [List.append_nil]
    exact .inl ⟨hviable, hx, rfl⟩
  | cons byte bytes ih =>
    intro x t hext hx hlen hviable
    rw [List.length_cons] at hlen
    have hstep := hr.advance byte hx fun _ => by omega
    have hext' := hext.trans (extends_advanceByte byte t)
    unfold wp at hstep ⊢
    rw [advanceLoop_cons]
    cases hbyte : advanceByte byte t with
    | error e u =>
      rw [hbyte] at hstep hext'
      have hfail : (restore s.checkpoint >>= fun _ => throw e) u =
          (.error e s : EStateM.Result RuntimeError RecognizerState Advance) :=
        bind_eq_error.2 (.inr ⟨(), s, restore_of_extends hcol hext', rfl⟩)
      simp only [hfail]
      exact hstep
    | ok taken u =>
      rw [hbyte] at hstep hext'
      rw [List.append_cons]
      cases taken with
      | true =>
        have hlen' : (x ++ [byte]).length + bytes.length ≤ u32Max := by
          rw [List.length_append, List.length_singleton]
          omega
        exact ih hext' (hx.snoc hbyte) hlen' (hstep.1 rfl)
      | false =>
        have hdone : (restore s.checkpoint >>= fun _ => pure Advance.rejected) u =
            .ok .rejected s :=
          bind_eq_ok.2 ⟨(), s, restore_of_extends hcol hext', rfl⟩
        simp only [hdone]
        exact .inr ⟨fun h => Bool.false_ne_true (hstep.2 h.of_append), trivial, trivial⟩

/-- **One chunk.**  The answer is that of the language, and a chunk that is
rejected leaves no trace. -/
theorem Decides.wp_tryAdvanceBytes (hr : r.Decides K) (hcol : r.HasColumn) (hx : r.Consumes x s)
    (hlen : x.length + chunk.length ≤ u32Max) (hviable : Viable K x)
    (hfits : (stateOf (tryAdvanceBytes chunk s)).LivenessFits) :
    wp RuntimeError.IsLimit (tryAdvanceBytes chunk) (fun answer t =>
      ∃ y, Answers K x chunk answer y ∧ r.Consumes y t ∧ y.length ≤ x.length + chunk.length ∧
        Viable K y) s := by
  have hloop := hr.wp_advanceLoop (hx.extends.hasColumn hcol) chunk (.refl s) hx hlen hviable
  refine wp_self (wp_mono hloop ?_)
  rintro answer t (⟨hmore, ht, rfl⟩ | ⟨hnot, rfl, rfl⟩) hrun
  · change tryAdvanceBytes chunk s = _ at hrun
    rw [hrun] at hfits
    have hacc := hr.accepting ht hfits.acceptance
    refine ⟨x ++ chunk, ?_, ht, List.length_append.le, hmore⟩
    unfold outcome
    cases haccepting : t.isAccepting with
    | true => exact .accepting (hacc.1 haccepting)
    | false =>
      refine .live hmore fun hmem => ?_
      rw [haccepting] at hacc
      exact Bool.false_ne_true (hacc.2 hmem)
  · exact ⟨x, .rejected hnot, hx, Nat.le_add_right _ _, hviable⟩

/-- A client feeds chunk after chunk and goes on whatever the answers are. -/
def feed (chunks : List (List UInt8)) : Method RuntimeError RecognizerState (List Advance) :=
  chunks.mapM tryAdvanceBytes

/-- No probe of `is_accepting` or `is_live` exceeds a limit between the chunks. -/
def FitsThroughout : RecognizerState → List (List UInt8) → Prop
  | s, [] => s.LivenessFits
  | s, chunk :: chunks => s.LivenessFits ∧ FitsThroughout (stateOf (tryAdvanceBytes chunk s)) chunks

theorem FitsThroughout.livenessFits (h : s.FitsThroughout chunks) : s.LivenessFits := by
  cases chunks with
  | nil => exact h
  | cons chunk chunks => exact h.1

/-- Automata and charts make no probes. -/
theorem fitsThroughout_of_usesTables (hcol : r.HasColumn) (h : r.usesTables = false)
    (chunks : List (List UInt8)) : ∀ {s : RecognizerState}, r.Extends s →
      s.FitsThroughout chunks := by
  have hfits : ∀ {s : RecognizerState}, r.Extends s → s.LivenessFits := by
    intro s hext
    cases hext with
    | dfa _ => trivial
    | lalr _ => cases h
    | earley _ => trivial
  induction chunks with
  | nil => exact fun hext => hfits hext
  | cons chunk chunks ih =>
    intro s hext
    refine ⟨hfits hext, ih ?_⟩
    rcases tryAdvanceBytes_spec (hext.hasColumn hcol) chunk with ⟨t, ht⟩ | hrejected | ⟨e, he⟩
    · rw [tryAdvanceBytes_of_consumes ht]
      exact hext.trans ht.extends
    · rw [hrejected]
      exact hext
    · rw [he]
      exact hext

/-- **A sequence of chunks.**  The answers are those of the language, and so is what the recognizer
says of itself in the end. -/
theorem Decides.wp_feed (hr : r.Decides K) (hcol : r.HasColumn) (chunks : List (List UInt8)) :
    ∀ {x : List UInt8} {s : RecognizerState}, r.Consumes x s → Viable K x →
      x.length + chunks.flatten.length ≤ u32Max → s.FitsThroughout chunks →
      wp RuntimeError.IsLimit (feed chunks) (fun answers t =>
        ∃ y, Session.Answers K x chunks answers y ∧ (t.isAccepting = true ↔ y ∈ K) ∧
          (t.isLive = true ↔ Viable K y)) s := by
  induction chunks with
  | nil =>
    intro x s hx hviable hlen hfits
    exact ⟨x, .nil x, hr.accepting hx (LivenessFits.acceptance hfits), hr.live hx hfits⟩
  | cons chunk chunks ih =>
    intro x s hx hviable hlen hfits
    rw [List.flatten_cons, List.length_append] at hlen
    obtain ⟨-, hfits⟩ := hfits
    unfold feed
    rw [List.mapM_cons, wp_bind]
    refine wp_self (wp_mono (hr.wp_tryAdvanceBytes hcol hx (by omega) hviable
      hfits.livenessFits) ?_)
    rintro answer t ⟨y, hanswer, ht, hle, hy⟩ hrun
    rw [hrun] at hfits
    rw [wp_bind]
    refine wp_mono (ih ht hy (by omega) hfits) ?_
    rintro answers u ⟨z, hanswers, hend⟩
    exact ⟨z, .cons hanswer hanswers, hend⟩

end RecognizerState

end OcEarley
