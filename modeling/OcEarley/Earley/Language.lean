import OcEarley.Earley.Exact

/-!
# Earley recognition is exact

* `CompiledEarley.run` : a fresh recognizer that consumes a byte string;
* `earley_exact` : without Leo completion, `is_accepting` decides the language of the grammar and
  `is_live` the prefixes of its byte strings;
* `leo_agrees` : Leo completion changes neither the answers nor the active scans.
-/

namespace OcEarley

open Method

namespace EarleyRecognizer

/-- Consume a byte string one byte at a time. -/
def consume (bytes : List UInt8) : Method RuntimeError EarleyRecognizer PUnit :=
  bytes.forM fun byte => do
    let _ ← advanceByte byte
    pure ⟨⟩

theorem consume_append (u v : List UInt8) :
    consume (u ++ v) = consume u >>= fun _ => consume v := by
  induction u with
  | nil => rfl
  | cons b u ih =>
    change (_ >>= fun _ => consume (u ++ v)) = (_ >>= fun _ => consume u) >>= fun _ => consume v
    rw [ih]
    exact (bind_assoc _ _ _).symm

end EarleyRecognizer

namespace CompiledEarley

/-- A fresh recognizer that has consumed `x`. -/
def run (e : CompiledEarley) (limits : RuntimeLimits) (leo : Bool) (generation : ℕ)
    (x : List UInt8) : Except RuntimeError EarleyRecognizer := do
  let s ← e.recognizer limits leo generation
  match EarleyRecognizer.consume x s with
  | .ok _ s' => pure s'
  | .error err _ => throw err

/-- No limit is exceeded while `x` is consumed. -/
def WithinLimits (e : CompiledEarley) (limits : RuntimeLimits) (leo : Bool) (generation : ℕ)
    (x : List UInt8) : Prop :=
  ∀ err, e.run limits leo generation x = .error err → ¬ err.IsLimit

end CompiledEarley

namespace EarleyRecognizer

variable {e : CompiledEarley} {hlaid : e.Laid} {hg : e.grammar.WellFormed}
  {x : List UInt8} {n : ℕ} {s s' : EarleyRecognizer}

theorem Consumed.wp_consume (hnull : e.grammar.NullableExact) (v : List UInt8) :
    ∀ {n s}, Consumed hlaid hg x n s → x.drop n = v →
      wp RuntimeError.IsLimit (consume v) (fun _ s' =>
        Consumed hlaid hg x x.length s' ∧ s'.leoEnabled = s.leoEnabled) s := by
  induction v with
  | nil =>
    intro n s h hv
    have := h.le_length
    have := List.drop_eq_nil_iff.1 hv
    obtain rfl : n = x.length := by omega
    exact ⟨h, rfl⟩
  | cons b v ih =>
    intro n s h hv
    have hbyte : x[n]? = some b := by rw [← List.head?_drop, hv, List.head?_cons]
    change wp _ ((advanceByte b >>= fun _ => pure PUnit.unit) >>= fun _ => consume v) _ s
    simp only [wp_bind]
    refine wp_mono (h.wp_advanceByte hnull hbyte) ?_
    rintro _ s₁ ⟨h₁, -, hleo⟩
    rw [wp_pure]
    refine wp_mono (ih h₁ (by rw [← List.drop_drop, hv]; rfl)) ?_
    rintro _ s₂ ⟨h₂, hleo₂⟩
    exact ⟨h₂, hleo₂.trans hleo⟩

end EarleyRecognizer

namespace CompiledEarley

open EarleyRecognizer

variable {e : CompiledEarley} {limits : RuntimeLimits} {leo : Bool} {generation : ℕ}
  {x : List UInt8}

/-- **A run within the limits succeeds**, and leaves the invariant behind. -/
theorem exists_run (hlaid : e.Laid) (hg : e.grammar.WellFormed) (hnull : e.grammar.NullableExact)
    (hlim : e.WithinLimits limits leo generation x) :
    ∃ s, e.run limits leo generation x = .ok s ∧ Consumed hlaid hg x x.length s ∧
      s.leoEnabled = leo := by
  unfold WithinLimits run recognizer at hlim
  unfold run recognizer
  by_cases hcols : 1 ≤ limits.maxChartColumns
  · simp only [Result.require, if_pos hcols, Result.pure_bind_eq] at hlim ⊢
    have hprep := wp_prepare hlaid hg hnull x limits leo generation
    unfold wp at hprep
    cases hp : prepare (e.blank limits leo generation) with
    | error err s =>
      rw [hp] at hprep hlim
      exact absurd hprep (hlim err rfl)
    | ok u s =>
      rw [hp] at hprep hlim
      simp only [Result.pure_bind_eq] at hlim ⊢
      obtain ⟨hcons, hleo⟩ := hprep
      have hrun := hcons.wp_consume hnull x rfl
      unfold wp at hrun
      cases hc : consume x s with
      | error err s' =>
        rw [hc] at hrun hlim
        exact absurd hrun (hlim err rfl)
      | ok u s' =>
        rw [hc] at hrun
        exact ⟨s', rfl, hrun.1, hrun.2.trans hleo⟩
  · simp only [Result.require, if_neg hcols] at hlim
    exact absurd trivial (hlim _ rfl)

/-- Limits that a run does not exceed are not exceeded earlier. -/
theorem WithinLimits.of_append {v : List UInt8}
    (h : e.WithinLimits limits leo generation (x ++ v)) :
    e.WithinLimits limits leo generation x := by
  intro err herr
  refine h err ?_
  unfold run at herr ⊢
  cases hr : e.recognizer limits leo generation with
  | error err' =>
    rw [hr] at herr
    exact herr
  | ok s =>
    rw [hr] at herr
    change (match consume x s with | .ok _ s' => pure s' | .error err _ => throw err) = _ at herr
    change (match consume (x ++ v) s with | .ok _ s' => pure s' | .error err _ => throw err) = _
    cases hc : consume x s with
    | ok u s' =>
      rw [hc] at herr
      cases herr
    | error err' s' =>
      have : consume (x ++ v) s = .error err' s' := by
        rw [consume_append]
        exact bind_eq_error.2 (.inl hc)
      rw [hc] at herr
      rw [this]
      exact herr

theorem withinLimits_of_isOk (h : (e.run limits leo generation x).isOk = true) :
    e.WithinLimits limits leo generation x := by
  intro err herr
  rw [herr] at h
  cases h

/-- The recognizer is what `prepare` leaves behind. -/
theorem recognizer_eq_ok (hcol : 1 ≤ limits.maxChartColumns)
    (h : valueOf (prepare (e.blank limits leo generation)) = .ok ()) :
    e.recognizer limits leo generation =
      .ok (stateOf (prepare (e.blank limits leo generation))) := by
  unfold recognizer Result.require
  rw [if_pos hcol, valueOf_eq_ok.1 h]
  rfl

end CompiledEarley

/-! ### Exactness -/

namespace EarleyRecognizer

variable {e : CompiledEarley} {hlaid : e.Laid} {hg : e.grammar.WellFormed}
  {x : List UInt8} {s : EarleyRecognizer}

theorem scanLanguage_iff (ht : e.grammar.TerminalsExact) (hx : x.length ≤ u32Max) {t k j : ℕ} :
    segment x k j ∈ e.grammar.scanLanguage t ↔ segment x k j ∈ e.grammar.terminalLanguage t := by
  have hlen : (segment x k j).length ≤ u32Max := by
    refine le_trans ?_ hx
    rw [segment, List.length_drop, List.length_take]
    omega
  unfold ResidualGrammar.scanLanguage ResidualGrammar.terminalLanguage
  cases hterm : e.grammar.terminals[t]? with
  | none => exact Iff.rfl
  | some terminal =>
    have hmem := List.mem_of_getElem? hterm
    refine (CompiledTerminal.mem_scanned_iff (ht.live _ hmem) hlen).trans
      ⟨fun h => h.2, fun h => ⟨?_, h⟩⟩
    rintro hnil
    exact ht.nil_notMem _ hmem (hnil ▸ h)

/-- The deduced items, over the languages of the terminals. -/
theorem deduced_iff (ht : e.grammar.TerminalsExact) (hx : x.length ≤ u32Max) {k : ℕ}
    {item : EarleyItem} : Deduced hlaid hg x k item ↔
      (e.dottedGrammar hlaid hg).Chart e.grammar.terminalLanguage x k item.dotted item.origin :=
  ⟨fun h => h.mono fun _ _ _ => (scanLanguage_iff ht hx).1,
    fun h => h.mono fun _ _ _ => (scanLanguage_iff ht hx).2⟩

namespace Consumed

variable (h : Consumed hlaid hg x x.length s)
include h

theorem isAccepting_iff_mem (hnull : e.grammar.NullableExact) (ht : e.grammar.TerminalsExact) :
    s.isAccepting = true ↔ x ∈ e.grammar.language := by
  obtain ⟨-, -, -, -, hr, -⟩ := hlaid.start_spec
  rw [h.isAccepting_iff hnull, deduced_iff ht h.position_le, ResidualGrammar.mem_language_iff]
  refine (DottedGrammar.chart_advance_init_iff (G := e.dottedGrammar hlaid hg) hr le_rfl).trans ?_
  rw [CompiledEarley.dottedGrammar_rule, List.take_length]

/-- `is_live` decides the prefixes of the language, provided that what follows a dotted symbol can
always be completed. -/
theorem isLive_iff_exists (hnull : e.grammar.NullableExact) (ht : e.grammar.TerminalsExact)
    (hp : ∀ d sym β, e.rest d = sym :: β → ∃ v,
      Yields e.grammar.Rule e.grammar.terminalLanguage β v) :
    s.isLive = true ↔ ∃ z, x ++ z ∈ e.grammar.language := by
  obtain ⟨-, -, -, -, hrinit, -⟩ := hlaid.start_spec
  have hlen : ∀ {k j}, (segment x k j).length ≤ u32Max := fun {k j} => by
    refine le_trans ?_ h.position_le
    rw [segment, List.length_drop, List.length_take]
    omega
  rw [isLive, Bool.or_eq_true, h.isAccepting_iff_mem hnull ht, Bool.not_eq_true',
    List.isEmpty_eq_false_iff_exists_mem]
  constructor
  · rintro (hacc | ⟨scan, hscan⟩)
    · exact ⟨[], by simpa using hacc⟩
    · -- the scan can be completed, then the rest of its rule, then everything around the rule
      obtain ⟨terminal, d, i, β, hterm, hle, hrun, hded, hr⟩ :=
        (h.mem_activeScans_iff hnull).1 hscan
      have hmem := List.mem_of_getElem? hterm
      obtain ⟨z, hz⟩ : ∃ z, segment x scan.start x.length ++ z ∈ terminal.language := by
        by_cases hnil : segment x scan.start x.length = []
        · rw [hnil]
          exact ht.nonempty _ hmem
        · obtain ⟨hrun, hlive⟩ :=
            (CompiledTerminal.liveRun_eq_some_iff (ht.live _ hmem) hlen).1 hrun
          exact (CompiledTerminal.isLive_iff_of_runFrom (ht.live _ hmem) hlen hnil hrun).1
            (hlive hnil)
      rw [← ResidualGrammar.terminalLanguage_eq hterm] at hz
      obtain ⟨v, hv⟩ := hp d _ _ hr
      obtain ⟨y, hy⟩ := ((deduced_iff ht h.position_le).1 hded).viable (fun d sym β hr => by
        rw [CompiledEarley.dottedGrammar_rule]; exact hp d sym β hr)
      have hrest : Yields e.grammar.Rule e.grammar.terminalLanguage (e.rest d)
          ((segment x scan.start x.length ++ z) ++ v) := hr ▸ Yields.terminal hz hv
      rw [CompiledEarley.dottedGrammar_rule] at hy
      have := hy _ hrest
      refine ⟨z ++ v ++ y, ResidualGrammar.mem_language_iff.2 ?_⟩
      rw [show (e.dottedGrammar hlaid hg).rest (e.dottedGrammar hlaid hg).init = _ from hrinit]
        at this
      convert this using 1
      have : x.take scan.start ++ segment x scan.start x.length = x := by
        rw [← segment_zero, segment_append (Nat.zero_le _) hle, segment_zero, List.take_length]
      calc x ++ (z ++ v ++ y)
          = (x.take scan.start ++ segment x scan.start x.length) ++ (z ++ v ++ y) := by rw [this]
        _ = _ := by simp
  · rintro ⟨z, hz⟩
    by_cases hznil : z = []
    · exact .inl (by simpa [hznil] using hz)
    · -- the derivation is inside a terminal where `x` ends
      refine .inr ?_
      have hlt : x.length < (x ++ z).length := by
        rw [List.length_append]
        have := List.length_pos_iff.2 hznil
        omega
      rw [ResidualGrammar.mem_language_iff, ← CompiledEarley.dottedGrammar_rule hlaid hg] at hz
      obtain ⟨k, d, i, t, β, j, hchart, hr, hk, hj, hjlen, hword⟩ :=
        DottedGrammar.chart_open_of_yields hz (DottedGrammar.Chart.init (x := x ++ z))
          (β := []) (hrinit.trans (List.append_nil _).symm) (Nat.zero_le x.length) hlt le_rfl
          (by rw [segment_zero, List.take_length])
      have hr : e.rest d = .terminal t :: β := hr
      have htlt : t < e.grammar.terminals.length :=
        hlaid.rest_inRange hg d (.terminal t) (hr ▸ List.mem_cons_self)
      have hterm := List.getElem?_eq_getElem htlt
      have hmem := List.mem_of_getElem? hterm
      rw [ResidualGrammar.terminalLanguage_eq hterm, ← segment_append hk hj.le,
        show segment (x ++ z) k x.length = segment x k x.length by simp [segment]] at hword
      have hne : segment (x ++ z) x.length j ≠ [] := by
        have := length_segment (x := x ++ z) (i := x.length) hjlen
        exact List.length_pos_iff.1 (by omega)
      obtain ⟨cursor, hrun⟩ := CompiledTerminal.exists_runFrom_of_mem hlen hword
      refine ⟨⟨t, k, cursor⟩, (h.mem_activeScans_iff hnull).2 ⟨_, d, i, β, hterm, hk, ?_,
        (deduced_iff ht h.position_le).2 (hchart.of_append hk), hr⟩⟩
      refine (CompiledTerminal.liveRun_eq_some_iff (ht.live _ hmem) hlen).2 ⟨hrun, fun hnil => ?_⟩
      exact (CompiledTerminal.isLive_iff_of_runFrom (ht.live _ hmem) hlen hnil hrun).2 _ hne hword

end Consumed

end EarleyRecognizer

/-- **Earley recognition is exact.**  A recognizer without Leo completion that consumes `x` within
its limits accepts iff `x` splits into words of the terminals of a sentence of the grammar, and is
live iff `x` is a prefix of such a byte string. -/
theorem earley_exact {g : ResidualGrammar} {compileLimits : CompileLimits} {e : CompiledEarley}
    (hbuild : CompiledEarley.build g compileLimits = .ok e) (hg : g.WellFormed)
    (hnull : g.NullableExact) (hprod : g.Productive) (hterm : g.TerminalsExact)
    {limits : RuntimeLimits} {generation : ℕ} {x : List UInt8}
    (hlim : e.WithinLimits limits false generation x) :
    ∃ s, e.run limits false generation x = .ok s ∧ (s.isAccepting = true ↔ x ∈ g.language) ∧
      (s.isLive = true ↔ ∃ z, x ++ z ∈ g.language) := by
  obtain ⟨rfl, hlaid⟩ := CompiledEarley.build_laid hbuild
  obtain ⟨s, hs, h, -⟩ := CompiledEarley.exists_run hlaid hg hnull hlim
  refine ⟨s, hs, h.isAccepting_iff_mem hnull hterm, h.isLive_iff_exists hnull hterm ?_⟩
  intro d sym β hr
  exact ResidualGrammar.exists_yields hg hprod hterm fun s' hs' =>
    hlaid.rest_inRange hg d s' (hr ▸ List.mem_cons_of_mem _ hs')

/-! ### The right-recursive list

`S → a S | ε`, on which Leo completion saves most. -/

/-- The grammar of `a*`. -/
def rightRecursive : ResidualGrammar where
  start := 0
  nonterminals := [{ id := 0, original := 0, name := "n0", provenance := .root }]
  terminals := [.literal [97]]
  terminalProvenance := [.root]
  productions := [
    { id := 0, original := 0, lhs := 0, rhs := [.terminal 0, .nonterminal 0], provenance := .root },
    { id := 1, original := 1, lhs := 0, rhs := [], provenance := .root }]
  productionsByLhs := [[0, 1]]
  nullable := [true]
  productiveSuffixes := [[false, true, true], [true]]
  collapsedNonterminals := 0
  collapsedRegions := 0
  terminalDfaStates := 0
  terminalDfaBytes := 0

/-- The tables laid out for `rightRecursive`. -/
def rightRecursiveEarley : CompiledEarley where
  grammar := rightRecursive
  productions := [⟨0, [.terminal 0, .nonterminal 0]⟩, ⟨0, []⟩, ⟨1, [.nonterminal 0]⟩]
  dotted := [⟨0, 0, some (.terminal 0), some 1, 0⟩, ⟨0, 1, some (.nonterminal 0), some 2, 0⟩,
    ⟨0, 2, none, none, 0⟩, ⟨1, 0, none, none, 0⟩, ⟨2, 0, some (.nonterminal 0), some 5, 1⟩,
    ⟨2, 1, none, none, 1⟩]
  dottedOffsets := [0, 3, 4]
  startsByLhs := [[0, 3], [4]]
  augmentedProduction := 2
  augmentedComplete := 5
  nullableNonterminals := 1
  leoEligibleRules := 2

namespace rightRecursive

theorem build_eq : CompiledEarley.build rightRecursive .default = .ok rightRecursiveEarley := rfl

theorem wellFormed : rightRecursive.WellFormed where
  start_lt := by decide
  lhs_lt := by simp [rightRecursive]
  rhs_inRange := by simp [rightRecursive, ResidualGrammar.SymbolInRange]
  nullable_length := rfl

theorem sentence_nil : Sentence rightRecursive.Rule [.nonterminal 0] [] :=
  Yields.of_production ⟨_, List.mem_cons_of_mem _ List.mem_cons_self, rfl, rfl⟩ .nil

theorem nullableExact : rightRecursive.NullableExact := by
  intro A hA
  obtain rfl : A = 0 := Nat.lt_one_iff.1 hA
  exact iff_of_true rfl sentence_nil

theorem productive : rightRecursive.Productive := by
  intro A hA
  obtain rfl : A = 0 := Nat.lt_one_iff.1 hA
  exact ⟨[], sentence_nil⟩

theorem terminalsExact : rightRecursive.TerminalsExact where
  nonempty t ht := by
    obtain rfl := List.mem_singleton.1 ht
    exact ⟨[97], rfl⟩
  nil_notMem t ht := by
    obtain rfl := List.mem_singleton.1 ht
    exact List.cons_ne_nil _ _ ∘ Eq.symm
  live t ht := by
    obtain rfl := List.mem_singleton.1 ht
    trivial

theorem withinLimits (leo : Bool) :
    rightRecursiveEarley.WithinLimits .default leo 1 [97, 97] := by
  cases leo
  · exact CompiledEarley.withinLimits_of_isOk (by decide +kernel)
  · exact CompiledEarley.withinLimits_of_isOk (by decide +kernel)

end rightRecursive

theorem earley_exact_rightRecursive :
    ∃ s, rightRecursiveEarley.run .default false 1 [97, 97] = .ok s ∧
      (s.isAccepting = true ↔ [97, 97] ∈ rightRecursive.language) ∧
      (s.isLive = true ↔ ∃ z, [97, 97] ++ z ∈ rightRecursive.language) :=
  earley_exact rightRecursive.build_eq rightRecursive.wellFormed rightRecursive.nullableExact
    rightRecursive.productive rightRecursive.terminalsExact (rightRecursive.withinLimits false)

/-! ### Leo completion -/

/-- **Leo completion changes work, never the language.**  Two recognizers of one prepared grammar,
one with Leo completion and one without, that consume `x` within their limits agree after every
prefix of `x` on `is_accepting`, on `is_live` and on the set of active scans. -/
theorem leo_agrees {g : ResidualGrammar} {compileLimits : CompileLimits} {e : CompiledEarley}
    (hbuild : CompiledEarley.build g compileLimits = .ok e) (hg : g.WellFormed)
    (hnull : g.NullableExact) {limits limits' : RuntimeLimits} {generation generation' : ℕ}
    {x : List UInt8} (hoff : e.WithinLimits limits false generation x)
    (hon : e.WithinLimits limits' true generation' x) (p : List UInt8) (hp : p <+: x) :
    ∃ s s', e.run limits false generation p = .ok s ∧
      e.run limits' true generation' p = .ok s' ∧ s.isAccepting = s'.isAccepting ∧
      s.isLive = s'.isLive ∧ ∀ scan, scan ∈ s.activeScans ↔ scan ∈ s'.activeScans := by
  obtain ⟨v, rfl⟩ := hp
  obtain ⟨rfl, hlaid⟩ := CompiledEarley.build_laid hbuild
  obtain ⟨s, hs, h, -⟩ := CompiledEarley.exists_run hlaid hg hnull hoff.of_append
  obtain ⟨s', hs', h', -⟩ := CompiledEarley.exists_run hlaid hg hnull hon.of_append
  have hacc : s.isAccepting = s'.isAccepting :=
    Bool.eq_iff_iff.2 ((h.isAccepting_iff hnull).trans (h'.isAccepting_iff hnull).symm)
  have hscans : ∀ scan, scan ∈ s.activeScans ↔ scan ∈ s'.activeScans := fun scan =>
    (h.mem_activeScans_iff hnull).trans (h'.mem_activeScans_iff hnull).symm
  refine ⟨s, s', hs, hs', hacc, ?_, hscans⟩
  have hempty : s.activeScans.isEmpty = s'.activeScans.isEmpty := by
    rw [Bool.eq_iff_iff, List.isEmpty_iff, List.isEmpty_iff, List.eq_nil_iff_forall_not_mem,
      List.eq_nil_iff_forall_not_mem]
    exact forall_congr' fun scan => not_congr (hscans scan)
  simp only [EarleyRecognizer.isLive, hacc, hempty]

theorem leo_agrees_rightRecursive :
    ∃ s s', rightRecursiveEarley.run .default false 1 [97] = .ok s ∧
      rightRecursiveEarley.run .default true 1 [97] = .ok s' ∧ s.isAccepting = s'.isAccepting ∧
      s.isLive = s'.isLive ∧ ∀ scan, scan ∈ s.activeScans ↔ scan ∈ s'.activeScans :=
  leo_agrees rightRecursive.build_eq rightRecursive.wellFormed rightRecursive.nullableExact
    (rightRecursive.withinLimits false) (rightRecursive.withinLimits true) [97] ⟨[97], rfl⟩

/-! ### A nonterminal that is not marked as nullable

`S → T E f | U`, `T → c T | b`, `U → c V`, `V → c Z E g`, `Z → b` and `E → ε`.  After `ccb` both `S`
and `V` wait for `E`.  The chain of `T` is climbed step by step without Leo completion, so that `E`
is complete before `S` waits for it; with Leo completion `S` waits in time. -/

/-- The grammar with all flags unset, although `E`, nonterminal 5, derives the empty string. -/
def unmarkedNullable : ResidualGrammar where
  start := 0
  nonterminals := [
    { id := 0, original := 0, name := "n0", provenance := .root },
    { id := 1, original := 1, name := "n1", provenance := .root },
    { id := 2, original := 2, name := "n2", provenance := .root },
    { id := 3, original := 3, name := "n3", provenance := .root },
    { id := 4, original := 4, name := "n4", provenance := .root },
    { id := 5, original := 5, name := "n5", provenance := .root }]
  terminals := [.literal [99], .literal [98], .literal [102], .literal [103]]
  terminalProvenance := [.root, .root, .root, .root]
  productions := [
    { id := 0, original := 0, lhs := 0, rhs := [.nonterminal 1, .nonterminal 5, .terminal 2],
      provenance := .root },
    { id := 1, original := 1, lhs := 0, rhs := [.nonterminal 2], provenance := .root },
    { id := 2, original := 2, lhs := 1, rhs := [.terminal 0, .nonterminal 1], provenance := .root },
    { id := 3, original := 3, lhs := 1, rhs := [.terminal 1], provenance := .root },
    { id := 4, original := 4, lhs := 2, rhs := [.terminal 0, .nonterminal 3], provenance := .root },
    { id := 5, original := 5, lhs := 3,
      rhs := [.terminal 0, .nonterminal 4, .nonterminal 5, .terminal 3], provenance := .root },
    { id := 6, original := 6, lhs := 4, rhs := [.terminal 1], provenance := .root },
    { id := 7, original := 7, lhs := 5, rhs := [], provenance := .root }]
  productionsByLhs := [[0, 1], [2, 3], [4], [5], [6], [7]]
  nullable := [false, false, false, false, false, false]
  productiveSuffixes := [[true, true, true, true], [true, true], [true, true, true], [true, true],
    [true, true, true], [true, true, true, true, true], [true, true], [true]]
  collapsedNonterminals := 0
  collapsedRegions := 0
  terminalDfaStates := 0
  terminalDfaBytes := 0

namespace unmarkedNullable

theorem wellFormed : unmarkedNullable.WellFormed where
  start_lt := by decide
  lhs_lt := by simp [unmarkedNullable]
  rhs_inRange := by simp [unmarkedNullable, ResidualGrammar.SymbolInRange]
  nullable_length := rfl

/-- What a recognizer says of `ccbf`. -/
def accepts (e : CompiledEarley) (leo : Bool) : Option Bool :=
  (e.run .default leo 1 [99, 99, 98, 102]).toOption.map EarleyRecognizer.isAccepting

theorem accepts_eq_some {e : CompiledEarley} {leo answer : Bool} (h : accepts e leo = some answer) :
    ∃ s, e.run .default leo 1 [99, 99, 98, 102] = .ok s ∧ s.isAccepting = answer := by
  obtain ⟨s, hs, hanswer⟩ := Option.map_eq_some_iff.1 h
  exact ⟨s, Result.toOption_eq_some.1 hs, hanswer⟩

end unmarkedNullable

/-- Leo completion changes the language of a grammar whose nullable flags are wrong: `ccbf` is
accepted with it and rejected without. -/
theorem leo_disagrees_unmarkedNullable :
    ¬ ∀ (g : ResidualGrammar) (compileLimits : CompileLimits) (e : CompiledEarley),
      CompiledEarley.build g compileLimits = .ok e → g.WellFormed →
      ∀ (limits limits' : RuntimeLimits) (generation generation' : ℕ) (x : List UInt8),
        e.WithinLimits limits false generation x → e.WithinLimits limits' true generation' x →
        ∀ p, p <+: x → ∃ s s', e.run limits false generation p = .ok s ∧
          e.run limits' true generation' p = .ok s' ∧ s.isAccepting = s'.isAccepting ∧
          s.isLive = s'.isLive ∧ ∀ scan, scan ∈ s.activeScans ↔ scan ∈ s'.activeScans := by
  intro h
  have hok : ((CompiledEarley.build unmarkedNullable .default).toOption.map fun e =>
      (unmarkedNullable.accepts e false, unmarkedNullable.accepts e true)) =
        some (some false, some true) := by decide +kernel
  obtain ⟨e, hbuild, hanswers⟩ := Option.map_eq_some_iff.1 hok
  obtain ⟨hoff, hon⟩ := Prod.mk.inj hanswers
  obtain ⟨s, hs, hrejects⟩ := unmarkedNullable.accepts_eq_some hoff
  obtain ⟨s', hs', haccepts⟩ := unmarkedNullable.accepts_eq_some hon
  obtain ⟨t, t', ht, ht', hsame, -⟩ := h _ _ e (Result.toOption_eq_some.1 hbuild)
    unmarkedNullable.wellFormed .default .default 1 1 [99, 99, 98, 102]
    (CompiledEarley.withinLimits_of_isOk (by rw [hs]; rfl))
    (CompiledEarley.withinLimits_of_isOk (by rw [hs']; rfl)) _ (List.prefix_refl _)
  obtain rfl := Except.ok.inj (hs.symm.trans ht)
  obtain rfl := Except.ok.inj (hs'.symm.trans ht')
  rw [hrejects, haccepts] at hsame
  exact Bool.false_ne_true hsame

end OcEarley
