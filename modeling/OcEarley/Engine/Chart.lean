import OcEarley.Earley.Counts
import OcEarley.Earley.Saturation
import OcEarley.Engine.Transaction

/-!
# The chart between calls

What holds of the chart of an Earley recognizer after any calls of `try_advance_bytes`, whatever
they answered (`EarleyRecognizer.ChartInvariant`).  A call that rejects its bytes or fails may leave
a column half filled, but then it goes back to its checkpoint.
-/

namespace OcEarley

open Method ChartColumn

namespace EarleyRecognizer

/-- The symbol after the dot of an item. -/
def nextSymbol (compiled : CompiledEarley) (item : EarleyItem) : Option GrammarSymbol :=
  compiled.dotted[item.dotted]?.bind DottedRule.next

/-- Column `j` of the chart. -/
structure ColumnInvariant (compiled : CompiledEarley) (limits : RuntimeLimits) (j : ℕ)
    (c : ChartColumn) : Prop where
  position : c.position = j
  nodup : c.items.Nodup
  membership : ∀ key, key ∈ c.membership ↔ ∃ item ∈ c.items, item.key = key
  inRange : ∀ item ∈ c.items, item.origin ≤ j ∧ item.dotted < compiled.dotted.length
  nonterminal : ∀ B, c.waitingNonterminal.get B =
    c.items.filter fun item => nextSymbol compiled item = some (.nonterminal B)
  terminal : ∀ t, c.waitingTerminal.get t =
    c.items.filter fun item => nextSymbol compiled item = some (.terminal t)
  leo : ∀ B top, c.leoByPostdot.lookup B = some top → top.origin ≤ j ∧
    ∃ rule, compiled.dotted[top.dotted]? = some rule ∧ rule.next = none
  items_le : c.items.length ≤ limits.maxItemsPerColumn

/-- What holds of the chart and the counters of a recognizer. -/
structure ChartInvariant (r : EarleyRecognizer) : Prop where
  length : r.chart.length = r.bytePosition + 1
  columns : ∀ j c, r.chart[j]? = some c → ColumnInvariant r.compiled r.limits j c
  sorted : r.activeScans.Pairwise (ActiveScan.key · < ActiveScan.key ·)
  scans : ∀ scan ∈ r.activeScans, scan.start < r.chart.length
  totalItems : r.totalItems = itemCount r.chart
  leoItems : r.leoItems = leoCount r.chart
  bytes_le : r.bytePosition ≤ r.limits.maxInputBytes
  columns_le : r.chart.length ≤ r.limits.maxChartColumns
  scans_le : r.activeScans.length ≤ r.limits.maxActiveScans
  totalItems_le : r.totalItems ≤ r.limits.maxTotalItems
  leoItems_le : r.leoItems ≤ r.limits.maxLeoItems

variable {compiled : CompiledEarley} {limits : RuntimeLimits} {leo : Bool} {generation n : ℕ}
  {r r' s : EarleyRecognizer} {c : ChartColumn} {bytes : List UInt8}

theorem Filled.columnInvariant (hlaid : compiled.Laid) (h : Filled compiled n c) (hn : n ≤ u32Max)
    (hle : c.items.length ≤ limits.maxItemsPerColumn) :
    ColumnInvariant compiled limits n c := by
  have hnext : ∀ item ∈ c.items, nextSymbol compiled item = (compiled.rest item.dotted).head? := by
    intro item hitem
    have hd := List.getElem?_eq_getElem (h.agenda.fits item hitem).dotted_lt
    rw [nextSymbol, hd, Option.bind_some]
    exact hlaid.next_eq hd
  have hfilter : ∀ sym, c.items.filter (NextIs compiled sym) =
      c.items.filter fun item => nextSymbol compiled item = some sym := fun sym =>
    List.filter_congr fun item hitem => by rw [hnext item hitem]; rfl
  refine ⟨h.agenda.position, h.agenda.nodup, fun key => ⟨h.keys key, ?_⟩, fun item hitem => ?_,
    fun B => ?_, fun t => ?_, fun B top htop => ?_, hle⟩
  · rintro ⟨item, hitem, rfl⟩
    exact (h.agenda.mem_iff item ((h.agenda.fits item hitem).origin_le.trans hn)).2 hitem
  · exact ⟨(h.agenda.fits item hitem).origin_le, (h.agenda.fits item hitem).dotted_lt⟩
  · rw [h.agenda.nonterminal, List.take_length, hfilter]
  · rw [h.agenda.terminal, List.take_length, hfilter]
  · obtain ⟨hfits, hend⟩ := h.leo B top htop
    have hd := List.getElem?_eq_getElem hfits.dotted_lt
    exact ⟨hfits.origin_le, _, hd, by rw [hlaid.next_eq hd, hend]; rfl⟩

/-- The books and the counters together. -/
theorem Charted.chartInvariant (hlaid : compiled.Laid) (h : Charted compiled n r) (hc : Counted r) :
    ChartInvariant r := by
  obtain rfl := h.bytePosition
  refine ⟨h.length, fun j c hj => ?_, h.sorted, fun scan hscan => ?_, hc.totalItems, hc.leoItems,
    h.bytes_le, h.length ▸ h.columns_le, h.scans_le, hc.totalItems_le, hc.leoItems_le⟩
  · rw [h.compiled]
    have hlt := (List.getElem?_eq_some_iff.1 hj).1
    rw [h.length] at hlt
    exact (h.columns j c hj).columnInvariant hlaid ((Nat.le_of_lt_succ hlt).trans h.position_le)
      (hc.items_le c (List.mem_of_getElem? hj))
  · rw [h.length]
    exact Nat.lt_succ_of_le (h.scans scan hscan).1

/-! ### Calls -/

/-- The recognizers that calls of `try_advance_bytes` lead to, whatever they answer. -/
inductive Reachable (compiled : CompiledEarley) (limits : RuntimeLimits) (leo : Bool)
    (generation : ℕ) : EarleyRecognizer → Prop
  | start {r : EarleyRecognizer} (h : compiled.recognizer limits leo generation = .ok r) :
    Reachable compiled limits leo generation r
  | advance {r r' : EarleyRecognizer} (h : Reachable compiled limits leo generation r)
    (bytes : List UInt8)
    (hr' : stateOf (RecognizerState.tryAdvanceBytes bytes (.earley r)) = .earley r') :
    Reachable compiled limits leo generation r'

/-- The chart and the counters are in order, and the limits are those it was made with. -/
structure InOrder (compiled : CompiledEarley) (limits : RuntimeLimits) (r : EarleyRecognizer) :
    Prop where
  charted : ∃ n, Charted compiled n r
  counted : Counted r
  limits : r.limits = limits

theorem InOrder.hasColumn (h : InOrder compiled limits r) :
    RecognizerState.HasColumn (.earley r) := by
  obtain ⟨n, hcharted⟩ := h.charted
  exact List.length_pos_iff.1 (by rw [hcharted.length]; exact Nat.succ_pos n)

/-- **One byte.** -/
theorem InOrder.advanceByte (hlaid : compiled.Laid) (hg : compiled.grammar.WellFormed)
    (h : InOrder compiled limits r) (byte : UInt8) :
    wp RuntimeError.IsLimit (EarleyRecognizer.advanceByte byte)
      (fun _ r' => InOrder compiled limits r') r := by
  obtain ⟨n, hcharted⟩ := h.charted
  refine wp_self (wp_mono (hcharted.wp_advanceByte hlaid hg) fun live r' hcharted' hrun => ?_)
  have hcounted := h.counted.advanceByte byte
  have hkeeps := keeps_advanceByte byte r
  rw [hrun] at hcounted hkeeps
  exact ⟨⟨n + 1, hcharted'⟩, hcounted, hkeeps.limits.trans h.limits⟩

theorem InOrder.of_consumes (hlaid : compiled.Laid) (hg : compiled.grammar.WellFormed)
    (h : InOrder compiled limits r)
    (hr : RecognizerState.Consumes (.earley r) bytes (.earley r')) :
    InOrder compiled limits r' := by
  induction bytes generalizing r with
  | nil =>
    obtain rfl := RecognizerState.earley.inj hr
    exact h
  | cons byte bytes ih =>
    obtain ⟨t, ht, hr⟩ := hr
    have hwp := h.advanceByte hlaid hg byte
    change zoom _ _ r = _ at ht
    cases hrun : EarleyRecognizer.advanceByte byte r with
    | error e s =>
      rw [zoom_eq_error hrun] at ht
      cases ht
    | ok live s =>
      rw [zoom_eq_ok hrun] at ht
      obtain ⟨-, rfl⟩ := EStateM.Result.ok.inj ht
      have hnext := wp_ok hwp hrun
      exact ih hnext hr

/-- A call can only fail with a limit error. -/
theorem InOrder.isLimit_of_advanceLoop (hlaid : compiled.Laid) (hg : compiled.grammar.WellFormed)
    (hr : RecognizerState.HasColumn (.earley r)) {e : RuntimeError} {t : RecognizerState}
    (h : InOrder compiled limits s) (hext : RecognizerState.Extends (.earley r) (.earley s))
    (herr : RecognizerState.advanceLoop (RecognizerState.checkpoint (.earley r)) bytes (.earley s) =
      .error e t) : e.IsLimit := by
  induction bytes generalizing s with
  | nil => cases herr
  | cons byte bytes ih =>
    have hwp := h.advanceByte hlaid hg byte
    have hext' := hext.trans (RecognizerState.extends_advanceByte byte (.earley s))
    have hbyte : RecognizerState.advanceByte byte (.earley s) =
        zoom .earley (EarleyRecognizer.advanceByte byte) s := rfl
    rw [RecognizerState.advanceLoop_cons] at herr
    cases hrun : EarleyRecognizer.advanceByte byte s with
    | error e' s' =>
      rw [hbyte, zoom_eq_error hrun] at herr hext'
      have hrestore := bind_of_ok
        (f := fun _ => (throw e' : Method RuntimeError RecognizerState Advance))
        (RecognizerState.restore_of_extends hr hext')
      obtain ⟨rfl, -⟩ := EStateM.Result.error.inj (hrestore.symm.trans herr)
      exact wp_error hwp hrun
    | ok live s' =>
      rw [hbyte, zoom_eq_ok hrun] at herr hext'
      cases live with
      | true =>
        have hnext := wp_ok hwp hrun
        exact ih hnext hext' herr
      | false =>
        have hrestore := bind_of_ok
          (f := fun _ => (pure Advance.rejected : Method RuntimeError RecognizerState Advance))
          (RecognizerState.restore_of_extends hr hext')
        cases hrestore.symm.trans herr

theorem inOrder_of_recognizer (hlaid : compiled.Laid) (hg : compiled.grammar.WellFormed)
    (h : compiled.recognizer limits leo generation = .ok r) : InOrder compiled limits r := by
  have hcharted := charted_of_recognizer hlaid hg h
  obtain ⟨-, -, h⟩ := Result.bind_eq_ok.1 h
  have hcounted : Counted
      (stateOf (CompiledEarley.prepare (compiled.blank limits leo generation))) :=
    Counted.prepare
  have hkeeps := CompiledEarley.keeps_prepare (compiled.blank limits leo generation)
  split at h
  · next hprep =>
    obtain rfl := Result.pure_eq_ok.1 h
    rw [hprep] at hcounted hkeeps
    exact ⟨⟨0, hcharted⟩, hcounted, hkeeps.limits⟩
  · cases h

theorem Reachable.inOrder (hlaid : compiled.Laid) (hg : compiled.grammar.WellFormed)
    (h : Reachable compiled limits leo generation r) : InOrder compiled limits r := by
  induction h with
  | start h => exact inOrder_of_recognizer hlaid hg h
  | @advance r r' _ bytes hr' ih =>
    rcases RecognizerState.tryAdvanceBytes_spec ih.hasColumn bytes with ⟨t, ht⟩ | h | ⟨e, h⟩
    · rw [RecognizerState.tryAdvanceBytes_of_consumes ht] at hr'
      obtain rfl : t = .earley r' := hr'
      exact ih.of_consumes hlaid hg ht
    · rw [h] at hr'
      exact RecognizerState.earley.inj hr' ▸ ih
    · rw [h] at hr'
      exact RecognizerState.earley.inj hr' ▸ ih

end EarleyRecognizer

open EarleyRecognizer

/-- **Chart invariants.**  After any calls of `try_advance_bytes` the chart, its indexes and its
counters are in order and within the limits, and a call can only fail with a limit error. -/
theorem chart_invariant {g : ResidualGrammar} {compileLimits : CompileLimits}
    {compiled : CompiledEarley} (hbuild : CompiledEarley.build g compileLimits = .ok compiled)
    (hg : g.WellFormed) (limits : RuntimeLimits) (leo : Bool) (generation : ℕ) :
    (∀ e, compiled.recognizer limits leo generation = .error e → e.IsLimit) ∧
    ∀ r, EarleyRecognizer.Reachable compiled limits leo generation r →
      ChartInvariant r ∧ r.compiled = compiled ∧ r.limits = limits ∧
      ∀ bytes e t, RecognizerState.tryAdvanceBytes bytes (.earley r) = .error e t → e.IsLimit := by
  obtain ⟨rfl, hlaid⟩ := CompiledEarley.build_laid hbuild
  refine ⟨fun e he => ?_, fun r hr => ?_⟩
  · rcases Result.bind_eq_error.1 he with he | ⟨_, hlimits, he⟩
    · obtain ⟨-, rfl⟩ := Result.require_eq_error.1 he
      trivial
    · have hwp := wp_prepare_charted hlaid hg (Result.require_eq_ok.1 hlimits) leo generation
      split at he
      · cases he
      · next hprep =>
        cases he
        exact wp_error hwp hprep
  · have hin := hr.inOrder hlaid hg
    obtain ⟨n, hcharted⟩ := hin.charted
    refine ⟨hcharted.chartInvariant hlaid hin.counted, hcharted.compiled, hin.limits,
      fun bytes e t herr => ?_⟩
    exact InOrder.isLimit_of_advanceLoop hlaid hg hin.hasColumn hin (.refl _) herr

theorem chart_invariant_limitedRecognizer :
    EarleyRecognizer.ChartInvariant limitedRecognizer ∧
      ∀ e t, RecognizerState.tryAdvanceBytes [97, 97] (.earley limitedRecognizer) = .error e t →
        e.IsLimit := by
  have hreachable := (chart_invariant rightRecursive.build_eq rightRecursive.wellFormed
    { RuntimeLimits.default with maxInputBytes := 1 } true 1).2 limitedRecognizer
    (.start recognizer_eq_limitedRecognizer)
  exact ⟨hreachable.1, hreachable.2.2.2 [97, 97]⟩

end OcEarley
