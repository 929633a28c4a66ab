import OcEarley.Earley.Language

/-!
# Saturation ends

Wherever `saturate` is called, in the making of a recognizer and after the scans of a byte, it ends
unless a limit is exceeded, and by then it has processed every item of the column once
(`saturation_terminates`).
-/

namespace OcEarley

open Method ChartColumn

namespace EarleyRecognizer

/-- The recognizers that a fresh one turns into, byte by byte, as long as no limit is exceeded. -/
inductive Advanced (compiled : CompiledEarley) (limits : RuntimeLimits) (leo : Bool)
    (generation : ℕ) : EarleyRecognizer → Prop
  | start {r : EarleyRecognizer} (h : compiled.recognizer limits leo generation = .ok r) :
    Advanced compiled limits leo generation r
  | advance {r r' : EarleyRecognizer} {byte : UInt8} {live : Bool}
    (h : Advanced compiled limits leo generation r) (hbyte : advanceByte byte r = .ok live r') :
    Advanced compiled limits leo generation r'

/-- The call of `saturate` on column `n` ends.  The items it leaves there are distinct, there are at
most as many as dotted rules and origins allow, and its loop has processed them
one after the other. -/
structure Saturates (n : ℕ) (s : EarleyRecognizer) : Prop where
  isLimit : ∀ e s', saturate n s = .error e s' → e.IsLimit
  processed : ∀ scans s', saturate n s = .ok scans s' → ∃ c, s'.chart[n]? = some c ∧ c.items.Nodup ∧
    c.items.length ≤ s.compiled.dotted.length * (n + 1) ∧
      ∃ scans₀ s₀, saturateLoop n (s.saturateFuel n) 0 [] s = .ok scans₀ s₀ ∧
        c.items.foldlM (fun scans item => processItem n item scans) [] s = .ok scans₀ s₀ ∧
          ∃ c₀, s₀.chart[n]? = some c₀ ∧ c₀.items = c.items

variable {compiled : CompiledEarley} {limits : RuntimeLimits} {leo : Bool} {generation n : ℕ}
  {r s : EarleyRecognizer} {c : ChartColumn}

theorem Filling.saturates (hlaid : compiled.Laid) (hg : compiled.grammar.WellFormed)
    (h : Filling compiled n 0 [] s c) : Saturates n s := by
  have hwp := h.wp_saturate hlaid hg
  refine ⟨fun e s' herr => wp_error hwp herr, fun scans s' hok => ?_⟩
  obtain ⟨c', f, -, hsat⟩ := wp_ok hwp hok
  refine ⟨c', hsat.column, hsat.filled.agenda.nodup, ?_, hsat.processed⟩
  rw [h.compiled]
  exact hsat.filled.agenda.length_le

theorem charted_of_recognizer (hlaid : compiled.Laid) (hg : compiled.grammar.WellFormed)
    (h : compiled.recognizer limits leo generation = .ok r) : Charted compiled 0 r := by
  obtain ⟨_, hlimits, h⟩ := Result.bind_eq_ok.1 h
  have hwp := wp_prepare_charted hlaid hg (Result.require_eq_ok.1 hlimits) leo generation
  split at h
  · next s hprep =>
    obtain rfl := Result.pure_eq_ok.1 h
    have hcharted := wp_ok hwp hprep
    exact hcharted
  · cases h

theorem Advanced.charted (hlaid : compiled.Laid) (hg : compiled.grammar.WellFormed)
    (h : Advanced compiled limits leo generation r) : ∃ n, Charted compiled n r := by
  induction h with
  | start h => exact ⟨0, charted_of_recognizer hlaid hg h⟩
  | advance _ hbyte ih =>
    obtain ⟨n, ih⟩ := ih
    have hnext := wp_ok (ih.wp_advanceByte hlaid hg) hbyte
    exact ⟨n + 1, hnext⟩

end EarleyRecognizer

open EarleyRecognizer

/-- **Saturation ends** with every item processed once, in the column of the start item and in the
column of every byte, and each column stays within a fixed bound. -/
theorem saturation_terminates {g : ResidualGrammar} {compileLimits : CompileLimits}
    {compiled : CompiledEarley} (hbuild : CompiledEarley.build g compileLimits = .ok compiled)
    (hg : g.WellFormed) (limits : RuntimeLimits) (leo : Bool) (generation : ℕ) :
    (∀ s, insertItem 0 ⟨compiled.start, 0⟩ (compiled.blank limits leo generation) = .ok () s →
      Saturates 0 s) ∧
    ∀ r, Advanced compiled limits leo generation r →
      (∀ p c, r.chart[p]? = some c →
        c.items.Nodup ∧ c.items.length ≤ compiled.dotted.length * (p + 1)) ∧
      ∀ byte scans s, scanColumn byte r = .ok scans s → Saturates r.chart.length s := by
  obtain ⟨rfl, hlaid⟩ := CompiledEarley.build_laid hbuild
  refine ⟨fun s hs => ?_, fun r hr => ?_⟩
  · have hwp : wp RuntimeError.IsLimit (insertItem 0 ⟨compiled.start, 0⟩)
        (fun _ s' => ∃ c, Filling compiled 0 0 [] s' c) (compiled.blank limits leo generation) :=
      wp_insertItem rfl fun s' halt => filling_start hlaid halt
    obtain ⟨c, hfill⟩ := wp_ok hwp hs
    exact hfill.saturates hlaid hg
  · obtain ⟨n, hcharted⟩ := hr.charted hlaid hg
    refine ⟨fun p c hc => ?_, fun byte scans s hs => ?_⟩
    · have hagenda := (hcharted.columns p c hc).agenda
      exact ⟨hagenda.nodup, hagenda.length_le⟩
    · obtain ⟨⟨c, f, -, hfill⟩, -⟩ := wp_ok (hcharted.wp_scanColumn hlaid) hs
      rw [hcharted.length]
      exact hfill.saturates hlaid hg

theorem saturation_terminates_rightRecursive :
    Saturates 0 (stateOf (insertItem 0 ⟨rightRecursiveEarley.start, 0⟩
      (rightRecursiveEarley.blank .default true 1))) := by
  have hstart : valueOf (insertItem 0 ⟨rightRecursiveEarley.start, 0⟩
      (rightRecursiveEarley.blank .default true 1)) = .ok () := by decide +kernel
  exact (saturation_terminates rightRecursive.build_eq rightRecursive.wellFormed
    .default true 1).1 _
    (valueOf_eq_ok.1 hstart)

end OcEarley
