import OcEarley.Earley.Saturate

/-!
# The recognizer decides the language

`Consumed x n s` is the invariant of a recognizer that has consumed the first `n` bytes of `x`:
all its columns are complete, scans have put their items into the columns they end in, and the
active scans are the scans of the chart whose cursor is still live.  From it,

* `isAccepting` and `isLive` are read off the chart, with and without Leo completion;
* the chart is the set of deduced items of the grammar, so `isAccepting` decides the language and
  `isLive` the prefixes of its words.
-/

namespace OcEarley

open Method ChartColumn

namespace EarleyRecognizer

variable {e : CompiledEarley} (hlaid : e.Laid) (hg : e.grammar.WellFormed)

/-- The recognizer has consumed the first `n` bytes of `x`. -/
structure Consumed (x : List UInt8) (n : ℕ) (s : EarleyRecognizer) : Prop where
  compiled : s.compiled = e
  bytePosition : s.bytePosition = n
  length : s.chart.length = n + 1
  le_length : n ≤ x.length
  position_le : n ≤ u32Max
  columns : ∀ k c, s.chart[k]? = some c → CompleteColumn hlaid hg x s.leoEnabled s.chart k c
  init : ∃ c, s.chart[0]? = some c ∧ { dotted := e.start, origin := 0 } ∈ c.items
  scanned : ∀ {k j c c'}, k < j → s.chart[k]? = some c → s.chart[j]? = some c' →
    ∀ item ∈ c.items, ∀ t β, e.rest item.dotted = .terminal t :: β →
      segment x k j ∈ e.grammar.scanLanguage t → advance item ∈ c'.items
  active : ∀ scan, scan ∈ s.activeScans ↔
    ∃ terminal c item β, e.grammar.terminals[scan.terminal]? = some terminal ∧
      scan.start ≤ n ∧ terminal.liveRun (segment x scan.start n) = some scan.cursor ∧
      s.chart[scan.start]? = some c ∧ item ∈ c.items ∧
      e.rest item.dotted = .terminal scan.terminal :: β
  sorted : ∃ l, s.activeScans = sortDedup ActiveScan.key l

variable {hlaid hg} {x : List UInt8} {n : ℕ} {s s' : EarleyRecognizer} {byte : UInt8}

/-! ### Reading a byte -/

namespace Consumed

variable (h : Consumed hlaid hg x n s)
include h

theorem column_of_le {k : ℕ} (hk : k ≤ n) : ∃ c, s.chart[k]? = some c :=
  ⟨_, List.getElem?_eq_getElem (by rw [h.length]; omega)⟩

theorem beginByte_column {k : ℕ} (hk : k ≤ n) : (beginByte s n).chart[k]? = s.chart[k]? :=
  List.getElem?_append_left (by rw [h.length]; omega)

theorem scanReady {scan : ActiveScan} (hscan : scan ∈ s.activeScans) :
    ScanReady (beginByte s n) (n + 1) scan := by
  obtain ⟨terminal, c, item, β, hterm, hle, -, hcol, hmem, hr⟩ := (h.active scan).1 hscan
  have hcomp : (beginByte s n).compiled = e := h.compiled
  refine ⟨?_, Nat.lt_succ_of_le hle, fun {col w} hcol' hw => ?_⟩
  · rw [hcomp]
    exact (List.getElem?_eq_some_iff.1 hterm).1
  · rw [h.beginByte_column hle] at hcol'
    obtain ⟨-, β, hr⟩ := ((h.columns _ _ hcol').agenda).of_mem_terminal hw
    rw [hcomp]
    exact advanceable_of_rest hlaid hr

/-- The items of scans that accept at the next byte. -/
theorem scannedItems_sound (hbyte : x[n]? = some byte) {scan : ActiveScan}
    (hscan : scan ∈ s.activeScans) {y : EarleyItem}
    (hy : y ∈ scannedItems (beginByte s n) byte scan) :
    Deduced hlaid hg x (n + 1) y ∧ Fits e (n + 1) y := by
  obtain ⟨terminal, c, item, β, hterm, hle, hrun, hcol, -, -⟩ := (h.active scan).1 hscan
  obtain ⟨hlt, hget⟩ := List.getElem?_eq_some_iff.1 hbyte
  have hcomp : (beginByte s n).compiled = e := h.compiled
  simp only [scannedItems, hcomp, hterm, h.beginByte_column hle, hcol] at hy
  split at hy
  · simp at hy
  rename_i cursor hadv
  split at hy
  · rename_i hacc
    obtain ⟨w, hw, rfl⟩ := List.mem_map.1 hy
    have hcomp := h.columns _ _ hcol
    obtain ⟨hmem, β, hr⟩ := hcomp.agenda.of_mem_terminal hw
    have hword : segment x scan.start (n + 1) ∈ e.grammar.scanLanguage scan.terminal := by
      rw [ResidualGrammar.scanLanguage_eq hterm, segment_succ hle hlt, hget]
      exact ⟨_, _, _, _, rfl, hrun, hadv, hacc⟩
    exact ⟨(hcomp.deduced w hmem).scan hr (Nat.le_succ_of_le hle) hlt hword,
      fits_advance hlaid (hcomp.agenda.fits w hmem) (Nat.le_succ_of_le hle) hr⟩
  · simp at hy

/-- Every scan that ends with the next byte has put its items into the new column. -/
theorem scannedItems_complete (hbyte : x[n]? = some byte) {k : ℕ} {c : ChartColumn}
    (hk : k ≤ n) (hcol : s.chart[k]? = some c) {item : EarleyItem} (hitem : item ∈ c.items)
    {t : ℕ} {β : List GrammarSymbol} (hr : e.rest item.dotted = .terminal t :: β)
    (hword : segment x k (n + 1) ∈ e.grammar.scanLanguage t) :
    ∃ scan ∈ s.activeScans, advance item ∈ scannedItems (beginByte s n) byte scan := by
  obtain ⟨hlt, hget⟩ := List.getElem?_eq_some_iff.1 hbyte
  obtain ⟨terminal, hterm⟩ : ∃ terminal, e.grammar.terminals[t]? = some terminal :=
    ⟨_, List.getElem?_eq_getElem
      (hlaid.rest_inRange hg item.dotted (.terminal t) (hr ▸ List.mem_cons_self))⟩
  rw [ResidualGrammar.scanLanguage_eq hterm, segment_succ hk hlt, hget] at hword
  obtain ⟨v, b, cur, cur', heq, hrun, hadv, hacc⟩ := hword
  obtain ⟨rfl, rfl⟩ := List.append_singleton_inj.1 heq
  refine ⟨⟨t, k, cur⟩, (h.active _).2 ⟨terminal, c, item, β, hterm, hk, hrun, hcol, hitem, hr⟩, ?_⟩
  have hcomp : (beginByte s n).compiled = e := h.compiled
  simp only [scannedItems, hcomp, hterm, h.beginByte_column hk, hcol, hadv, hacc, if_true]
  exact List.mem_map_of_mem ((h.columns _ _ hcol).agenda.mem_terminal_of_mem hitem hr)

/-- The scans that go on over the next byte. -/
theorem mem_continuing_iff (hbyte : x[n]? = some byte) {scan : ActiveScan} :
    scan ∈ s.activeScans.filterMap (continuingScan e byte) ↔
      ∃ terminal c item β, e.grammar.terminals[scan.terminal]? = some terminal ∧
        scan.start ≤ n ∧ terminal.liveRun (segment x scan.start (n + 1)) = some scan.cursor ∧
        s.chart[scan.start]? = some c ∧ item ∈ c.items ∧
        e.rest item.dotted = .terminal scan.terminal :: β := by
  obtain ⟨hlt, hget⟩ := List.getElem?_eq_some_iff.1 hbyte
  rw [List.mem_filterMap]
  constructor
  · rintro ⟨old, hold, hnext⟩
    obtain ⟨terminal, c, item, β, hterm, hle, hrun, hcol, hitem, hr⟩ := (h.active old).1 hold
    simp only [continuingScan, hterm] at hnext
    split at hnext
    · cases hnext
    rename_i cursor hadv
    split at hnext
    · rename_i hlive
      obtain rfl := Option.some.inj hnext
      refine ⟨terminal, c, item, β, hterm, hle, ?_, hcol, hitem, hr⟩
      rw [segment_succ hle hlt, hget, CompiledTerminal.liveRun_snoc, hrun, Option.bind_some]
      exact Option.filter_eq_some_iff.2 ⟨hadv, hlive⟩
    · cases hnext
  · rintro ⟨terminal, c, item, β, hterm, hle, hrun, hcol, hitem, hr⟩
    rw [segment_succ hle hlt, hget, CompiledTerminal.liveRun_snoc] at hrun
    obtain ⟨cursor, hrun, hstep⟩ := Option.bind_eq_some_iff.1 hrun
    obtain ⟨hadv, hlive⟩ := Option.filter_eq_some_iff.1 hstep
    refine ⟨{ scan with cursor := cursor },
      (h.active _).2 ⟨terminal, c, item, β, hterm, hle, hrun, hcol, hitem, hr⟩, ?_⟩
    simp only [continuingScan, hterm, hadv]
    rw [if_pos hlive]

end Consumed

/-- The scans of a freshly saturated column. -/
theorem mem_created_iff {c : ChartColumn} {scan : ActiveScan}
    (hfits : ∀ item ∈ c.items, Fits e n item) (hlaid : e.Laid) :
    scan ∈ c.items.filterMap (scanFor e n) ↔ scan.start = n ∧
      ∃ terminal item β, e.grammar.terminals[scan.terminal]? = some terminal ∧
        scan.cursor = terminal.start ∧ item ∈ c.items ∧
        e.rest item.dotted = .terminal scan.terminal :: β := by
  rw [List.mem_filterMap]
  constructor
  · rintro ⟨item, hitem, hscan⟩
    obtain ⟨r, hd, hscan⟩ := Option.bind_eq_some_iff.1 hscan
    unfold scanOf at hscan
    split at hscan
    · rename_i t ht
      obtain ⟨terminal, hterm, rfl⟩ := Option.map_eq_some_iff.1 hscan
      obtain ⟨β, hr⟩ := List.head?_eq_some_iff.1 ((hlaid.next_eq hd).symm.trans ht)
      exact ⟨rfl, terminal, item, β, hterm, rfl, hitem, hr⟩
    · cases hscan
  · rintro ⟨hstart, terminal, item, β, hterm, hcur, hitem, hr⟩
    have hd := List.getElem?_eq_getElem (hfits item hitem).dotted_lt
    refine ⟨item, hitem, Option.bind_eq_some_iff.2 ⟨_, hd, ?_⟩⟩
    have hnext := hlaid.next_eq hd
    rw [hr, List.head?_cons] at hnext
    obtain ⟨t, k, cur⟩ := scan
    simp only at hstart hcur hterm hnext
    subst hstart hcur
    simp [scanOf, hnext, hterm]

/-- The new column, with the items of the scans, is ready to be saturated. -/
theorem Consumed.saturating (h : Consumed hlaid hg x n s) (hbyte : x[n]? = some byte)
    (hn : n + 1 ≤ u32Max)
    (halt : Alters (n + 1) (·.insertAll (s.activeScans.flatMap
      (scannedItems (beginByte s n) byte))) (beginByte s n) s') :
    ∃ c, s'.chart[n + 1]? = some c ∧ Saturating hlaid hg x (n + 1) 0 [] s' c ∧
      ∀ y, y ∈ c.items ↔ y ∈ s.activeScans.flatMap (scannedItems (beginByte s n) byte) := by
  have hnew : (beginByte s n).chart[n + 1]? = some (.new (n + 1)) := by
    rw [beginByte, ← h.length]
    exact List.getElem?_concat_length
  have hsound : ∀ y ∈ s.activeScans.flatMap (scannedItems (beginByte s n) byte),
      Deduced hlaid hg x (n + 1) y ∧ Fits e (n + 1) y := fun y hy => by
    obtain ⟨scan, hscan, hy⟩ := List.mem_flatMap.1 hy
    exact h.scannedItems_sound hbyte hscan hy
  obtain ⟨hagenda, hitems⟩ := (agenda_new (e := e) (n := n + 1)).insertAll hn (Nat.zero_le _)
    fun y hy => (hsound y hy).2
  simp only [ChartColumn.new, List.not_mem_nil, false_or] at hitems
  have hcol := halt.getElem?_self hnew
  refine ⟨_, hcol, ⟨halt.compiled.trans h.compiled, ?_, hn, fun k hk col hk' => ?_, hcol,
    Nat.zero_le _, hagenda, fun y hy =>
      (hsound y ((hitems y).1 hy)).1, by simp, ?_, by simp⟩, hitems⟩
  · rw [halt.length_chart, beginByte, List.length_append, h.length, List.length_singleton]
  · rw [halt.getElem?_of_ne hk.ne, h.beginByte_column (Nat.le_of_lt_succ hk)] at hk'
    rw [halt.leoEnabled]
    exact (h.columns k col hk').congr fun j hj => by
      rw [halt.getElem?_of_ne (hj.trans hk).ne, h.beginByte_column (by omega)]
  · rw [insertAll_frame.2.2.2]
    rfl

/-- The recognizer with the new column complete and its scans merged. -/
theorem Consumed.next (h : Consumed hlaid hg x n s) (hbyte : x[n]? = some byte)
    (hn : n + 1 ≤ u32Max) {c : ChartColumn} {f : ChartColumn → ChartColumn}
    (halt : Alters (n + 1) f (beginByte s n) s') (hcol : s'.chart[n + 1]? = some c)
    (hc : CompleteColumn hlaid hg x s'.leoEnabled s'.chart (n + 1) c)
    (hseed : ∀ scan ∈ s.activeScans, ∀ y ∈ scannedItems (beginByte s n) byte scan, y ∈ c.items)
    {stats : EarleyStats} :
    Consumed hlaid hg x (n + 1) { s' with
      activeScans := sortDedup ActiveScan.key (s.activeScans.filterMap (continuingScan e byte) ++
        sortDedup ActiveScan.key (c.items.filterMap (scanFor e (n + 1))))
      bytePosition := n + 1
      stats := stats } := by
  have hlt := (List.getElem?_eq_some_iff.1 hbyte).1
  have hlength : s'.chart.length = n + 2 := by
    rw [halt.length_chart, beginByte, List.length_append, h.length, List.length_singleton]
  have hold : ∀ {k}, k ≤ n → s'.chart[k]? = s.chart[k]? := fun {k} hk => by
    rw [halt.getElem?_of_ne (by omega), h.beginByte_column hk]
  -- an old column, or the new one
  have hcases : ∀ {k col}, s'.chart[k]? = some col →
      (k ≤ n ∧ s.chart[k]? = some col) ∨ (k = n + 1 ∧ col = c) := by
    intro k col hk
    have := (List.getElem?_eq_some_iff.1 hk).1
    rcases Nat.lt_or_ge n k with hlt | hle
    · obtain rfl : k = n + 1 := by omega
      exact .inr ⟨rfl, Option.some.inj (hk.symm.trans hcol)⟩
    · exact .inl ⟨hle, hold hle ▸ hk⟩
  refine ⟨halt.compiled.trans h.compiled, rfl, hlength, hlt, hn, ?_, ?_, ?_, ?_, ⟨_, rfl⟩⟩
  · intro k col hk
    rcases hcases hk with ⟨hle, hk'⟩ | ⟨rfl, rfl⟩
    · change CompleteColumn hlaid hg x s'.leoEnabled s'.chart k col
      rw [halt.leoEnabled]
      exact (h.columns k col hk').congr fun j hj => hold (by omega)
    · exact hc
  · obtain ⟨c₀, hc₀, hinit⟩ := h.init
    exact ⟨c₀, (hold (Nat.zero_le n)).trans hc₀, hinit⟩
  · intro k j col col' hkj hk hj item hitem t β hr hword
    rcases hcases hj with ⟨hle, hj'⟩ | ⟨rfl, rfl⟩
    · exact h.scanned hkj ((hold (k := k) (by omega)).symm.trans hk) hj' item hitem t β hr hword
    · rw [hold (by omega)] at hk
      obtain ⟨scan, hscan, hmem⟩ :=
        h.scannedItems_complete hbyte (by omega) hk hitem hr hword
      exact hseed scan hscan _ hmem
  · intro scan
    rw [mem_sortDedup, List.mem_append, mem_sortDedup, h.mem_continuing_iff hbyte,
      mem_created_iff hc.agenda.fits hlaid]
    constructor
    · rintro (⟨terminal, col, item, β, hterm, hle, hrun, hk, hitem, hr⟩ |
        ⟨hstart, terminal, item, β, hterm, hcur, hitem, hr⟩)
      · exact ⟨terminal, col, item, β, hterm, by omega, hrun, (hold hle).trans hk, hitem, hr⟩
      · refine ⟨terminal, c, item, β, hterm, hstart.le, ?_, hstart ▸ hcol, hitem, hr⟩
        rw [hstart, segment_self, CompiledTerminal.liveRun_nil, hcur]
    · rintro ⟨terminal, col, item, β, hterm, hle, hrun, hk, hitem, hr⟩
      rcases hcases hk with ⟨hle', hk'⟩ | ⟨hstart, rfl⟩
      · exact .inl ⟨terminal, col, item, β, hterm, hle', hrun, hk', hitem, hr⟩
      · rw [hstart, segment_self, CompiledTerminal.liveRun_nil] at hrun
        exact .inr ⟨hstart, terminal, item, β, hterm, (Option.some.inj hrun).symm, hitem, hr⟩

/-- **One byte.**  From the first `n` bytes of `x` to the first `n + 1`. -/
theorem Consumed.wp_advanceByte (hnull : e.grammar.NullableExact)
    (h : Consumed hlaid hg x n s) (hbyte : x[n]? = some byte) :
    wp RuntimeError.IsLimit (advanceByte byte) (fun live s' =>
      Consumed hlaid hg x (n + 1) s' ∧ live = s'.isLive ∧ s'.leoEnabled = s.leoEnabled) s := by
  obtain rfl := h.bytePosition
  simp only [advanceByte, enforceRuntimeLimit, wp_bind, wp_get, wp_require, wp_modify,
    RuntimeError.isLimit_resourceLimitExceeded, implies_true, and_true]
  intro _ _ hn
  rw [h.length]
  refine wp_scanBytes (s := beginByte s s.bytePosition) (by simp [beginByte, h.length])
    (fun scan hscan => h.scanReady hscan) fun s₁ halt₁ => ?_
  obtain ⟨c₁, hcol₁, hsat, hseed⟩ := h.saturating hbyte hn halt₁
  rw [wp_bind]
  refine wp_mono (wp_saturate hnull hsat) ?_
  rintro created s₂ ⟨c₂, f, halt₂, hpre, hcol₂, rfl, hc₂⟩
  have halt := halt₁.trans halt₂
  simp only [wp_bind, wp_require, wp_modify, RuntimeError.isLimit_resourceLimitExceeded,
    implies_true, and_true]
  intro _
  refine wp_finishColumnStats (c := c₂) hcol₂ fun stats => ?_
  have hcomp : (beginByte s s.bytePosition).compiled = e := h.compiled
  simp only [wp_bind, wp_get, wp_pure, hcomp]
  refine ⟨h.next hbyte hn halt hcol₂ hc₂ fun scan hscan y hy => ?_, trivial, halt.leoEnabled⟩
  exact hpre.subset ((hseed y).2 (List.mem_flatMap.2 ⟨scan, hscan, hy⟩))

/-! ### The initial state -/

/-- The empty chart with the start item. -/
theorem saturating_start {limits : RuntimeLimits} {leo : Bool} {generation : ℕ}
    (halt : Alters 0 (·.insert { dotted := e.start, origin := 0 })
      (e.blank limits leo generation) s') :
    ∃ c, Saturating hlaid hg x 0 0 [] s' c ∧ { dotted := e.start, origin := 0 } ∈ c.items := by
  obtain ⟨r, hd, -⟩ := hlaid.start_spec
  have hfits : Fits e 0 { dotted := e.start, origin := 0 } :=
    ⟨(List.getElem?_eq_some_iff.1 hd).1, le_rfl⟩
  have hcol : (e.blank limits leo generation).chart[0]? = some (.new 0) := rfl
  have hnew := agenda_new (e := e) (n := 0)
  have hmem := fun y => hnew.mem_insert (Nat.zero_le _) hfits (x := y)
  refine ⟨_, ⟨halt.compiled, halt.length_chart, Nat.zero_le _, fun k hk => by omega,
    halt.getElem?_self hcol, Nat.zero_le _, hnew.insert (Nat.zero_le _) (Nat.zero_le _) hfits,
    fun y hy => ?_, by simp, ?_, by simp⟩, (hmem _).2 (.inr rfl)⟩
  · rcases (hmem y).1 hy with hy | rfl
    · simp [ChartColumn.new] at hy
    · exact .init
  · rw [insert_frame.2.2.2]
    rfl

variable (hlaid hg) in
theorem wp_prepare (hnull : e.grammar.NullableExact) (x : List UInt8) (limits : RuntimeLimits)
    (leo : Bool) (generation : ℕ) :
    wp RuntimeError.IsLimit CompiledEarley.prepare (fun _ s' =>
      Consumed hlaid hg x 0 s' ∧ s'.leoEnabled = leo) (e.blank limits leo generation) := by
  obtain ⟨d, r, ho, hd, -⟩ := hlaid.init
  have hstart : e.start = d := by simp [CompiledEarley.start, ho]
  simp only [CompiledEarley.prepare, wp_bind, wp_get]
  rw [show (e.blank limits leo generation).compiled.dottedOffsets[
    (e.blank limits leo generation).compiled.augmentedProduction]? = some e.start from hstart ▸ ho]
  refine wp_unwrap_some.2 ?_
  rw [wp_bind]
  refine wp_insertItem (c := .new 0) rfl fun s₁ halt₁ => ?_
  obtain ⟨c₁, hsat, hinit⟩ := saturating_start (x := x) halt₁
  rw [wp_bind]
  refine wp_mono (wp_saturateMeasured (wp_saturate hnull hsat)) ?_
  rintro measured s₂ ⟨c₂, f, halt₂, hpre, hcol₂, hcreated, hc₂⟩
  have halt := halt₁.trans halt₂
  simp only [enforceRuntimeLimit, wp_bind, wp_require, wp_modify,
    RuntimeError.isLimit_resourceLimitExceeded, implies_true, and_true]
  intro _
  refine wp_finishColumnStats (c := c₂) hcol₂ fun stats => ?_
  have hlength : s₂.chart.length = 1 := halt.length_chart
  -- there is one column, and all scans begin in it
  have hcol : ∀ {k col}, s₂.chart[k]? = some col → k = 0 ∧ col = c₂ := by
    intro k col hk
    have := (List.getElem?_eq_some_iff.1 hk).1
    obtain rfl : k = 0 := by omega
    exact ⟨rfl, Option.some.inj (hk.symm.trans hcol₂)⟩
  refine ⟨⟨halt.compiled, halt.bytePosition, hlength, Nat.zero_le _, Nat.zero_le _, ?_,
    ⟨c₂, hcol₂, hpre.subset hinit⟩, ?_, ?_, ⟨_, hcreated⟩⟩, halt.leoEnabled⟩
  · intro k col hk
    obtain ⟨rfl, rfl⟩ := hcol hk
    exact hc₂
  · intro k j col col' hkj hk hj
    obtain ⟨rfl, -⟩ := hcol hj
    omega
  · intro scan
    rw [hcreated, mem_sortDedup, mem_created_iff hc₂.agenda.fits hlaid]
    constructor
    · rintro ⟨hstart, terminal, item, β, hterm, hcur, hitem, hr⟩
      refine ⟨terminal, c₂, item, β, hterm, hstart.le, ?_, hstart ▸ hcol₂, hitem, hr⟩
      rw [hstart, segment_self, CompiledTerminal.liveRun_nil, hcur]
    · rintro ⟨terminal, col, item, β, hterm, hle, hrun, hk, hitem, hr⟩
      obtain ⟨hstart, rfl⟩ := hcol hk
      rw [hstart, segment_self, CompiledTerminal.liveRun_nil] at hrun
      exact ⟨hstart, terminal, item, β, hterm, (Option.some.inj hrun).symm, hitem, hr⟩

/-! ### Reading the chart -/

namespace Consumed

variable (h : Consumed hlaid hg x n s)
include h

/-- The columns of the recognizer are saturated. -/
theorem saturated (hnull : e.grammar.NullableExact) :
    DottedGrammar.Saturated (e.dottedGrammar hlaid hg) e.grammar.scanLanguage x n
      (fun j d i => ∃ c, s.chart[j]? = some c ∧ ⟨d, i⟩ ∈ c.items)
      (fun k B d i => ∃ c, s.chart[k]? = some c ∧ c.leoByPostdot.lookup B = some ⟨d, i⟩) where
  sound := by
    rintro j d i - ⟨c, hc, hmem⟩
    exact (h.columns j c hc).deduced _ hmem
  init := h.init
  predict := by
    rintro j d i B β c - ⟨col, hcol, hmem⟩ hr hstart
    exact ⟨col, hcol, ((h.columns j col hcol).closed _ hmem).predict hr c hstart.2⟩
  nullable := by
    rintro j d i B β - ⟨col, hcol, hmem⟩ hr hB
    refine ⟨col, hcol, ((h.columns j col hcol).closed _ hmem).nullable hr ?_⟩
    rw [CompiledEarley.dottedGrammar_rule,
      yields_nil_iff_sentence ResidualGrammar.nil_notMem_scanLanguage] at hB
    have hr : e.rest d = .nonterminal B :: β := hr
    exact (hnull B (hlaid.rest_inRange hg d (.nonterminal B) (hr ▸ List.mem_cons_self))).2 hB
  scan := by
    rintro k j d i t β hkj hj ⟨c, hc, hmem⟩ hr hword
    obtain ⟨c', hc'⟩ := h.column_of_le hj
    exact ⟨c', hc', h.scanned hkj hc hc' _ hmem t β hr hword⟩
  complete := by
    rintro k j d i B β c hkj hj ⟨origin, horigin, hmem⟩ hr ⟨col, hcol, hmem'⟩ hr' hlhs hno
    have hr : e.rest d = .nonterminal B :: β := hr
    have hlt : B < e.grammar.nonterminals.length :=
      hlaid.rest_inRange hg d (.nonterminal B) (hr ▸ List.mem_cons_self)
    have hlhs : e.lhs c = B := hlhs
    have hclosed := (h.columns j col hcol).closed _ hmem'
    refine ⟨col, hcol, (hclosed.complete hr' (by simp only [hlhs]; omega) hkj horigin).2
      (fun _ => ?_) ⟨d, i⟩ ?_⟩
    · cases hlook : origin.leoByPostdot.lookup (e.lhs c) with
      | none => rfl
      | some top => exact absurd ⟨origin, horigin, hlhs ▸ hlook⟩ (hno top.dotted top.origin)
    · exact hlhs ▸ (h.columns k origin horigin).agenda.mem_nonterminal_of_mem hmem hr
  jump := by
    rintro k j B c d i hkj hj ⟨col, hcol, hmem⟩ hr hlhs ⟨origin, horigin, hlook⟩
    have hlhs : e.lhs c = B := hlhs
    have hcomp := h.columns k origin horigin
    have hleo : s.leoEnabled = true := by
      cases hoff : s.leoEnabled with
      | false => simp [hcomp.leoOff hoff] at hlook
      | true => rfl
    obtain ⟨-, w, -, hrw, -⟩ := hcomp.leoOn B _ hlook
    have hlt : B < e.grammar.nonterminals.length :=
      hlaid.rest_inRange hg w.dotted (.nonterminal B) (hrw ▸ List.mem_cons_self)
    refine ⟨col, hcol, ((h.columns j col hcol).closed _ hmem).complete hr
      (by simp only [hlhs]; omega) hkj horigin |>.1 _ ⟨hleo, hlhs ▸ hlook⟩⟩
  chain := by
    rintro k - B d i ⟨col, hcol, hlook⟩
    -- the only waiter is the item itself, or its advance has an entry in an earlier column
    obtain ⟨-, w, hw, hr, huniq, hcase⟩ := (h.columns k col hcol).leoOn B _ hlook
    refine ⟨w.dotted, w.origin, ⟨col, hcol, hw⟩, hr, ?_, ?_⟩
    · rintro d' i' β ⟨col', hcol', hmem⟩ hr'
      obtain rfl := Option.some.inj (hcol.symm.trans hcol')
      have hr' : e.rest d' = .nonterminal B :: β := hr'
      have := huniq _ hmem (by simp [NextIs, hr'])
      exact ⟨congrArg EarleyItem.dotted this, congrArg EarleyItem.origin this⟩
    · rcases hcase with htop | ⟨hlt, origin, horigin, hlook⟩
      · exact .inl ⟨congrArg EarleyItem.dotted htop, congrArg EarleyItem.origin htop⟩
      · exact .inr ⟨hlt, origin, horigin, hlook⟩

/-- The items that have a symbol after their dot are the deduced ones. -/
theorem mem_column_iff (hnull : e.grammar.NullableExact) {k d i : ℕ} (hk : k ≤ n)
    (hr : e.rest d ≠ []) :
    (∃ c, s.chart[k]? = some c ∧ ⟨d, i⟩ ∈ c.items) ↔ Deduced hlaid hg x k ⟨d, i⟩ :=
  (h.saturated hnull).mem_iff ResidualGrammar.nil_notMem_scanLanguage hk hr

/-- The recognizer accepts when the start rule is completed over the bytes consumed. -/
theorem isAccepting_iff (hnull : e.grammar.NullableExact) :
    s.isAccepting = true ↔ Deduced hlaid hg x n ⟨e.start + 1, 0⟩ := by
  obtain ⟨r, -, -, -, hr, hcomp⟩ := hlaid.start_spec
  obtain ⟨c, hc⟩ := h.column_of_le (le_refl n)
  have hlast : s.chart.getLast? = some c := by
    rw [List.getLast?_eq_getElem?, h.length]
    exact hc
  have hkey : (EarleyItem.mk (e.start + 1) 0).key = e.augmentedComplete <<< 32 := by
    simp [EarleyItem.key, hcomp]
  have hiff := (h.saturated hnull).mem_advance_init_iff
    ResidualGrammar.nil_notMem_scanLanguage (le_refl n) hr
  unfold isAccepting
  rw [hlast]
  simp only [h.compiled, decide_eq_true_eq, ← hkey]
  rw [(h.columns n c hc).agenda.mem_iff _ (Nat.zero_le _)]
  refine Iff.trans ?_ hiff
  constructor
  · exact fun hmem => ⟨c, hc, hmem⟩
  · rintro ⟨c', hc', hmem⟩
    obtain rfl := Option.some.inj (hc.symm.trans hc')
    exact hmem

/-- The active scans, read off the deduced items. -/
theorem mem_activeScans_iff (hnull : e.grammar.NullableExact) {scan : ActiveScan} :
    scan ∈ s.activeScans ↔ ∃ terminal d i β,
      e.grammar.terminals[scan.terminal]? = some terminal ∧ scan.start ≤ n ∧
      terminal.liveRun (segment x scan.start n) = some scan.cursor ∧
      Deduced hlaid hg x scan.start ⟨d, i⟩ ∧ e.rest d = .terminal scan.terminal :: β := by
  rw [h.active]
  constructor
  · rintro ⟨terminal, c, item, β, hterm, hle, hrun, hc, hmem, hr⟩
    exact ⟨terminal, item.dotted, item.origin, β, hterm, hle, hrun,
      (h.columns _ _ hc).deduced _ hmem, hr⟩
  · rintro ⟨terminal, d, i, β, hterm, hle, hrun, hded, hr⟩
    obtain ⟨c, hc, hmem⟩ := (h.mem_column_iff hnull hle (by simp [hr])).2 hded
    exact ⟨terminal, c, ⟨d, i⟩, β, hterm, hle, hrun, hc, hmem, hr⟩

end Consumed

end EarleyRecognizer

end OcEarley
