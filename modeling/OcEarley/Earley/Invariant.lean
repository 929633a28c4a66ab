import OcEarley.Earley.Column

/-!
# The books of the chart

`Booked` says that every column is in order, whatever its items mean: this is all that processing an
item relies on (`Booked.ready`).  A column whose items have all been processed is `Filled`, and
`wp_saturate_filled` shows that `saturate` fills a column: it processes every item once, in the
order of insertion, and fails with a limit error only.
-/

namespace OcEarley

open Method ChartColumn

namespace EarleyRecognizer

variable {e : CompiledEarley} {n a k : ℕ} {s s' : EarleyRecognizer} {c col : ChartColumn}
  {item : EarleyItem} {r : DottedRule} {scans : List ActiveScan} {f : ChartColumn → ChartColumn}

/-! ### Columns in order -/

/-- The chart up to column `n`, with each column in order. -/
structure Booked (e : CompiledEarley) (n : ℕ) (s : EarleyRecognizer) : Prop where
  compiled : s.compiled = e
  length : s.chart.length = n + 1
  position_le : n ≤ u32Max
  agenda : ∀ k c, s.chart[k]? = some c → ∃ a, Agenda e k a c
  leo : ∀ k c B top, s.chart[k]? = some c → c.leoByPostdot.lookup B = some top → Fits e k top

theorem advanceable_of_rest {sym : GrammarSymbol} {β : List GrammarSymbol} (hlaid : e.Laid)
    (hr : e.rest item.dotted = sym :: β) : Advanceable e item := by
  obtain ⟨r, -, hd, -⟩ := hlaid.advance_spec hr
  exact ⟨r, hd, by rw [hlaid.advanced_eq hd, hr]; rfl⟩

/-- Moving an item over a symbol leads to a dotted rule of the table. -/
theorem fits_advance {sym : GrammarSymbol} {β : List GrammarSymbol} (hlaid : e.Laid)
    (hf : Fits e k item) (hkn : k ≤ n) (hr : e.rest item.dotted = sym :: β) :
    Fits e n (advance item) := by
  obtain ⟨-, r', -, hd', -⟩ := hlaid.advance_spec hr
  exact ⟨(List.getElem?_eq_some_iff.1 hd').1, hf.origin_le.trans hkn⟩

namespace Booked

/-- The items waiting in a column for a nonterminal. -/
theorem waiter_spec (h : Booked e n s) (hcol : s.chart[k]? = some col) {B : ℕ} {w : EarleyItem}
    (hw : w ∈ col.waitingNonterminal.get B) :
    Fits e k w ∧ ∃ β, e.rest w.dotted = .nonterminal B :: β := by
  obtain ⟨a, hagenda⟩ := h.agenda k col hcol
  obtain ⟨hmem, hr⟩ := hagenda.of_mem_nonterminal hw
  exact ⟨hagenda.fits w hmem, hr⟩

theorem ready (h : Booked e n s) (hlaid : e.Laid) (hg : e.grammar.WellFormed)
    (hitem : Fits e n item) (hd : e.dotted[item.dotted]? = some r) : Ready s item r := by
  have hnext := hlaid.next_eq hd
  refine ⟨h.compiled ▸ hd, fun hsome => ?_, fun {B} hB => ?_, fun {t} ht => ?_, ?_, ?_⟩
  · rw [hnext] at hsome
    obtain ⟨sym, hsym⟩ := Option.isSome_iff_exists.1 hsome
    obtain ⟨β, hr⟩ := List.head?_eq_some_iff.1 hsym
    exact h.compiled ▸ advanceable_of_rest hlaid hr
  · obtain ⟨β, hr⟩ := List.head?_eq_some_iff.1 (hnext.symm.trans hB)
    have hlt : B < e.grammar.nonterminals.length :=
      hlaid.rest_inRange hg item.dotted (.nonterminal B) (hr ▸ List.mem_cons_self)
    rw [h.compiled, hlaid.length_starts, hg.nullable_length]
    exact ⟨by omega, hlt⟩
  · obtain ⟨β, hr⟩ := List.head?_eq_some_iff.1 (hnext.symm.trans ht)
    rw [h.compiled]
    exact hlaid.rest_inRange hg item.dotted (.terminal t) (hr ▸ List.mem_cons_self)
  · rw [h.length]
    exact Nat.lt_succ_of_le hitem.origin_le
  · intro col B w hcol hw
    obtain ⟨-, β, hr⟩ := h.waiter_spec hcol hw
    exact h.compiled ▸ advanceable_of_rest hlaid hr

/-- Processing an item inserts dotted rules of the table, with origins up to the column. -/
theorem fits_derived (h : Booked e n s) (hlaid : e.Laid) (hitem : Fits e n item)
    (hd : e.dotted[item.dotted]? = some r) {y : EarleyItem} (hy : y ∈ derivedItems s n item r) :
    Fits e n y := by
  have hnext := hlaid.next_eq hd
  unfold derivedItems at hy
  rw [h.compiled] at hy
  rcases hsym : r.next with _ | ⟨t⟩ | ⟨B⟩
  · simp only [hsym] at hy
    split at hy
    · simp at hy
    split at hy
    · simp at hy
    rename_i origin horigin
    split at hy
    · rename_i top htop
      obtain rfl := List.mem_singleton.1 hy
      split at htop
      · have := h.leo _ _ _ _ horigin htop
        exact ⟨this.dotted_lt, this.origin_le.trans hitem.origin_le⟩
      · cases htop
    · obtain ⟨w, hw, rfl⟩ := List.mem_map.1 hy
      obtain ⟨hwf, β, hwr⟩ := h.waiter_spec horigin hw
      exact fits_advance hlaid hwf hitem.origin_le hwr
  · simp [hsym] at hy
  · obtain ⟨β, hr⟩ := List.head?_eq_some_iff.1 (hnext.symm.trans hsym)
    simp only [hsym] at hy
    rcases List.mem_append.1 hy with hy | hy
    · obtain ⟨d, hstart, rfl⟩ := List.mem_map.1 hy
      obtain ⟨r', hd', -⟩ := hlaid.starts.1 hstart
      exact ⟨(List.getElem?_eq_some_iff.1 hd').1, le_rfl⟩
    · split at hy
      · obtain rfl := List.mem_singleton.1 hy
        exact fits_advance hlaid hitem le_rfl hr
      · simp at hy

end Booked

/-! ### Leo entries of a finished column -/

/-- The column with another table of Leo entries. -/
def withLeo (m : AList fun _ : ℕ => EarleyItem) (c : ChartColumn) : ChartColumn :=
  { c with leoByPostdot := m }

/-- `finishLeoColumn` makes the entries that `leoEntry` describes. -/
theorem wp_finishLeoColumn (hlaid : e.Laid) (hcomp : s.compiled = e) (hcol : s.chart[n]? = some c)
    (hagenda : Agenda e n a c) (hleo : c.leoByPostdot = ∅) :
    wp RuntimeError.IsLimit (finishLeoColumn n) (fun _ s' => ∃ m, Alters n (withLeo m) s s' ∧
      ∀ B top, m.lookup B = some top → leoEntry s n c B = some top) s := by
  simp only [finishLeoColumn, wp_bind]
  refine wp_column hcol ?_
  refine wp_mono (wp_forM (I := fun rest s₁ => (∀ B ∈ rest, B ∈ c.waitingNonterminal) ∧ ∃ m,
    Alters n (withLeo m) s s₁ ∧ ∀ B top, m.lookup B = some top → leoEntry s n c B = some top)
    ?_ _ s ⟨fun B hB => ?_, ∅, ?_, by simp⟩) ?_
  · rintro B rest s₁ ⟨hkeys, m, halt, hm⟩
    have hcol₁ := halt.getElem?_self hcol
    have hwaiting : (withLeo m c).waitingNonterminal = c.waitingNonterminal := rfl
    have hentry : leoEntry s₁ n (withLeo m c) B = leoEntry s n c B := by
      simp only [leoEntry, hwaiting, halt.compiled, leoTarget_of_alters halt]
    refine wp_finishLeoPostdot hcol₁ (by rw [halt.compiled, hcomp]; exact hlaid)
      (hkeys B List.mem_cons_self) (fun w hw => ?_) fun s₂ h₂ => ?_
    · obtain ⟨-, β, hr⟩ := hagenda.of_mem_nonterminal hw
      rw [halt.compiled, hcomp, hr]
      exact List.cons_ne_nil _ _
    · refine ⟨fun B' hB' => hkeys B' (List.mem_cons_of_mem _ hB'), ?_⟩
      rw [hentry] at h₂
      cases hB : leoEntry s n c B with
      | none => exact ⟨m, by rw [hB] at h₂; exact halt.trans h₂, hm⟩
      | some top =>
        refine ⟨m.insert B top, by rw [hB] at h₂; exact halt.trans h₂, fun B' top' hlook => ?_⟩
        by_cases heq : B' = B
        · subst heq
          rw [AList.lookup_insert] at hlook
          rw [hB, hlook]
        · rw [AList.lookup_insert_ne heq] at hlook
          exact hm B' top' hlook
  · rw [mem_sortByKey] at hB
    exact AList.mem_keys.2 hB
  · refine ⟨rfl, rfl, rfl, rfl, rfl, rfl, ?_⟩
    refine List.ext_getElem? fun k => ?_
    by_cases hk : n = k
    · subst hk
      rw [List.getElem?_modify_eq, hcol]
      simp [withLeo, ← hleo]
    · rw [List.getElem?_modify_ne _ _ hk]
  · rintro _ s' ⟨-, m, halt, hm⟩
    exact ⟨m, halt, hm⟩

/-! ### Filled columns -/

/-- A column whose items have all been processed. -/
structure Filled (e : CompiledEarley) (n : ℕ) (c : ChartColumn) : Prop where
  agenda : Agenda e n c.items.length c
  keys : c.KeysListed
  leo : ∀ B top, c.leoByPostdot.lookup B = some top → Fits e n top ∧ e.rest top.dotted = []

/-- Column `n` while it is being filled, with `a` items processed. -/
structure Filling (e : CompiledEarley) (n a : ℕ) (scans : List ActiveScan) (s : EarleyRecognizer)
    (c : ChartColumn) : Prop where
  compiled : s.compiled = e
  length : s.chart.length = n + 1
  position_le : n ≤ u32Max
  older : ∀ k < n, ∀ c, s.chart[k]? = some c → Filled e k c
  column : s.chart[n]? = some c
  processed_le : a ≤ c.items.length
  agenda : Agenda e n a c
  keys : c.KeysListed
  leo : c.leoByPostdot = ∅
  scans : ∀ scan ∈ scans, scan.start = n ∧ scan.terminal < e.grammar.terminals.length

namespace Filling

variable (h : Filling e n a scans s c)
include h

theorem booked : Booked e n s where
  compiled := h.compiled
  length := h.length
  position_le := h.position_le
  agenda k col hcol := by
    have hk := (List.getElem?_eq_some_iff.1 hcol).1
    rcases Nat.lt_or_eq_of_le (Nat.le_of_lt_succ (h.length ▸ hk)) with hlt | rfl
    · exact ⟨_, (h.older k hlt col hcol).agenda⟩
    · obtain rfl := Option.some.inj (h.column.symm.trans hcol)
      exact ⟨a, h.agenda⟩
  leo k col B top hcol htop := by
    have hk := (List.getElem?_eq_some_iff.1 hcol).1
    rcases Nat.lt_or_eq_of_le (Nat.le_of_lt_succ (h.length ▸ hk)) with hlt | rfl
    · exact ((h.older k hlt col hcol).leo B top htop).1
    · obtain rfl := Option.some.inj (h.column.symm.trans hcol)
      simp [h.leo] at htop

/-- One item is processed. -/
theorem step (hlaid : e.Laid) (hg : e.grammar.WellFormed) (hitem : c.items[a]? = some item)
    (hd : e.dotted[item.dotted]? = some r)
    (halt : Alters n (fun c => (c.wait item r.next).insertAll (derivedItems s n item r)) s s') :
    Filling e n (a + 1) (scans ++ (scanOf s.compiled n r).toList) s'
      ((c.wait item r.next).insertAll (derivedItems s n item r)) := by
  have hmem := List.mem_of_getElem? hitem
  have hlt := (List.getElem?_eq_some_iff.1 hitem).1
  have hready := h.booked.ready hlaid hg (h.agenda.fits item hmem) hd
  have hwait : Agenda e n (a + 1) (c.wait item r.next) := hlaid.next_eq hd ▸ h.agenda.wait hitem
  obtain ⟨hagenda, -⟩ := hwait.insertAll h.position_le (by rw [wait_items]; exact hlt)
    fun y hy => h.booked.fits_derived hlaid (h.agenda.fits item hmem) hd hy
  have hpre : c.items <+: ((c.wait item r.next).insertAll (derivedItems s n item r)).items := by
    exact items_prefix_wait_insertAll
  refine ⟨halt.compiled.trans h.compiled, halt.length_chart.trans h.length, h.position_le,
    fun k hk col hcol => ?_, halt.getElem?_self h.column, hlt.trans_le hpre.length_le, hagenda,
    (h.keys.wait _ _).insertAll _, ?_, fun scan hscan => ?_⟩
  · rw [halt.getElem?_of_ne hk.ne] at hcol
    exact h.older k hk col hcol
  · rw [insertAll_frame.2.2.2, wait_leoByPostdot]
    exact h.leo
  · rcases List.mem_append.1 hscan with hscan | hscan
    · exact h.scans scan hscan
    · have hscan := Option.mem_toList.1 hscan
      unfold scanOf at hscan
      split at hscan
      · next t ht =>
        obtain ⟨terminal, -, rfl⟩ := Option.map_eq_some_iff.1 hscan
        exact ⟨rfl, h.compiled ▸ hready.terminal ht⟩
      · cases hscan

end Filling

/-- **The loop processes every item once**, in the order of insertion. -/
theorem Filling.wp_saturateLoop (hlaid : e.Laid) (hg : e.grammar.WellFormed) (fuel : ℕ)
    (h : Filling e n a scans s c) (hfuel : e.dotted.length * (n + 1) + 1 ≤ fuel + a) :
    wp RuntimeError.IsLimit (saturateLoop n fuel a scans) (fun scans' s' => ∃ c' f,
      Alters n f s s' ∧ c.items <+: c'.items ∧ Filling e n c'.items.length scans' s' c' ∧
        (c'.items.drop a).foldlM (fun scans item => processItem n item scans) scans s =
          .ok scans' s') s := by
  induction fuel generalizing a scans s c with
  | zero =>
    have := h.agenda.length_le
    have := h.processed_le
    omega
  | succ fuel ih =>
    simp only [saturateLoop, wp_bind]
    refine wp_column h.column ?_
    cases hitem : c.items[a]? with
    | none =>
      obtain rfl : a = c.items.length :=
        h.processed_le.antisymm (List.getElem?_eq_none_iff.1 hitem)
      refine ⟨c, id, Alters.refl n s, List.prefix_refl _, h, ?_⟩
      rw [List.drop_length]
      rfl
    | some item =>
      have hfits := h.agenda.fits item (List.mem_of_getElem? hitem)
      have hd := List.getElem?_eq_getElem hfits.dotted_lt
      simp only [wp_bind]
      refine wp_self (wp_processItem h.column h.agenda.position (h.booked.ready hlaid hg hfits hd)
        fun s₁ halt hrun => ?_)
      refine wp_mono (ih (h.step hlaid hg hitem hd halt) (by omega)) ?_
      rintro scans' s' ⟨c', f, halt', hpre, h', hrest⟩
      have hpre := items_prefix_wait_insertAll.trans hpre
      refine ⟨c', _, halt.trans halt', hpre, h', ?_⟩
      have hitem' : c'.items[a]? = some item := by
        obtain ⟨t, ht⟩ := hpre
        rw [← ht, List.getElem?_append_left (List.getElem?_eq_some_iff.1 hitem).1, hitem]
      rw [List.drop_eq_getElem?_toList_append, hitem']
      exact (bind_of_ok hrun).trans hrest

/-- A Leo entry of a column whose items have all been processed leads to a completed item. -/
theorem Filling.leoEntry_spec (hlaid : e.Laid) (h : Filling e n a scans s c) {B : ℕ}
    {top : EarleyItem} (htop : leoEntry s n c B = some top) :
    Fits e n top ∧ e.rest top.dotted = [] := by
  unfold leoEntry at htop
  split at htop
  · rename_i w hget
    split at htop
    · rename_i hlen
      obtain rfl := Option.some.inj htop
      obtain ⟨hmem, β, hr⟩ := h.agenda.of_mem_nonterminal (hget ▸ List.mem_singleton_self w)
      have hr : e.rest w.dotted = [.nonterminal B] := by
        rw [h.compiled, hr, List.length_cons, Nat.add_eq_right, List.length_eq_zero_iff] at hlen
        rw [hr, hlen]
      obtain ⟨-, -, -, -, -, -, hend⟩ := hlaid.advance_spec hr
      have hadv : Fits e n (advance w) ∧ e.rest (advance w).dotted = [] :=
        ⟨fits_advance hlaid (h.agenda.fits w hmem) le_rfl hr, hend⟩
      -- the waiter itself, or the entry of its own column
      unfold leoTarget
      split
      · next hlt =>
        obtain ⟨origin, horigin⟩ : ∃ origin, s.chart[w.origin]? = some origin :=
          ⟨_, List.getElem?_eq_getElem (by rw [h.length]; omega)⟩
        rw [horigin, Option.bind_some]
        cases hlook : origin.leoByPostdot.lookup (s.compiled.lhs (advance w).dotted) with
        | none => exact hadv
        | some top =>
          obtain ⟨hfits, hend⟩ := (h.older _ hlt origin horigin).leo _ _ hlook
          exact ⟨⟨hfits.dotted_lt, hfits.origin_le.trans hlt.le⟩, hend⟩
      · exact hadv
    · cases htop
  · cases htop

theorem cursorKey_injective : Function.Injective cursorKey := by
  intro a b h
  cases a <;> cases b
  · exact congrArg TerminalCursorState.literal (Prod.mk.inj (toLex_inj.1 h)).2
  · exact absurd (Prod.mk.inj (toLex_inj.1 h)).1 Nat.zero_ne_one
  · exact absurd (Prod.mk.inj (toLex_inj.1 h)).1 Nat.one_ne_zero
  · exact congrArg TerminalCursorState.dfa (Prod.mk.inj (toLex_inj.1 h)).2

theorem key_injective : Function.Injective ActiveScan.key := by
  intro a b h
  obtain ⟨hterminal, h⟩ := Prod.mk.inj (toLex_inj.1 h)
  obtain ⟨hstart, h⟩ := Prod.mk.inj (toLex_inj.1 h)
  have hcursor := cursorKey_injective h
  cases a
  cases b
  simp_all only

/-- What is left of a saturated column. -/
structure Saturated (e : CompiledEarley) (n : ℕ) (s : EarleyRecognizer) (scans : List ActiveScan)
    (s' : EarleyRecognizer) (c : ChartColumn) : Prop where
  column : s'.chart[n]? = some c
  filled : Filled e n c
  started : ∀ scan ∈ scans, scan.start = n ∧ scan.terminal < e.grammar.terminals.length
  sorted : scans.Pairwise (ActiveScan.key · < ActiveScan.key ·)
  processed : ∃ scans₀ s₀, saturateLoop n (s.saturateFuel n) 0 [] s = .ok scans₀ s₀ ∧
    c.items.foldlM (fun scans item => processItem n item scans) [] s = .ok scans₀ s₀ ∧
      ∃ c₀, s₀.chart[n]? = some c₀ ∧ c₀.items = c.items

theorem wp_saturateMeasured {Q : List ActiveScan → EarleyRecognizer → Prop}
    (h : wp RuntimeError.IsLimit (saturate n) Q s) :
    wp RuntimeError.IsLimit (saturateMeasured n) (fun measured s' => Q measured.1 s') s := by
  rw [saturate, wp_bind] at h
  exact wp_mono h fun measured s' h => wp_pure.1 h

/-- **Saturation fills the column.** -/
theorem Filling.wp_saturate (hlaid : e.Laid) (hg : e.grammar.WellFormed)
    (h : Filling e n 0 [] s c) :
    wp RuntimeError.IsLimit (saturate n) (fun scans s' => ∃ c' f,
      Alters n f s s' ∧ Saturated e n s scans s' c') s := by
  simp only [saturate, saturateMeasured, wp_bind, wp_get]
  have hfuel : e.dotted.length * (n + 1) + 1 ≤ s.saturateFuel n + 0 := by
    simp only [saturateFuel, h.compiled]
    omega
  refine wp_self (wp_mono (h.wp_saturateLoop hlaid hg _ hfuel) ?_)
  rintro scans s₁ ⟨c₁, f, halt, -, h₁, hrun⟩ hloop
  rw [List.drop_zero] at hrun
  have hscans : ∀ scan ∈ sortDedup ActiveScan.key scans,
      scan.start = n ∧ scan.terminal < e.grammar.terminals.length := fun scan hscan =>
    h₁.scans scan (mem_sortDedup.1 hscan)
  split
  · rw [wp_bind]
    refine wp_mono (wp_finishLeoColumn hlaid h₁.compiled h₁.column h₁.agenda h₁.leo) ?_
    rintro _ s₂ ⟨m, halt₂, hm⟩
    refine ⟨withLeo m c₁, _, halt.trans halt₂, halt₂.getElem?_self h₁.column, ⟨?_, h₁.keys, ?_⟩,
      hscans, pairwise_sortDedup key_injective _, scans, s₁, hloop, hrun, c₁, h₁.column, rfl⟩
    · exact ⟨h₁.agenda.position, h₁.agenda.fits, h₁.agenda.mem_iff, h₁.agenda.nodup,
        h₁.agenda.nonterminal, h₁.agenda.terminal, h₁.agenda.mem_nonterminal⟩
    · exact fun B top htop => h₁.leoEntry_spec hlaid (hm B top htop)
  · refine ⟨c₁, f, halt, h₁.column, ⟨h₁.agenda, h₁.keys, fun B top htop => ?_⟩, hscans,
      pairwise_sortDedup key_injective _, scans, s₁, hloop, hrun, c₁, h₁.column, rfl⟩
    simp [h₁.leo] at htop

/-! ### Bytes -/

/-- The recognizer after `n` bytes. -/
structure Charted (e : CompiledEarley) (n : ℕ) (s : EarleyRecognizer) : Prop where
  compiled : s.compiled = e
  bytePosition : s.bytePosition = n
  length : s.chart.length = n + 1
  position_le : n ≤ u32Max
  columns : ∀ k c, s.chart[k]? = some c → Filled e k c
  scans : ∀ scan ∈ s.activeScans, scan.start ≤ n ∧ scan.terminal < e.grammar.terminals.length
  sorted : s.activeScans.Pairwise (ActiveScan.key · < ActiveScan.key ·)
  scans_le : s.activeScans.length ≤ s.limits.maxActiveScans
  bytes_le : n ≤ s.limits.maxInputBytes
  columns_le : n + 1 ≤ s.limits.maxChartColumns

theorem wp_finishColumnStats {capacity : ℕ} {Q : Unit → EarleyRecognizer → Prop}
    (hcol : s.chart[n]? = some c) (hQ : ∀ stats, Q () { s with stats := stats }) :
    wp RuntimeError.IsLimit (finishColumnStats n capacity) Q s := by
  simp only [finishColumnStats, wp_bind]
  exact wp_column hcol (hQ _)

/-- The recognizer with column `n + 1` pushed and the active scans taken out. -/
def beginByte (s : EarleyRecognizer) (n : ℕ) : EarleyRecognizer :=
  { s with chart := s.chart ++ [.new (n + 1)], activeScans := [] }

/-- `advance_byte` up to the saturation of the new column. -/
def scanColumn (byte : UInt8) : Method RuntimeError EarleyRecognizer (List ActiveScan) := do
  let self ← get
  let nextPosition := self.bytePosition + 1
  enforceRuntimeLimit .inputBytes nextPosition self.limits.maxInputBytes
  enforceRuntimeLimit .chartColumns (saturatingAdd self.chart.length 1)
    self.limits.maxChartColumns
  Method.require (nextPosition ≤ u32Max) (.resourceLimitExceeded .inputBytes nextPosition u32Max)
  modify fun self => { self with chart := self.chart ++ [.new nextPosition] }
  let column := self.chart.length
  modify fun self => { self with activeScans := [] }
  self.activeScans.foldlM (scanByte column byte) []

/-- `advance_byte` from the saturation of the new column on; `self` is the
recognizer before the byte. -/
def finishByte (self : EarleyRecognizer) (continuing : List ActiveScan) :
    Method RuntimeError EarleyRecognizer Bool := do
  let column := self.chart.length
  let created ← saturate column
  let capacity :=
    reserveCapacity (pushCapacity continuing.length) continuing.length created.length
  let continuing := sortDedup ActiveScan.key (continuing ++ created)
  enforceRuntimeLimit .activeScans continuing.length self.limits.maxActiveScans
  modify fun s => { s with activeScans := continuing, bytePosition := self.bytePosition + 1 }
  finishColumnStats column capacity
  let self ← get
  pure self.isLive

theorem advanceByte_apply (byte : UInt8) (s : EarleyRecognizer) :
    advanceByte byte s = (scanColumn byte >>= finishByte s) s := by
  unfold scanColumn
  rw [bind_assoc]
  simp only [bind_assoc]
  rfl

namespace Charted

variable (h : Charted e n s)
include h

theorem scanReady (hlaid : e.Laid) {scan : ActiveScan} (hscan : scan ∈ s.activeScans) :
    ScanReady (beginByte s n) (n + 1) scan := by
  obtain ⟨hstart, hterm⟩ := h.scans scan hscan
  refine ⟨by rw [show (beginByte s n).compiled = e from h.compiled]; exact hterm,
    Nat.lt_succ_of_le hstart, fun {col w} hcol hw => ?_⟩
  rw [beginByte, List.getElem?_append_left (by rw [h.length]; omega)] at hcol
  obtain ⟨-, β, hr⟩ := (h.columns _ _ hcol).agenda.of_mem_terminal hw
  rw [show (beginByte s n).compiled = e from h.compiled]
  exact advanceable_of_rest hlaid hr

theorem fits_scanned (hlaid : e.Laid) {byte : UInt8} {scan : ActiveScan}
    (hscan : scan ∈ s.activeScans) {y : EarleyItem}
    (hy : y ∈ scannedItems (beginByte s n) byte scan) : Fits e (n + 1) y := by
  obtain ⟨hstart, -⟩ := h.scans scan hscan
  unfold scannedItems at hy
  split at hy
  · simp at hy
  split at hy
  · simp at hy
  split at hy
  · split at hy
    · simp at hy
    · next start hcol =>
      rw [beginByte, List.getElem?_append_left (by rw [h.length]; omega)] at hcol
      obtain ⟨w, hw, rfl⟩ := List.mem_map.1 hy
      obtain ⟨hmem, β, hr⟩ := (h.columns _ _ hcol).agenda.of_mem_terminal hw
      exact fits_advance hlaid ((h.columns _ _ hcol).agenda.fits w hmem) (by omega) hr
  · simp at hy

/-- The new column before it is saturated. -/
theorem wp_scanColumn (hlaid : e.Laid) {byte : UInt8} :
    wp RuntimeError.IsLimit (scanColumn byte) (fun continuing s' => (∃ c f,
      Alters (n + 1) f (beginByte s n) s' ∧ Filling e (n + 1) 0 [] s' c) ∧
      (∀ scan ∈ continuing, scan.start ≤ n ∧ scan.terminal < e.grammar.terminals.length) ∧
      n + 1 ≤ s.limits.maxInputBytes ∧ n + 2 ≤ s.limits.maxChartColumns) s := by
  obtain rfl := h.bytePosition
  simp only [scanColumn, enforceRuntimeLimit, wp_bind, wp_get, wp_require, wp_modify,
    RuntimeError.isLimit_resourceLimitExceeded, implies_true, and_true]
  intro hbytes hcolumns hn
  rw [h.length] at hcolumns ⊢
  refine wp_scanBytes (s := beginByte s s.bytePosition) (by simp [beginByte, h.length])
    (fun scan hscan => h.scanReady hlaid hscan) fun s₁ halt => ?_
  have hcomp : (beginByte s s.bytePosition).compiled = e := h.compiled
  have hnew : (beginByte s s.bytePosition).chart[s.bytePosition + 1]? =
      some (.new (s.bytePosition + 1)) := by
    rw [beginByte, ← h.length]
    exact List.getElem?_concat_length
  -- what the scans find goes into the empty column, and the agenda is at its beginning
  obtain ⟨hagenda, -⟩ :=
    (agenda_new (e := e) (n := s.bytePosition + 1)).insertAll hn (Nat.zero_le _)
    (l := s.activeScans.flatMap (scannedItems (beginByte s s.bytePosition) byte)) fun y hy => by
      obtain ⟨scan, hscan, hy⟩ := List.mem_flatMap.1 hy
      exact h.fits_scanned hlaid hscan hy
  refine ⟨⟨_, _, halt, halt.compiled.trans h.compiled, ?_, hn, fun k hk col hcol => ?_,
    halt.getElem?_self hnew, Nat.zero_le _, hagenda, ?_, ?_, by simp⟩, fun scan hscan => ?_,
    hbytes, ?_⟩
  · rw [halt.length_chart, beginByte, List.length_append, h.length, List.length_singleton]
  · rw [halt.getElem?_of_ne hk.ne, beginByte, List.getElem?_append_left (by rw [h.length]; omega)]
      at hcol
    exact h.columns k col hcol
  · exact KeysListed.insertAll (fun key hkey => absurd hkey (Finset.notMem_empty key)) _
  · rw [insertAll_frame.2.2.2]
    rfl
  · obtain ⟨old, hold, hscan⟩ := List.mem_filterMap.1 hscan
    obtain ⟨hstart, hterm⟩ := h.scans old hold
    unfold continuingScan at hscan
    split at hscan
    · cases hscan
    split at hscan
    · cases hscan
    split at hscan
    · obtain rfl := Option.some.inj hscan
      exact ⟨hstart, hterm⟩
    · cases hscan
  · unfold saturatingAdd usizeMax at hcolumns
    unfold u32Max at hn
    omega

/-- **One byte.** -/
theorem wp_advanceByte (hlaid : e.Laid) (hg : e.grammar.WellFormed) {byte : UInt8} :
    wp RuntimeError.IsLimit (advanceByte byte) (fun _ s' => Charted e (n + 1) s') s := by
  unfold wp
  rw [advanceByte_apply]
  change wp RuntimeError.IsLimit _ _ s
  rw [wp_bind]
  refine wp_mono (h.wp_scanColumn hlaid) ?_
  rintro continuing s₁ ⟨⟨c₁, f₁, halt₁, hfill⟩, hscans, hbytes, hcolumns⟩
  obtain rfl := h.bytePosition
  simp only [finishByte, wp_bind]
  rw [h.length]
  refine wp_mono (hfill.wp_saturate hlaid hg) ?_
  rintro created s₂ ⟨c₂, f₂, halt₂, hsat⟩
  have halt := halt₁.trans halt₂
  simp only [enforceRuntimeLimit, wp_bind, wp_require, wp_modify,
    RuntimeError.isLimit_resourceLimitExceeded, implies_true, and_true]
  intro hactive
  refine wp_finishColumnStats (c := c₂) hsat.column fun stats => ?_
  simp only [wp_bind, wp_get, wp_pure]
  have hlimits : s₂.limits = s.limits := halt.limits
  refine ⟨halt.compiled.trans h.compiled, rfl, ?_, hfill.position_le, fun k col hcol => ?_,
    fun scan hscan => ?_, pairwise_sortDedup key_injective _, ?_, ?_, ?_⟩
  · change s₂.chart.length = _
    rw [halt.length_chart, beginByte, List.length_append, h.length, List.length_singleton]
  · have hk := (List.getElem?_eq_some_iff.1 hcol).1
    change k < s₂.chart.length at hk
    change s₂.chart[k]? = some col at hcol
    rw [halt₂.length_chart, hfill.length] at hk
    rcases Nat.lt_or_eq_of_le (Nat.le_of_lt_succ hk) with hlt | rfl
    · rw [halt₂.getElem?_of_ne hlt.ne] at hcol
      exact hfill.older k hlt col hcol
    · obtain rfl := Option.some.inj (hsat.column.symm.trans hcol)
      exact hsat.filled
  · rcases List.mem_append.1 (mem_sortDedup.1 hscan) with hscan | hscan
    · exact (hscans scan hscan).imp_left Nat.le_succ_of_le
    · exact (hsat.started scan hscan).imp_left le_of_eq
  · exact hlimits ▸ hactive
  · exact hlimits ▸ hbytes
  · exact hlimits ▸ hcolumns

end Charted

/-- The start item is in the first column. -/
theorem filling_start (hlaid : e.Laid) {limits : RuntimeLimits} {leo : Bool} {generation : ℕ}
    (halt : Alters 0 (·.insert { dotted := e.start, origin := 0 })
      (e.blank limits leo generation) s') : ∃ c, Filling e 0 0 [] s' c := by
  obtain ⟨r, hd, -⟩ := hlaid.start_spec
  have hfits : Fits e 0 { dotted := e.start, origin := 0 } :=
    ⟨(List.getElem?_eq_some_iff.1 hd).1, le_rfl⟩
  have hcol : (e.blank limits leo generation).chart[0]? = some (.new 0) := rfl
  refine ⟨_, halt.compiled, halt.length_chart, Nat.zero_le _, fun k hk => by omega,
    halt.getElem?_self hcol, Nat.zero_le _,
    (agenda_new (e := e)).insert (Nat.zero_le _) (Nat.zero_le _) hfits, ?_, ?_, by simp⟩
  · exact KeysListed.insert (fun key hkey => absurd hkey (Finset.notMem_empty key)) _
  · rw [insert_frame.2.2.2]
    rfl

/-- **The initial recognizer.** -/
theorem wp_prepare_charted (hlaid : e.Laid) (hg : e.grammar.WellFormed) {limits : RuntimeLimits}
    (hlimits : 1 ≤ limits.maxChartColumns) (leo : Bool) (generation : ℕ) :
    wp RuntimeError.IsLimit CompiledEarley.prepare (fun _ s' => Charted e 0 s')
      (e.blank limits leo generation) := by
  obtain ⟨d, r, ho, hd, -⟩ := hlaid.init
  have hstart : e.start = d := by simp [CompiledEarley.start, ho]
  simp only [CompiledEarley.prepare, wp_bind, wp_get]
  rw [show (e.blank limits leo generation).compiled.dottedOffsets[
    (e.blank limits leo generation).compiled.augmentedProduction]? = some e.start from hstart ▸ ho]
  refine wp_unwrap_some.2 ?_
  rw [wp_bind]
  refine wp_insertItem (c := .new 0) rfl fun s₁ halt₁ => ?_
  obtain ⟨c₁, hfill⟩ := filling_start hlaid halt₁
  rw [wp_bind]
  refine wp_mono (wp_saturateMeasured (hfill.wp_saturate hlaid hg)) ?_
  rintro measured s₂ ⟨c₂, f, halt₂, hsat⟩
  have halt := halt₁.trans halt₂
  simp only [enforceRuntimeLimit, wp_bind, wp_require, wp_modify,
    RuntimeError.isLimit_resourceLimitExceeded, implies_true, and_true]
  intro hactive
  refine wp_finishColumnStats (c := c₂) hsat.column fun stats => ?_
  have hlimits₂ : s₂.limits = limits := halt.limits
  refine ⟨halt.compiled, halt.bytePosition, halt.length_chart, Nat.zero_le _, fun k col hcol => ?_,
    fun scan hscan => (hsat.started scan hscan).imp_left le_of_eq, hsat.sorted, hlimits₂ ▸ hactive,
    Nat.zero_le _, hlimits₂ ▸ hlimits⟩
  have hk : k < s₂.chart.length := (List.getElem?_eq_some_iff.1 hcol).1
  have hlen : s₂.chart.length = 1 := halt.length_chart
  obtain rfl : k = 0 := by omega
  obtain rfl := Option.some.inj (hsat.column.symm.trans hcol)
  exact hsat.filled

end EarleyRecognizer

end OcEarley
