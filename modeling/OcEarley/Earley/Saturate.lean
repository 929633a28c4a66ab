import OcEarley.Earley.Invariant

/-!
# Saturating a column

`CompleteColumn` is the invariant of a finished column: its items are deduced, every item has been
processed, and its Leo entries stand for chains of completions.  `wp_saturate` shows that
`saturate` finishes a column: it stops within its fuel, fails with a limit error only, and leaves
a complete column behind.
-/

namespace OcEarley

open Method ChartColumn

namespace EarleyRecognizer

variable {e : CompiledEarley} (hlaid : e.Laid) (hg : e.grammar.WellFormed)

/-- The item is deduced in column `n` over the input `x`. -/
def Deduced (x : List UInt8) (n : ℕ) (item : EarleyItem) : Prop :=
  (e.dottedGrammar hlaid hg).Chart e.grammar.scanLanguage x n item.dotted item.origin

variable (e) in
/-- What processing an item has put into column `n`.  A completion in its own column is left out:
the nullable advance of the waiters stands for it. -/
structure Closed (leo : Bool) (chart : List ChartColumn) (n : ℕ) (c : ChartColumn)
    (item : EarleyItem) : Prop where
  predict : ∀ {B β}, e.rest item.dotted = .nonterminal B :: β →
    ∀ d ∈ e.startsByLhs[B]?.getD [], { dotted := d, origin := n } ∈ c.items
  nullable : ∀ {B β}, e.rest item.dotted = .nonterminal B :: β →
    e.grammar.nullable[B]? = some true → advance item ∈ c.items
  complete : ∀ {origin}, e.rest item.dotted = [] →
    e.lhs item.dotted ≠ e.grammar.nonterminals.length →
    item.origin < n → chart[item.origin]? = some origin →
      (∀ top, (leo = true ∧ origin.leoByPostdot.lookup (e.lhs item.dotted) = some top) →
        top ∈ c.items) ∧
      ((leo = true → origin.leoByPostdot.lookup (e.lhs item.dotted) = none) →
        ∀ w ∈ origin.waitingNonterminal.get (e.lhs item.dotted), advance w ∈ c.items)

variable (e) in
/-- A Leo entry of column `n`: the only waiter for `B` waits for it as its last symbol, and the
entry is the waiter moved over `B`, or the entry of the waiter's own column
for its left-hand side. -/
structure LeoEntry (chart : List ChartColumn) (n : ℕ) (c : ChartColumn) (B : ℕ)
    (top : EarleyItem) : Prop where
  fits : Fits e n top
  chain : ∃ w ∈ c.items, e.rest w.dotted = [.nonterminal B] ∧
    (∀ w' ∈ c.items, NextIs e (.nonterminal B) w' → w' = w) ∧
    (top = advance w ∨ w.origin < n ∧ ∃ origin, chart[w.origin]? = some origin ∧
      origin.leoByPostdot.lookup (e.lhs w.dotted) = some top)

/-- A finished column. -/
structure CompleteColumn (x : List UInt8) (leo : Bool) (chart : List ChartColumn) (n : ℕ)
    (c : ChartColumn) : Prop where
  agenda : Agenda e n c.items.length c
  deduced : ∀ item ∈ c.items, Deduced hlaid hg x n item
  closed : ∀ item ∈ c.items, Closed e leo chart n c item
  leoOff : leo = false → c.leoByPostdot = ∅
  leoOn : ∀ B top, c.leoByPostdot.lookup B = some top → LeoEntry e chart n c B top

/-- The scan started by an item. -/
def scanFor (e : CompiledEarley) (n : ℕ) (item : EarleyItem) : Option ActiveScan :=
  e.dotted[item.dotted]?.bind (scanOf e n)

/-- The recognizer while column `n` is being saturated, with `a` items processed. -/
structure Saturating (x : List UInt8) (n a : ℕ) (scans : List ActiveScan)
    (s : EarleyRecognizer) (c : ChartColumn) : Prop where
  compiled : s.compiled = e
  length : s.chart.length = n + 1
  position_le : n ≤ u32Max
  older : ∀ k < n, ∀ c, s.chart[k]? = some c →
    CompleteColumn hlaid hg x s.leoEnabled s.chart k c
  column : s.chart[n]? = some c
  processed_le : a ≤ c.items.length
  agenda : Agenda e n a c
  deduced : ∀ item ∈ c.items, Deduced hlaid hg x n item
  closed : ∀ item ∈ c.items.take a, Closed e s.leoEnabled s.chart n c item
  leo : c.leoByPostdot = ∅
  scans_eq : scans = (c.items.take a).filterMap (scanFor e n)

variable {hlaid hg} {x : List UInt8} {n a k : ℕ} {scans : List ActiveScan}
  {s s' : EarleyRecognizer} {c c' : ChartColumn} {f : ChartColumn → ChartColumn}
  {item : EarleyItem} {leo : Bool} {chart chart' : List ChartColumn}

/-! ### Older columns do not change -/

theorem Closed.congr (h : Closed e leo chart n c item)
    (hchart : ∀ k < n, chart'[k]? = chart[k]?) (hitems : c.items <+: c'.items) :
    Closed e leo chart' n c' item where
  predict hr d hd := hitems.subset (h.predict hr d hd)
  nullable hr hB := hitems.subset (h.nullable hr hB)
  complete hr hlhs hlt horigin := by
    rw [hchart _ hlt] at horigin
    exact ⟨fun top htop => hitems.subset ((h.complete hr hlhs hlt horigin).1 top htop),
      fun hno w hw => hitems.subset ((h.complete hr hlhs hlt horigin).2 hno w hw)⟩

theorem CompleteColumn.congr (h : CompleteColumn hlaid hg x leo chart n c)
    (hchart : ∀ k < n, chart'[k]? = chart[k]?) : CompleteColumn hlaid hg x leo chart' n c where
  agenda := h.agenda
  deduced := h.deduced
  closed item hitem := (h.closed item hitem).congr hchart (List.prefix_refl _)
  leoOff := h.leoOff
  leoOn B top htop := by
    obtain ⟨hfits, w, hw, hr, huniq, hcase⟩ := h.leoOn B top htop
    refine ⟨hfits, w, hw, hr, huniq, hcase.imp_right ?_⟩
    rintro ⟨hlt, origin, horigin, hlook⟩
    exact ⟨hlt, origin, (hchart _ hlt).trans horigin, hlook⟩

/-! ### Derived items are deduced -/

namespace Saturating

theorem item_cases (h : Saturating hlaid hg x n a scans s c) (hitem : item ∈ c.items) :
    ∃ r, e.dotted[item.dotted]? = some r ∧ r.next = (e.rest item.dotted).head? ∧
      r.lhs = e.lhs item.dotted := by
  have hr := List.getElem?_eq_getElem (h.agenda.fits item hitem).dotted_lt
  exact ⟨_, hr, hlaid.next_eq hr, (CompiledEarley.lhs_eq hr).symm⟩

theorem booked (h : Saturating hlaid hg x n a scans s c) : Booked e n s where
  compiled := h.compiled
  length := h.length
  position_le := h.position_le
  agenda k col hcol := by
    have hk := (List.getElem?_eq_some_iff.1 hcol).1
    rcases Nat.lt_or_eq_of_le (Nat.le_of_lt_succ (h.length ▸ hk)) with hlt | rfl
    · exact ⟨_, (h.older k hlt col hcol).agenda⟩
    · obtain rfl := Option.some.inj (h.column.symm.trans hcol)
      exact ⟨a, h.agenda⟩
  leo k col B top hcol htop := by
    have hk := (List.getElem?_eq_some_iff.1 hcol).1
    rcases Nat.lt_or_eq_of_le (Nat.le_of_lt_succ (h.length ▸ hk)) with hlt | rfl
    · exact ((h.older k hlt col hcol).leoOn B top htop).fits
    · obtain rfl := Option.some.inj (h.column.symm.trans hcol)
      simp [h.leo] at htop

/-- The items waiting in a column for a nonterminal are deduced there. -/
theorem waiter_spec (h : Saturating hlaid hg x n a scans s c) {k : ℕ} {col : ChartColumn}
    (hk : k ≤ n) (hcol : s.chart[k]? = some col) {B : ℕ} {w : EarleyItem}
    (hw : w ∈ col.waitingNonterminal.get B) :
    Deduced hlaid hg x k w ∧ ∃ β, e.rest w.dotted = .nonterminal B :: β := by
  rcases Nat.lt_or_eq_of_le hk with hlt | rfl
  · have hcomp := h.older k hlt col hcol
    obtain ⟨hmem, hr⟩ := hcomp.agenda.of_mem_nonterminal hw
    exact ⟨hcomp.deduced w hmem, hr⟩
  · obtain rfl := Option.some.inj (h.column.symm.trans hcol)
    obtain ⟨hmem, hr⟩ := h.agenda.of_mem_nonterminal hw
    exact ⟨h.deduced w hmem, hr⟩

/-- The items and the Leo entries of the columns before `n`. -/
def finishedItems (s : EarleyRecognizer) (n k d i : ℕ) : Prop :=
  k < n ∧ ∃ col, s.chart[k]? = some col ∧ ⟨d, i⟩ ∈ col.items

/-- The topmost item that an earlier column has for a nonterminal. -/
def finishedLeo (s : EarleyRecognizer) (n k B d i : ℕ) : Prop :=
  k < n ∧ ∃ col, s.chart[k]? = some col ∧ col.leoByPostdot.lookup B = some ⟨d, i⟩

/-- The Leo entries of the finished columns, as a chain. -/
theorem leoChain (h : Saturating hlaid hg x n a scans s c) {k : ℕ} (hk : k < n) :
    DottedGrammar.LeoChain (e.dottedGrammar hlaid hg)
      (finishedItems s n) (finishedLeo s n) k := by
  rintro B d i ⟨-, col, hcol, htop⟩
  obtain ⟨-, w, hw, hr, huniq, hcase⟩ := (h.older k hk col hcol).leoOn B _ htop
  refine ⟨w.dotted, w.origin, ⟨hk, col, hcol, hw⟩, hr, ?_, ?_⟩
  · rintro d' i' β ⟨-, col', hcol', hmem⟩ hr'
    obtain rfl := Option.some.inj (hcol.symm.trans hcol')
    have hr' : e.rest d' = .nonterminal B :: β := hr'
    have := huniq _ hmem (by simp [NextIs, hr'])
    exact ⟨congrArg EarleyItem.dotted this, congrArg EarleyItem.origin this⟩
  · rcases hcase with htop | ⟨hlt, origin, horigin, hlook⟩
    · exact .inl ⟨congrArg EarleyItem.dotted htop, congrArg EarleyItem.origin htop⟩
    · exact .inr ⟨hlt, hlt.trans hk, origin, horigin, hlook⟩

/-- **Soundness of one round.** -/
theorem derived_sound (hnull : e.grammar.NullableExact)
    (h : Saturating hlaid hg x n a scans s c) (hitem : item ∈ c.items) {r : DottedRule}
    (hd : e.dotted[item.dotted]? = some r) {y : EarleyItem}
    (hy : y ∈ derivedItems s n item r) : Deduced hlaid hg x n y := by
  have hded := h.deduced item hitem
  have hfits := h.agenda.fits item hitem
  have hnext := hlaid.next_eq hd
  unfold derivedItems at hy
  rw [h.compiled] at hy
  rcases hsym : r.next with _ | ⟨t⟩ | ⟨B⟩
  · -- completion
    have hr : e.rest item.dotted = [] := List.head?_eq_none_iff.1 (hnext.symm.trans hsym)
    simp only [hsym] at hy
    split at hy
    · simp at hy
    rename_i haug
    obtain ⟨origin, horigin⟩ : ∃ origin, s.chart[item.origin]? = some origin :=
      ⟨_, List.getElem?_eq_getElem (by rw [h.length]; have := hfits.origin_le; omega)⟩
    rw [horigin] at hy
    simp only at hy
    rw [← CompiledEarley.lhs_eq hd] at hy
    split at hy
    · rename_i top htop
      obtain rfl := List.mem_singleton.1 hy
      have hlook : origin.leoByPostdot.lookup (e.lhs item.dotted) = some y := by
        split at htop
        · exact htop
        · cases htop
      -- an entry is used of an earlier column only: this one has none before it is finished
      rcases Nat.lt_or_eq_of_le hfits.origin_le with hlt | heq
      · have hitems : ∀ {k d i}, k ≤ item.origin → finishedItems s n k d i →
            (e.dottedGrammar hlaid hg).Chart e.grammar.scanLanguage x k d i := by
          rintro k d i - ⟨hk, col, hcol, hmem⟩
          exact (h.older k hk col hcol).deduced _ hmem
        have hleo : finishedLeo s n item.origin (e.lhs item.dotted) y.dotted y.origin :=
          ⟨hlt, origin, horigin, hlook⟩
        exact DottedGrammar.chart_of_leo hitems (fun hk => h.leoChain (hk.trans_lt hlt)) le_rfl
          hleo hded hr rfl
      · rw [heq] at horigin
        obtain rfl := Option.some.inj (h.column.symm.trans horigin)
        simp [h.leo] at hlook
    · obtain ⟨w, hw, rfl⟩ := List.mem_map.1 hy
      obtain ⟨hwd, β, hwr⟩ := h.waiter_spec hfits.origin_le horigin hw
      exact hwd.complete hwr hded hr rfl
  · simp [hsym] at hy
  · -- prediction and nullable advance
    obtain ⟨β, hr⟩ := List.head?_eq_some_iff.1 (hnext.symm.trans hsym)
    have hlt : B < e.grammar.nonterminals.length :=
      hlaid.rest_inRange hg item.dotted (.nonterminal B) (hr ▸ List.mem_cons_self)
    simp only [hsym] at hy
    rcases List.mem_append.1 hy with hy | hy
    · obtain ⟨d, hstart, rfl⟩ := List.mem_map.1 hy
      exact hded.predict hr ⟨hlt, hstart⟩
    · split at hy
      · next hB =>
        obtain rfl := List.mem_singleton.1 hy
        refine hded.nullable hr ?_
        rw [CompiledEarley.dottedGrammar_rule,
          yields_nil_iff_sentence ResidualGrammar.nil_notMem_scanLanguage]
        exact (hnull B hlt).1 hB
      · simp at hy

/-! ### One round of the agenda -/

/-- Inserting the derived items closes an item. -/
theorem closed_of_derived (h : Saturating hlaid hg x n a scans s c) {r : DottedRule}
    (hd : e.dotted[item.dotted]? = some r)
    (hc' : ∀ y ∈ derivedItems s n item r, y ∈ c'.items) :
    Closed e s.leoEnabled s.chart n c' item := by
  have hnext := hlaid.next_eq hd
  unfold derivedItems at hc'
  rw [h.compiled] at hc'
  refine ⟨fun {B β} hr d hstart => ?_, fun {B β} hr hB => ?_,
    fun {origin} hr hlhs hlt horigin => ?_⟩
  · rw [hr, List.head?_cons] at hnext
    simp only [hnext] at hc'
    exact hc' _ (List.mem_append_left _ (List.mem_map_of_mem hstart))
  · rw [hr, List.head?_cons] at hnext
    simp only [hnext] at hc'
    exact hc' _ (List.mem_append_right _ (by simp [hB]))
  · rw [hr, List.head?_nil] at hnext
    simp only [hnext, horigin] at hc'
    rw [if_neg (mt (hlaid.production_eq_augmented_iff hg hd).1 hlhs),
      ← CompiledEarley.lhs_eq hd] at hc'
    constructor
    · rintro top ⟨hleo, htop⟩
      simp only [hleo, if_true, htop] at hc'
      exact hc' top (List.mem_singleton_self top)
    · intro hno w hw
      have hnone : (if s.leoEnabled = true then
          origin.leoByPostdot.lookup (e.lhs item.dotted) else none) = none := by
        split
        · next hleo => exact hno hleo
        · rfl
      simp only [hnone] at hc'
      exact hc' _ (List.mem_map_of_mem hw)

theorem step (hnull : e.grammar.NullableExact) (h : Saturating hlaid hg x n a scans s c)
    (hitem : c.items[a]? = some item) {r : DottedRule} (hd : e.dotted[item.dotted]? = some r)
    (halt : Alters n (fun c => (c.wait item r.next).insertAll (derivedItems s n item r)) s s') :
    Saturating hlaid hg x n (a + 1) (scans ++ (scanOf s.compiled n r).toList) s'
      ((c.wait item r.next).insertAll (derivedItems s n item r)) := by
  have hmem := List.mem_of_getElem? hitem
  have hlt := (List.getElem?_eq_some_iff.1 hitem).1
  have hsound := fun y hy => h.derived_sound hnull hmem hd (y := y) hy
  have hfits := fun y hy => h.booked.fits_derived hlaid (h.agenda.fits item hmem) hd (y := y) hy
  have hwait : Agenda e n (a + 1) (c.wait item r.next) :=
    hlaid.next_eq hd ▸ h.agenda.wait hitem
  obtain ⟨hagenda, hitems⟩ := hwait.insertAll h.position_le (by rw [wait_items]; exact hlt) hfits
  rw [wait_items] at hitems
  have hpre : c.items <+: ((c.wait item r.next).insertAll (derivedItems s n item r)).items := by
    exact items_prefix_wait_insertAll
  have htake : ((c.wait item r.next).insertAll (derivedItems s n item r)).items.take (a + 1) =
      c.items.take (a + 1) := by
    obtain ⟨t, ht⟩ := hpre
    rw [← ht, List.take_append_of_le_length hlt]
  have hchart : ∀ k < n, s'.chart[k]? = s.chart[k]? := fun k hk => halt.getElem?_of_ne hk.ne
  refine ⟨halt.compiled.trans h.compiled, halt.length_chart.trans h.length, h.position_le, ?_,
    halt.getElem?_self h.column, hlt.trans_le hpre.length_le, hagenda, ?_, ?_, ?_, ?_⟩
  · intro k hk col hcol
    rw [hchart k hk] at hcol
    rw [halt.leoEnabled]
    exact (h.older k hk col hcol).congr fun j hj => hchart j (hj.trans hk)
  · intro y hy
    rcases (hitems y).1 hy with hy | hy
    · exact h.deduced y hy
    · exact hsound y hy
  · intro y hy
    rw [htake, List.take_add_one, hitem] at hy
    rw [halt.leoEnabled]
    rcases List.mem_append.1 hy with hy | hy
    · exact (h.closed y hy).congr hchart hpre
    · obtain rfl := List.mem_singleton.1 hy
      exact (h.closed_of_derived hd fun z hz => (hitems z).2 (.inr hz)).congr hchart
        (List.prefix_refl _)
  · rw [insertAll_frame.2.2.2, wait_leoByPostdot]
    exact h.leo
  · rw [htake, List.take_add_one, hitem, List.filterMap_append, ← h.scans_eq, h.compiled]
    simp [scanFor, hd, List.filterMap_cons]
    cases scanOf e n r <;> simp

/-- **The loop stops with every item processed.** -/
theorem wp_saturateLoop (hnull : e.grammar.NullableExact) (fuel : ℕ)
    (h : Saturating hlaid hg x n a scans s c)
    (hfuel : e.dotted.length * (n + 1) + 1 ≤ fuel + a) :
    wp RuntimeError.IsLimit (saturateLoop n fuel a scans) (fun scans' s' => ∃ c' f,
      Alters n f s s' ∧ c.items <+: c'.items ∧
        Saturating hlaid hg x n c'.items.length scans' s' c') s := by
  induction fuel generalizing a scans s c with
  | zero =>
    have := h.agenda.length_le
    have := h.processed_le
    omega
  | succ fuel ih =>
    simp only [saturateLoop, wp_bind]
    refine wp_column h.column ?_
    cases hitem : c.items[a]? with
    | none =>
      obtain rfl : a = c.items.length :=
        h.processed_le.antisymm (List.getElem?_eq_none_iff.1 hitem)
      exact ⟨c, id, Alters.refl n s, List.prefix_refl _, h⟩
    | some item =>
      have hmem := List.mem_of_getElem? hitem
      obtain ⟨r, hd, -, -⟩ := h.item_cases hmem
      simp only [wp_bind]
      refine wp_processItem h.column h.agenda.position
        (h.booked.ready hlaid hg (h.agenda.fits item hmem) hd) fun s₁ halt => ?_
      refine wp_mono (ih (h.step hnull hitem hd halt) (by omega)) ?_
      rintro scans' s' ⟨c', f, halt', hpre, h'⟩
      refine ⟨c', _, halt.trans halt', ?_, h'⟩
      exact items_prefix_wait_insertAll.trans hpre

end Saturating

/-! ### Leo entries of the finished column -/

/-- An entry made by `finishLeoColumn` stands for a chain. -/
theorem leoEntry_spec (h : Saturating hlaid hg x n c.items.length scans s c) {B : ℕ}
    {top : EarleyItem} (htop : leoEntry s n c B = some top) :
    LeoEntry e s.chart n c B top := by
  unfold leoEntry at htop
  split at htop
  · rename_i w hget
    split at htop
    · rename_i hlen
      obtain rfl := Option.some.inj htop
      obtain ⟨hmem, β, hr⟩ := h.agenda.of_mem_nonterminal (hget ▸ List.mem_singleton_self w)
      have hr : e.rest w.dotted = [.nonterminal B] := by
        rw [h.compiled, hr, List.length_cons, Nat.add_eq_right, List.length_eq_zero_iff] at hlen
        rw [hr, hlen]
      have huniq : ∀ w' ∈ c.items, NextIs e (.nonterminal B) w' → w' = w := by
        intro w' hw' hnext
        obtain ⟨β, hr'⟩ := List.head?_eq_some_iff.1 hnext
        exact List.mem_singleton.1 (hget ▸ h.agenda.mem_nonterminal_of_mem hw' hr')
      have hadv := fits_advance hlaid (h.agenda.fits w hmem) le_rfl hr
      have hlhs : s.compiled.lhs (advance w).dotted = e.lhs w.dotted := by
        obtain ⟨r, r', hd, hd', -, hl, -⟩ := hlaid.advance_spec hr
        rw [h.compiled, CompiledEarley.lhs_eq hd,
          show e.lhs (advance w).dotted = r'.lhs from CompiledEarley.lhs_eq hd', hl]
      -- the waiter itself, or the entry of its own column
      by_cases hlt : w.origin < n
      · obtain ⟨origin, horigin⟩ : ∃ origin, s.chart[w.origin]? = some origin :=
          ⟨_, List.getElem?_eq_getElem (by rw [h.length]; omega)⟩
        rw [leoTarget, if_pos hlt, hlhs, horigin, Option.bind_some]
        cases hlook : origin.leoByPostdot.lookup (e.lhs w.dotted) with
        | none => exact ⟨hadv, w, hmem, hr, huniq, .inl rfl⟩
        | some top =>
          have hfits := ((h.older _ hlt origin horigin).leoOn _ _ hlook).fits
          exact ⟨⟨hfits.dotted_lt, hfits.origin_le.trans hlt.le⟩, w, hmem, hr, huniq,
            .inr ⟨hlt, origin, horigin, hlook⟩⟩
      · rw [leoTarget, if_neg hlt]
        exact ⟨hadv, w, hmem, hr, huniq, .inl rfl⟩
    · cases htop
  · cases htop

/-- A column whose items have all been processed is complete, with any entries
that stand for chains. -/
theorem Saturating.completeColumn (h : Saturating hlaid hg x n c.items.length scans s c)
    {m : AList fun _ : ℕ => EarleyItem} (hoff : s.leoEnabled = false → m = ∅)
    (hon : ∀ B top, m.lookup B = some top → LeoEntry e s.chart n c B top) :
    CompleteColumn hlaid hg x s.leoEnabled s.chart n (withLeo m c) where
  agenda := ⟨h.agenda.position, h.agenda.fits, h.agenda.mem_iff, h.agenda.nodup,
    h.agenda.nonterminal, h.agenda.terminal, h.agenda.mem_nonterminal⟩
  deduced := h.deduced
  closed item hitem := by
    have hclosed := h.closed item (by rw [List.take_length]; exact hitem)
    exact ⟨hclosed.predict, hclosed.nullable, hclosed.complete⟩
  leoOff := hoff
  leoOn B top htop := by
    obtain ⟨hfits, hchain⟩ := hon B top htop
    exact ⟨hfits, hchain⟩

/-- **Saturation finishes the column.** -/
theorem wp_saturate (hnull : e.grammar.NullableExact) (h : Saturating hlaid hg x n 0 [] s c) :
    wp RuntimeError.IsLimit (saturate n) (fun scans' s' => ∃ c' f,
      Alters n f s s' ∧ c.items <+: c'.items ∧ s'.chart[n]? = some c' ∧
        scans' = sortDedup ActiveScan.key (c'.items.filterMap (scanFor e n)) ∧
        CompleteColumn hlaid hg x s'.leoEnabled s'.chart n c') s := by
  simp only [saturate, saturateMeasured, wp_bind, wp_get]
  refine wp_mono (Saturating.wp_saturateLoop hnull _ h (by
    simp only [saturateFuel, h.compiled]; omega)) ?_
  rintro scans' s₁ ⟨c₁, f, halt, hpre, h₁⟩
  have hscans : scans' = c₁.items.filterMap (scanFor e n) := by
    rw [h₁.scans_eq, List.take_length]
  rw [← halt.leoEnabled]
  cases hleo : s₁.leoEnabled with
  | false =>
    simp only [Bool.false_eq_true, if_false, wp_pure]
    refine ⟨c₁, f, halt, hpre, h₁.column, by rw [hscans], ?_⟩
    have := h₁.completeColumn (m := ∅) (fun _ => rfl) (by simp)
    rwa [show withLeo ∅ c₁ = c₁ by simp [withLeo, ← h₁.leo]] at this
  | true =>
    simp only [if_true, wp_bind]
    refine wp_mono (wp_finishLeoColumn hlaid h₁.compiled h₁.column h₁.agenda h₁.leo) ?_
    rintro _ s₂ ⟨m, halt₂, hm⟩
    refine ⟨withLeo m c₁, _, halt.trans halt₂, hpre, halt₂.getElem?_self h₁.column,
      by rw [hscans]; rfl, ?_⟩
    have := h₁.completeColumn (m := m) (fun hoff => by rw [hleo] at hoff; cases hoff)
      fun B top htop => leoEntry_spec h₁ (hm B top htop)
    rw [halt₂.leoEnabled]
    exact this.congr fun k hk => halt₂.getElem?_of_ne hk.ne

end EarleyRecognizer

end OcEarley
