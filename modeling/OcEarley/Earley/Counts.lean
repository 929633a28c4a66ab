import Mathlib.Algebra.Order.BigOperators.Group.List
import Mathlib.Algebra.Order.Group.Nat
import OcEarley.Earley.Frame

/-!
# The counters of the recognizer

Every path through `advanceByte`, the failing ones included, keeps the counters in step with the
chart and within the limits (`EarleyRecognizer.Counted`).
-/

namespace OcEarley

open Method

namespace EarleyRecognizer

/-- Items of all columns. -/
def itemCount (chart : List ChartColumn) : ℕ := (chart.map fun c => c.items.length).sum

/-- Leo entries of all columns. -/
def leoCount (chart : List ChartColumn) : ℕ :=
  (chart.map fun c => c.leoByPostdot.entries.length).sum

/-- The counters are the sums over the columns, and within the limits. -/
structure Counted (s : EarleyRecognizer) : Prop where
  totalItems : s.totalItems = itemCount s.chart
  leoItems : s.leoItems = leoCount s.chart
  items_le : ∀ c ∈ s.chart, c.items.length ≤ s.limits.maxItemsPerColumn
  totalItems_le : s.totalItems ≤ s.limits.maxTotalItems
  leoItems_le : s.leoItems ≤ s.limits.maxLeoItems

/-- Column `n` has no Leo entries yet. -/
structure Counting (n : ℕ) (s : EarleyRecognizer) : Prop extends Counted s where
  leo : ∀ c, s.chart[n]? = some c → c.leoByPostdot = ∅

variable {s : EarleyRecognizer} {n : ℕ} {c : ChartColumn}

theorem length_le_itemCount {chart : List ChartColumn} (h : c ∈ chart) :
    c.items.length ≤ itemCount chart :=
  List.single_le_sum (fun _ _ => Nat.zero_le _) _ (List.mem_map_of_mem h)

theorem Counted.file (h : Counted s) {f : ChartColumn → ChartColumn}
    (hf : ∀ c, (f c).items = c.items ∧ (f c).leoByPostdot = c.leoByPostdot) :
    Counted { s with chart := s.chart.modify n f } where
  totalItems := by
    rw [itemCount, map_modify_of_comp fun c => by rw [(hf c).1]]
    exact h.totalItems
  leoItems := by
    rw [leoCount, map_modify_of_comp fun c => by rw [(hf c).2]]
    exact h.leoItems
  items_le := forall_mem_modify h.items_le fun c hc => by
    rw [(hf c).1]
    exact h.items_le c (List.mem_of_getElem? hc)
  totalItems_le := h.totalItems_le
  leoItems_le := h.leoItems_le

theorem Counting.file (h : Counting n s) {f : ChartColumn → ChartColumn}
    (hf : ∀ c, (f c).items = c.items ∧ (f c).leoByPostdot = c.leoByPostdot) :
    Counting n { s with chart := s.chart.modify n f } where
  toCounted := h.toCounted.file hf
  leo c hc := by
    rw [List.getElem?_modify_eq] at hc
    obtain ⟨c', hc', rfl⟩ := Option.map_eq_some_iff.1 hc
    rw [(hf c').2]
    exact h.leo c' hc'

/-- An item is pushed and counted. -/
theorem Counting.push (h : Counting n s) (hcol : s.chart[n]? = some c)
    {f : ChartColumn → ChartColumn}
    (hf : ∀ c, (f c).items.length = c.items.length + 1 ∧ (f c).leoByPostdot = c.leoByPostdot)
    (hlimit : saturatingAdd c.items.length 1 ≤ s.limits.maxItemsPerColumn)
    (hfits : s.totalItems + 1 ≤ usizeMax) (htotal : s.totalItems + 1 ≤ s.limits.maxTotalItems)
    (stats : EarleyStats) :
    Counting n { s with
      chart := s.chart.modify n f, totalItems := s.totalItems + 1, stats := stats } := by
  have hlen : c.items.length ≤ s.totalItems := by
    rw [h.totalItems]
    exact length_le_itemCount (List.mem_of_getElem? hcol)
  have hlimit : c.items.length + 1 ≤ s.limits.maxItemsPerColumn := by
    unfold saturatingAdd at hlimit
    omega
  refine ⟨⟨?_, ?_, forall_mem_modify h.items_le fun c' hc' => ?_, htotal, h.leoItems_le⟩,
    fun c' hc' => ?_⟩
  · have hsum := sum_map_modify (g := fun c : ChartColumn => c.items.length) (f := f) hcol
    have htotal := h.totalItems
    rw [(hf c).1] at hsum
    unfold itemCount at htotal ⊢
    dsimp only
    omega
  · rw [leoCount, map_modify_of_comp fun c => by rw [(hf c).2]]
    exact h.leoItems
  · obtain rfl := Option.some.inj (hcol.symm.trans hc')
    rw [(hf c).1]
    exact hlimit
  · rw [List.getElem?_modify_eq] at hc'
    obtain ⟨c₀, hc₀, rfl⟩ := Option.map_eq_some_iff.1 hc'
    rw [(hf c₀).2]
    exact h.leo c₀ hc₀

theorem preserves_insertItem (item : EarleyItem) :
    Moves (Preserves (Counting n)) (insertItem n item) := by
  intro s h
  refine stateOf_read_bind h (moves_column n) fun c hc => ?_
  split
  · exact ⟨⟨h.totalItems, h.leoItems, h.items_le, h.totalItems_le, h.leoItems_le⟩, h.leo⟩
  · -- from here on the key is filed, whether or not the item fits
    have hfiled := h.file (f := fun c => { c with membership := insert item.key c.membership })
      fun _ => ⟨rfl, rfl⟩
    rw [modifyColumn, stateOf_modify_bind, stateOf_get_bind]
    refine stateOf_require_bind_cases hfiled fun hitems => ?_
    refine stateOf_require_bind_cases hfiled fun hfits => ?_
    refine stateOf_require_bind_cases hfiled fun htotal => ?_
    rw [modifyColumn, stateOf_modify_bind, stateOf_modify_bind, modifyStats]
    dsimp only
    rw [List.modify_modify_eq]
    exact h.push (f := (fun c : ChartColumn => { c with items := c.items ++ [item] }) ∘
      fun c : ChartColumn => { c with membership := insert item.key c.membership })
        (chart_of_column_eq_ok hc)
      (fun c => ⟨List.length_append, rfl⟩) hitems hfits htotal _

theorem allows_counting : Allows (Preserves (Counting n)) n where
  stats _ _ h := ⟨⟨h.totalItems, h.leoItems, h.items_le, h.totalItems_le, h.leoItems_le⟩, h.leo⟩
  insertItem := preserves_insertItem
  file _ _ hf h := h.file hf

/-! ### Leo entries -/

/-- What the call for one nonterminal can do: nothing, or an entry for it. -/
inductive LeoStep (n B : ℕ) (s : EarleyRecognizer) : EarleyRecognizer → Prop
  | same : LeoStep n B s s
  | entry {c : ChartColumn} (hcol : s.chart[n]? = some c) (target : EarleyItem)
    (stats : EarleyStats) (hle : s.leoItems + 1 ≤ s.limits.maxLeoItems) :
    LeoStep n B s { s with
      chart := s.chart.modify n fun c => { c with leoByPostdot := c.leoByPostdot.insert B target }
      leoItems := s.leoItems + 1
      stats := stats }

theorem leoStep_finishLeoPostdot (B : ℕ) (s : EarleyRecognizer) :
    LeoStep n B s (stateOf (finishLeoPostdot n B s)) := by
  refine stateOf_read_bind .same (moves_column n) fun current hcol =>
    stateOf_read_bind .same (moves_unwrap _ _) fun waiters _ => ?_
  split
  · next waiter _ =>
    refine stateOf_read_bind .same (moves_dotted waiter) fun waiterDotted _ => ?_
    rw [stateOf_get_bind]
    refine stateOf_read_bind .same (moves_unwrap _ _) fun production _ => ?_
    split
    · exact .same
    · refine stateOf_read_bind .same (moves_advanceItem waiter) fun advanced _ =>
        stateOf_read_bind .same (moves_dotted advanced) fun advancedDotted _ =>
          stateOf_read_bind .same ?_ fun target _ => ?_
      · split
        · exact moves_bind (moves_column _) fun _ => moves_pure _
        · exact moves_pure _
      · refine stateOf_require_bind_cases .same fun _ =>
          stateOf_require_bind_cases .same fun hle => ?_
        exact .entry (chart_of_column_eq_ok hcol) target _ hle
  · exact .same

/-- A new Leo entry is counted. -/
theorem LeoStep.counted {B : ℕ} {s' : EarleyRecognizer} (h : LeoStep n B s s') (hs : Counted s)
    (hB : ∀ c, s.chart[n]? = some c → B ∉ c.leoByPostdot) : Counted s' := by
  cases h with
  | same => exact hs
  | @entry c hcol target stats hle =>
    have hitems := map_modify_of_comp (g := fun c : ChartColumn => c.items.length)
      (f := fun c => { c with leoByPostdot := c.leoByPostdot.insert B target })
        (fun _ => rfl) s.chart n
    refine ⟨?_, ?_, forall_mem_modify hs.items_le fun c hc => hs.items_le c
      (List.mem_of_getElem? hc),
      hs.totalItems_le, hle⟩
    · rw [itemCount, hitems]
      exact hs.totalItems
    · have hsum := sum_map_modify (g := fun c : ChartColumn => c.leoByPostdot.entries.length)
        (f := fun c => { c with leoByPostdot := c.leoByPostdot.insert B target }) hcol
      have hleo := hs.leoItems
      dsimp only at hsum
      rw [AList.entries_insert_of_notMem (hB c hcol), List.length_cons] at hsum
      unfold leoCount at hleo ⊢
      dsimp only
      omega

theorem Counting.counted_finishLeoColumn (h : Counting n s) :
    Counted (stateOf (finishLeoColumn n s)) := by
  refine stateOf_read_bind h.toCounted (moves_column n) fun current hcurrent => ?_
  have hnodup : (sortByKey (fun postdot : ℕ => postdot) current.waitingNonterminal.keys).Nodup :=
    (List.perm_insertionSort _ _).nodup_iff.2 (AList.keys_nodup _)
  generalize sortByKey (fun postdot : ℕ => postdot) current.waitingNonterminal.keys = postdots
    at hnodup
  have hfree : ∀ B ∈ postdots, ∀ c, s.chart[n]? = some c → B ∉ c.leoByPostdot := by
    intro B _ c hc
    rw [h.leo c hc]
    exact AList.notMem_empty B
  have hs := h.toCounted
  clear h hcurrent
  induction postdots generalizing s with
  | nil => exact hs
  | cons B rest ih =>
    obtain ⟨hB, hrest⟩ := List.nodup_cons.1 hnodup
    change Counted (stateOf ((finishLeoPostdot n B >>= fun _ => rest.forM (finishLeoPostdot n)) s))
    have hstep := leoStep_finishLeoPostdot (n := n) B s
    have hcounted := hstep.counted hs (hfree B List.mem_cons_self)
    -- the entries for the nonterminals still to come are not touched
    have hfree' : ∀ B' ∈ rest, ∀ c, (stateOf (finishLeoPostdot n B s)).chart[n]? = some c →
        B' ∉ c.leoByPostdot := by
      intro B' hB' c hc
      have hne : B' ≠ B := fun heq => hB (heq ▸ hB')
      have hold := hfree B' (List.mem_cons_of_mem _ hB')
      generalize stateOf (finishLeoPostdot n B s) = s' at hstep hc
      cases hstep with
      | same => exact hold c hc
      | entry hcol target stats hle =>
        rw [List.getElem?_modify_eq, hcol] at hc
        obtain rfl := Option.some.inj hc
        rw [AList.mem_insert, not_or]
        exact ⟨hne, hold _ hcol⟩
    rw [bind_apply]
    generalize finishLeoPostdot n B s = r at hcounted hfree'
    cases r with
    | ok u s' => exact ih hrest hfree' hcounted
    | error e s' => exact hcounted

theorem Counting.counted_saturateMeasured (h : Counting n s) :
    Counted (stateOf (saturateMeasured n s)) := by
  unfold saturateMeasured
  rw [stateOf_get_bind]
  refine stateOf_bind h (allows_counting.saturateLoop _ _ _) (fun _ h => h.toCounted)
    fun scans s' h' => ?_
  dsimp only
  split
  · rw [bind_apply]
    have hleo := h'.counted_finishLeoColumn
    generalize finishLeoColumn n s' = r at hleo
    cases r with
    | ok u s' => exact hleo
    | error e s' => exact hleo
  · exact h'.toCounted

theorem Counting.counted_saturate (h : Counting n s) : Counted (stateOf (saturate n s)) := by
  have hmeasured := h.counted_saturateMeasured
  unfold saturate
  rw [bind_apply]
  generalize saturateMeasured n s = r at hmeasured
  cases r with
  | ok measured s' => exact hmeasured
  | error e s' => exact hmeasured

theorem preserves_finishColumnStats (column capacity : ℕ) :
    Moves (Preserves Counted) (finishColumnStats column capacity) :=
  moves_bind (moves_column column) fun _ => moves_modify fun _ h =>
    ⟨h.totalItems, h.leoItems, h.items_le, h.totalItems_le, h.leoItems_le⟩

/-- **The counters are right** whatever happens while a byte is consumed. -/
theorem Counted.advanceByte (h : Counted s) (byte : UInt8) :
    Counted (stateOf (advanceByte byte s)) := by
  unfold EarleyRecognizer.advanceByte
  rw [stateOf_get_bind]
  refine stateOf_require_bind h (stateOf_require_bind h (stateOf_require_bind h ?_))
  have hpush : Counting s.chart.length { s with
      chart := s.chart ++ [.new (s.bytePosition + 1)], activeScans := [] } := by
    refine ⟨⟨?_, ?_, ?_, h.totalItems_le, h.leoItems_le⟩, fun c hc => ?_⟩
    · simpa [itemCount, ChartColumn.new] using h.totalItems
    · simpa [leoCount, ChartColumn.new] using h.leoItems
    · intro c hc
      rcases List.mem_append.1 hc with hc | hc
      · exact h.items_le c hc
      · obtain rfl := List.mem_singleton.1 hc
        exact Nat.zero_le _
    · obtain rfl := Option.some.inj (List.getElem?_concat_length.symm.trans hc)
      rfl
  rw [stateOf_modify_bind]
  dsimp only
  rw [stateOf_modify_bind]
  refine stateOf_bind hpush (moves_foldlM (allows_counting.scanByte byte) _ _)
    (fun _ h => h.toCounted) fun continuing s₁ h₁ => ?_
  have hsat := h₁.counted_saturate
  rw [bind_apply]
  generalize saturate s.chart.length s₁ = r at hsat
  cases r with
  | error e s₂ => exact hsat
  | ok created s₂ =>
    dsimp only
    refine stateOf_require_bind hsat ?_
    rw [stateOf_modify_bind]
    have hstats : Moves (Preserves Counted) (do
        finishColumnStats s.chart.length
          (reserveCapacity (pushCapacity continuing.length) continuing.length created.length)
        let self ← get
        pure self.isLive) :=
      moves_bind (preserves_finishColumnStats _ _) fun _ => moves_bind moves_get fun _ =>
        moves_pure _
    exact hstats _
      ⟨hsat.totalItems, hsat.leoItems, hsat.items_le, hsat.totalItems_le, hsat.leoItems_le⟩

theorem Counted.prepare {compiled : CompiledEarley} {limits : RuntimeLimits} {leo : Bool}
    {generation : ℕ} :
    Counted (stateOf (CompiledEarley.prepare (compiled.blank limits leo generation))) := by
  have hblank : Counting 0 (compiled.blank limits leo generation) := by
    refine ⟨⟨rfl, rfl, fun c hc => ?_, Nat.zero_le _, Nat.zero_le _⟩, fun c hc => ?_⟩
    · obtain rfl := List.mem_singleton.1 hc
      exact Nat.zero_le _
    · obtain rfl := Option.some.inj hc
      rfl
  unfold CompiledEarley.prepare
  rw [stateOf_get_bind]
  refine stateOf_read_bind hblank.toCounted (moves_unwrap _ _) fun start _ => ?_
  refine stateOf_bind hblank (preserves_insertItem _) (fun _ h => h.toCounted) fun _ s₁ h₁ => ?_
  have hsat := h₁.counted_saturateMeasured
  rw [bind_apply]
  generalize saturateMeasured 0 s₁ = r at hsat
  cases r with
  | error e s₂ => exact hsat
  | ok measured s₂ =>
    refine stateOf_require_bind hsat ?_
    rw [stateOf_modify_bind]
    exact preserves_finishColumnStats _ _ _
      ⟨hsat.totalItems, hsat.leoItems, hsat.items_le, hsat.totalItems_le, hsat.leoItems_le⟩

end EarleyRecognizer

end OcEarley
