import OcEarley.Earley.Recognizer

/-!
# What the methods of the recognizer do to the chart

Each method that works on column `n` changes that column only, apart from counters, and fails with
a limit error only.  `EarleyRecognizer.Alters n f` is the relation "column `n` was changed by `f`";
the specifications say which items are inserted, as a pure function of the chart
(`derivedItems`).
-/

namespace OcEarley

open Method

/-! ### Waiting lists -/

namespace Waiters

variable {w : Waiters} {symbol other : ℕ} {item : EarleyItem}

@[simp] theorem get_empty : get ∅ symbol = [] := rfl

theorem get_push : (w.push symbol item).get other =
    if other = symbol then w.get symbol ++ [item] else w.get other := by
  unfold push get
  split
  · next h => subst h; simp
  · next h => rw [AList.lookup_insert_ne h]

theorem mem_push {w : Waiters} : other ∈ w.push symbol item ↔ other = symbol ∨ other ∈ w := by
  simp [push]

end Waiters

/-! ### Insertion into a column -/

namespace ChartColumn

/-- The column with an item, unless its key is there already. -/
def insert (c : ChartColumn) (item : EarleyItem) : ChartColumn :=
  if item.key ∈ c.membership then c
  else { c with membership := Insert.insert item.key c.membership, items := c.items ++ [item] }

/-- The items are inserted one after the other. -/
def insertAll (c : ChartColumn) (l : List EarleyItem) : ChartColumn := l.foldl insert c

/-- The item waits for its next symbol. -/
def wait (c : ChartColumn) (item : EarleyItem) : Option GrammarSymbol → ChartColumn
  | some (.nonterminal B) => { c with waitingNonterminal := c.waitingNonterminal.push B item }
  | some (.terminal t) => { c with waitingTerminal := c.waitingTerminal.push t item }
  | none => c

variable {c : ChartColumn} {item : EarleyItem} {l l' : List EarleyItem}

@[simp] theorem insertAll_nil : c.insertAll [] = c := rfl

@[simp] theorem insertAll_cons : c.insertAll (item :: l) = (c.insert item).insertAll l := rfl

theorem insertAll_append (c : ChartColumn) (l l' : List EarleyItem) :
    c.insertAll (l ++ l') = (c.insertAll l).insertAll l' :=
  List.foldl_append

/-- Every key is that of an item. -/
def KeysListed (c : ChartColumn) : Prop := ∀ key ∈ c.membership, ∃ item ∈ c.items, item.key = key

theorem KeysListed.insert (h : c.KeysListed) (item : EarleyItem) : (c.insert item).KeysListed := by
  unfold ChartColumn.insert
  split
  · exact h
  · intro key hkey
    rcases Finset.mem_insert.1 hkey with rfl | hkey
    · exact ⟨item, List.mem_append_right _ (List.mem_singleton_self item), rfl⟩
    · obtain ⟨x, hx, hxkey⟩ := h key hkey
      exact ⟨x, List.mem_append_left _ hx, hxkey⟩

theorem KeysListed.insertAll (h : c.KeysListed) (l : List EarleyItem) :
    (c.insertAll l).KeysListed := by
  induction l generalizing c with
  | nil => exact h
  | cons item l ih => exact ih (h.insert item)

theorem KeysListed.wait (h : c.KeysListed) (item : EarleyItem) (sym : Option GrammarSymbol) :
    (c.wait item sym).KeysListed := by
  rcases sym with _ | ⟨t⟩ | ⟨B⟩ <;> exact h

/-- Everything but the items and their keys is untouched. -/
@[simp] theorem insert_frame : (c.insert item).position = c.position ∧
    (c.insert item).waitingNonterminal = c.waitingNonterminal ∧
    (c.insert item).waitingTerminal = c.waitingTerminal ∧
    (c.insert item).leoByPostdot = c.leoByPostdot := by
  unfold insert
  split <;> simp

@[simp] theorem insertAll_frame : (c.insertAll l).position = c.position ∧
    (c.insertAll l).waitingNonterminal = c.waitingNonterminal ∧
    (c.insertAll l).waitingTerminal = c.waitingTerminal ∧
    (c.insertAll l).leoByPostdot = c.leoByPostdot := by
  induction l generalizing c with
  | nil => simp
  | cons item l ih =>
    obtain ⟨h₁, h₂, h₃, h₄⟩ := ih (c := c.insert item)
    obtain ⟨h₁', h₂', h₃', h₄'⟩ := @insert_frame c item
    exact ⟨h₁.trans h₁', h₂.trans h₂', h₃.trans h₃', h₄.trans h₄'⟩

theorem items_prefix_insert : c.items <+: (c.insert item).items := by
  unfold insert
  split
  · exact List.prefix_refl _
  · exact List.prefix_append _ _

theorem items_prefix_insertAll : c.items <+: (c.insertAll l).items := by
  induction l generalizing c with
  | nil => exact List.prefix_refl _
  | cons item l ih => exact items_prefix_insert.trans ih

end ChartColumn

/-! ### The frame -/

namespace EarleyRecognizer

/-- Column `n` was changed by `f`; apart from the counters nothing else was. -/
structure Alters (n : ℕ) (f : ChartColumn → ChartColumn) (s s' : EarleyRecognizer) : Prop where
  compiled : s'.compiled = s.compiled
  limits : s'.limits = s.limits
  leoEnabled : s'.leoEnabled = s.leoEnabled
  generation : s'.generation = s.generation
  activeScans : s'.activeScans = s.activeScans
  bytePosition : s'.bytePosition = s.bytePosition
  chart : s'.chart = s.chart.modify n f

variable {n : ℕ} {f g : ChartColumn → ChartColumn} {s s' s'' : EarleyRecognizer}
  {item : EarleyItem} {col : ChartColumn}

namespace Alters

theorem refl (n : ℕ) (s : EarleyRecognizer) : Alters n id s s :=
  ⟨rfl, rfl, rfl, rfl, rfl, rfl, (List.modify_id n s.chart).symm⟩

theorem trans (h : Alters n f s s') (h' : Alters n g s' s'') : Alters n (g ∘ f) s s'' :=
  ⟨h'.compiled.trans h.compiled, h'.limits.trans h.limits, h'.leoEnabled.trans h.leoEnabled,
    h'.generation.trans h.generation, h'.activeScans.trans h.activeScans,
    h'.bytePosition.trans h.bytePosition, by
      rw [h'.chart, h.chart, List.modify_modify_eq]⟩

theorem length_chart (h : Alters n f s s') : s'.chart.length = s.chart.length := by
  rw [h.chart, List.length_modify]

theorem getElem?_self (h : Alters n f s s') (hcol : s.chart[n]? = some col) :
    s'.chart[n]? = some (f col) := by
  rw [h.chart, List.getElem?_modify_eq, hcol]
  rfl

theorem getElem?_of_ne (h : Alters n f s s') {k : ℕ} (hk : k ≠ n) : s'.chart[k]? = s.chart[k]? := by
  rw [h.chart, List.getElem?_modify_ne _ _ hk.symm]

/-- A change of the counters alone. -/
theorem of_counters {s : EarleyRecognizer} (n : ℕ) (total leo : ℕ) (stats : EarleyStats) :
    Alters n id s { s with totalItems := total, leoItems := leo, stats := stats } :=
  ⟨rfl, rfl, rfl, rfl, rfl, rfl, (List.modify_id n s.chart).symm⟩

end Alters

/-! ### Specifications -/

variable {Q : Unit → EarleyRecognizer → Prop}

theorem wp_column {c : ChartColumn} {Q : ChartColumn → EarleyRecognizer → Prop}
    (hcol : s.chart[n]? = some c) (hQ : Q c s) : wp RuntimeError.IsLimit (column n) Q s := by
  simp only [column, wp_bind, wp_get, hcol, wp_unwrap_some]
  exact hQ

theorem wp_dotted {Q : DottedRule → EarleyRecognizer → Prop} {r : DottedRule}
    (hr : s.compiled.dotted[item.dotted]? = some r) (hQ : Q r s) :
    wp RuntimeError.IsLimit (dotted item) Q s := by
  simp only [dotted, wp_bind, wp_get, hr, wp_unwrap_some]
  exact hQ

/-- The item can be advanced. -/
def Advanceable (e : CompiledEarley) (item : EarleyItem) : Prop :=
  ∃ r, e.dotted[item.dotted]? = some r ∧ r.advanced = some (item.dotted + 1)

/-- The dot moved over the next symbol. -/
def advance (item : EarleyItem) : EarleyItem := { item with dotted := item.dotted + 1 }

theorem wp_advanceItem {Q : EarleyItem → EarleyRecognizer → Prop}
    (h : Advanceable s.compiled item) (hQ : Q (advance item) s) :
    wp RuntimeError.IsLimit (advanceItem item) Q s := by
  obtain ⟨r, hr, hadv⟩ := h
  simp only [advanceItem, wp_bind]
  refine wp_dotted hr ?_
  simp only [hadv]
  exact hQ

theorem wp_insertItem {c : ChartColumn} (hcol : s.chart[n]? = some c)
    (hQ : ∀ s', Alters n (·.insert item) s s' → Q () s') :
    wp RuntimeError.IsLimit (insertItem n item) Q s := by
  simp only [insertItem, wp_bind]
  refine wp_column hcol ?_
  by_cases hmem : item.key ∈ c.membership
  · rw [if_pos hmem]
    refine hQ _ ⟨rfl, rfl, rfl, rfl, rfl, rfl, ?_⟩
    refine (List.modify_id n s.chart).symm.trans (List.ext_getElem? fun k => ?_)
    by_cases hk : n = k
    · subst hk
      simp [hcol, ChartColumn.insert, hmem]
    · simp [hk]
  · rw [if_neg hmem]
    simp only [modifyColumn, modifyStats, enforceRuntimeLimit, wp_bind, wp_modify, wp_get,
      wp_require, RuntimeError.isLimit_resourceLimitExceeded, implies_true, and_true]
    intro _ _ _
    refine hQ _ ⟨rfl, rfl, rfl, rfl, rfl, rfl, ?_⟩
    refine (List.modify_modify_eq _ _ _ _).trans (List.ext_getElem? fun k => ?_)
    by_cases hk : n = k
    · subst hk
      simp [hcol, ChartColumn.insert, hmem]
    · simp [hk]

/-- A loop that inserts an item for each element of a list. -/
theorem wp_forM_insert {α : Type} {f : α → Method RuntimeError EarleyRecognizer PUnit}
    {g : α → EarleyItem} {P : EarleyRecognizer → Prop}
    (hP : ∀ {item s s'}, P s → Alters n (·.insert item) s s' → P s') {l : List α}
    (hf : ∀ a ∈ l, ∀ s, P s →
      wp RuntimeError.IsLimit (f a) (fun _ s' => Alters n (·.insert (g a)) s s') s) (hs : P s)
    (hQ : ∀ s', Alters n (·.insertAll (l.map g)) s s' → Q () s') :
    wp RuntimeError.IsLimit (l.forM f) Q s := by
  have hnil : Alters n (·.insertAll (([] : List α).map g)) s s := Alters.refl n s
  refine wp_mono (wp_forM (I := fun rest s' => P s' ∧ ∃ done, l = done ++ rest ∧
    Alters n (·.insertAll (done.map g)) s s') ?_ l s ⟨hs, [], rfl, hnil⟩) ?_
  · rintro a rest s₁ ⟨hs₁, done, rfl, halt⟩
    refine wp_mono (hf a (by simp) s₁ hs₁) fun _ s₂ h₂ => ⟨hP hs₁ h₂, done ++ [a], by simp, ?_⟩
    have := halt.trans h₂
    rw [List.map_append, List.map_singleton]
    refine cast (congrArg (fun f => Alters n f s s₂) (funext fun c => ?_)) this
    exact (c.insertAll_append (done.map g) [g a]).symm
  · rintro ⟨⟩ s' ⟨-, done, hl, halt⟩
    rw [List.append_nil] at hl
    subst hl
    exact hQ s' halt

theorem wp_insertAdvanced {bump : EarleyStats → EarleyStats} {waiters : List EarleyItem}
    (hn : n < s.chart.length) (hw : ∀ w ∈ waiters, Advanceable s.compiled w)
    (hQ : ∀ s', Alters n (·.insertAll (waiters.map advance)) s s' → Q () s') :
    wp RuntimeError.IsLimit (insertAdvanced n bump waiters) Q s := by
  refine wp_forM_insert (P := fun s' => s'.compiled = s.compiled ∧ n < s'.chart.length) ?_ ?_
    ⟨rfl, hn⟩ hQ
  · rintro item s₁ s₂ ⟨hc, hn⟩ h
    exact ⟨h.compiled.trans hc, h.length_chart ▸ hn⟩
  · rintro w hwl s₁ ⟨hc, hn₁⟩
    simp only [wp_bind, modifyStats, wp_modify]
    refine wp_advanceItem (by simpa [hc] using hw w hwl) ?_
    refine wp_insertItem (List.getElem?_eq_getElem hn₁) fun s' h => ?_
    exact ⟨h.compiled, h.limits, h.leoEnabled, h.generation, h.activeScans, h.bytePosition,
      h.chart⟩

/-- The items that processing an item inserts into column `n`. -/
def derivedItems (s : EarleyRecognizer) (n : ℕ) (item : EarleyItem) (r : DottedRule) :
    List EarleyItem :=
  match r.next with
  | some (.nonterminal B) =>
    (s.compiled.startsByLhs[B]?.getD []).map (fun d => { dotted := d, origin := n }) ++
      if s.compiled.grammar.nullable[B]? = some true then [advance item] else []
  | some (.terminal _) => []
  | none =>
    if r.production = s.compiled.augmentedProduction then [] else
    match s.chart[item.origin]? with
    | none => []
    | some origin =>
      match if s.leoEnabled then origin.leoByPostdot.lookup r.lhs else none with
      | some top => [top]
      | none => (origin.waitingNonterminal.get r.lhs).map advance

/-- The scan that processing an item starts. -/
def scanOf (e : CompiledEarley) (n : ℕ) (r : DottedRule) : Option ActiveScan :=
  match r.next with
  | some (.terminal t) =>
    e.grammar.terminals[t]?.map fun terminal =>
      { terminal := t, start := n, cursor := terminal.start }
  | _ => none

/-- What processing an item of column `n` relies on: it is a dotted rule whose next symbol is in
range, it can be advanced if it has one, its origin is a column, and the items waiting there for
its left-hand side can be advanced. -/
structure Ready (s : EarleyRecognizer) (item : EarleyItem) (r : DottedRule) : Prop where
  dotted : s.compiled.dotted[item.dotted]? = some r
  advanceable : r.next.isSome → Advanceable s.compiled item
  nonterminal : ∀ {B}, r.next = some (.nonterminal B) →
    B < s.compiled.startsByLhs.length ∧ B < s.compiled.grammar.nullable.length
  terminal : ∀ {t}, r.next = some (.terminal t) → t < s.compiled.grammar.terminals.length
  origin : item.origin < s.chart.length
  waiters : ∀ {col B w}, s.chart[item.origin]? = some col → w ∈ col.waitingNonterminal.get B →
    Advanceable s.compiled w

theorem wp_predict {B : ℕ} (hcol : s.chart[n]? = some col) (hpos : col.position = n)
    (hB : B < s.compiled.startsByLhs.length)
    (hQ : ∀ s', Alters n (·.insertAll ((s.compiled.startsByLhs[B]?.getD []).map
      fun d => { dotted := d, origin := n })) s s' → Q () s') :
    wp RuntimeError.IsLimit (predict n B) Q s := by
  rw [List.getElem?_eq_getElem hB] at hQ
  simp only [predict, wp_bind, wp_get, List.getElem?_eq_getElem hB, wp_unwrap_some]
  refine wp_forM_insert (P := fun s => ∃ col, s.chart[n]? = some col ∧ col.position = n) ?_ ?_
    ⟨col, hcol, hpos⟩ hQ
  · rintro item s₁ s₂ ⟨c, hc, hpos⟩ h
    exact ⟨_, h.getElem?_self hc, ChartColumn.insert_frame.1.trans hpos⟩
  · rintro d - s₁ ⟨c, hc, hpos⟩
    simp only [wp_bind, modifyStats, wp_modify]
    refine wp_column hc (wp_insertItem hc fun s' h => ?_)
    rw [hpos] at h
    exact ⟨h.compiled, h.limits, h.leoEnabled, h.generation, h.activeScans, h.bytePosition,
      h.chart⟩

theorem wp_advanceNullable {B : ℕ} (hn : n < s.chart.length)
    (hB : B < s.compiled.grammar.nullable.length) (hitem : Advanceable s.compiled item)
    (hQ : ∀ s', Alters n (·.insertAll (if s.compiled.grammar.nullable[B]? = some true
      then [advance item] else [])) s s' → Q () s') :
    wp RuntimeError.IsLimit (advanceNullable n item B) Q s := by
  rw [List.getElem?_eq_getElem hB] at hQ
  simp only [advanceNullable, wp_bind, wp_get, List.getElem?_eq_getElem hB, wp_unwrap_some]
  cases hnull : s.compiled.grammar.nullable[B] with
  | false =>
    rw [hnull] at hQ
    exact hQ s (Alters.refl n s)
  | true =>
    rw [hnull] at hQ
    simp only [if_true, wp_bind, modifyStats, wp_modify]
    refine wp_advanceItem hitem (wp_insertItem (List.getElem?_eq_getElem hn) fun s' h => ?_)
    exact hQ s' ⟨h.compiled, h.limits, h.leoEnabled, h.generation, h.activeScans,
      h.bytePosition, h.chart⟩

theorem wp_complete {r : DottedRule} (hn : n < s.chart.length) (hr : Ready s item r)
    (hnext : r.next = none)
    (hQ : ∀ s', Alters n (·.insertAll (derivedItems s n item r)) s s' → Q () s') :
    wp RuntimeError.IsLimit (complete n item) Q s := by
  obtain ⟨origin, horigin⟩ : ∃ origin, s.chart[item.origin]? = some origin :=
    ⟨_, List.getElem?_eq_getElem hr.origin⟩
  have hcomplete : (∀ s', Alters n (·.insertAll ((origin.waitingNonterminal.get r.lhs).map
      advance)) s s' → Q () s') →
      wp RuntimeError.IsLimit (completeWaiters n item r.lhs) Q s := fun hQ => by
    simp only [completeWaiters, wp_bind]
    exact wp_column horigin (wp_insertAdvanced hn (fun w hw => hr.waiters horigin hw) hQ)
  simp only [complete, wp_bind]
  refine wp_dotted hr.dotted ?_
  simp only [wp_bind, wp_get]
  simp only [derivedItems, hnext, horigin] at hQ
  split_ifs at hQ ⊢ with haug hleo
  · exact hQ s (Alters.refl n s)
  · simp only [leoCompletion, wp_bind]
    refine wp_dotted hr.dotted ?_
    simp only [wp_bind, wp_get, horigin, wp_unwrap_some, wp_pure]
    cases htop : origin.leoByPostdot.lookup r.lhs with
    | none =>
      simp only [htop] at hQ
      exact hcomplete hQ
    | some top =>
      simp only [htop] at hQ
      simp only [wp_bind, modifyStats, wp_modify]
      refine wp_insertItem (List.getElem?_eq_getElem hn) fun s' h => ?_
      exact hQ s' ⟨h.compiled, h.limits, h.leoEnabled, h.generation, h.activeScans,
        h.bytePosition, h.chart⟩
  · exact hcomplete hQ

/-- **One round of the agenda.** -/
theorem wp_processItem {scans : List ActiveScan} {r : DottedRule}
    {Q : List ActiveScan → EarleyRecognizer → Prop} (hcol : s.chart[n]? = some col)
    (hpos : col.position = n) (hr : Ready s item r)
    (hQ : ∀ s', Alters n (fun c => (c.wait item r.next).insertAll (derivedItems s n item r)) s s' →
      Q (scans ++ (scanOf s.compiled n r).toList) s') :
    wp RuntimeError.IsLimit (processItem n item scans) Q s := by
  have hn := (List.getElem?_eq_some_iff.1 hcol).1
  simp only [processItem, wp_bind]
  refine wp_dotted hr.dotted ?_
  rcases hnext : r.next with _ | ⟨t⟩ | ⟨B⟩
  · simp only [wp_bind]
    refine wp_complete hn hr hnext fun s' h => ?_
    simp only [scanOf, hnext, ChartColumn.wait] at hQ
    simpa using hQ s' h
  · obtain ⟨terminal, hterm⟩ : ∃ terminal, s.compiled.grammar.terminals[t]? = some terminal :=
      ⟨_, List.getElem?_eq_getElem (hr.terminal hnext)⟩
    simp only [wp_bind, modifyColumn, wp_modify, wp_get]
    refine wp_column (c := { col with waitingTerminal := col.waitingTerminal.push t item })
      (by simp [hcol]) ?_
    simp only [hterm]
    simp only [scanOf, hnext, hterm, derivedItems, ChartColumn.wait, ChartColumn.insertAll_nil,
      Option.map_some, Option.toList_some] at hQ
    rw [hpos]
    exact hQ _ ⟨rfl, rfl, rfl, rfl, rfl, rfl, rfl⟩
  · obtain ⟨hstarts, hnull⟩ := hr.nonterminal hnext
    simp only [wp_bind, modifyColumn, wp_modify]
    have hwait : Alters n (fun c => c.wait item (some (.nonterminal B))) s
        { s with chart := s.chart.modify n fun c =>
          { c with waitingNonterminal := c.waitingNonterminal.push B item } } :=
      ⟨rfl, rfl, rfl, rfl, rfl, rfl, rfl⟩
    refine wp_predict (hwait.getElem?_self hcol) hpos hstarts fun s₁ h₁ => ?_
    have h₁ := hwait.trans h₁
    simp only [wp_bind]
    refine wp_advanceNullable (h₁.length_chart ▸ hn) (by rw [h₁.compiled]; exact hnull)
      (by rw [h₁.compiled]; exact hr.advanceable (by simp [hnext])) fun s₂ h₂ => ?_
    have h₂ := h₁.trans h₂
    rw [h₁.compiled] at h₂
    simp only [scanOf, hnext, derivedItems, Option.toList_none, List.append_nil] at hQ
    refine hQ s₂ (cast (congrArg (fun f => Alters n f s s₂) (funext fun c => ?_)) h₂)
    exact (c.wait item _).insertAll_append _ _ |>.symm

/-! ### Scanning a byte -/

/-- The items that an active scan inserts when it reads a byte. -/
def scannedItems (s : EarleyRecognizer) (byte : UInt8) (scan : ActiveScan) : List EarleyItem :=
  match s.compiled.grammar.terminals[scan.terminal]? with
  | none => []
  | some terminal =>
    match terminal.advance scan.cursor byte with
    | none => []
    | some cursor =>
      if terminal.isAccepting cursor then
        match s.chart[scan.start]? with
        | none => []
        | some start => (start.waitingTerminal.get scan.terminal).map advance
      else []

/-- The scan after the byte, if it goes on. -/
def continuingScan (e : CompiledEarley) (byte : UInt8) (scan : ActiveScan) : Option ActiveScan :=
  match e.grammar.terminals[scan.terminal]? with
  | none => none
  | some terminal =>
    match terminal.advance scan.cursor byte with
    | none => none
    | some cursor => if terminal.isLive cursor then some { scan with cursor := cursor } else none

/-- What moving a scan into column `n` relies on. -/
structure ScanReady (s : EarleyRecognizer) (n : ℕ) (scan : ActiveScan) : Prop where
  terminal : scan.terminal < s.compiled.grammar.terminals.length
  start : scan.start < n
  waiters : ∀ {col w}, s.chart[scan.start]? = some col → w ∈ col.waitingTerminal.get scan.terminal →
    Advanceable s.compiled w

theorem ScanReady.of_alters {scan : ActiveScan} (h : ScanReady s n scan) (halt : Alters n f s s') :
    ScanReady s' n scan :=
  ⟨halt.compiled ▸ h.terminal, h.start, fun hcol hw => by
    rw [halt.getElem?_of_ne h.start.ne] at hcol
    exact halt.compiled ▸ h.waiters hcol hw⟩

theorem scannedItems_of_alters {scan : ActiveScan} {byte : UInt8} (h : ScanReady s n scan)
    (halt : Alters n f s s') : scannedItems s' byte scan = scannedItems s byte scan := by
  simp only [scannedItems, halt.compiled, halt.getElem?_of_ne h.start.ne]

theorem wp_scanByte {byte : UInt8} {continuing : List ActiveScan} {scan : ActiveScan}
    {Q : List ActiveScan → EarleyRecognizer → Prop} (hn : n < s.chart.length)
    (hscan : ScanReady s n scan)
    (hQ : ∀ s', Alters n (·.insertAll (scannedItems s byte scan)) s s' →
      Q (continuing ++ (continuingScan s.compiled byte scan).toList) s') :
    wp RuntimeError.IsLimit (scanByte n byte continuing scan) Q s := by
  obtain ⟨terminal, hterm⟩ : ∃ terminal, s.compiled.grammar.terminals[scan.terminal]? =
      some terminal := ⟨_, List.getElem?_eq_getElem hscan.terminal⟩
  obtain ⟨start, hstart⟩ : ∃ start, s.chart[scan.start]? = some start :=
    ⟨_, List.getElem?_eq_getElem (hscan.start.trans hn)⟩
  simp only [scannedItems, continuingScan, hterm, hstart] at hQ
  simp only [scanByte, wp_bind, wp_get, hterm, wp_unwrap_some]
  rcases hadv : terminal.advance scan.cursor byte with _ | cursor
  · simp only [hadv] at hQ
    simpa using hQ s (Alters.refl n s)
  · simp only [hadv] at hQ
    simp only [wp_bind, modifyStats, wp_modify]
    by_cases hacc : terminal.isAccepting cursor = true
    · rw [if_pos hacc] at hQ
      simp only [hacc, if_true, wp_bind]
      refine wp_column hstart ?_
      simp only [wp_bind]
      refine wp_insertAdvanced hn (fun w hw => hscan.waiters hstart hw) fun s' h => ?_
      have := hQ s' ⟨h.compiled, h.limits, h.leoEnabled, h.generation, h.activeScans,
        h.bytePosition, h.chart⟩
      by_cases hlive : terminal.isLive cursor = true
      · simpa [hlive] using this
      · simpa [hlive] using this
    · simp only [hacc] at hQ ⊢
      have := hQ _ (Alters.of_counters n s.totalItems s.leoItems
        { s.stats with scans := saturatingAdd s.stats.scans 1 })
      by_cases hlive : terminal.isLive cursor = true
      · simpa [hlive] using this
      · simpa [hlive] using this

/-- The loop over the active scans. -/
theorem wp_scanBytes {byte : UInt8} {scans : List ActiveScan}
    {Q : List ActiveScan → EarleyRecognizer → Prop} (hn : n < s.chart.length)
    (hscans : ∀ scan ∈ scans, ScanReady s n scan)
    (hQ : ∀ s', Alters n (·.insertAll (scans.flatMap (scannedItems s byte))) s s' →
      Q (scans.filterMap (continuingScan s.compiled byte)) s') :
    wp RuntimeError.IsLimit (scans.foldlM (scanByte n byte) []) Q s := by
  have hnil : Alters n (·.insertAll (([] : List ActiveScan).flatMap (scannedItems s byte))) s s :=
    Alters.refl n s
  refine wp_mono (wp_foldlM (I := fun rest continuing s' => ∃ done, scans = done ++ rest ∧
    continuing = done.filterMap (continuingScan s.compiled byte) ∧
    Alters n (·.insertAll (done.flatMap (scannedItems s byte))) s s') ?_ scans [] s
      ⟨[], rfl, rfl, hnil⟩) ?_
  · rintro scan rest continuing s₁ ⟨done, rfl, rfl, halt⟩
    have hscan := hscans scan (by simp)
    refine wp_scanByte (halt.length_chart ▸ hn) (hscan.of_alters halt) fun s₂ h₂ => ?_
    rw [scannedItems_of_alters hscan halt] at h₂
    refine ⟨done ++ [scan], by simp, ?_, ?_⟩
    · rw [List.filterMap_append, halt.compiled]
      cases h : continuingScan s.compiled byte scan <;> simp [h]
    · refine cast (congrArg (fun f => Alters n f s s₂) (funext fun c => ?_)) (halt.trans h₂)
      rw [List.flatMap_append, ChartColumn.insertAll_append]
      simp
  · rintro continuing s' ⟨done, hdone, rfl, halt⟩
    rw [List.append_nil] at hdone
    subst hdone
    exact hQ s' halt

/-! ### Leo entries -/

/-- The item that the Leo entry of a waiter of column `n` leads to. -/
def leoTarget (s : EarleyRecognizer) (n : ℕ) (waiter : EarleyItem) : EarleyItem :=
  if waiter.origin < n then
    (s.chart[waiter.origin]?.bind fun origin =>
      origin.leoByPostdot.lookup (s.compiled.lhs (advance waiter).dotted)).getD (advance waiter)
  else advance waiter

/-- The Leo entry that column `n` gets for a nonterminal. -/
def leoEntry (s : EarleyRecognizer) (n : ℕ) (col : ChartColumn) (B : ℕ) : Option EarleyItem :=
  match col.waitingNonterminal.get B with
  | [waiter] =>
    if (s.compiled.rest waiter.dotted).length = 1 then some (leoTarget s n waiter) else none
  | _ => none

/-- A column with a Leo entry. -/
def setLeo (entry : Option EarleyItem) (B : ℕ) (c : ChartColumn) : ChartColumn :=
  match entry with
  | some top => { c with leoByPostdot := c.leoByPostdot.insert B top }
  | none => c

theorem leoTarget_of_alters {waiter : EarleyItem} (halt : Alters n f s s') :
    leoTarget s' n waiter = leoTarget s n waiter := by
  unfold leoTarget
  split
  · next h => rw [halt.compiled, halt.getElem?_of_ne h.ne]
  · rfl

theorem wp_finishLeoPostdot {B : ℕ} (hcol : s.chart[n]? = some col)
    (hlaid : s.compiled.Laid) (hB : B ∈ col.waitingNonterminal)
    (hw : ∀ w ∈ col.waitingNonterminal.get B, s.compiled.rest w.dotted ≠ [])
    (hQ : ∀ s', Alters n (setLeo (leoEntry s n col B) B) s s' → Q () s') :
    wp RuntimeError.IsLimit (finishLeoPostdot n B) Q s := by
  obtain ⟨waiters, hwaiters⟩ := Option.isSome_iff_exists.1 (AList.lookup_isSome.2 hB)
  have hget : col.waitingNonterminal.get B = waiters := by simp [Waiters.get, hwaiters]
  have hn := (List.getElem?_eq_some_iff.1 hcol).1
  simp only [finishLeoPostdot, wp_bind]
  refine wp_column hcol ?_
  simp only [wp_bind, hwaiters]
  refine wp_unwrap_some.2 ?_
  simp only [leoEntry, hget] at hQ hw
  -- an entry is made for a single waiter only, and only when its symbol is the last
  rcases waiters with _ | ⟨waiter, _ | ⟨waiter', waiters⟩⟩
  · exact hQ s (Alters.refl n s)
  · obtain ⟨sym, β, hrest⟩ := List.exists_cons_of_ne_nil (hw waiter (by simp))
    obtain ⟨r, r', hr, hr', -, hlhs, -⟩ := hlaid.advance_spec hrest
    obtain ⟨p, hp, hrest'⟩ := hlaid.rest_eq hr
    have hdot : r.dot + 1 = p.rhs.length ↔ (s.compiled.rest waiter.dotted).length = 1 := by
      rw [hrest', List.length_drop]
      have : p.rhs.drop r.dot ≠ [] := hrest' ▸ hrest ▸ List.cons_ne_nil _ _
      have := List.length_pos_iff.2 this
      rw [List.length_drop] at this
      omega
    have hadv : Advanceable s.compiled waiter :=
      ⟨r, hr, by rw [hlaid.advanced_eq hr, hrest]; rfl⟩
    simp only [wp_bind]
    refine wp_dotted hr ?_
    simp only [wp_bind, wp_get, hp, wp_unwrap_some]
    by_cases hlast : r.dot + 1 = p.rhs.length
    · rw [if_neg (not_not.2 hlast)]
      simp only [if_pos (hdot.1 hlast), leoTarget] at hQ
      simp only [wp_bind]
      refine wp_advanceItem hadv ?_
      simp only [wp_bind]
      refine wp_dotted (r := r') hr' ?_
      have hcont : ∀ target, (∀ s', Alters n (setLeo (some target) B) s s' → Q () s') →
          wp RuntimeError.IsLimit (do
            Method.require (s.leoItems + 1 ≤ usizeMax)
              (.resourceLimitExceeded .leoItems usizeMax s.limits.maxLeoItems)
            enforceRuntimeLimit .leoItems (s.leoItems + 1) s.limits.maxLeoItems
            modifyColumn n fun c => { c with leoByPostdot := c.leoByPostdot.insert B target }
            modify fun self => { self with leoItems := s.leoItems + 1 }
            modifyStats fun stats =>
              { stats with leoCandidates := saturatingAdd stats.leoCandidates 1 }) Q s := by
        intro target hQ
        simp only [wp_bind, wp_require, RuntimeError.isLimit_resourceLimitExceeded, implies_true,
          and_true, enforceRuntimeLimit, modifyColumn, wp_modify, modifyStats]
        exact fun _ _ => hQ _ ⟨rfl, rfl, rfl, rfl, rfl, rfl, rfl⟩
      -- the chain is followed to an earlier column, where the waiter is not of this one
      by_cases hlt : waiter.origin < n
      · rw [if_pos hlt] at hQ
        rw [wp_bind, if_pos (show (advance waiter).origin < n from hlt), wp_bind]
        have horigin := List.getElem?_eq_getElem (hlt.trans hn)
        refine wp_column horigin ?_
        rw [horigin, Option.bind_some,
          show s.compiled.lhs (advance waiter).dotted = r'.lhs from CompiledEarley.lhs_eq hr'] at hQ
        exact hcont _ hQ
      · rw [if_neg hlt] at hQ
        rw [wp_bind, if_neg (show ¬ (advance waiter).origin < n from hlt)]
        exact hcont _ hQ
    · rw [if_pos hlast]
      simp only [if_neg (mt hdot.2 hlast)] at hQ
      exact hQ s (Alters.refl n s)
  · exact hQ s (Alters.refl n s)

end EarleyRecognizer

end OcEarley
