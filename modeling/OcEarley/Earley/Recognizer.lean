import Mathlib.Data.List.AList
import Mathlib.Data.Finset.Insert
import Mathlib.Data.Prod.Lex
import OcEarley.Base.Lists
import OcEarley.Earley.Compiled

/-!
# The Earley recognizer

The chart is filled column by column.  `advanceByte` pushes a column, moves the active scans over
the byte, and saturates the column with predicted, completed and nullable-advanced items; with
Leo completion enabled, a completed item jumps to the top of a memoised chain.  Methods keep what
they have written when they fail, as the source does.

Maps and sets are association lists and finite sets.  The `saturate` loop counts its iterations
against the number of items that the column can hold.
-/

namespace OcEarley

/-- A dotted rule, and the column in which its production was predicted. -/
structure EarleyItem where
  dotted : ℕ
  origin : ℕ
  deriving DecidableEq, Repr

/-- `(u64::from(item.dotted) << 32) | u64::from(item.origin)`. -/
def EarleyItem.key (item : EarleyItem) : ℕ := item.dotted <<< 32 ||| item.origin

/-- What a recognizer counts. -/
structure EarleyStats where
  columns : ℕ
  itemsInserted : ℕ
  duplicateItems : ℕ
  predictions : ℕ
  scans : ℕ
  completions : ℕ
  nullableAdvances : ℕ
  leoCandidates : ℕ
  leoHits : ℕ
  maxColumnItems : ℕ
  maxActiveScans : ℕ
  estimatedBytes : ℕ
  deriving DecidableEq, Repr

/-- `EarleyStats::default`. -/
def EarleyStats.default : EarleyStats := ⟨0, 0, 0, 0, 0, 0, 0, 0, 0, 0, 0, 0⟩

/-- Items by the symbol after their dot. -/
abbrev Waiters := AList fun _ : ℕ => List EarleyItem

namespace Waiters

/-- `map.get(&symbol).cloned().unwrap_or_default()`. -/
def get (waiters : Waiters) (symbol : ℕ) : List EarleyItem := (waiters.lookup symbol).getD []

/-- `map.entry(symbol).or_default().push(item)`. -/
def push (waiters : Waiters) (symbol : ℕ) (item : EarleyItem) : Waiters :=
  waiters.insert symbol (waiters.get symbol ++ [item])

end Waiters

/-- The items of a column in the order of their insertion, their keys, the items that wait for a
symbol, and the topmost items that a completion may jump to. -/
structure ChartColumn where
  position : ℕ
  items : List EarleyItem
  membership : Finset ℕ
  waitingNonterminal : Waiters
  waitingTerminal : Waiters
  leoByPostdot : AList fun _ : ℕ => EarleyItem

/-- `ChartColumn::new`. -/
def ChartColumn.new (position : ℕ) : ChartColumn := ⟨position, [], ∅, ∅, ∅, ∅⟩

/-- A terminal that is being read, from the column where it started. -/
structure ActiveScan where
  terminal : ℕ
  start : ℕ
  cursor : TerminalCursorState
  deriving DecidableEq, Repr

/-- `cursor_key`. -/
def cursorKey : TerminalCursorState → ℕ ×ₗ ℕ
  | .literal offset => toLex (0, offset)
  | .dfa state => toLex (1, state)

/-- The key by which active scans are sorted. -/
def ActiveScan.key (scan : ActiveScan) : ℕ ×ₗ ℕ ×ₗ ℕ ×ₗ ℕ :=
  toLex (scan.terminal, toLex (scan.start, cursorKey scan.cursor))

/-- What is saved of a recognizer.  The columns themselves are not; a restored
recognizer cuts its own. -/
structure EarleyCheckpoint where
  generation : ℕ
  columnCount : ℕ
  activeScans : List ActiveScan
  bytePosition : ℕ
  totalItems : ℕ
  leoItems : ℕ
  stats : EarleyStats

/-- An Earley recognizer between two bytes: a column for every position reached and the terminals
that are being read. -/
structure EarleyRecognizer where
  compiled : CompiledEarley
  limits : RuntimeLimits
  leoEnabled : Bool
  generation : ℕ
  chart : List ChartColumn
  activeScans : List ActiveScan
  bytePosition : ℕ
  totalItems : ℕ
  leoItems : ℕ
  stats : EarleyStats

/-- Capacity of a vector after room for `additional` more elements was asked for. -/
def reserveCapacity (capacity length additional : ℕ) : ℕ :=
  if capacity - length < additional then max (max (2 * capacity) (length + additional)) 4
  else capacity

/-- Capacity of a vector built by pushes. -/
def pushCapacity : ℕ → ℕ
  | 0 => 0
  | length + 1 => reserveCapacity (pushCapacity length) length 1

/-- `size_of::<EarleyItem>()`. -/
def earleyItemSize : ℕ := 8

/-- `size_of::<ChartColumn>()`. -/
def chartColumnSize : ℕ := 160

/-- `size_of::<ActiveScan>()`. -/
def activeScanSize : ℕ := 16

namespace EarleyRecognizer

/-- `self.chart[column]`. -/
def column (column : ℕ) : Method RuntimeError EarleyRecognizer ChartColumn := do
  let self ← get
  Method.unwrap self.chart[column]? .panicked

/-- One column is changed. -/
def modifyColumn (column : ℕ) (f : ChartColumn → ChartColumn) :
    Method RuntimeError EarleyRecognizer Unit :=
  modify fun self => { self with chart := self.chart.modify column f }

/-- The counters are changed. -/
def modifyStats (f : EarleyStats → EarleyStats) : Method RuntimeError EarleyRecognizer Unit :=
  modify fun self => { self with stats := f self.stats }

/-- The dotted rule of an item. -/
def dotted (item : EarleyItem) : Method RuntimeError EarleyRecognizer DottedRule := do
  let self ← get
  Method.unwrap self.compiled.dotted[item.dotted]?
    (.internalInvariant "Earley dotted rule does not exist")

/-- The item with its dot behind the next symbol. -/
def advanceItem (item : EarleyItem) : Method RuntimeError EarleyRecognizer EarleyItem := do
  let dotted ← dotted item
  let advanced ← Method.unwrap dotted.advanced
    (.internalInvariant "completed Earley item cannot advance")
  pure { dotted := advanced, origin := item.origin }

/-- An item is inserted into a column, where it is not yet. -/
def insertItem (column : ℕ) (item : EarleyItem) : Method RuntimeError EarleyRecognizer Unit := do
  let current ← EarleyRecognizer.column column
  if item.key ∈ current.membership then
    modifyStats fun stats => { stats with duplicateItems := saturatingAdd stats.duplicateItems 1 }
  else do
    modifyColumn column fun c => { c with membership := insert item.key c.membership }
    let self ← get
    let nextColumnItems := saturatingAdd current.items.length 1
    enforceRuntimeLimit .itemsPerColumn nextColumnItems self.limits.maxItemsPerColumn
    let total := self.totalItems + 1
    Method.require (total ≤ usizeMax)
      (.resourceLimitExceeded .totalItems usizeMax self.limits.maxTotalItems)
    enforceRuntimeLimit .totalItems total self.limits.maxTotalItems
    modifyColumn column fun c => { c with items := c.items ++ [item] }
    modify fun self => { self with totalItems := total }
    modifyStats fun stats => { stats with itemsInserted := saturatingAdd stats.itemsInserted 1 }

/-- Insert the advanced items of waiters, counting each with `bump`. -/
def insertAdvanced (column : ℕ) (bump : EarleyStats → EarleyStats) (waiters : List EarleyItem) :
    Method RuntimeError EarleyRecognizer Unit :=
  waiters.forM fun waiter => do
    modifyStats bump
    let advanced ← advanceItem waiter
    insertItem column advanced

/-- The topmost item that a completion may jump to, if there is one for its left-hand side. -/
def leoCompletion (item : EarleyItem) :
    Method RuntimeError EarleyRecognizer (Option EarleyItem) := do
  let dotted ← dotted item
  let self ← get
  let originColumn ← Method.unwrap self.chart[item.origin]?
    (.internalInvariant "Earley item origin column does not exist")
  pure (originColumn.leoByPostdot.lookup dotted.lhs)

/-- The ordinary completion: every waiter of the origin column is advanced. -/
def completeWaiters (column : ℕ) (item : EarleyItem) (lhs : ℕ) :
    Method RuntimeError EarleyRecognizer Unit := do
  let originColumn ← EarleyRecognizer.column item.origin
  insertAdvanced column
    (fun stats => { stats with completions := saturatingAdd stats.completions 1 })
    (originColumn.waitingNonterminal.get lhs)

/-- A completed item: the items that wait for its left-hand side advance, or
the topmost item alone. -/
def complete (column : ℕ) (item : EarleyItem) : Method RuntimeError EarleyRecognizer Unit := do
  let dotted ← dotted item
  let self ← get
  -- nothing waits for the augmented start symbol
  if dotted.production = self.compiled.augmentedProduction then
    pure ()
  else if self.leoEnabled then do
    let top ← leoCompletion item
    match top with
    | some top => do
      modifyStats fun stats => { stats with leoHits := saturatingAdd stats.leoHits 1 }
      insertItem column top
    | none => completeWaiters column item dotted.lhs
  else
    completeWaiters column item dotted.lhs

/-- Prediction: the rules of a nonterminal start in the column. -/
def predict (column : ℕ) (nonterminal : ℕ) : Method RuntimeError EarleyRecognizer Unit := do
  let self ← get
  let starts ← Method.unwrap self.compiled.startsByLhs[nonterminal]? .panicked
  starts.forM fun dotted => do
    modifyStats fun stats => { stats with predictions := saturatingAdd stats.predictions 1 }
    let current ← EarleyRecognizer.column column
    insertItem column { dotted := dotted, origin := current.position }

/-- A nonterminal that derives the empty word is passed at once. -/
def advanceNullable (column : ℕ) (item : EarleyItem) (nonterminal : ℕ) :
    Method RuntimeError EarleyRecognizer Unit := do
  let self ← get
  let nullable ← Method.unwrap self.compiled.grammar.nullable[nonterminal]? .panicked
  if nullable then do
    modifyStats fun stats =>
      { stats with nullableAdvances := saturatingAdd stats.nullableAdvances 1 }
    let advanced ← advanceItem item
    insertItem column advanced
  else
    pure ()

/-- The body of the `saturate` loop: one item of the agenda. -/
def processItem (column : ℕ) (item : EarleyItem) (scans : List ActiveScan) :
    Method RuntimeError EarleyRecognizer (List ActiveScan) := do
  let dotted ← dotted item
  match dotted.next with
  | some (.nonterminal nonterminal) => do
    modifyColumn column fun c =>
      { c with waitingNonterminal := c.waitingNonterminal.push nonterminal item }
    predict column nonterminal
    advanceNullable column item nonterminal
    pure scans
  | some (.terminal terminal) => do
    modifyColumn column fun c =>
      { c with waitingTerminal := c.waitingTerminal.push terminal item }
    let self ← get
    let current ← EarleyRecognizer.column column
    let compiled ← Method.unwrap self.compiled.grammar.terminals[terminal]? .panicked
    pure (scans ++
      [{ terminal := terminal, start := current.position, cursor := compiled.start }])
  | none => do
    complete column item
    pure scans

/-- `while agenda < self.chart[column].items.len()`. -/
def saturateLoop (column : ℕ) :
    ℕ → ℕ → List ActiveScan → Method RuntimeError EarleyRecognizer (List ActiveScan)
  | 0, _, _ => throw .diverged
  | fuel + 1, agenda, scans => do
    let current ← EarleyRecognizer.column column
    match current.items[agenda]? with
    | none => pure scans
    | some item => do
      let scans ← processItem column item scans
      saturateLoop column fuel (agenda + 1) scans

/-- The Leo entry of a nonterminal with a single waiter in which it is the last symbol. -/
def finishLeoPostdot (column postdot : ℕ) : Method RuntimeError EarleyRecognizer Unit := do
  let current ← EarleyRecognizer.column column
  let waiters ← Method.unwrap (current.waitingNonterminal.lookup postdot) .panicked
  match waiters with
  | [waiter] => do
    let waiterDotted ← dotted waiter
    let self ← get
    let production ← Method.unwrap self.compiled.productions[waiterDotted.production]? .panicked
    if waiterDotted.dot + 1 ≠ production.rhs.length then
      pure ()
    else do
      let advanced ← advanceItem waiter
      let advancedDotted ← dotted advanced
      -- an earlier column has all of its entries, this one is still being given them
      let target ← (if advanced.origin < column then do
          let originColumn ← EarleyRecognizer.column advanced.origin
          pure ((originColumn.leoByPostdot.lookup advancedDotted.lhs).getD advanced)
        else
          pure advanced)
      let nextCount := self.leoItems + 1
      Method.require (nextCount ≤ usizeMax)
        (.resourceLimitExceeded .leoItems usizeMax self.limits.maxLeoItems)
      enforceRuntimeLimit .leoItems nextCount self.limits.maxLeoItems
      modifyColumn column fun c => { c with leoByPostdot := c.leoByPostdot.insert postdot target }
      modify fun self => { self with leoItems := nextCount }
      modifyStats fun stats => { stats with leoCandidates := saturatingAdd stats.leoCandidates 1 }
  | _ => pure ()

/-- The topmost items of a column, nonterminal after nonterminal in the order of their ids. -/
def finishLeoColumn (column : ℕ) : Method RuntimeError EarleyRecognizer Unit := do
  let current ← EarleyRecognizer.column column
  let postdots := sortByKey (fun postdot : ℕ => postdot) current.waitingNonterminal.keys
  postdots.forM (finishLeoPostdot column)

/-- An upper bound of the number of items of a column, and one more. -/
def saturateFuel (self : EarleyRecognizer) (column : ℕ) : ℕ :=
  self.compiled.dotted.length * (column + 1) + 1

/-- The body of `saturate`: the scans, and the capacity of their vector.  Removing duplicates leaves
the capacity as it is. -/
def saturateMeasured (column : ℕ) : Method RuntimeError EarleyRecognizer (List ActiveScan × ℕ) := do
  let self ← get
  let scans ← saturateLoop column (self.saturateFuel column) 0 []
  let capacity := pushCapacity scans.length
  let scans := sortDedup ActiveScan.key scans
  if self.leoEnabled then
    finishLeoColumn column
  else
    pure ()
  pure (scans, capacity)

/-- The items of a column are processed until none is left, and the terminals to
be read are returned. -/
def saturate (column : ℕ) : Method RuntimeError EarleyRecognizer (List ActiveScan) := do
  let measured ← saturateMeasured column
  pure measured.1

/-- The last column has the completed start production. -/
def isAccepting (self : EarleyRecognizer) : Bool :=
  match self.chart.getLast? with
  | none => false
  | some column => self.compiled.augmentedComplete <<< 32 ∈ column.membership

/-- Something may follow, or the text is complete. -/
def isLive (self : EarleyRecognizer) : Bool := self.isAccepting || !self.activeScans.isEmpty

/-- `capacity` is the capacity of the vector of active scans. -/
def finishColumnStats (column capacity : ℕ) : Method RuntimeError EarleyRecognizer Unit := do
  let current ← EarleyRecognizer.column column
  modify fun self => { self with stats := { self.stats with
    columns := self.chart.length
    maxColumnItems := max self.stats.maxColumnItems current.items.length
    maxActiveScans := max self.stats.maxActiveScans self.activeScans.length
    estimatedBytes := saturatingAdd (saturatingAdd
      (saturatingMul self.totalItems earleyItemSize)
      (saturatingMul self.chart.length chartColumnSize))
      (saturatingMul capacity activeScanSize) } }

/-- One active scan moved over a byte; the scans that go on are collected. -/
def scanByte (column : ℕ) (byte : UInt8) (continuing : List ActiveScan) (scan : ActiveScan) :
    Method RuntimeError EarleyRecognizer (List ActiveScan) := do
  let self ← get
  let terminal ← Method.unwrap self.compiled.grammar.terminals[scan.terminal]? .panicked
  match terminal.advance scan.cursor byte with
  | none => pure continuing
  | some cursor => do
    modifyStats fun stats => { stats with scans := saturatingAdd stats.scans 1 }
    -- the terminal may end here and go on as well
    if terminal.isAccepting cursor then do
      let startColumn ← EarleyRecognizer.column scan.start
      insertAdvanced column id (startColumn.waitingTerminal.get scan.terminal)
    else
      pure ()
    pure (if terminal.isLive cursor then continuing ++ [{ scan with cursor := cursor }]
      else continuing)

/-- A byte is consumed: every active terminal reads it, in a new column those that may end there
advance their items, and the column is saturated.  The answer is whether the recognizer is live. -/
def advanceByte (byte : UInt8) : Method RuntimeError EarleyRecognizer Bool := do
  let self ← get
  let nextPosition := self.bytePosition + 1
  enforceRuntimeLimit .inputBytes nextPosition self.limits.maxInputBytes
  enforceRuntimeLimit .chartColumns (saturatingAdd self.chart.length 1)
    self.limits.maxChartColumns
  Method.require (nextPosition ≤ u32Max) (.resourceLimitExceeded .inputBytes nextPosition u32Max)
  modify fun self => { self with chart := self.chart ++ [.new nextPosition] }
  let column := self.chart.length
  -- `std::mem::take`: a failure from here on leaves no active scan behind
  modify fun self => { self with activeScans := [] }
  let continuing ← self.activeScans.foldlM (scanByte column byte) []
  let created ← saturate column
  let capacity :=
    reserveCapacity (pushCapacity continuing.length) continuing.length created.length
  let continuing := sortDedup ActiveScan.key (continuing ++ created)
  enforceRuntimeLimit .activeScans continuing.length self.limits.maxActiveScans
  modify fun self => { self with activeScans := continuing, bytePosition := nextPosition }
  finishColumnStats column capacity
  let self ← get
  pure self.isLive

/-- What is saved of the recognizer. -/
def checkpoint (self : EarleyRecognizer) : EarleyCheckpoint where
  generation := self.generation
  columnCount := self.chart.length
  activeScans := self.activeScans
  bytePosition := self.bytePosition
  totalItems := self.totalItems
  leoItems := self.leoItems
  stats := self.stats

/-- The recognizer goes back to a checkpoint, if the generation is its own and it
has as many columns. -/
def restore (checkpoint : EarleyCheckpoint) : Method RuntimeError EarleyRecognizer Unit := do
  let self ← get
  Method.require (checkpoint.generation = self.generation)
    (.invalidCheckpoint self.generation checkpoint.generation)
  Method.require (checkpoint.columnCount ≠ 0 ∧ checkpoint.columnCount ≤ self.chart.length)
    (.internalInvariant "Earley checkpoint column count is invalid")
  modify fun self => { self with
    chart := self.chart.take checkpoint.columnCount
    activeScans := checkpoint.activeScans
    bytePosition := checkpoint.bytePosition
    totalItems := checkpoint.totalItems
    leoItems := checkpoint.leoItems
    stats := checkpoint.stats }

end EarleyRecognizer

namespace CompiledEarley

/-- The recognizer before the start item is inserted. -/
def blank (compiled : CompiledEarley) (limits : RuntimeLimits) (leoEnabled : Bool)
    (generation : ℕ) : EarleyRecognizer where
  compiled := compiled
  limits := limits
  leoEnabled := leoEnabled
  generation := generation
  chart := [.new 0]
  activeScans := []
  bytePosition := 0
  totalItems := 0
  leoItems := 0
  stats := .default

/-- The body of `recognizer` on the blank recognizer. -/
def prepare : Method RuntimeError EarleyRecognizer Unit := do
  let self ← get
  let start ← Method.unwrap
    self.compiled.dottedOffsets[self.compiled.augmentedProduction]? .panicked
  EarleyRecognizer.insertItem 0 { dotted := start, origin := 0 }
  let measured ← EarleyRecognizer.saturateMeasured 0
  let scans := measured.1
  enforceRuntimeLimit .activeScans scans.length self.limits.maxActiveScans
  modify fun self => { self with activeScans := scans }
  EarleyRecognizer.finishColumnStats 0 measured.2

/-- `generation` is the value drawn from the global counter. -/
def recognizer (compiled : CompiledEarley) (limits : RuntimeLimits) (leoEnabled : Bool)
    (generation : ℕ) : Except RuntimeError EarleyRecognizer := do
  Result.require (1 ≤ limits.maxChartColumns)
    (.resourceLimitExceeded .chartColumns 1 limits.maxChartColumns)
  match prepare (compiled.blank limits leoEnabled generation) with
  | .ok _ self => pure self
  | .error e _ => throw e

end CompiledEarley

end OcEarley
