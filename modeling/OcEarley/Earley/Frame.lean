import OcEarley.Earley.Recognizer

/-!
# What the methods of the recognizer leave alone

`EarleyRecognizer.Keeps k` holds between two recognizers that differ in counters, active scans and
columns from `k` on only.  Every path through `advanceByte`, the failing ones included, keeps the
columns that were there before.  `Allows R n` is what any relation needs for the methods that work
on column `n` to move along it.
-/

namespace OcEarley

open Method

namespace EarleyRecognizer

/-- Nothing but counters, scans and columns from `k` on has changed. -/
structure Keeps (k : ℕ) (s s' : EarleyRecognizer) : Prop where
  compiled : s'.compiled = s.compiled
  limits : s'.limits = s.limits
  leoEnabled : s'.leoEnabled = s.leoEnabled
  generation : s'.generation = s.generation
  take : s'.chart.take k = s.chart.take k
  length_le : s.chart.length ≤ s'.chart.length

variable {k column : ℕ} {α : Type}

instance : Std.Refl (Keeps k) := ⟨fun _ => ⟨rfl, rfl, rfl, rfl, rfl, le_rfl⟩⟩

instance : IsTrans EarleyRecognizer (Keeps k) where
  trans _ _ _ h h' := ⟨h'.compiled.trans h.compiled, h'.limits.trans h.limits,
    h'.leoEnabled.trans h.leoEnabled, h'.generation.trans h.generation, h'.take.trans h.take,
    h.length_le.trans h'.length_le⟩

/-! ### Methods that write to one column -/

/-- What a relation has to allow for the methods that work on `column` to move along it. -/
structure Allows (R : EarleyRecognizer → EarleyRecognizer → Prop) (column : ℕ) : Prop where
  stats : ∀ s stats, R s { s with stats := stats }
  insertItem : ∀ item, Moves R (insertItem column item)
  file : ∀ s f, (∀ c : ChartColumn, (f c).items = c.items ∧ (f c).leoByPostdot = c.leoByPostdot) →
    R s { s with chart := s.chart.modify column f }

section Allows

variable {R : EarleyRecognizer → EarleyRecognizer → Prop} [Std.Refl R]

theorem moves_column (n : ℕ) : Moves R (EarleyRecognizer.column n) := by
  intro s
  change R s (stateOf (Method.unwrap s.chart[n]? _ s))
  exact moves_unwrap _ _ s

theorem chart_of_column_eq_ok {n : ℕ} {c : ChartColumn} {s s' : EarleyRecognizer}
    (h : EarleyRecognizer.column n s = .ok c s') : s.chart[n]? = some c := by
  obtain ⟨_, _, hs, hcol⟩ := bind_eq_ok.1 h
  obtain ⟨rfl, rfl⟩ := get_eq_ok.1 hs
  exact (unwrap_eq_ok.1 hcol).1

theorem moves_dotted (item : EarleyItem) : Moves R (dotted item) := by
  intro s
  change R s (stateOf (Method.unwrap s.compiled.dotted[item.dotted]? _ s))
  exact moves_unwrap _ _ s

variable [IsTrans EarleyRecognizer R]

theorem moves_advanceItem (item : EarleyItem) : Moves R (advanceItem item) :=
  moves_bind (moves_dotted item) fun _ => moves_bind (moves_unwrap _ _) fun _ => moves_pure _

theorem moves_leoCompletion (item : EarleyItem) : Moves R (leoCompletion item) :=
  moves_bind (moves_dotted item) fun _ => moves_bind moves_get fun _ =>
    moves_bind (moves_unwrap _ _) fun _ => moves_pure _

namespace Allows

variable (h : Allows R column)
include h

omit [Std.Refl R] [IsTrans EarleyRecognizer R] in
theorem modifyStats (f : EarleyStats → EarleyStats) : Moves R (modifyStats f) :=
  moves_modify fun s => h.stats s _

theorem insertAdvanced (bump : EarleyStats → EarleyStats)
    (waiters : List EarleyItem) : Moves R (insertAdvanced column bump waiters) :=
  moves_forM (fun waiter => moves_bind (h.modifyStats bump) fun _ =>
    moves_bind (moves_advanceItem waiter) fun advanced => h.insertItem advanced) waiters

theorem completeWaiters (item : EarleyItem) (lhs : ℕ) :
    Moves R (completeWaiters column item lhs) :=
  moves_bind (moves_column _) fun _ => h.insertAdvanced _ _

theorem complete (item : EarleyItem) : Moves R (complete column item) := by
  refine moves_bind (moves_dotted item) fun dotted => moves_bind moves_get fun self => ?_
  split
  · exact moves_pure ()
  · split
    · refine moves_bind (moves_leoCompletion item) fun top => ?_
      cases top with
      | none => exact h.completeWaiters item _
      | some top => exact moves_bind (h.modifyStats _) fun _ => h.insertItem top
    · exact h.completeWaiters item _

theorem predict (nonterminal : ℕ) : Moves R (predict column nonterminal) := by
  refine moves_bind moves_get fun self => moves_bind (moves_unwrap _ _) fun starts => ?_
  exact moves_forM (fun dotted => moves_bind (h.modifyStats _) fun _ =>
    moves_bind (moves_column column) fun _ => h.insertItem _) starts

theorem advanceNullable (item : EarleyItem) (nonterminal : ℕ) :
    Moves R (advanceNullable column item nonterminal) := by
  refine moves_bind moves_get fun self => moves_bind (moves_unwrap _ _) fun nullable => ?_
  split
  · exact moves_bind (h.modifyStats _) fun _ =>
      moves_bind (moves_advanceItem item) fun advanced => h.insertItem advanced
  · exact moves_pure ()

theorem processItem (item : EarleyItem) (scans : List ActiveScan) :
    Moves R (processItem column item scans) := by
  refine moves_bind (moves_dotted item) fun dotted => ?_
  rcases dotted.next with _ | ⟨terminal⟩ | ⟨nonterminal⟩
  · exact moves_bind (h.complete item) fun _ => moves_pure _
  · exact moves_bind (moves_modify fun s => h.file s _ fun _ => ⟨rfl, rfl⟩) fun _ =>
      moves_bind moves_get fun _ => moves_bind (moves_column column) fun _ =>
        moves_bind (moves_unwrap _ _) fun _ => moves_pure _
  · exact moves_bind (moves_modify fun s => h.file s _ fun _ => ⟨rfl, rfl⟩) fun _ =>
      moves_bind (h.predict nonterminal) fun _ =>
        moves_bind (h.advanceNullable item nonterminal) fun _ => moves_pure _

theorem saturateLoop (fuel agenda : ℕ) (scans : List ActiveScan) :
    Moves R (saturateLoop column fuel agenda scans) := by
  induction fuel generalizing agenda scans with
  | zero => exact moves_throw _
  | succ fuel ih =>
    refine moves_bind (moves_column column) fun current => ?_
    split
    · exact moves_pure _
    · exact moves_bind (h.processItem _ _) fun scans => ih _ scans

theorem scanByte (byte : UInt8) (continuing : List ActiveScan)
    (scan : ActiveScan) : Moves R (scanByte column byte continuing scan) := by
  refine moves_bind moves_get fun self => moves_bind (moves_unwrap _ _) fun terminal => ?_
  split
  · exact moves_pure _
  · refine moves_bind (h.modifyStats _) fun _ => ?_
    dsimp only
    split
    · exact moves_bind (moves_column _) fun _ => moves_bind (h.insertAdvanced _ _) fun _ =>
        moves_pure _
    · exact moves_pure _

end Allows

end Allows

/-! ### Older columns -/

theorem keeps_modifyColumn (h : k ≤ column) (f : ChartColumn → ChartColumn) (s : EarleyRecognizer) :
    Keeps k s { s with chart := s.chart.modify column f } :=
  ⟨rfl, rfl, rfl, rfl, by
    rw [List.take_modify, List.modify_eq_self (by rw [List.length_take]; omega)],
    (List.length_modify _ _ _).ge⟩

theorem moves_modifyColumn (h : k ≤ column) (f : ChartColumn → ChartColumn) :
    Moves (Keeps k) (modifyColumn column f) :=
  moves_modify (keeps_modifyColumn h f)

theorem moves_modifyStats (f : EarleyStats → EarleyStats) : Moves (Keeps k) (modifyStats f) :=
  moves_modify fun _ => ⟨rfl, rfl, rfl, rfl, rfl, le_rfl⟩

theorem moves_insertItem (h : k ≤ column) (item : EarleyItem) :
    Moves (Keeps k) (insertItem column item) := by
  refine moves_bind (moves_column column) fun current => ?_
  split
  · exact moves_modifyStats _
  · refine moves_bind (moves_modifyColumn h _) fun _ => moves_bind moves_get fun self => ?_
    refine moves_bind (moves_require _) fun _ => moves_bind (moves_require _) fun _ =>
      moves_bind (moves_require _) fun _ => moves_bind (moves_modifyColumn h _) fun _ => ?_
    exact moves_bind (moves_modify fun s => ⟨rfl, rfl, rfl, rfl, rfl, le_rfl⟩) fun _ =>
      moves_modifyStats _

theorem allows_keeps (h : k ≤ column) : Allows (Keeps k) column where
  stats _ _ := ⟨rfl, rfl, rfl, rfl, rfl, le_rfl⟩
  insertItem := moves_insertItem h
  file s f _ := keeps_modifyColumn h f s

theorem moves_finishLeoPostdot (h : k ≤ column) (postdot : ℕ) :
    Moves (Keeps k) (finishLeoPostdot column postdot) := by
  refine moves_bind (moves_column column) fun current =>
    moves_bind (moves_unwrap _ _) fun waiters => ?_
  split
  · next waiter =>
    refine moves_bind (moves_dotted waiter) fun waiterDotted => moves_bind moves_get fun self =>
      moves_bind (moves_unwrap _ _) fun production => ?_
    split
    · exact moves_pure ()
    · refine moves_bind (moves_advanceItem waiter) fun advanced =>
        moves_bind (moves_dotted advanced) fun advancedDotted => moves_bind ?_ fun target => ?_
      · split
        · exact moves_bind (moves_column _) fun _ => moves_pure _
        · exact moves_pure _
      · exact moves_bind (moves_require _) fun _ => moves_bind (moves_require _) fun _ =>
          moves_bind (moves_modifyColumn h _) fun _ =>
            moves_bind (moves_modify fun s => ⟨rfl, rfl, rfl, rfl, rfl, le_rfl⟩) fun _ =>
              moves_modifyStats _
  · exact moves_pure ()

theorem moves_saturateMeasured (h : k ≤ column) : Moves (Keeps k) (saturateMeasured column) := by
  refine moves_bind moves_get fun self =>
    moves_bind ((allows_keeps h).saturateLoop _ _ _) fun scans => ?_
  dsimp only
  split
  · exact moves_bind (moves_bind (moves_column column) fun current =>
      moves_forM (moves_finishLeoPostdot h) _) fun _ => moves_pure _
  · exact moves_pure _

theorem moves_saturate (h : k ≤ column) : Moves (Keeps k) (saturate column) :=
  moves_bind (moves_saturateMeasured h) fun _ => moves_pure _

theorem moves_finishColumnStats (n capacity : ℕ) :
    Moves (Keeps k) (finishColumnStats n capacity) :=
  moves_bind (moves_column n) fun _ => moves_modify fun _ => ⟨rfl, rfl, rfl, rfl, rfl, le_rfl⟩

/-- Whatever happens while a byte is consumed, the columns that were there before stay. -/
theorem keeps_advanceByte (byte : UInt8) (s : EarleyRecognizer) :
    Keeps s.chart.length s (stateOf (advanceByte byte s)) := by
  unfold advanceByte
  rw [stateOf_get_bind]
  refine stateOf_require_bind (refl_of _ s) ?_
  refine stateOf_require_bind (refl_of _ s) ?_
  refine stateOf_require_bind (refl_of _ s) ?_
  rw [stateOf_modify_bind]
  -- from here on only the new column is written to
  have hpush : Keeps s.chart.length s
      { s with chart := s.chart ++ [.new (s.bytePosition + 1)] } :=
    ⟨rfl, rfl, rfl, rfl, by simp, by simp⟩
  refine trans_of _ hpush (moves_bind (moves_modify fun _ => ⟨rfl, rfl, rfl, rfl, rfl, le_rfl⟩)
    (fun _ => moves_bind (moves_foldlM ((allows_keeps le_rfl).scanByte byte) _ _) fun continuing =>
      moves_bind (moves_saturate le_rfl) fun created => ?_) _)
  exact moves_bind (moves_require _) fun _ =>
    moves_bind (moves_modify fun _ => ⟨rfl, rfl, rfl, rfl, rfl, le_rfl⟩) fun _ =>
      moves_bind (moves_finishColumnStats _ _) fun _ => moves_bind moves_get fun _ => moves_pure _

end EarleyRecognizer

theorem CompiledEarley.keeps_prepare (s : EarleyRecognizer) :
    EarleyRecognizer.Keeps 0 s (stateOf (CompiledEarley.prepare s)) := by
  refine moves_bind moves_get (fun self => moves_bind (moves_unwrap _ _) fun start =>
    moves_bind (EarleyRecognizer.moves_insertItem le_rfl _) fun _ =>
      moves_bind (EarleyRecognizer.moves_saturateMeasured le_rfl) fun measured =>
        moves_bind (moves_require _) fun _ => ?_) s
  exact moves_bind (moves_modify fun _ => ⟨rfl, rfl, rfl, rfl, rfl, le_rfl⟩) fun _ =>
    EarleyRecognizer.moves_finishColumnStats _ _

end OcEarley
