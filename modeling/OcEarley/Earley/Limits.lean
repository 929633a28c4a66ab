import OcEarley.Earley.Frame

/-!
# The Earley recognizer under higher limits

A byte does the same under higher limits, unless it exceeds one of the lower ones
(`EarleyRecognizer.follows_advanceByte`).  `is_accepting` and `is_live` only look at the chart and
at the active scans, so no limit has a say in them.
-/

namespace OcEarley

open Method

namespace EarleyRecognizer

variable {limits : RuntimeLimits} {generation : ℕ} {α : Type}

/-- The recognizer with other limits. -/
def relax (limits : RuntimeLimits) (generation : ℕ) (self : EarleyRecognizer) : EarleyRecognizer :=
  { self with limits := limits, generation := generation }

/-- The second recognizer is the first one with higher limits. -/
def Relaxed (limits : RuntimeLimits) (generation : ℕ) (s t : EarleyRecognizer) : Prop :=
  s.limits.Within limits ∧ t = s.relax limits generation

/-- The method does the same under higher limits. -/
def Monotone (limits : RuntimeLimits) (generation : ℕ)
    (m : Method RuntimeError EarleyRecognizer α) :
    Prop := Follows RuntimeError.IsLimit (Relaxed limits generation) m m

theorem monotone_modify {f : EarleyRecognizer → EarleyRecognizer}
    (hlimits : ∀ s, (f s).limits = s.limits)
    (hf : ∀ s, f (s.relax limits generation) = (f s).relax limits generation) :
    Monotone limits generation (modify f) :=
  follows_modify fun s _ ⟨hs, ht⟩ => ⟨(hlimits s).symm ▸ hs, ht ▸ hf s⟩

theorem monotone_column (n : ℕ) : Monotone limits generation (EarleyRecognizer.column n) := by
  refine follows_get_bind ?_
  rintro s _ ⟨-, rfl⟩
  exact follows_unwrap _ _

theorem monotone_modifyColumn (n : ℕ) (f : ChartColumn → ChartColumn) :
    Monotone limits generation (modifyColumn n f) :=
  monotone_modify (fun _ => rfl) fun _ => rfl

theorem monotone_modifyStats (f : EarleyStats → EarleyStats) :
    Monotone limits generation (modifyStats f) :=
  monotone_modify (fun _ => rfl) fun _ => rfl

theorem monotone_dotted (item : EarleyItem) : Monotone limits generation (dotted item) := by
  refine follows_get_bind ?_
  rintro s _ ⟨-, rfl⟩
  exact follows_unwrap _ _

theorem monotone_advanceItem (item : EarleyItem) : Monotone limits generation (advanceItem item) :=
  follows_bind (monotone_dotted item) fun _ => follows_bind (follows_unwrap _ _) fun _ =>
    follows_pure _

theorem monotone_insertItem (column : ℕ) (item : EarleyItem) :
    Monotone limits generation (insertItem column item) := by
  refine follows_bind (monotone_column column) fun current => ?_
  split
  · exact monotone_modifyStats _
  · refine follows_bind (monotone_modifyColumn _ _) fun _ => follows_get_bind ?_
    rintro s _ ⟨hs, rfl⟩
    refine follows_bind (follows_enforceRuntimeLimit _ _ hs.maxItemsPerColumn) fun _ => ?_
    -- the error of the second check tells the limit, so it differs
    refine follows_bind (follows_check id trivial) fun _ =>
      follows_bind (follows_enforceRuntimeLimit _ _ hs.maxTotalItems) fun _ =>
        follows_bind (monotone_modifyColumn _ _) fun _ => ?_
    exact follows_bind (monotone_modify (fun _ => rfl) fun _ => rfl) fun _ => monotone_modifyStats _

theorem monotone_insertAdvanced (column : ℕ) (bump : EarleyStats → EarleyStats)
    (waiters : List EarleyItem) : Monotone limits generation (insertAdvanced column bump waiters) :=
  follows_forM (fun waiter => follows_bind (monotone_modifyStats bump) fun _ =>
    follows_bind (monotone_advanceItem waiter) fun _ => monotone_insertItem column _) waiters

theorem monotone_leoCompletion (item : EarleyItem) :
    Monotone limits generation (leoCompletion item) := by
  refine follows_bind (monotone_dotted item) fun dotted => follows_get_bind ?_
  rintro s _ ⟨-, rfl⟩
  exact follows_bind (follows_unwrap _ _) fun _ => follows_pure _

theorem monotone_completeWaiters (column : ℕ) (item : EarleyItem) (lhs : ℕ) :
    Monotone limits generation (completeWaiters column item lhs) :=
  follows_bind (monotone_column _) fun _ => monotone_insertAdvanced column _ _

theorem monotone_complete (column : ℕ) (item : EarleyItem) :
    Monotone limits generation (complete column item) := by
  refine follows_bind (monotone_dotted item) fun dotted => follows_get_bind ?_
  rintro s _ ⟨-, rfl⟩
  change Follows _ _
    (if dotted.production = s.compiled.augmentedProduction then _ else
      if s.leoEnabled then _ else _)
    (if dotted.production = s.compiled.augmentedProduction then _ else
      if s.leoEnabled then _ else _)
  split
  · exact follows_pure ()
  · split
    · refine follows_bind (monotone_leoCompletion item) fun top => ?_
      cases top with
      | none => exact monotone_completeWaiters column item _
      | some top =>
        exact follows_bind (monotone_modifyStats _) fun _ => monotone_insertItem column top
    · exact monotone_completeWaiters column item _

theorem monotone_predict (column nonterminal : ℕ) :
    Monotone limits generation (predict column nonterminal) := by
  refine follows_get_bind ?_
  rintro s _ ⟨-, rfl⟩
  refine follows_bind (follows_unwrap _ _) fun starts => ?_
  exact follows_forM (fun dotted => follows_bind (monotone_modifyStats _) fun _ =>
    follows_bind (monotone_column column) fun _ => monotone_insertItem column _) starts

theorem monotone_advanceNullable (column : ℕ) (item : EarleyItem) (nonterminal : ℕ) :
    Monotone limits generation (advanceNullable column item nonterminal) := by
  refine follows_get_bind ?_
  rintro s _ ⟨-, rfl⟩
  refine follows_bind (follows_unwrap _ _) fun nullable => ?_
  split
  · exact follows_bind (monotone_modifyStats _) fun _ =>
      follows_bind (monotone_advanceItem item) fun _ => monotone_insertItem column _
  · exact follows_pure ()

theorem monotone_processItem (column : ℕ) (item : EarleyItem) (scans : List ActiveScan) :
    Monotone limits generation (processItem column item scans) := by
  refine follows_bind (monotone_dotted item) fun dotted => ?_
  rcases dotted.next with _ | ⟨terminal⟩ | ⟨nonterminal⟩
  · exact follows_bind (monotone_complete column item) fun _ => follows_pure _
  · refine follows_bind (monotone_modifyColumn _ _) fun _ => follows_get_bind ?_
    rintro s _ ⟨-, rfl⟩
    exact follows_bind (monotone_column column) fun _ => follows_bind (follows_unwrap _ _) fun _ =>
      follows_pure _
  · exact follows_bind (monotone_modifyColumn _ _) fun _ =>
      follows_bind (monotone_predict column nonterminal) fun _ =>
        follows_bind (monotone_advanceNullable column item nonterminal) fun _ => follows_pure _

theorem monotone_saturateLoop (column fuel agenda : ℕ) (scans : List ActiveScan) :
    Monotone limits generation (saturateLoop column fuel agenda scans) := by
  induction fuel generalizing agenda scans with
  | zero => exact follows_throw _
  | succ fuel ih =>
    refine follows_bind (monotone_column column) fun current => ?_
    cases current.items[agenda]? with
    | none => exact follows_pure _
    | some item => exact follows_bind (monotone_processItem column item scans) fun _ => ih _ _

theorem monotone_finishLeoPostdot (column postdot : ℕ) :
    Monotone limits generation (finishLeoPostdot column postdot) := by
  refine follows_bind (monotone_column column) fun current =>
    follows_bind (follows_unwrap _ _) fun waiters => ?_
  split
  · next waiter =>
    refine follows_bind (monotone_dotted waiter) fun waiterDotted => follows_get_bind ?_
    rintro s _ ⟨hs, rfl⟩
    refine follows_bind (follows_unwrap _ _) fun production => ?_
    split
    · exact follows_pure ()
    · refine follows_bind (monotone_advanceItem waiter) fun advanced =>
        follows_bind (monotone_dotted advanced) fun advancedDotted =>
          follows_bind ?_ fun target => ?_
      · split
        · exact follows_bind (monotone_column _) fun _ => follows_pure _
        · exact follows_pure _
      · refine follows_bind (follows_check id trivial) fun _ =>
          follows_bind (follows_enforceRuntimeLimit _ _ hs.maxLeoItems) fun _ =>
            follows_bind (monotone_modifyColumn _ _) fun _ => ?_
        exact follows_bind (monotone_modify (fun _ => rfl) fun _ => rfl) fun _ =>
          monotone_modifyStats _
  · exact follows_pure ()

theorem monotone_saturateMeasured (column : ℕ) :
    Monotone limits generation (saturateMeasured column) := by
  refine follows_get_bind ?_
  rintro s _ ⟨-, rfl⟩
  refine follows_bind (monotone_saturateLoop _ _ _ _) fun scans => ?_
  have hleo : Monotone limits generation (finishLeoColumn column) :=
    follows_bind (monotone_column column) fun _ => follows_forM (monotone_finishLeoPostdot column) _
  change Follows _ _ (if s.leoEnabled then _ else _) (if s.leoEnabled then _ else _)
  split
  · exact follows_bind hleo fun _ => follows_pure _
  · exact follows_pure _

theorem monotone_saturate (column : ℕ) : Monotone limits generation (saturate column) :=
  follows_bind (monotone_saturateMeasured column) fun _ => follows_pure _

theorem monotone_finishColumnStats (column capacity : ℕ) :
    Monotone limits generation (finishColumnStats column capacity) :=
  follows_bind (monotone_column column) fun _ => monotone_modify (fun _ => rfl) fun _ => rfl

theorem monotone_scanByte (column : ℕ) (byte : UInt8) (continuing : List ActiveScan)
    (scan : ActiveScan) : Monotone limits generation (scanByte column byte continuing scan) := by
  refine follows_get_bind ?_
  rintro s _ ⟨-, rfl⟩
  refine follows_bind (follows_unwrap _ _) fun terminal => ?_
  split
  · exact follows_pure _
  · refine follows_bind (monotone_modifyStats _) fun _ => ?_
    dsimp only
    split
    · exact follows_bind (monotone_column _) fun _ =>
        follows_bind (monotone_insertAdvanced column _ _) fun _ => follows_pure _
    · exact follows_pure _

theorem isAccepting_relax (s : EarleyRecognizer) :
    (s.relax limits generation).isAccepting = s.isAccepting := rfl

theorem isLive_relax (s : EarleyRecognizer) :
    (s.relax limits generation).isLive = s.isLive := rfl

/-- **A byte under higher limits.** -/
theorem follows_advanceByte (byte : UInt8) :
    Follows RuntimeError.IsLimit (Relaxed limits generation) (advanceByte byte)
      (advanceByte byte) := by
  refine follows_get_bind ?_
  rintro s _ ⟨hs, rfl⟩
  refine follows_bind (follows_enforceRuntimeLimit _ _ hs.maxInputBytes) fun _ =>
    follows_bind (follows_enforceRuntimeLimit _ _ hs.maxChartColumns) fun _ =>
      follows_bind (follows_require _ _) fun _ =>
        follows_bind (monotone_modify (fun _ => rfl) fun _ => rfl) fun _ =>
          follows_bind (monotone_modify (fun _ => rfl) fun _ => rfl) fun _ => ?_
  refine follows_bind (follows_foldlM (monotone_scanByte _ byte) _ _) fun continuing =>
    follows_bind (monotone_saturate _) fun created =>
      follows_bind (follows_enforceRuntimeLimit _ _ hs.maxActiveScans) fun _ =>
        follows_bind (monotone_modify (fun _ => rfl) fun _ => rfl) fun _ =>
          follows_bind (monotone_finishColumnStats _ _) fun _ => follows_get_bind ?_
  rintro s _ ⟨-, rfl⟩
  exact follows_pure _

end EarleyRecognizer

/-- **The first column under higher limits.** -/
theorem CompiledEarley.follows_prepare {limits : RuntimeLimits} {generation : ℕ} :
    Follows RuntimeError.IsLimit (EarleyRecognizer.Relaxed limits generation) CompiledEarley.prepare
      CompiledEarley.prepare := by
  refine follows_get_bind ?_
  rintro s _ ⟨hs, rfl⟩
  refine follows_bind (follows_unwrap _ _) fun start =>
    follows_bind (EarleyRecognizer.monotone_insertItem 0 _) fun _ =>
      follows_bind (EarleyRecognizer.monotone_saturateMeasured 0) fun measured =>
        follows_bind (follows_enforceRuntimeLimit _ _ hs.maxActiveScans) fun _ =>
          follows_bind (EarleyRecognizer.monotone_modify (fun _ => rfl) fun _ => rfl) fun _ =>
            EarleyRecognizer.monotone_finishColumnStats 0 _

theorem CompiledEarley.limits_of_recognizer {compiled : CompiledEarley} {limits : RuntimeLimits}
    {leo : Bool} {generation : ℕ} {r : EarleyRecognizer}
    (h : compiled.recognizer limits leo generation = .ok r) : r.limits = limits := by
  obtain ⟨_, -, h⟩ := Result.bind_eq_ok.1 h
  have hkeep := CompiledEarley.keeps_prepare (compiled.blank limits leo generation)
  cases hprepare : prepare (compiled.blank limits leo generation) with
  | error e s =>
    rw [hprepare] at h
    cases h
  | ok u s =>
    rw [hprepare] at h hkeep
    obtain rfl := Result.pure_eq_ok.1 h
    exact hkeep.limits

theorem CompiledEarley.recognizer_relax {compiled : CompiledEarley} {limits higher : RuntimeLimits}
    {leo : Bool} {generation : ℕ} {r : EarleyRecognizer}
    (h : compiled.recognizer limits leo generation = .ok r) (hs : r.limits.Within higher)
    (generation' : ℕ) :
    compiled.recognizer higher leo generation' = .ok (r.relax higher generation') := by
  rw [CompiledEarley.limits_of_recognizer h] at hs
  obtain ⟨_, hcolumns, h⟩ := Result.bind_eq_ok.1 h
  cases hprepare : prepare (compiled.blank limits leo generation) with
  | error e s =>
    rw [hprepare] at h
    cases h
  | ok u s =>
    rw [hprepare] at h
    obtain rfl := Result.pure_eq_ok.1 h
    have hagrees : Agrees RuntimeError.IsLimit (EarleyRecognizer.Relaxed higher generation') _ _ :=
      CompiledEarley.follows_prepare (compiled.blank limits leo generation) _ ⟨hs, rfl⟩
    rw [hprepare] at hagrees
    obtain ⟨s', hs', -, rfl⟩ := hagrees.of_ok
    have hcolumns := (Result.require_eq_ok.1 hcolumns).trans hs.maxChartColumns
    unfold recognizer Result.require
    rw [if_pos hcolumns]
    have hblank : compiled.blank higher leo generation' =
        (compiled.blank limits leo generation).relax higher generation' := rfl
    rw [hblank, hs']
    rfl

end OcEarley
