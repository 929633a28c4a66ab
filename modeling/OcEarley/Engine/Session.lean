import OcEarley.Engine.Transaction

/-!
# Checkpoints in any order

A session is one recognizer together with the checkpoints taken of it so far, which may be restored
in any order.  Each snapshot also remembers what its checkpoint should stand for: the recognizer and
the bytes consumed at that time.

An Earley checkpoint does not hold the columns of the chart, only their number.  After a checkpoint
of another branch was restored and other bytes were consumed, the chart has different columns at
the same places, and restoring succeeds with the wrong ones (`restored_stale_columns`).
`restore_iff_columns` says exactly when a run is free of this.
-/

namespace OcEarley

open Method

/-- A checkpoint, with what its recognizer was and had consumed when it was made. -/
structure Snapshot where
  checkpoint : RecognizerCheckpoint
  state : RecognizerState
  bytes : List UInt8

/-- A recognizer in the hands of a client, who keeps checkpoints: the bytes are those of the chunks
that were accepted, as far as they have not been restored away. -/
structure Session where
  recognizer : RecognizerState
  consumed : List UInt8
  saved : List Snapshot

/-- A call of the client.  A checkpoint is restored by its index among those that were made. -/
inductive SessionOp
  | advance (bytes : List UInt8)
  | checkpoint
  | restore (index : ℕ)
  deriving DecidableEq, Repr

namespace Session

/-- The session with a fresh recognizer. -/
def start (recognizer : RecognizerState) : Session := ⟨recognizer, [], []⟩

/-- What a call does to the session.  A failed call leaves the recognizer as
the method leaves it. -/
def step (s : Session) : SessionOp → Session
  | .advance bytes =>
    match RecognizerState.tryAdvanceBytes bytes s.recognizer with
    | .ok .rejected r => { s with recognizer := r }
    | .ok _ r => { s with recognizer := r, consumed := s.consumed ++ bytes }
    | .error _ r => { s with recognizer := r }
  | .checkpoint =>
    { s with saved := s.saved ++ [⟨s.recognizer.checkpoint, s.recognizer, s.consumed⟩] }
  | .restore index =>
    match s.saved[index]? with
    | none => s
    | some snapshot =>
      match RecognizerState.restore snapshot.checkpoint s.recognizer with
      | .ok _ r => { s with recognizer := r, consumed := snapshot.bytes }
      | .error _ r => { s with recognizer := r }

/-- `P` holds of every operation of a run and the session it is applied to. -/
def Throughout (P : Session → SessionOp → Prop) : Session → List SessionOp → Prop
  | _, [] => True
  | s, op :: ops => P s op ∧ Throughout P (s.step op) ops

/-- A restore that succeeds brings back the recognizer of its snapshot, which is what `fresh`
becomes on the bytes of the snapshot. -/
def NamesState (fresh : RecognizerState) (s : Session) : SessionOp → Prop
  | .restore index => ∀ snapshot r, s.saved[index]? = some snapshot →
      RecognizerState.restore snapshot.checkpoint s.recognizer = .ok () r →
      r = snapshot.state ∧ fresh.Consumes snapshot.bytes r
  | _ => True

/-- A restore of an Earley recognizer, if there are enough columns for it to succeed, finds the
columns of its snapshot. -/
def FindsColumns (s : Session) : SessionOp → Prop
  | .restore index => ∀ snapshot a b, s.saved[index]? = some snapshot →
      snapshot.state = .earley a → s.recognizer = .earley b →
      a.chart.length ≤ b.chart.length → a.chart <+: b.chart
  | _ => True

/-- A restore of an Earley recognizer, if there are enough columns for it to succeed, goes back
along the bytes consumed by now. -/
def GoesBack (s : Session) : SessionOp → Prop
  | .restore index => ∀ snapshot a b, s.saved[index]? = some snapshot →
      snapshot.state = .earley a → s.recognizer = .earley b →
      a.chart.length ≤ b.chart.length → snapshot.bytes <+: s.consumed
  | _ => True

/-- The ghost fields of the session are right. -/
structure Faithful (fresh : RecognizerState) (s : Session) : Prop where
  consumes : fresh.Consumes s.consumed s.recognizer
  checkpoint : ∀ snapshot ∈ s.saved, snapshot.checkpoint = snapshot.state.checkpoint
  snapshot : ∀ snapshot ∈ s.saved, fresh.Consumes snapshot.bytes snapshot.state

end Session

namespace RecognizerState

variable {fresh r s t : RecognizerState}

/-- Two descendants of one recognizer: the checkpoint of the first is restored in the second if
the second has its columns. -/
theorem Extends.of_common (hr : fresh.Extends r) (hs : fresh.Extends s)
    (hcol : ∀ a b, r = .earley a → s = .earley b → a.chart <+: b.chart) : r.Extends s := by
  cases hr with
  | dfa hr =>
    cases hs with
    | dfa hs =>
      exact .dfa ⟨hs.dfa.trans hr.dfa.symm, hs.limits.trans hr.limits.symm,
        hs.generation.trans hr.generation.symm⟩
  | lalr hr =>
    cases hs with
    | lalr hs =>
      exact .lalr ⟨hs.compiled.trans hr.compiled.symm, hs.limits.trans hr.limits.symm,
        hs.generation.trans hr.generation.symm⟩
  | earley hr =>
    cases hs with
    | earley hs =>
      have hpre := hcol _ _ rfl rfl
      exact .earley ⟨hs.compiled.trans hr.compiled.symm, hs.limits.trans hr.limits.symm,
        hs.leoEnabled.trans hr.leoEnabled.symm, hs.generation.trans hr.generation.symm,
        by rw [List.take_length, ← List.prefix_iff_eq_take.1 hpre], hpre.length_le⟩

/-- What a successful restore of an Earley checkpoint brings back. -/
theorem restore_earley_eq_ok {a b : EarleyRecognizer}
    (h : restore (checkpoint (.earley a)) (.earley b) = .ok () t) :
    a.chart.length ≤ b.chart.length ∧
      ∃ c : EarleyRecognizer, t = .earley c ∧ c.chart = b.chart.take a.chart.length := by
  change zoom _ _ b = _ at h
  unfold zoom at h
  cases hres : EarleyRecognizer.restore a.checkpoint b with
  | error e c =>
    rw [hres] at h
    cases h
  | ok u c =>
    rw [hres] at h
    simp only [EarleyRecognizer.restore, bind_eq_ok, get_eq_ok, require_eq_ok,
      modify_eq_ok] at hres
    obtain ⟨_, _, ⟨rfl, rfl⟩, _, _, ⟨-, rfl⟩, _, _, ⟨⟨-, hle⟩, rfl⟩, rfl⟩ := hres
    exact ⟨hle, _, (EStateM.Result.ok.inj h).2.symm, rfl⟩

theorem Extends.chart_prefix {a b : EarleyRecognizer} (h : Extends (.earley a) (.earley b)) :
    a.chart <+: b.chart := by
  cases h with
  | earley h =>
    rw [List.prefix_iff_eq_take, h.take, List.take_length]

/-- A restore that is refused changes nothing. -/
theorem restore_eq_error {checkpoint : RecognizerCheckpoint} {e : RuntimeError}
    (h : restore checkpoint s = .error e t) : t = s := by
  cases s with
  | dfa s =>
    cases checkpoint with
    | dfa checkpoint =>
      have hatomic : Atomic (DfaRecognizer.restore checkpoint) :=
        atomic_get_bind fun _ => atomic_require_bind (atomic_modify _)
      exact hatomic.zoom h
    | _ => exact (EStateM.Result.error.inj h).2.symm
  | lalr s =>
    cases checkpoint with
    | lalr checkpoint =>
      have hatomic : Atomic (LalrRecognizer.restore checkpoint) :=
        atomic_get_bind fun _ => atomic_require_bind (atomic_modify _)
      exact hatomic.zoom h
    | _ => exact (EStateM.Result.error.inj h).2.symm
  | earley s =>
    cases checkpoint with
    | earley checkpoint =>
      have hatomic : Atomic (EarleyRecognizer.restore checkpoint) :=
        atomic_get_bind fun _ => atomic_require_bind (atomic_require_bind (atomic_modify _))
      exact hatomic.zoom h
    | _ => exact (EStateM.Result.error.inj h).2.symm

/-- Enough columns are all that it takes for a restore to succeed. -/
theorem exists_restore {a b : EarleyRecognizer} (ha : a.chart ≠ [])
    (hgen : b.generation = a.generation) (hle : a.chart.length ≤ b.chart.length) :
    ∃ t, restore (checkpoint (.earley a)) (.earley b) = .ok () t := by
  have hpos := List.length_pos_iff.2 ha
  obtain ⟨c, hc⟩ : ∃ c, EarleyRecognizer.restore a.checkpoint b = .ok () c := by
    simp only [EarleyRecognizer.restore, bind_eq_ok, get_eq_ok, require_eq_ok, modify_eq_ok]
    exact ⟨_, b, b, ⟨rfl, rfl⟩, (), b, ⟨hgen.symm, rfl⟩, (), b, ⟨⟨hpos.ne', hle⟩, rfl⟩, rfl⟩
  refine ⟨.earley c, ?_⟩
  change zoom _ _ b = _
  unfold zoom
  rw [hc]

end RecognizerState

namespace Session

variable {fresh : RecognizerState} {s : Session} {op : SessionOp} {ops : List SessionOp}

theorem faithful_start (fresh : RecognizerState) : (start fresh).Faithful fresh :=
  ⟨rfl, fun _ h => absurd h List.not_mem_nil, fun _ h => absurd h List.not_mem_nil⟩

/-! ### One operation -/

/-- A restore is exact when the columns of the snapshot are there. -/
theorem Faithful.namesState (h : s.Faithful fresh) (hfresh : fresh.HasColumn)
    (hcol : s.FindsColumns op) : s.NamesState fresh op := by
  cases op with
  | advance bytes => trivial
  | checkpoint => trivial
  | restore index =>
    intro snapshot r hget hok
    have hmem := List.mem_of_getElem? hget
    have hsnap := h.snapshot snapshot hmem
    rw [h.checkpoint snapshot hmem] at hok
    have hext : snapshot.state.Extends s.recognizer :=
      .of_common hsnap.extends h.consumes.extends fun a b ha hb => by
        rw [ha, hb] at hok
        exact hcol snapshot a b hget ha hb (RecognizerState.restore_earley_eq_ok hok).1
    rw [RecognizerState.restore_of_extends (hsnap.extends.hasColumn hfresh) hext] at hok
    obtain rfl := (EStateM.Result.ok.inj hok).2
    exact ⟨rfl, hsnap⟩

/-- A restore that is exact has found the columns of the snapshot. -/
theorem Faithful.findsColumns (h : s.Faithful fresh) (hfresh : fresh.HasColumn)
    (hexact : s.NamesState fresh op) : s.FindsColumns op := by
  cases op with
  | advance bytes => trivial
  | checkpoint => trivial
  | restore index =>
    intro snapshot a b hget ha hb hle
    have hmem := List.mem_of_getElem? hget
    have hsnap := (h.snapshot snapshot hmem).extends
    have hrec := h.consumes.extends
    have hcol := hsnap.hasColumn hfresh
    rw [ha] at hsnap hcol
    rw [hb] at hrec
    have hgen : b.generation = a.generation := by
      cases hsnap with
      | earley hsnap =>
        cases hrec with
        | earley hrec => exact hrec.generation.trans hsnap.generation.symm
    obtain ⟨t, ht⟩ := RecognizerState.exists_restore hcol hgen hle
    have hstate : t = .earley a := by
      refine ((hexact snapshot t hget ?_).1).trans ha
      rw [h.checkpoint snapshot hmem, ha, hb]
      exact ht
    obtain ⟨-, c, rfl, hc⟩ := RecognizerState.restore_earley_eq_ok ht
    obtain rfl := RecognizerState.earley.inj hstate
    rw [List.prefix_iff_eq_take]
    exact hc

/-- Going back along the consumed bytes finds the columns. -/
theorem Faithful.findsColumns_of_goesBack (h : s.Faithful fresh) (hback : s.GoesBack op) :
    s.FindsColumns op := by
  cases op with
  | advance bytes => trivial
  | checkpoint => trivial
  | restore index =>
    intro snapshot a b hget ha hb hle
    obtain ⟨later, hlater⟩ := hback snapshot a b hget ha hb hle
    have hconsumes := h.consumes
    rw [← hlater, RecognizerState.consumes_append] at hconsumes
    obtain ⟨u, hu, hrest⟩ := hconsumes
    obtain rfl := hu.unique (h.snapshot snapshot (List.mem_of_getElem? hget))
    have hext := hrest.extends
    rw [ha, hb] at hext
    exact hext.chart_prefix

/-- An exact operation keeps the ghost fields right. -/
theorem Faithful.step (h : s.Faithful fresh) (hfresh : fresh.HasColumn)
    (hexact : s.NamesState fresh op) : (s.step op).Faithful fresh := by
  have hcol := h.consumes.extends.hasColumn hfresh
  cases op with
  | advance bytes =>
    rw [Session.step]
    rcases RecognizerState.tryAdvanceBytes_spec hcol bytes with ⟨t, ht⟩ | hrej | ⟨e, he⟩
    · rw [RecognizerState.tryAdvanceBytes_of_consumes ht]
      have hconsumes := RecognizerState.consumes_append.2 ⟨_, h.consumes, ht⟩
      cases hout : t.outcome with
      | rejected => exact absurd hout t.outcome_ne_rejected
      | live => exact ⟨hconsumes, h.checkpoint, h.snapshot⟩
      | accepting => exact ⟨hconsumes, h.checkpoint, h.snapshot⟩
    · rw [hrej]
      exact ⟨h.consumes, h.checkpoint, h.snapshot⟩
    · rw [he]
      exact ⟨h.consumes, h.checkpoint, h.snapshot⟩
  | checkpoint =>
    refine ⟨h.consumes, fun snapshot hmem => ?_, fun snapshot hmem => ?_⟩
    · rcases List.mem_append.1 hmem with hmem | hmem
      · exact h.checkpoint snapshot hmem
      · rw [List.mem_singleton.1 hmem]
    · rcases List.mem_append.1 hmem with hmem | hmem
      · exact h.snapshot snapshot hmem
      · rw [List.mem_singleton.1 hmem]
        exact h.consumes
  | restore index =>
    rw [Session.step]
    cases hget : s.saved[index]? with
    | none => exact h
    | some snapshot =>
      dsimp only
      cases hres : RecognizerState.restore snapshot.checkpoint s.recognizer with
      | ok u r => exact ⟨(hexact snapshot r hget hres).2, h.checkpoint, h.snapshot⟩
      | error e r =>
        obtain rfl := RecognizerState.restore_eq_error hres
        exact ⟨h.consumes, h.checkpoint, h.snapshot⟩

/-! ### Runs -/

theorem Faithful.throughout_iff (h : s.Faithful fresh) (hfresh : fresh.HasColumn) :
    s.Throughout (NamesState fresh) ops ↔ s.Throughout FindsColumns ops := by
  induction ops generalizing s with
  | nil => exact Iff.rfl
  | cons op ops ih =>
    constructor
    · rintro ⟨hop, hops⟩
      exact ⟨h.findsColumns hfresh hop, (ih (h.step hfresh hop)).1 hops⟩
    · rintro ⟨hop, hops⟩
      have hexact := h.namesState hfresh hop
      exact ⟨hexact, (ih (h.step hfresh hexact)).2 hops⟩

theorem Faithful.throughout_of_goesBack (h : s.Faithful fresh) (hfresh : fresh.HasColumn)
    (hback : s.Throughout GoesBack ops) : s.Throughout (NamesState fresh) ops := by
  induction ops generalizing s with
  | nil => trivial
  | cons op ops ih =>
    have hexact := h.namesState hfresh (h.findsColumns_of_goesBack hback.1)
    exact ⟨hexact, ih (h.step hfresh hexact) hback.2⟩

end Session

/-- **Checkpoints name states as long as the chart keeps their columns.**  In a run of advances,
checkpoints and restores of a fresh recognizer, in any order, every restore that succeeds brings
back the recognizer its checkpoint was taken of if and only if every restore of an Earley
recognizer finds the columns that were there at the time.  It does when it goes back along the
bytes consumed by now; the other backends need no condition. -/
theorem checkpoints_name_states {fresh : RecognizerState} (hfresh : fresh.Fresh)
    (ops : List SessionOp) :
    ((Session.start fresh).Throughout (Session.NamesState fresh) ops ↔
      (Session.start fresh).Throughout Session.FindsColumns ops) ∧
    ((Session.start fresh).Throughout Session.GoesBack ops →
      (Session.start fresh).Throughout (Session.NamesState fresh) ops) :=
  ⟨(Session.faithful_start fresh).throughout_iff hfresh.hasColumn,
    (Session.faithful_start fresh).throughout_of_goesBack hfresh.hasColumn⟩

/-! ### Stale columns -/

/-- `S → a c | b d`. -/
def twoBranches : ResidualGrammar where
  start := 0
  nonterminals := [{ id := 0, original := 0, name := "s", provenance := .root }]
  terminals := [.literal [97], .literal [98], .literal [99], .literal [100]]
  terminalProvenance := [.root, .root, .root, .root]
  productions := [
    { id := 0, original := 0, lhs := 0, rhs := [.terminal 0, .terminal 2], provenance := .root },
    { id := 1, original := 1, lhs := 0, rhs := [.terminal 1, .terminal 3], provenance := .root }]
  productionsByLhs := [[0, 1]]
  nullable := [false]
  productiveSuffixes := [[true, true, true], [true, true, true]]
  collapsedNonterminals := 0
  collapsedRegions := 0
  terminalDfaStates := 0
  terminalDfaBytes := 0

/-- The tables laid out for `twoBranches`. -/
def twoBranchesEarley : CompiledEarley where
  grammar := twoBranches
  productions := [⟨0, [.terminal 0, .terminal 2]⟩, ⟨0, [.terminal 1, .terminal 3]⟩,
    ⟨1, [.nonterminal 0]⟩]
  dotted := [⟨0, 0, some (.terminal 0), some 1, 0⟩, ⟨0, 1, some (.terminal 2), some 2, 0⟩,
    ⟨0, 2, none, none, 0⟩, ⟨1, 0, some (.terminal 1), some 4, 0⟩,
    ⟨1, 1, some (.terminal 3), some 5, 0⟩, ⟨1, 2, none, none, 0⟩,
    ⟨2, 0, some (.nonterminal 0), some 7, 1⟩, ⟨2, 1, none, none, 1⟩]
  dottedOffsets := [0, 3, 6]
  startsByLhs := [[0, 3], [6]]
  augmentedProduction := 2
  augmentedComplete := 7
  nullableNonterminals := 0
  leoEligibleRules := 1

namespace twoBranches

theorem build_eq : CompiledEarley.build twoBranches .default = .ok twoBranchesEarley := rfl

/-- The recognizer of the grammar, at its start. -/
def recognizer : RecognizerState :=
  .earley (stateOf (CompiledEarley.prepare (twoBranchesEarley.blank .default true 1)))

theorem fresh : recognizer.Fresh :=
  .earley (CompiledEarley.recognizer_eq_ok (by decide) (by decide +kernel))

/-- Back from the first branch to the start, and into the second branch. -/
def session : Session :=
  [.checkpoint, .advance [97], .checkpoint, .restore 0, .advance [98]].foldl Session.step
    (.start recognizer)

theorem one_lt_saved : 1 < session.saved.length := by decide +kernel

/-- What was saved in the first branch. -/
def snapshot : Snapshot := session.saved.get ⟨1, one_lt_saved⟩

theorem saved_one : session.saved[1]? = some snapshot := List.getElem?_eq_getElem one_lt_saved

end twoBranches

/-- A checkpoint of the first branch is restored in the second one: the call succeeds, but the
recognizer has the columns of the second branch. -/
theorem restored_stale_columns :
    ¬ ∀ fresh : RecognizerState, fresh.Fresh → ∀ ops,
      (Session.start fresh).Throughout (Session.NamesState fresh) ops := by
  intro hclaim
  have hrun := hclaim twoBranches.recognizer twoBranches.fresh
    [.checkpoint, .advance [97], .checkpoint, .restore 0, .advance [98], .restore 1]
  have hrestored : valueOf (RecognizerState.restore twoBranches.snapshot.checkpoint
      twoBranches.session.recognizer) = .ok () := by decide +kernel
  have hstate := (hrun.2.2.2.2.2.1 _ _ twoBranches.saved_one (valueOf_eq_ok.1 hrestored)).1
  -- the first branch continues with `c`, the recognizer restored in the second one does not
  have hanswer := congrArg (fun r => valueOf (RecognizerState.tryAdvanceBytes [99] r)) hstate
  revert hanswer
  decide +kernel

theorem checkpoints_name_states_twoBranches :
    (Session.start twoBranches.recognizer).Throughout
      (Session.NamesState twoBranches.recognizer)
      [.advance [97], .checkpoint, .advance [99], .restore 0] := by
  refine (checkpoints_name_states twoBranches.fresh _).2 ⟨trivial, trivial, trivial, ?_, trivial⟩
  intro snapshot a b hget _ _ _
  have hbytes : (([.advance [97], .checkpoint, .advance [99]].foldl Session.step
      (.start twoBranches.recognizer)).saved[0]?).map Snapshot.bytes = some [97] := by
    decide +kernel
  have hconsumed : ([.advance [97], .checkpoint, .advance [99]].foldl Session.step
      (.start twoBranches.recognizer)).consumed = [97, 99] := by decide +kernel
  have hsnap : snapshot.bytes = [97] := by
    have := congrArg (Option.map Snapshot.bytes) hget
    exact Option.some.inj (this.symm.trans hbytes)
  rw [hsnap]
  exact ⟨[99], hconsumed.symm⟩

end OcEarley
