import Mathlib.Data.Finset.Card
import Mathlib.Data.List.AList
import OcEarley.Base.Lists
import OcEarley.Grammar.Terminal

/-!
# Stable state numbers

The automaton that determinization returns is renumbered by a breadth-first search: an id is handed
out when a state is discovered, its row is appended when it is taken off the queue.

* `Renumbering.Holds` : the queue is what has been numbered and has no row yet, so that both orders
  agree;
* `renumber_isomorphism` : the table runs as the automaton does, with the states in the order of
  their first visit.
-/

namespace OcEarley

/-- The automaton that determinization returns. -/
structure RawDfa (σ : Type) where
  start : σ
  nextState : σ → UInt8 → σ
  isDeadState : σ → Bool
  isQuitState : σ → Bool
  isMatchState : σ → Bool
  nextEoiState : σ → σ

namespace RawDfa

variable {σ : Type} (raw : RawDfa σ)

/-- One byte is read, unless it leads to a dead or a quit state. -/
def step (s : σ) (byte : UInt8) : Option σ :=
  if raw.isDeadState (raw.nextState s byte) || raw.isQuitState (raw.nextState s byte) then none
  else some (raw.nextState s byte)

/-- The state after a word, when the run meets no dead and no quit state. -/
def run (s : σ) (w : List UInt8) : Option σ := w.foldlM raw.step s

/-- Acceptance at the end of the input. -/
def isAccepting (s : σ) : Bool := raw.isMatchState (raw.nextEoiState s)

/-- The automaton accepts the word. -/
def accepts (w : List UInt8) : Bool := (raw.run raw.start w).any raw.isAccepting

/-- The states that are met when the bytes are read in states one after the other. -/
def visits (processed : List σ) : List σ :=
  raw.start :: processed.flatMap fun s => allBytes.filterMap (raw.step s)

/-- The states hold the start, and what is reached from them. -/
structure Closed (R : Finset σ) : Prop where
  start : raw.start ∈ R
  step : ∀ s ∈ R, ∀ byte t, raw.step s byte = some t → t ∈ R

end RawDfa

/-! ### The search -/

/-- The size of the table of that many states, with two flags each. -/
def minimumDfaBytes (states : ℕ) : Except CompileError ℕ := do
  Result.require (states * 1026 ≤ usizeMax)
    (.resourceLimitExceeded .dfaDeterminization usizeMax usizeMax)
  pure (states * 1026)

/-- The states and the bytes of the table are within the limits. -/
def ensureDfaCapacity (states : ℕ) (limits : CompileLimits) : Except CompileError Unit := do
  enforceCompileLimit .dfaDeterminization states limits.maxDfaStates
  let bytes ← minimumDfaBytes states
  enforceCompileLimit .dfaDeterminization bytes limits.maxDfaBytes

/-- What the search keeps. -/
structure Renumbering (σ : Type) [DecidableEq σ] where
  rawToStable : AList fun _ : σ => ℕ
  queue : List σ
  transitions : List (UInt8 → ℕ)
  accepting : List Bool

namespace Renumbering

variable {σ : Type} [DecidableEq σ] (raw : RawDfa σ) (limits : CompileLimits)

/-- The body of the loop over the bytes. -/
def visitByte (current : σ) (state : Renumbering σ × (UInt8 → ℕ)) (byte : UInt8) :
    Except CompileError (Renumbering σ × (UInt8 → ℕ)) :=
  let (self, row) := state
  let next := raw.nextState current byte
  if raw.isDeadState next || raw.isQuitState next then pure (self, row)
  else
    match self.rawToStable.lookup next with
    | some stable => pure (self, Function.update row byte stable)
    | none => do
      let nextId := self.rawToStable.entries.length
      Result.require (nextId ≤ u32Max)
        (.resourceLimitExceeded .dfaDeterminization nextId limits.maxDfaStates)
      enforceCompileLimit .dfaDeterminization (nextId + 1) limits.maxDfaStates
      pure ({ self with
        rawToStable := self.rawToStable.insert next nextId
        queue := self.queue ++ [next] }, Function.update row byte nextId)

/-- A state is taken off the queue. -/
def process (current : σ) (self : Renumbering σ) : Except CompileError (Renumbering σ) := do
  let expectedId := self.transitions.length
  let actualId ← Result.unwrap (self.rawToStable.lookup current) .panicked
  Result.require (expectedId = actualId)
    (.internalInvariant "DFA states were not processed in BFS order")
  ensureDfaCapacity (expectedId + 1) limits
  let (self, row) ← allBytes.foldlM (visitByte raw limits current) (self, fun _ => deadDfaState)
  pure { self with
    transitions := self.transitions ++ [row]
    accepting := self.accepting ++ [raw.isAccepting current] }

/-- Breadth-first search: the states in the order of their discovery, until the queue is empty. -/
def loop : ℕ → Renumbering σ → Except CompileError (Renumbering σ)
  | 0, _ => throw .diverged
  | fuel + 1, self =>
    match self.queue with
    | [] => pure self
    | current :: queue => do
      let self ← process raw limits current { self with queue := queue }
      loop fuel self

end Renumbering

/-- The renumbering loop of `compile_measured`; no more states are ever processed
than the limit allows. -/
def renumber {σ : Type} [DecidableEq σ] (raw : RawDfa σ) (limits : CompileLimits) :
    Except CompileError (List (UInt8 → ℕ) × List Bool) := do
  let result ← Renumbering.loop raw limits (limits.maxDfaStates + 1) {
    rawToStable := (∅ : AList fun _ : σ => ℕ).insert raw.start 0
    queue := [raw.start]
    transitions := []
    accepting := [] }
  pure (result.transitions, result.accepting)

/-! ### What is reached -/

namespace RawDfa

variable {σ : Type} {raw : RawDfa σ} {s t : σ} {byte : UInt8} {w : List UInt8}

/-- Some word leads to the state. -/
def Reachable (raw : RawDfa σ) (s : σ) : Prop := ∃ w, raw.run raw.start w = some s

theorem run_snoc : raw.run s (w ++ [byte]) = (raw.run s w).bind fun t => raw.step t byte := by
  rw [run, List.foldlM_append]
  change ((raw.run s w).bind fun t => [byte].foldlM raw.step t) = _
  congr 1
  funext t
  change (raw.step t byte).bind some = _
  exact Option.bind_fun_some _

theorem Reachable.step (h : raw.Reachable s) (hstep : raw.step s byte = some t) :
    raw.Reachable t := by
  obtain ⟨w, hw⟩ := h
  refine ⟨w ++ [byte], ?_⟩
  rw [run_snoc, hw, Option.bind_some, hstep]

theorem Closed.mem_of_reachable {R : Finset σ} (hR : raw.Closed R) (h : raw.Reachable s) :
    s ∈ R := by
  obtain ⟨w, hw⟩ := h
  induction w using List.reverseRecOn generalizing s with
  | nil =>
    obtain rfl := Option.some.inj hw
    exact hR.start
  | append_singleton w byte ih =>
    rw [run_snoc] at hw
    obtain ⟨t, ht, hstep⟩ := Option.bind_eq_some_iff.1 hw
    exact hR.step t (ih ht) byte s hstep

theorem visits_snoc {P : List σ} :
    raw.visits (P ++ [s]) = raw.visits P ++ allBytes.filterMap (raw.step s) := by
  simp [visits, List.flatMap_append]

end RawDfa

/-! ### The books of the search -/

/-- A limit is exceeded, and not by a search that has room for every reachable state. -/
def Exceeds {σ : Type} (raw : RawDfa σ) (limits : CompileLimits) (e : CompileError) : Prop :=
  e.IsLimit ∧ ∀ R : Finset σ, raw.Closed R → ¬ (R.card ≤ limits.maxDfaStates ∧
    R.card * 1026 ≤ limits.maxDfaBytes ∧ R.card * 1026 ≤ usizeMax ∧ R.card ≤ u32Max + 1)

/-- The row of a state, in an order of the states. -/
structure IsRow {σ : Type} (raw : RawDfa σ) (order : List σ) (s : σ) (row : UInt8 → ℕ) : Prop where
  dead : ∀ byte, raw.step s byte = none → row byte = deadDfaState
  target : ∀ byte t, raw.step s byte = some t → order[row byte]? = some t

theorem IsRow.append {σ : Type} {raw : RawDfa σ} {order fresh : List σ} {s : σ} {row : UInt8 → ℕ}
    (h : IsRow raw order s row) : IsRow raw (order ++ fresh) s row := by
  refine ⟨h.dead, fun byte t hstep => ?_⟩
  have hold := h.target byte t hstep
  rw [List.getElem?_append_left (List.getElem?_eq_some_iff.1 hold).1]
  exact hold

namespace Renumbering

variable {σ : Type} [DecidableEq σ] {raw : RawDfa σ} {limits : CompileLimits}
  {self : Renumbering σ} {V P : List σ} {s : σ}

/-- The states are numbered in the order of their first visits. -/
structure Numbers (V : List σ) (r : Renumbering σ) : Prop where
  lookup : ∀ s i, r.rawToStable.lookup s = some i ↔ V.eraseDups[i]? = some s
  size : r.rawToStable.entries.length = V.eraseDups.length

theorem Numbers.seen (h : Numbers V self) {i : ℕ} (hs : self.rawToStable.lookup s = some i) :
    Numbers (V ++ [s]) self := by
  have hmem := List.mem_eraseDups.1 (List.mem_of_getElem? ((h.lookup s i).1 hs))
  have hsame : (V ++ [s]).eraseDups = V.eraseDups := by
    rw [eraseDups_snoc, if_pos hmem]
  exact ⟨hsame ▸ h.lookup, hsame ▸ h.size⟩

theorem Numbers.notMem (h : Numbers V self) (hs : self.rawToStable.lookup s = none) : s ∉ V := by
  intro hmem
  obtain ⟨i, hi⟩ := List.mem_iff_getElem?.1 (List.mem_eraseDups.2 hmem)
  rw [(h.lookup s i).2 hi] at hs
  cases hs

theorem Numbers.fresh (h : Numbers V self) (hs : self.rawToStable.lookup s = none) :
    Numbers (V ++ [s]) { self with
      rawToStable := self.rawToStable.insert s self.rawToStable.entries.length
      queue := self.queue ++ [s] } := by
  have hnot := h.notMem hs
  have hsnoc : (V ++ [s]).eraseDups = V.eraseDups ++ [s] := by
    rw [eraseDups_snoc, if_neg hnot]
  constructor
  · intro t i
    rw [hsnoc, getElem?_snoc]
    dsimp only
    by_cases ht : t = s
    · subst ht
      rw [AList.lookup_insert, h.size]
      constructor
      · intro hi
        exact .inr ⟨(Option.some.inj hi).symm, rfl⟩
      · rintro (hi | ⟨rfl, -⟩)
        · exact absurd (List.mem_eraseDups.1 (List.mem_of_getElem? hi)) hnot
        · rfl
    · rw [AList.lookup_insert_ne ht, h.lookup]
      constructor
      · exact Or.inl
      · rintro (hi | ⟨-, rfl⟩)
        · exact hi
        · exact absurd rfl ht
  · rw [hsnoc]
    dsimp only
    rw [AList.insert_of_notMem (AList.lookup_eq_none.1 hs), List.length_append, ← h.size]
    rfl

/-- The row of a state while its bytes are read. -/
structure Filling (raw : RawDfa σ) (order : List σ) (s : σ) (done : List UInt8) (row : UInt8 → ℕ) :
    Prop where
  untouched : ∀ byte ∉ done, row byte = deadDfaState
  dead : ∀ byte, raw.step s byte = none → row byte = deadDfaState
  target : ∀ byte ∈ done, ∀ t, raw.step s byte = some t → order[row byte]? = some t

theorem Filling.skip {done : List UInt8} {row : UInt8 → ℕ} {byte : UInt8}
    (h : Filling raw V.eraseDups s done row) (hstep : raw.step s byte = none) :
    Filling raw V.eraseDups s (done ++ [byte]) row := by
  refine ⟨fun b hb => h.untouched b fun hdone => hb (List.mem_append_left _ hdone), h.dead, ?_⟩
  intro b hb t ht
  rcases List.mem_append.1 hb with hb | hb
  · exact h.target b hb t ht
  · rw [List.mem_singleton.1 hb, hstep] at ht
    cases ht

theorem Filling.put {done : List UInt8} {row : UInt8 → ℕ} {byte : UInt8} {t : σ} {i : ℕ}
    (h : Filling raw V.eraseDups s done row) (hstep : raw.step s byte = some t)
    (hi : (V ++ [t]).eraseDups[i]? = some t) :
    Filling raw (V ++ [t]).eraseDups s (done ++ [byte]) (Function.update row byte i) := by
  refine ⟨fun b hb => ?_, fun b hb => ?_, fun b hb u hu => ?_⟩
  · obtain ⟨hdone, hbyte⟩ := not_or.1 (List.mem_append.not.1 hb)
    rw [Function.update_of_ne fun heq => hbyte (List.mem_singleton.2 heq)]
    exact h.untouched b hdone
  · have hne : b ≠ byte := by
      rintro rfl
      rw [hstep] at hb
      cases hb
    rw [Function.update_of_ne hne]
    exact h.dead b hb
  · by_cases hbyte : b = byte
    · subst hbyte
      obtain rfl := Option.some.inj (hstep.symm.trans hu)
      rw [Function.update_self]
      exact hi
    · rw [Function.update_of_ne hbyte]
      have hdone : b ∈ done := (List.mem_append.1 hb).resolve_right fun hb =>
        hbyte (List.mem_singleton.1 hb)
      have hold := h.target b hdone u hu
      rw [List.eraseDups_append]
      rw [List.getElem?_append_left (List.getElem?_eq_some_iff.1 hold).1]
      exact hold

/-- What a search that has visited `V` looks like after it has visited `V'`. -/
structure Extends (V V' : List σ) (r r' : Renumbering σ) : Prop where
  numbers : Numbers V' r'
  fresh : ∃ fresh, V'.eraseDups = V.eraseDups ++ fresh ∧ r'.queue = r.queue ++ fresh
  transitions : r'.transitions = r.transitions
  accepting : r'.accepting = r.accepting

theorem Extends.refl (h : Numbers V self) : Extends V V self self :=
  ⟨h, ⟨[], by simp⟩, rfl, rfl⟩

theorem Extends.trans {V' V'' : List σ} {r r' : Renumbering σ} (h : Extends V V' self r)
    (h' : Extends V' V'' r r') : Extends V V'' self r' := by
  obtain ⟨fresh, horder, hqueue⟩ := h.fresh
  obtain ⟨fresh', horder', hqueue'⟩ := h'.fresh
  refine ⟨h'.numbers, ⟨fresh ++ fresh', ?_, ?_⟩, h'.transitions.trans h.transitions,
    h'.accepting.trans h.accepting⟩
  · rw [horder', horder, List.append_assoc]
  · rw [hqueue', hqueue, List.append_assoc]

/-- There is room for the states that have been visited. -/
theorem length_le_of_reachable (hV : ∀ v ∈ V, raw.Reachable v) {R : Finset σ} (hR : raw.Closed R) :
    V.eraseDups.length ≤ R.card := by
  rw [← List.toFinset_card_of_nodup (nodup_eraseDups V)]
  refine Finset.card_le_card fun v hv => ?_
  exact hR.mem_of_reachable (hV v (List.mem_eraseDups.1 (List.mem_toFinset.1 hv)))

/-- One byte: its target is numbered, unless it has a number. -/
theorem visitByte_wp {done : List UInt8} {row : UInt8 → ℕ} {byte : UInt8} (h : Numbers V self)
    (hrow : Filling raw V.eraseDups s done row) (hV : ∀ v ∈ V, raw.Reachable v)
    (hs : raw.Reachable s) :
    Result.wp (Exceeds raw limits) (visitByte raw limits s (self, row) byte) fun state =>
      Extends V (V ++ (raw.step s byte).toList) self state.1 ∧
        Filling raw (V ++ (raw.step s byte).toList).eraseDups s (done ++ [byte]) state.2 := by
  unfold visitByte
  dsimp only
  split
  · next hdead =>
    have hstep : raw.step s byte = none := if_pos hdead
    rw [hstep, Result.wp_pure, Option.toList_none, List.append_nil]
    exact ⟨.refl h, hrow.skip hstep⟩
  · next hdead =>
    have hstep : raw.step s byte = some (raw.nextState s byte) := if_neg hdead
    rw [hstep, Option.toList_some]
    split
    · next stable hstable =>
      have hseen := h.seen hstable
      have hsame : (V ++ [raw.nextState s byte]).eraseDups = V.eraseDups := by
        rw [eraseDups_snoc, if_pos]
        exact List.mem_eraseDups.1 (List.mem_of_getElem? ((h.lookup _ _).1 hstable))
      refine ⟨⟨hseen, ⟨[], ?_, ?_⟩, rfl, rfl⟩, hrow.put hstep ((hseen.lookup _ _).1 hstable)⟩
      · rw [hsame, List.append_nil]
      · rw [List.append_nil]
    · next hnone =>
      have hfresh := h.fresh hnone
      have hsnoc : (V ++ [raw.nextState s byte]).eraseDups = V.eraseDups ++
          [raw.nextState s byte] := by
        rw [eraseDups_snoc, if_neg (h.notMem hnone)]
      -- a search that fails here has met more states than there is room for
      have hroom : ∀ R : Finset σ, raw.Closed R → self.rawToStable.entries.length + 1 ≤ R.card := by
        intro R hR
        have hV' : ∀ v ∈ V ++ [raw.nextState s byte], raw.Reachable v := by
          intro v hv
          rcases List.mem_append.1 hv with hv | hv
          · exact hV v hv
          · exact List.mem_singleton.1 hv ▸ hs.step hstep
        have hle := length_le_of_reachable hV' hR
        rw [hsnoc, List.length_append, List.length_singleton, ← h.size] at hle
        exact hle
      simp only [enforceCompileLimit, Result.wp_bind, Result.wp_require, Result.wp_pure]
      refine ⟨fun _ => ⟨fun _ => ⟨⟨hfresh, ⟨[raw.nextState s byte], hsnoc, rfl⟩, rfl, rfl⟩, ?_⟩,
        fun hmax => ⟨trivial, fun R hR hfits => ?_⟩⟩, fun hmax => ⟨trivial, fun R hR hfits => ?_⟩⟩
      · refine hrow.put hstep ?_
        rw [hsnoc, h.size]
        exact List.getElem?_concat_length
      · have := hroom R hR
        omega
      · have := hroom R hR
        omega

/-- The states `P` have rows; the queue holds what else has been visited, in the
order of the numbers. -/
structure Holds (raw : RawDfa σ) (P : List σ) (r : Renumbering σ) : Prop where
  numbers : Numbers (raw.visits P) r
  order : (raw.visits P).eraseDups = P ++ r.queue
  transitions : r.transitions.length = P.length
  row : ∀ (i : ℕ) (s : σ), P[i]? = some s →
    ∃ row, r.transitions[i]? = some row ∧ IsRow raw (raw.visits P).eraseDups s row
  accepting : r.accepting = P.map raw.isAccepting
  reachable : ∀ v ∈ raw.visits P, raw.Reachable v

/-- The row of the next state: its bytes are read in ascending order. -/
theorem visitBytes_wp (h : Numbers V self) (hV : ∀ v ∈ V, raw.Reachable v)
    (hs : raw.Reachable s) :
    Result.wp (Exceeds raw limits)
      (allBytes.foldlM (visitByte raw limits s) (self, fun _ => deadDfaState)) fun state =>
      Extends V (V ++ allBytes.filterMap (raw.step s)) self state.1 ∧
        IsRow raw (V ++ allBytes.filterMap (raw.step s)).eraseDups s state.2 := by
  have hloop := Result.wp_foldlM (E := Exceeds raw limits) (f := visitByte raw limits s)
    (I := fun done _ state =>
      Extends V (V ++ done.filterMap (raw.step s)) self state.1 ∧
        Filling raw (V ++ done.filterMap (raw.step s)).eraseDups s done state.2)
    (fun done byte rest state hI => ?_) [] allBytes (self, fun _ => deadDfaState) ⟨?_, ?_⟩
  · refine Result.wp_mono hloop fun state hstate => ⟨hstate.1, hstate.2.dead, ?_⟩
    intro byte t hstep
    exact hstate.2.target byte (mem_allBytes byte) t hstep
  · obtain ⟨hext, hfill⟩ := hI
    have hreach : ∀ v ∈ V ++ done.filterMap (raw.step s), raw.Reachable v := by
      intro v hv
      rcases List.mem_append.1 hv with hv | hv
      · exact hV v hv
      · obtain ⟨b, -, hb⟩ := List.mem_filterMap.1 hv
        exact hs.step hb
    have happend : V ++ (done ++ [byte]).filterMap (raw.step s) =
        V ++ done.filterMap (raw.step s) ++ (raw.step s byte).toList := by
      rw [List.filterMap_append, List.append_assoc]
      cases hstep : raw.step s byte <;> simp [hstep]
    refine Result.wp_mono (visitByte_wp hext.numbers hfill hreach hs) fun state' hstate' => ?_
    rw [happend]
    exact ⟨hext.trans hstate'.1, hstate'.2⟩
  · rw [List.filterMap_nil, List.append_nil]
    exact .refl h
  · exact ⟨fun _ _ => rfl, fun _ _ => rfl, fun _ hb => absurd hb List.not_mem_nil⟩

/-- **A state is processed when its number is the next one.** -/
theorem process_wp {queue : List σ} (h : Holds raw P self) (hqueue : self.queue = s :: queue) :
    Result.wp (Exceeds raw limits) (process raw limits s { self with queue := queue }) fun r =>
      Holds raw (P ++ [s]) r ∧ P.length + 1 ≤ limits.maxDfaStates := by
  have horder := h.order
  rw [hqueue] at horder
  have hnumber : self.rawToStable.lookup s = some P.length := by
    rw [h.numbers.lookup, horder, List.getElem?_append_right le_rfl, Nat.sub_self]
    rfl
  have hmem : s ∈ raw.visits P :=
    List.mem_eraseDups.1 (List.mem_of_getElem? ((h.numbers.lookup _ _).1 hnumber))
  have hs := h.reachable s hmem
  -- the states that were popped are distinct and reachable, so any closed set has room for one more
  have hroom : ∀ R : Finset σ, raw.Closed R → P.length + 1 ≤ R.card := by
    intro R hR
    have hle := length_le_of_reachable h.reachable hR
    rw [horder, List.length_append, List.length_cons] at hle
    omega
  unfold process ensureDfaCapacity minimumDfaBytes enforceCompileLimit
  simp only [hnumber, Result.wp_bind, Result.wp_unwrap_some, Result.wp_require, Result.wp_pure,
    h.transitions]
  refine ⟨fun _ => ⟨fun hstates => ⟨fun _ => ⟨fun _ => ?_,
    fun hbytes => ⟨trivial, fun R hR hfits => ?_⟩⟩,
    fun hbytes => ⟨trivial, fun R hR hfits => ?_⟩⟩, fun hstates => ⟨trivial, fun R hR hfits => ?_⟩⟩,
    fun hne => absurd trivial hne⟩
  · have hself : Numbers (raw.visits P) ({ self with queue := queue } : Renumbering σ) :=
      ⟨h.numbers.lookup, h.numbers.size⟩
    refine Result.wp_mono (visitBytes_wp hself h.reachable hs) fun state hstate => ?_
    obtain ⟨⟨hnumbers, ⟨fresh, hfresh, hqueue'⟩, htransitions, haccepting⟩, hrow⟩ := hstate
    rw [← RawDfa.visits_snoc] at hnumbers hfresh hrow
    refine ⟨⟨⟨hnumbers.lookup, hnumbers.size⟩, ?_, ?_, ?_, ?_, ?_⟩, hstates⟩
    · dsimp only
      rw [hfresh, hqueue', horder]
      simp
    · dsimp only
      rw [List.length_append, List.length_append, htransitions]
      exact congrArg (· + 1) h.transitions
    · intro i t hi
      dsimp only
      rw [htransitions]
      rcases getElem?_snoc.1 hi with hi | ⟨rfl, rfl⟩
      · obtain ⟨row, hget, hold⟩ := h.row i t hi
        refine ⟨row, getElem?_snoc.2 (.inl hget), ?_⟩
        rw [hfresh]
        exact hold.append
      · exact ⟨state.2, getElem?_snoc.2 (.inr ⟨h.transitions.symm, rfl⟩), hrow⟩
    · dsimp only
      rw [haccepting, List.map_append]
      exact congrArg (· ++ [raw.isAccepting s]) h.accepting
    · rw [RawDfa.visits_snoc]
      intro v hv
      rcases List.mem_append.1 hv with hv | hv
      · exact h.reachable v hv
      · obtain ⟨b, -, hb⟩ := List.mem_filterMap.1 hv
        exact hs.step hb
  -- each limit that is exceeded is one that the reachable states exceed as well
  all_goals
    have hle := hroom R hR
    have hmul := Nat.mul_le_mul_right 1026 hle
    omega

theorem loop_wp {fuel : ℕ} (h : Holds raw P self)
    (hfuel : limits.maxDfaStates + 1 ≤ fuel + P.length) (hle : P.length ≤ limits.maxDfaStates) :
    Result.wp (Exceeds raw limits) (loop raw limits fuel self) fun r =>
      ∃ P, Holds raw P r ∧ r.queue = [] := by
  induction fuel generalizing P self with
  | zero => omega
  | succ fuel ih =>
    unfold loop
    split
    · next hqueue => exact ⟨P, h, hqueue⟩
    · next current queue hqueue =>
      rw [Result.wp_bind]
      refine Result.wp_mono (process_wp h hqueue) fun r hr => ?_
      refine ih hr.1 ?_ ?_
      · rw [List.length_append, List.length_singleton]
        omega
      · rw [List.length_append, List.length_singleton]
        exact hr.2

theorem holds_start : Holds raw [] {
    rawToStable := (∅ : AList fun _ : σ => ℕ).insert raw.start 0
    queue := [raw.start]
    transitions := []
    accepting := [] } := by
  have hvisits : (raw.visits []).eraseDups = [raw.start] := by
    simp [RawDfa.visits, List.eraseDups_cons]
  refine ⟨⟨fun s i => ?_, ?_⟩, hvisits, rfl, fun i s hi => ?_, rfl, fun v hv => ?_⟩
  · rw [hvisits]
    by_cases hs : s = raw.start
    · subst hs
      rw [AList.lookup_insert]
      cases i <;> simp
    · rw [AList.lookup_insert_ne hs]
      cases i <;> simp [Ne.symm hs]
  · rw [hvisits]
    rfl
  · cases hi
  · obtain rfl := List.mem_singleton.1 hv
    exact ⟨[], rfl⟩

end Renumbering

/-! ### The table -/

/-- The table of an automaton whose states are numbered in the given order. -/
structure IsTable {σ : Type} [DecidableEq σ] (raw : RawDfa σ) (order : List σ)
    (dfa : CompiledByteDfa) :
    Prop where
  firstVisits : order = (raw.visits order).eraseDups
  transitions : dfa.transitions.length = order.length
  row : ∀ (i : ℕ) (s : σ), order[i]? = some s →
    ∃ row, dfa.transitions[i]? = some row ∧ IsRow raw order s row
  accepting : dfa.accepting = order.map raw.isAccepting
  reachable : ∀ s ∈ order, raw.Reachable s

/-- The state after a word. -/
def CompiledByteDfa.run (dfa : CompiledByteDfa) (w : List UInt8) : ℕ :=
  w.foldl dfa.nextState CompiledByteDfa.startState

theorem CompiledByteDfa.run_snoc {dfa : CompiledByteDfa} {w : List UInt8} {byte : UInt8} :
    dfa.run (w ++ [byte]) = dfa.nextState (dfa.run w) byte :=
  List.foldl_append

variable {σ : Type} [DecidableEq σ] {raw : RawDfa σ} {limits : CompileLimits} {order : List σ}
  {dfa : CompiledByteDfa} {s t : σ} {w : List UInt8} {i : ℕ} {byte : UInt8}

theorem renumber_wp : Result.wp (Exceeds raw limits) (renumber raw limits) fun table =>
    ∀ dfa : CompiledByteDfa, dfa.transitions = table.1 → dfa.accepting = table.2 →
      ∃ order, IsTable raw order dfa := by
  unfold renumber
  rw [Result.wp_bind]
  refine Result.wp_mono (Renumbering.loop_wp Renumbering.holds_start (by simp) (Nat.zero_le _)) ?_
  rintro r ⟨P, h, hqueue⟩ dfa htransitions haccepting
  have horder := h.order
  rw [hqueue, List.append_nil] at horder
  refine ⟨P, horder.symm, ?_, ?_, ?_, ?_⟩
  · rw [htransitions]
    exact h.transitions
  · intro i s hi
    have hrow := h.row i s hi
    rw [horder] at hrow
    rw [htransitions]
    exact hrow
  · rw [haccepting]
    exact h.accepting
  · intro s hs
    refine h.reachable s ?_
    rw [← List.mem_eraseDups, horder]
    exact hs

namespace IsTable

theorem getElem?_zero (h : IsTable raw order dfa) : order[0]? = some raw.start := by
  rw [h.firstVisits, RawDfa.visits, List.eraseDups_cons]
  rfl

theorem nodup (h : IsTable raw order dfa) : order.Nodup := by
  rw [h.firstVisits]
  exact nodup_eraseDups _

theorem nextState_of_step (h : IsTable raw order dfa) (hi : order[i]? = some s)
    (hstep : raw.step s byte = some t) : order[dfa.nextState i byte]? = some t := by
  obtain ⟨row, hget, hrow⟩ := h.row i s hi
  rw [CompiledByteDfa.nextState, hget]
  exact hrow.target byte t hstep

theorem nextState_of_dead (h : IsTable raw order dfa) (hi : order[i]? = some s)
    (hstep : raw.step s byte = none) : dfa.nextState i byte = deadDfaState := by
  obtain ⟨row, hget, hrow⟩ := h.row i s hi
  rw [CompiledByteDfa.nextState, hget]
  exact hrow.dead byte hstep

/-- As long as no dead and no quit state is met, the table is in the state that
the automaton is in. -/
theorem run_of_some (h : IsTable raw order dfa) (hrun : raw.run raw.start w = some s) :
    order[dfa.run w]? = some s := by
  induction w using List.reverseRecOn generalizing s with
  | nil =>
    obtain rfl := Option.some.inj hrun
    exact h.getElem?_zero
  | append_singleton w byte ih =>
    rw [RawDfa.run_snoc] at hrun
    obtain ⟨t, ht, hstep⟩ := Option.bind_eq_some_iff.1 hrun
    rw [CompiledByteDfa.run_snoc]
    exact h.nextState_of_step (ih ht) hstep

theorem mem_order_iff (h : IsTable raw order dfa) : s ∈ order ↔ raw.Reachable s := by
  constructor
  · exact h.reachable s
  · rintro ⟨w, hw⟩
    exact List.mem_of_getElem? (h.run_of_some hw)

theorem run_of_none (h : IsTable raw order dfa) (hlen : order.length ≤ u32Max)
    (hrun : raw.run raw.start w = none) : dfa.run w = deadDfaState := by
  induction w using List.reverseRecOn with
  | nil => cases hrun
  | append_singleton w byte ih =>
    rw [RawDfa.run_snoc] at hrun
    rw [CompiledByteDfa.run_snoc]
    cases hw : raw.run raw.start w with
    | none =>
      have hdead : dfa.transitions[deadDfaState]? = none :=
        List.getElem?_eq_none (h.transitions ▸ hlen)
      rw [ih hw, CompiledByteDfa.nextState, hdead]
    | some s =>
      rw [hw, Option.bind_some] at hrun
      exact h.nextState_of_dead (h.run_of_some hw) hrun

theorem isAccepting_eq (h : IsTable raw order dfa) (hi : order[i]? = some s) :
    dfa.isAccepting i = raw.isAccepting s := by
  rw [CompiledByteDfa.isAccepting, h.accepting, List.getElem?_map, hi]
  rfl

theorem isDead_eq_false (h : IsTable raw order dfa) (hlen : order.length ≤ u32Max)
    (hi : order[i]? = some s) : dfa.isDead i = false := by
  have hlt := (List.getElem?_eq_some_iff.1 hi).1
  rw [CompiledByteDfa.isDead, h.transitions, Bool.or_eq_false_iff]
  constructor
  · rw [beq_eq_false_iff_ne]
    exact (hlt.trans_le hlen).ne
  · exact decide_eq_false (Nat.not_le.2 hlt)

theorem acceptsFrom_eq (h : IsTable raw order dfa) (hlen : order.length ≤ u32Max)
    (hi : order[i]? = some s) : dfa.acceptsFrom i w = (raw.run s w).any raw.isAccepting := by
  induction w generalizing i s with
  | nil => exact h.isAccepting_eq hi
  | cons byte w ih =>
    have hcons : raw.run s (byte :: w) = (raw.step s byte).bind fun t => raw.run t w := rfl
    rw [CompiledByteDfa.acceptsFrom, hcons]
    cases hstep : raw.step s byte with
    | none =>
      rw [h.nextState_of_dead hi hstep]
      rfl
    | some t =>
      have hnext := h.nextState_of_step hi hstep
      rw [h.isDead_eq_false hlen hnext]
      exact ih hnext

theorem length_le (h : IsTable raw order dfa) {R : Finset σ} (hR : raw.Closed R) :
    order.length ≤ R.card := by
  rw [← List.toFinset_card_of_nodup h.nodup]
  exact Finset.card_le_card fun s hs => hR.mem_of_reachable (h.reachable s (List.mem_toFinset.1 hs))

/-- Every target is a state or the dead state. -/
theorem target_lt (h : IsTable raw order dfa) {row : UInt8 → ℕ} (hrow : row ∈ dfa.transitions)
    (byte : UInt8) : row byte < dfa.stateCount ∨ row byte = deadDfaState := by
  obtain ⟨i, hi, hget⟩ := List.getElem_of_mem hrow
  have hlt : i < order.length := h.transitions ▸ hi
  obtain ⟨row', hget', hrow'⟩ := h.row i order[i] (List.getElem?_eq_getElem hlt)
  rw [List.getElem?_eq_getElem hi, hget] at hget'
  obtain rfl := Option.some.inj hget'
  cases hstep : raw.step order[i] byte with
  | none => exact .inr (hrow'.dead byte hstep)
  | some t =>
    left
    rw [CompiledByteDfa.stateCount, h.transitions]
    exact (List.getElem?_eq_some_iff.1 (hrow'.target byte t hstep)).1

end IsTable

/-- **The renumbered table is the automaton.**  With at most `2 ^ 32 - 1` reachable states, so that
none of them gets the number of the dead state, the search fails only where a limit is exceeded, and
its table has the reachable states in the order of their first visits and runs
as the automaton does. -/
theorem renumber_isomorphism (raw : RawDfa σ) (limits : CompileLimits) (R : Finset σ)
    (hR : raw.Closed R) (hcard : R.card ≤ u32Max) :
    (∀ e, renumber raw limits = .error e → e.IsLimit ∧ ¬ (R.card ≤ limits.maxDfaStates ∧
      R.card * 1026 ≤ limits.maxDfaBytes)) ∧
    ∀ table, renumber raw limits = .ok table →
      ∀ dfa : CompiledByteDfa, dfa.transitions = table.1 → dfa.accepting = table.2 →
        (∀ row ∈ dfa.transitions, ∀ byte, row byte < dfa.stateCount ∨ row byte = deadDfaState) ∧
        (∃ order : List σ, order = (raw.visits order).eraseDups ∧ dfa.stateCount = order.length ∧
          order[CompiledByteDfa.startState]? = some raw.start ∧
          (∀ s, s ∈ order ↔ raw.Reachable s) ∧
          ∀ w, (dfa.run w = deadDfaState ↔ raw.run raw.start w = none) ∧
            ∀ s, raw.run raw.start w = some s → order[dfa.run w]? = some s ∧
              dfa.isAccepting (dfa.run w) = raw.isAccepting s) ∧
        ∀ w, dfa.accepts w = raw.accepts w := by
  have hmax : u32Max * 1026 ≤ usizeMax := by decide
  have husize : R.card * 1026 ≤ usizeMax := (Nat.mul_le_mul_right 1026 hcard).trans hmax
  refine ⟨fun e he => ?_, fun table htable dfa htransitions haccepting => ?_⟩
  · have hexceeds := Result.wp_error renumber_wp he
    exact ⟨hexceeds.1, fun hfits =>
      hexceeds.2 R hR ⟨hfits.1, hfits.2, husize, Nat.le_succ_of_le hcard⟩⟩
  · have hwp := Result.wp_ok renumber_wp htable
    obtain ⟨order, h⟩ := hwp dfa htransitions haccepting
    have hlen := (h.length_le hR).trans hcard
    have hdead : order[deadDfaState]? = none := List.getElem?_eq_none hlen
    refine ⟨fun row hrow byte => h.target_lt hrow byte, ⟨order, h.firstVisits, h.transitions,
      h.getElem?_zero, fun s => h.mem_order_iff, fun w => ⟨?_, fun s hs => ?_⟩⟩, fun w => ?_⟩
    · constructor
      · intro hrun
        cases hraw : raw.run raw.start w with
        | none => rfl
        | some s =>
          have hs := h.run_of_some hraw
          rw [hrun, hdead] at hs
          cases hs
      · exact h.run_of_none hlen
    · have hget := h.run_of_some hs
      exact ⟨hget, h.isAccepting_eq hget⟩
    · exact h.acceptsFrom_eq hlen h.getElem?_zero

/-! ### Too many states -/

/-- The automaton that counts the bytes up to `n`. -/
def countingDfa (n : ℕ) : RawDfa ℕ where
  start := 0
  nextState := fun s _ => if s < n then s + 1 else s
  isDeadState := fun _ => false
  isQuitState := fun _ => false
  isMatchState := fun _ => true
  nextEoiState := id

theorem countingDfa_step {n s : ℕ} {byte : UInt8} :
    (countingDfa n).step s byte = some (if s < n then s + 1 else s) := rfl

theorem countingDfa_closed (n : ℕ) : (countingDfa n).Closed (Finset.range (n + 1)) := by
  refine ⟨Finset.mem_range.2 (Nat.succ_pos n), fun s hs byte t hstep => ?_⟩
  rw [countingDfa_step] at hstep
  obtain rfl := Option.some.inj hstep
  rw [Finset.mem_range] at hs ⊢
  split <;> omega

theorem countingDfa_reachable {n s : ℕ} (hs : s ≤ n) : (countingDfa n).Reachable s := by
  induction s with
  | zero => exact ⟨[], rfl⟩
  | succ s ih =>
    have hstep : (countingDfa n).step s 0 = some (s + 1) := by
      rw [countingDfa_step, if_pos (by omega)]
    exact (ih (by omega)).step hstep

/-- The table of the automaton that tells the empty word from the others. -/
theorem renumber_isomorphism_countingDfa_one :
    ∃ table, renumber (countingDfa 1) CompileLimits.default = .ok table ∧
      ∀ dfa : CompiledByteDfa, dfa.transitions = table.1 → dfa.accepting = table.2 →
        ∀ w, dfa.accepts w = (countingDfa 1).accepts w := by
  have hfits := renumber_isomorphism (countingDfa 1) CompileLimits.default (Finset.range 2)
    (countingDfa_closed 1) (by decide)
  cases htable : renumber (countingDfa 1) CompileLimits.default with
  | error e => exact absurd (by decide) (hfits.1 e htable).2
  | ok table =>
    refine ⟨table, rfl, fun dfa htransitions haccepting => ?_⟩
    exact (hfits.2 table htable dfa htransitions haccepting).2.2

/-- With room for them, all its states are numbered, and some word leads to the last number. -/
theorem renumber_countingDfa {n : ℕ} (hn : n + 1 ≤ u32Max + 1)
    (hstates : n + 1 ≤ limits.maxDfaStates)
    (hbytes : (n + 1) * 1026 ≤ limits.maxDfaBytes) (husize : (n + 1) * 1026 ≤ usizeMax) :
    ∃ table, renumber (countingDfa n) limits = .ok table ∧
      ∀ dfa : CompiledByteDfa, dfa.transitions = table.1 → dfa.accepting = table.2 →
        ∃ w, dfa.run w = n ∧ ((countingDfa n).run 0 w).isSome = true := by
  have hclosed := countingDfa_closed n
  have hwp : Result.wp (Exceeds (countingDfa n) limits) (renumber (countingDfa n) limits) _ :=
    renumber_wp
  cases htable : renumber (countingDfa n) limits with
  | error e =>
    have hexceeds := Result.wp_error hwp htable
    refine absurd ?_ (hexceeds.2 _ hclosed)
    rw [Finset.card_range]
    exact ⟨hstates, hbytes, husize, hn⟩
  | ok table =>
    refine ⟨table, rfl, fun dfa htransitions haccepting => ?_⟩
    have hok := Result.wp_ok hwp htable
    obtain ⟨order, h⟩ := hok dfa htransitions haccepting
    -- the numbers are handed out up to the last one
    have hlen : order.length = n + 1 := by
      rw [← List.toFinset_card_of_nodup h.nodup, ← Finset.card_range (n + 1)]
      congr 1
      ext s
      rw [List.mem_toFinset, h.mem_order_iff]
      constructor
      · exact hclosed.mem_of_reachable
      · intro hs
        exact countingDfa_reachable (Nat.lt_succ_iff.1 (Finset.mem_range.1 hs))
    have hlast : n < order.length := by omega
    obtain ⟨w, hw⟩ := h.reachable _ (List.getElem_mem hlast)
    refine ⟨w, ?_, ?_⟩
    · obtain ⟨hlt, heq⟩ := List.getElem?_eq_some_iff.1 (h.run_of_some hw)
      exact (List.Nodup.getElem_inj_iff h.nodup).1 heq
    · have hrun : (countingDfa n).run 0 w = some order[n] := hw
      rw [hrun]
      rfl

/-- Limits with room for `2 ^ 32` states. -/
def hugeLimits : CompileLimits :=
  { CompileLimits.default with maxDfaStates := u32Max + 1, maxDfaBytes := (u32Max + 1) * 1026 }

/-- **Of `2 ^ 32` states one gets the number of the dead state.**  The table is returned, and some
word leads to the dead state though the automaton meets no dead and no quit state. -/
theorem renumber_dead_number : ∃ table, renumber (countingDfa u32Max) hugeLimits = .ok table ∧
    ∀ dfa : CompiledByteDfa, dfa.transitions = table.1 → dfa.accepting = table.2 →
      ∃ w, dfa.run w = deadDfaState ∧ ((countingDfa u32Max).run 0 w).isSome = true :=
  renumber_countingDfa (Nat.le_refl (u32Max + 1)) (Nat.le_refl (u32Max + 1))
    (Nat.le_refl ((u32Max + 1) * 1026)) (by decide)

end OcEarley
