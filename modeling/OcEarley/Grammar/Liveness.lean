import Mathlib.Data.Bool.Count
import OcEarley.Formal.Buckets
import OcEarley.Grammar.Renumber

/-!
# Live states

`computeLiveness` says from which states of a table an accepting state can still be reached.  The
predecessors of every state are laid out in one vector in two passes over the table, one that counts
and one that fills; a search from the accepting states then follows them backwards.

* `fill_wp` : both passes meet the same pairs of a source and a target, so that the slots are those
  of `Buckets`;
* `traverse_wp` : the search marks what is closed under predecessors, and nothing else;
* `computeLiveness_exact` : a state is live exactly when some word leads from it to an accepting
  one.
-/

namespace OcEarley

/-- The capacities of the vectors that count for the byte budget. -/
structure LivenessCapacities where
  transitions : ℕ
  accepting : ℕ
  predecessorCounts : ℕ

/-- The body of both loops over the sorted targets of a row. -/
def visitTarget {ε β : Type} (body : β → ℕ → Except ε β) (state : ℕ × β) (target : ℕ) :
    Except ε (ℕ × β) :=
  if target = deadDfaState ∨ target = state.1 then pure state
  else do
    let next ← body state.2 target
    pure (target, next)

/-- The loop over the sorted targets of a row, `previous` being the dead state at first. -/
def forEachTarget {ε β : Type} (body : β → ℕ → Except ε β) (row : UInt8 → ℕ) (state : β) :
    Except ε β := do
  let state ← (sortByKey (fun target : ℕ => target) (allBytes.map row)).foldlM (visitTarget body)
    (deadDfaState, state)
  pure state.2

/-- An error of a budget of bytes that has no room for any size. -/
def byteOverflow (limits : CompileLimits) : CompileError :=
  .resourceLimitExceeded .dfaDeterminization usizeMax limits.maxDfaBytes

/-- What the first pass counts. -/
structure PredecessorCounts where
  counts : List ℕ
  edgeCount : ℕ

/-- A transition is counted at its target. -/
def countTarget (limits : CompileLimits) (self : PredecessorCounts) (target : ℕ) :
    Except CompileError PredecessorCounts := do
  let count ← Result.unwrap self.counts[target]?
    (.internalInvariant "DFA transition target is out of range")
  Result.require (count + 1 ≤ usizeMax) (byteOverflow limits)
  Result.require (self.edgeCount + 1 ≤ usizeMax) (byteOverflow limits)
  pure { counts := self.counts.set target (count + 1), edgeCount := self.edgeCount + 1 }

/-- What the second pass fills. -/
structure PredecessorSlots where
  counts : List ℕ
  predecessors : List ℕ

/-- The source of a transition is put into the next free slot of its target. -/
def fillTarget (offsets : List ℕ) (source : ℕ) (self : PredecessorSlots) (target : ℕ) :
    Except CompileError PredecessorSlots := do
  let offset ← vecGet offsets target
  let count ← vecGet self.counts target
  Result.require (offset + count ≤ usizeMax)
    (.internalInvariant "DFA predecessor cursor overflowed")
  let predecessors ← vecSet self.predecessors (offset + count) source
  Result.require (count + 1 ≤ usizeMax) (.internalInvariant "DFA predecessor cursor overflowed")
  let counts ← vecSet self.counts target (count + 1)
  pure { counts := counts, predecessors := predecessors }

/-- `&v[start..stop]`; a range out of bounds panics. -/
def vecSlice {α : Type} (v : List α) (start stop : ℕ) : Except CompileError (List α) := do
  Result.require (start ≤ stop ∧ stop ≤ v.length) .panicked
  pure ((v.take stop).drop start)

/-- The flags, and the stack with its top first. -/
structure LivenessSearch where
  live : List Bool
  stack : List ℕ

/-- A source is live, and has to be visited unless it was live already. -/
def markSource (self : LivenessSearch) (source : ℕ) : Except CompileError LivenessSearch := do
  let live ← vecGet self.live source
  if live then pure self
  else do
    let live ← vecSet self.live source true
    pure { live := live, stack := source :: self.stack }

/-- The sources of the transitions into a live state are marked, state after state. -/
def traverse (offsets predecessors : List ℕ) :
    ℕ → LivenessSearch → Except CompileError (List Bool)
  | 0, _ => throw .diverged
  | fuel + 1, self =>
    match self.stack with
    | [] => pure self.live
    | target :: stack => do
      let start ← vecGet offsets target
      let stop ← vecGet offsets (target + 1)
      let sources ← vecSlice predecessors start stop
      let self ← sources.foldlM markSource { self with stack := stack }
      traverse offsets predecessors fuel self

/-- The bytes of what is kept and of what is needed for a while. -/
def livenessBytes (capacities : LivenessCapacities) (stateCount edgeCount : ℕ) : ℕ :=
  capacities.transitions * 1024 + capacities.accepting + stateCount +
    (capacities.predecessorCounts * 8 + (stateCount + 1) * 8 + edgeCount * 4 + stateCount * 5)

/-- Reserving memory is taken to succeed.  A checked sum overflows exactly when
the whole sum does. -/
def computeLiveness (transitions : List (UInt8 → ℕ)) (accepting : List Bool)
    (limits : CompileLimits)
    (capacities : LivenessCapacities) : Except CompileError (List Bool) := do
  Result.require (transitions.length = accepting.length)
    (.internalInvariant "DFA state and acceptance tables have different lengths")
  let stateCount := transitions.length
  let counted ← transitions.foldlM (fun self row => forEachTarget (countTarget limits) row self)
    ({ counts := List.replicate stateCount 0, edgeCount := 0 } : PredecessorCounts)
  Result.require (stateCount + 1 ≤ usizeMax) (byteOverflow limits)
  Result.require (capacities.transitions * 1024 + capacities.accepting + stateCount ≤ usizeMax)
    (byteOverflow limits)
  let temporaryBytes := livenessBytes capacities stateCount counted.edgeCount
  Result.require (temporaryBytes ≤ usizeMax) (byteOverflow limits)
  enforceCompileLimit .dfaDeterminization temporaryBytes limits.maxDfaBytes
  let offsets ← counted.counts.foldlM (fun (offsets : List ℕ) count => do
    let last ← Result.unwrap offsets.getLast? (byteOverflow limits)
    Result.require (last + count ≤ usizeMax) (byteOverflow limits)
    pure (offsets ++ [last + count])) [0]
  let filled ← transitions.zipIdx.foldlM (fun self entry => do
      let source ← toU32 entry.2 .dfaDeterminization
      forEachTarget (fillTarget offsets source) entry.1 self)
    ({ counts := List.replicate stateCount 0
       predecessors := List.replicate counted.edgeCount 0 } : PredecessorSlots)
  let stack ← accepting.zipIdx.foldlM (fun (stack : List ℕ) entry =>
    if entry.1 then do
      let state ← toU32 entry.2 .dfaDeterminization
      pure (state :: stack)
    else pure stack) []
  traverse offsets filled.predecessors (stateCount + 1) { live := accepting, stack := stack }

/-! ### The targets of a row -/

/-- The targets that are not skipped. -/
def keptTargets (previous : ℕ) : List ℕ → List ℕ
  | [] => []
  | target :: l =>
    if target = deadDfaState ∨ target = previous then keptTargets previous l
    else target :: keptTargets target l

theorem foldlM_visitTarget {ε β : Type} {body : β → ℕ → Except ε β} (l : List ℕ) (previous : ℕ)
    (state : β) :
    (do
      let state ← l.foldlM (visitTarget body) (previous, state)
      pure state.2) = (keptTargets previous l).foldlM body state := by
  induction l generalizing previous state with
  | nil => rfl
  | cons target l ih =>
    rw [List.foldlM_cons, keptTargets, visitTarget]
    by_cases h : target = deadDfaState ∨ target = previous
    · rw [if_pos h, if_pos h]
      exact ih previous state
    · rw [if_neg h, if_neg h, List.foldlM_cons]
      cases body state target with
      | error e => rfl
      | ok next => exact ih target next

/-- The targets of a row that count, in ascending order. -/
@[irreducible] def rowTargets (row : UInt8 → ℕ) : List ℕ :=
  keptTargets deadDfaState (sortByKey (fun target : ℕ => target) (allBytes.map row))

theorem forEachTarget_eq {ε β : Type} {body : β → ℕ → Except ε β} {row : UInt8 → ℕ} {state : β} :
    forEachTarget body row state = (rowTargets row).foldlM body state := by
  unfold rowTargets
  exact foldlM_visitTarget _ _ _

theorem mem_keptTargets {t previous : ℕ} {l : List ℕ} :
    (t ∈ keptTargets previous l → t ∈ l ∧ t ≠ deadDfaState) ∧
      (t ∈ l → t ≠ deadDfaState → t ∈ keptTargets previous l ∨ t = previous) := by
  induction l generalizing previous with
  | nil => exact ⟨fun h => absurd h List.not_mem_nil, fun h => absurd h List.not_mem_nil⟩
  | cons target l ih =>
    rw [keptTargets]
    split
    · next hskip =>
      refine ⟨fun h => ⟨List.mem_cons_of_mem _ (ih.1 h).1, (ih.1 h).2⟩, fun h hdead => ?_⟩
      rcases List.mem_cons.1 h with rfl | h
      · exact .inr (hskip.resolve_left hdead)
      · exact ih.2 h hdead
    · next hkeep =>
      refine ⟨fun h => ?_, fun h hdead => ?_⟩
      · rcases List.mem_cons.1 h with rfl | h
        · exact ⟨List.mem_cons_self, fun hdead => hkeep (.inl hdead)⟩
        · exact ⟨List.mem_cons_of_mem _ (ih.1 h).1, (ih.1 h).2⟩
      · rcases List.mem_cons.1 h with rfl | h
        · exact .inl List.mem_cons_self
        · rcases (@ih target).2 h hdead with h | rfl
          · exact .inl (List.mem_cons_of_mem _ h)
          · exact .inl List.mem_cons_self

theorem mem_rowTargets {t : ℕ} {row : UInt8 → ℕ} :
    t ∈ rowTargets row ↔ t ≠ deadDfaState ∧ ∃ byte, row byte = t := by
  have hmem : t ∈ sortByKey (fun target : ℕ => target) (allBytes.map row) ↔ ∃ byte,
      row byte = t := by
    rw [mem_sortByKey, List.mem_map]
    constructor
    · rintro ⟨byte, -, rfl⟩
      exact ⟨byte, rfl⟩
    · rintro ⟨byte, rfl⟩
      exact ⟨byte, mem_allBytes byte, rfl⟩
  unfold rowTargets
  constructor
  · intro h
    obtain ⟨hl, hdead⟩ := mem_keptTargets.1 h
    exact ⟨hdead, hmem.1 hl⟩
  · rintro ⟨hdead, hrow⟩
    exact (mem_keptTargets.2 (hmem.2 hrow) hdead).resolve_right hdead

/-- The pairs of a source and a target, in the order of both passes. -/
def edges (transitions : List (UInt8 → ℕ)) : List (ℕ × ℕ) :=
  transitions.zipIdx.flatMap fun entry => (rowTargets entry.1).map fun target => (entry.2, target)

theorem edges_snoc (transitions : List (UInt8 → ℕ)) (row : UInt8 → ℕ) :
    edges (transitions ++ [row]) =
      edges transitions ++ (rowTargets row).map fun target => (transitions.length, target) := by
  unfold edges
  rw [List.zipIdx_append, List.flatMap_append]
  simp

theorem mem_edges {transitions : List (UInt8 → ℕ)} {s t : ℕ} :
    (s, t) ∈ edges transitions ↔
      ∃ row, transitions[s]? = some row ∧ t ≠ deadDfaState ∧ ∃ byte, row byte = t := by
  unfold edges
  rw [List.mem_flatMap]
  constructor
  · rintro ⟨⟨row, i⟩, hentry, hpair⟩
    obtain ⟨target, htarget, heq⟩ := List.mem_map.1 hpair
    obtain ⟨rfl, rfl⟩ := Prod.mk.inj heq
    have hget := List.mem_zipIdx_iff_getElem?.1 hentry
    exact ⟨row, hget, mem_rowTargets.1 htarget⟩
  · rintro ⟨row, hrow, ht⟩
    exact ⟨(row, s), List.mem_zipIdx_iff_getElem?.2 hrow,
      List.mem_map.2 ⟨t, mem_rowTargets.2 ht, rfl⟩⟩

/-! ### The two passes -/

open Buckets

/-- There is room for the tables, and the states have 32-bit ids. -/
structure LivenessFits (limits : CompileLimits) (capacities : LivenessCapacities)
    (transitions : List (UInt8 → ℕ)) : Prop where
  states : transitions.length ≤ u32Max + 1
  bytes : livenessBytes capacities transitions.length (edges transitions).length ≤
    limits.maxDfaBytes
  usize : livenessBytes capacities transitions.length (edges transitions).length ≤ usizeMax

/-- A limit is exceeded, and there is no room for the tables. -/
def ExceedsLiveness (limits : CompileLimits) (capacities : LivenessCapacities)
    (transitions : List (UInt8 → ℕ)) (e : CompileError) : Prop :=
  e.IsLimit ∧ ¬ LivenessFits limits capacities transitions

section Passes

variable {limits : CompileLimits} {capacities : LivenessCapacities}
  {transitions done rest : List (UInt8 → ℕ)} {row : UInt8 → ℕ}

/-- How many predecessors a state has. -/
def predecessorCount (transitions : List (UInt8 → ℕ)) (t : ℕ) : ℕ :=
  (bucket (edges transitions) t).length

/-- The pairs of some rows come first. -/
theorem edges_append (done rest : List (UInt8 → ℕ)) :
    ∃ more, edges (done ++ rest) = edges done ++ more := by
  induction rest using List.reverseRecOn with
  | nil => exact ⟨[], by simp⟩
  | append_singleton rest row ih =>
    obtain ⟨more, hmore⟩ := ih
    rw [← List.append_assoc, edges_snoc, hmore, List.append_assoc]
    exact ⟨_, rfl⟩

/-- Where the loop over the targets of a row stands among all pairs. -/
theorem edges_split (h : done ++ row :: rest = transitions) {before after : List ℕ} {t : ℕ}
    (hrow : before ++ t :: after = rowTargets row) :
    ∃ more, edges transitions =
      edges done ++ before.map (fun target => (done.length, target)) ++
        (done.length, t) :: more := by
  subst h
  obtain ⟨more, hmore⟩ := edges_append (done ++ [row]) rest
  rw [List.append_assoc, List.singleton_append, edges_snoc, ← hrow] at hmore
  rw [hmore, List.map_append, List.map_cons]
  exact ⟨after.map (fun target => (done.length, target)) ++ more, by simp⟩

theorem edges_length_le (hfits : LivenessFits limits capacities transitions) :
    (edges transitions).length * 4 ≤ usizeMax :=
  le_trans (by unfold livenessBytes; omega) hfits.usize

theorem edges_lt (hrange : ∀ row ∈ transitions, ∀ byte, row byte < transitions.length ∨
    row byte = deadDfaState) : ∀ p ∈ edges transitions, p.2 < transitions.length := by
  rintro ⟨s, t⟩ hp
  obtain ⟨row, hrow, hdead, byte, rfl⟩ := mem_edges.1 hp
  exact (hrange row (List.mem_of_getElem? hrow) byte).resolve_right hdead

/-- What has been counted of some pairs. -/
structure Counted (n : ℕ) (pairs : List (ℕ × ℕ)) (counted : PredecessorCounts) : Prop where
  length : counted.counts.length = n
  count : ∀ t < n, counted.counts[t]? = some (bucket pairs t).length
  edgeCount : counted.edgeCount = pairs.length

theorem countTarget_wp {n s t : ℕ} {pairs more : List (ℕ × ℕ)} {self : PredecessorCounts}
    (h : Counted n pairs self) (ht : t < n) (hmore : edges transitions = pairs ++ (s, t) :: more) :
    Result.wp (ExceedsLiveness limits capacities transitions) (countTarget limits self t)
      (Counted n (pairs ++ [(s, t)])) := by
  have hlen : pairs.length + 1 ≤ (edges transitions).length := by
    rw [hmore, List.length_append, List.length_cons]
    omega
  have hbucket : (bucket pairs t).length ≤ pairs.length := by
    unfold bucket
    rw [List.length_map]
    exact List.length_filter_le _ _
  unfold countTarget
  rw [h.count t ht]
  simp only [Result.wp_bind, Result.wp_unwrap_some, Result.wp_require, Result.wp_pure]
  refine ⟨fun _ => ⟨fun _ => ⟨?_, fun u hu => ?_, ?_⟩, fun hedge => ⟨trivial, fun hfits => ?_⟩⟩,
    fun hcount => ⟨trivial, fun hfits => ?_⟩⟩
  · rw [List.length_set, h.length]
  · rw [bucket_snoc, List.getElem?_set]
    by_cases htu : t = u
    · subst htu
      simp [h.length, hu]
    · simpa [htu] using h.count u hu
  · rw [h.edgeCount, List.length_append, List.length_singleton]
  · have := edges_length_le hfits
    rw [h.edgeCount] at hedge
    omega
  · have := edges_length_le hfits
    omega

/-- The targets of one row are counted. -/
theorem countTargets_wp {self : PredecessorCounts} {targets : List ℕ}
    (hrange : ∀ row ∈ transitions, ∀ byte, row byte < transitions.length ∨ row byte = deadDfaState)
    (hdone : done ++ row :: rest = transitions) (htargets : targets = rowTargets row)
    (h : Counted transitions.length (edges done) self) :
    Result.wp (ExceedsLiveness limits capacities transitions)
      (targets.foldlM (countTarget limits) self)
      (Counted transitions.length (edges (done ++ [row]))) := by
  have hloop := Result.wp_foldlM (E := ExceedsLiveness limits capacities transitions)
    (f := countTarget limits)
    (I := fun before after self => before ++ after = targets ∧
      Counted transitions.length
        (edges done ++ before.map fun target => (done.length, target)) self)
    (fun before t after self hI => ?_) [] targets self ⟨rfl, by simpa using h⟩
  · refine Result.wp_mono hloop fun self hself => ?_
    rw [edges_snoc, ← htargets]
    exact hself.2
  · obtain ⟨hbefore, hself⟩ := hI
    obtain ⟨more, hmore⟩ := edges_split hdone (hbefore.trans htargets)
    have ht := edges_lt hrange (done.length, t) (by rw [hmore]; simp)
    refine Result.wp_mono (countTarget_wp hself ht hmore) fun self' hself' => ?_
    refine ⟨by simpa using hbefore, ?_⟩
    rw [List.map_append, ← List.append_assoc]
    exact hself'

/-- **The first pass** counts the predecessors of every state. -/
theorem count_wp
    (hrange : ∀ row ∈ transitions, ∀ byte, row byte < transitions.length ∨
      row byte = deadDfaState) :
    Result.wp (ExceedsLiveness limits capacities transitions)
      (transitions.foldlM (fun self row => forEachTarget (countTarget limits) row self)
        ({ counts := List.replicate transitions.length 0, edgeCount := 0 } : PredecessorCounts))
      (Counted transitions.length (edges transitions)) := by
  have hloop := Result.wp_foldlM (E := ExceedsLiveness limits capacities transitions)
    (f := fun self row => forEachTarget (countTarget limits) row self)
    (I := fun done rest self => done ++ rest = transitions ∧
      Counted transitions.length (edges done) self)
    (fun done row rest self hI => ?_) [] transitions
    { counts := List.replicate transitions.length 0, edgeCount := 0 } ⟨rfl, ?_⟩
  · exact Result.wp_mono hloop fun self hself => hself.2
  · rw [forEachTarget_eq]
    refine Result.wp_mono (countTargets_wp hrange hI.1 rfl hI.2) fun self' hself' => ⟨?_, hself'⟩
    simpa using hI.1
  · refine ⟨List.length_replicate, fun t ht => ?_, rfl⟩
    rw [List.getElem?_replicate, if_pos ht]
    rfl

/-- The prefix sums say where the predecessors of a state start. -/
theorem offsets_wp {counts : List ℕ} (hlen : counts.length = transitions.length)
    (hcounts : ∀ t < transitions.length, counts[t]? = some (predecessorCount transitions t))
    (hedges : ∀ p ∈ edges transitions, p.2 < transitions.length) :
    Result.wp (ExceedsLiveness limits capacities transitions)
      (counts.foldlM (fun (offsets : List ℕ) count => do
        let last ← Result.unwrap offsets.getLast? (byteOverflow limits)
        Result.require (last + count ≤ usizeMax) (byteOverflow limits)
        pure (offsets ++ [last + count])) [0])
      fun offsets => offsets =
        (List.range (transitions.length + 1)).map (start (predecessorCount transitions)) := by
  have hloop := Result.wp_foldlM (E := ExceedsLiveness limits capacities transitions)
    (f := fun (offsets : List ℕ) count => do
      let last ← Result.unwrap offsets.getLast? (byteOverflow limits)
      Result.require (last + count ≤ usizeMax) (byteOverflow limits)
      pure (offsets ++ [last + count]))
    (I := fun done rest offsets => done ++ rest = counts ∧
      offsets = (List.range (done.length + 1)).map (start (predecessorCount transitions)))
    (fun done count rest offsets hI => ?_) [] counts [0] ⟨rfl, rfl⟩
  · refine Result.wp_mono hloop fun offsets hoffsets => ?_
    rw [hoffsets.2, List.nil_append, hlen]
  · obtain ⟨hdone, rfl⟩ := hI
    have hlt : done.length < transitions.length := by
      rw [← hlen, ← hdone, List.length_append, List.length_cons]
      omega
    have hcount : count = predecessorCount transitions done.length := by
      have hget := hcounts done.length hlt
      rw [← hdone, List.getElem?_append_right le_rfl, Nat.sub_self] at hget
      exact Option.some.inj hget
    -- each offset is the one before it and the count of its bucket
    have hnext : start (predecessorCount transitions) done.length + count =
        start (predecessorCount transitions) (done.length + 1) := by
      rw [hcount]
      rfl
    rw [List.range_succ, List.map_append, List.map_singleton, List.getLast?_append_of_ne_nil _
      (List.cons_ne_nil _ _), List.getLast?_singleton, Result.wp_bind, Result.wp_unwrap_some,
      Result.wp_bind, Result.wp_require, hnext]
    refine ⟨fun _ => ⟨by simpa using hdone, ?_⟩, fun hmax => ⟨trivial, fun hfits => hmax ?_⟩⟩
    · rw [List.length_append, List.length_singleton, List.range_succ, List.map_append,
        List.range_succ, List.map_append]
      rfl
    · have hle : start (predecessorCount transitions) (done.length + 1) ≤
          start (predecessorCount transitions) transitions.length := start_mono hlt
      have hall : start (predecessorCount transitions) transitions.length =
          (edges transitions).length := start_eq_length hedges
      have := edges_length_le hfits
      omega

/-- One pair is put into its slot. -/
theorem fillTarget_wp {s t : ℕ} {pairs more : List (ℕ × ℕ)} {self : PredecessorSlots}
    {offsets : List ℕ} (hedges : ∀ p ∈ edges transitions, p.2 < transitions.length)
    (hoffsets : offsets =
      (List.range (transitions.length + 1)).map (start (predecessorCount transitions)))
    (husize : (edges transitions).length * 4 ≤ usizeMax)
    (h : Filled (predecessorCount transitions) transitions.length pairs self.counts
      self.predecessors)
    (hcursors : self.counts.length = transitions.length)
    (hmore : edges transitions = pairs ++ (s, t) :: more) :
    Result.wp (ExceedsLiveness limits capacities transitions) (fillTarget offsets s self t)
      fun self => self.counts.length = transitions.length ∧
        Filled (predecessorCount transitions) transitions.length (pairs ++ [(s, t)]) self.counts
          self.predecessors := by
  have ht : t < transitions.length := hedges (s, t) (by rw [hmore]; simp)
  have hroom : (bucket pairs t).length < predecessorCount transitions t := by
    have hle : (bucket (pairs ++ [(s, t)]) t).length ≤
        (bucket (pairs ++ [(s, t)] ++ more) t).length :=
      length_bucket_le more
    rw [List.append_assoc, List.singleton_append, ← hmore, bucket_snoc, if_pos rfl,
      List.length_append, List.length_singleton] at hle
    exact hle
  obtain ⟨hlt, hput⟩ := h.put (s := s) ht hroom
  have hsize : self.predecessors.length = (edges transitions).length :=
    h.length.trans (start_eq_length hedges)
  have hoffset : offsets[t]? = some (start (predecessorCount transitions) t) := by
    rw [hoffsets, List.getElem?_map, List.getElem?_range (by omega)]
    rfl
  unfold fillTarget
  rw [vecGet_of hoffset, vecGet_of (h.cursor t ht)]
  simp only [Result.pure_bind_eq, vecSet_of hlt, Result.wp_bind, Result.wp_require]
  refine ⟨fun _ => ⟨fun _ => ?_, fun hmax => ?_⟩, fun hmax => ?_⟩
  · rw [vecSet_of (by rw [hcursors]; exact ht)]
    exact ⟨by simpa using hcursors, hput⟩
  · omega
  · omega

/-- The targets of one row are filled in. -/
theorem fillTargets_wp {self : PredecessorSlots} {targets offsets : List ℕ}
    (hedges : ∀ p ∈ edges transitions, p.2 < transitions.length)
    (hoffsets : offsets =
      (List.range (transitions.length + 1)).map (start (predecessorCount transitions)))
    (husize : (edges transitions).length * 4 ≤ usizeMax)
    (hdone : done ++ row :: rest = transitions) (htargets : targets = rowTargets row)
    (hcursors : self.counts.length = transitions.length)
    (h : Filled (predecessorCount transitions) transitions.length (edges done) self.counts
      self.predecessors) :
    Result.wp (ExceedsLiveness limits capacities transitions)
      (targets.foldlM (fillTarget offsets done.length) self)
      fun self => self.counts.length = transitions.length ∧
        Filled (predecessorCount transitions) transitions.length (edges (done ++ [row])) self.counts
          self.predecessors := by
  have hloop := Result.wp_foldlM (E := ExceedsLiveness limits capacities transitions)
    (f := fillTarget offsets done.length)
    (I := fun before after self => before ++ after = targets ∧
      self.counts.length = transitions.length ∧
      Filled (predecessorCount transitions) transitions.length
        (edges done ++ before.map fun target => (done.length, target)) self.counts
          self.predecessors)
    (fun before t after self hI => ?_) [] targets self ⟨rfl, hcursors, by simpa using h⟩
  · refine Result.wp_mono hloop fun self hself => ?_
    rw [edges_snoc, ← htargets]
    exact hself.2
  · obtain ⟨hbefore, hlen, hself⟩ := hI
    obtain ⟨more, hmore⟩ := edges_split hdone (hbefore.trans htargets)
    refine Result.wp_mono (fillTarget_wp hedges hoffsets husize hself hlen hmore)
      fun self' hself' => ?_
    refine ⟨by simpa using hbefore, hself'.1, ?_⟩
    rw [List.map_append, ← List.append_assoc]
    exact hself'.2

/-- **The second pass** puts every source into the slots of its targets. -/
theorem fill_wp {offsets : List ℕ}
    (hedges : ∀ p ∈ edges transitions, p.2 < transitions.length)
    (hoffsets : offsets =
      (List.range (transitions.length + 1)).map (start (predecessorCount transitions)))
    (husize : (edges transitions).length * 4 ≤ usizeMax) :
    Result.wp (ExceedsLiveness limits capacities transitions)
      (transitions.zipIdx.foldlM (fun self entry => do
          let source ← toU32 entry.2 .dfaDeterminization
          forEachTarget (fillTarget offsets source) entry.1 self)
        ({ counts := List.replicate transitions.length 0
           predecessors := List.replicate (edges transitions).length 0 } : PredecessorSlots))
      fun self => Filled (predecessorCount transitions) transitions.length (edges transitions)
        self.counts self.predecessors := by
  -- after a row, the slots hold the edges of the rows up to it
  have hloop := Result.wp_foldlM (E := ExceedsLiveness limits capacities transitions)
    (f := fun self (entry : (UInt8 → ℕ) × ℕ) => do
      let source ← toU32 entry.2 .dfaDeterminization
      forEachTarget (fillTarget offsets source) entry.1 self)
    (I := fun before after self => before ++ after = transitions.zipIdx ∧
      self.counts.length = transitions.length ∧
      Filled (predecessorCount transitions) transitions.length
        (edges (transitions.take before.length)) self.counts self.predecessors)
    (fun before entry after self hI => ?_) [] transitions.zipIdx
    { counts := List.replicate transitions.length 0
      predecessors := List.replicate (edges transitions).length 0 } ⟨rfl, ?_, ?_⟩
  · refine Result.wp_mono hloop fun self hself => ?_
    have hfilled := hself.2.2
    rwa [List.nil_append, List.length_zipIdx, List.take_length] at hfilled
  · obtain ⟨hbefore, hlen, hself⟩ := hI
    obtain ⟨hindex, hget⟩ := getElem?_of_zipIdx_eq hbefore.symm
    have hlt := (List.getElem?_eq_some_iff.1 hget).1
    have hdone : transitions.take before.length ++ entry.1 :: transitions.drop (before.length + 1) =
        transitions := by
      have heq := (List.getElem?_eq_some_iff.1 hget).2
      rw [← heq, ← List.drop_eq_getElem_cons hlt, List.take_append_drop]
    have hsource : (transitions.take before.length).length = entry.2 := by
      rw [List.length_take, hindex]
      omega
    rw [Result.wp_bind, toU32, Result.wp_bind, Result.wp_require]
    refine ⟨fun _ => ?_, fun hmax => ⟨trivial, fun hfits => ?_⟩⟩
    · rw [Result.wp_pure, forEachTarget_eq, ← hsource]
      refine Result.wp_mono (fillTargets_wp hedges hoffsets husize hdone rfl hlen hself)
        fun self' hself' => ⟨by simpa using hbefore, hself'.1, ?_⟩
      have htake : transitions.take (before ++ [entry]).length =
          transitions.take before.length ++ [entry.1] := by
        rw [List.length_append, List.length_singleton, List.take_add_one, hget]
        rfl
      rw [htake]
      exact hself'.2
    · have := hfits.states
      omega
  · exact List.length_replicate
  · refine ⟨?_, fun t => Nat.zero_le _, fun t ht => ?_, fun t ht k s hs => ?_⟩
    · rw [List.length_replicate]
      exact (start_eq_length hedges).symm
    · rw [List.getElem?_replicate, if_pos ht]
      rfl
    · rw [List.length_nil, List.take_zero] at hs
      cases hs

end Passes

/-! ### The search -/

/-- The word leads from a state to another one, without the dead state. -/
inductive Leads (transitions : List (UInt8 → ℕ)) : ℕ → List UInt8 → ℕ → Prop
  | nil (s : ℕ) : Leads transitions s [] s
  | cons {s t : ℕ} {row : UInt8 → ℕ} {byte : UInt8} {w : List UInt8}
      (hrow : transitions[s]? = some row) (hdead : row byte ≠ deadDfaState)
      (h : Leads transitions (row byte) w t) : Leads transitions s (byte :: w) t

/-- Some word leads from the state to an accepting one. -/
def Alive (transitions : List (UInt8 → ℕ)) (accepting : List Bool) (s : ℕ) : Prop :=
  ∃ w t, Leads transitions s w t ∧ accepting[t]? = some true

theorem Alive.of_edge {transitions : List (UInt8 → ℕ)} {accepting : List Bool} {s t : ℕ}
    (h : Alive transitions accepting t) (hedge : (s, t) ∈ edges transitions) :
    Alive transitions accepting s := by
  obtain ⟨row, hrow, hdead, byte, rfl⟩ := mem_edges.1 hedge
  obtain ⟨w, u, hleads, haccepting⟩ := h
  exact ⟨byte :: w, u, .cons hrow hdead hleads, haccepting⟩

/-- The flags, while the predecessors of the targets outside `pending` are marked. -/
structure Marks (transitions : List (UInt8 → ℕ)) (accepting live : List Bool) (pending : ℕ → Prop) :
    Prop where
  length : live.length = transitions.length
  base : ∀ s : ℕ, accepting[s]? = some true → live[s]? = some true
  sound : ∀ s : ℕ, live[s]? = some true → Alive transitions accepting s
  marked : ∀ s, pending s → live[s]? = some true
  closed : ∀ t : ℕ, live[t]? = some true → ¬ pending t →
    ∀ s, (s, t) ∈ edges transitions → live[s]? = some true

section Search

variable {transitions : List (UInt8 → ℕ)} {accepting live : List Bool} {E : CompileError → Prop}

theorem Marks.exact (h : Marks transitions accepting live fun _ => False) (s : ℕ) :
    live[s]? = some true ↔ Alive transitions accepting s := by
  refine ⟨h.sound s, ?_⟩
  rintro ⟨w, t, hleads, haccepting⟩
  induction hleads with
  | nil t => exact h.base t haccepting
  | @cons s t row byte w hrow hdead hleads ih =>
    exact h.closed _ (ih haccepting) id s (mem_edges.2 ⟨row, hrow, hdead, byte, rfl⟩)

theorem Marks.congr {pending pending' : ℕ → Prop} (h : Marks transitions accepting live pending)
    (hiff : ∀ t, pending t ↔ pending' t) : Marks transitions accepting live pending' :=
  ⟨h.length, h.base, h.sound, fun s hs => h.marked s ((hiff s).2 hs),
    fun t ht hpending => h.closed t ht fun hp => hpending ((hiff t).1 hp)⟩

/-- A target whose predecessors are marked. -/
theorem Marks.finish {pending : ℕ → Prop} {target : ℕ}
    (h : Marks transitions accepting live fun t => t = target ∨ pending t)
    (hall : ∀ s, (s, target) ∈ edges transitions → live[s]? = some true) :
    Marks transitions accepting live pending := by
  refine ⟨h.length, h.base, h.sound, fun s hs => h.marked s (.inr hs), fun t ht hpending s hs => ?_⟩
  by_cases htarget : t = target
  · exact hall s (htarget ▸ hs)
  · exact h.closed t ht (not_or.2 ⟨htarget, hpending⟩) s hs

theorem getElem?_set_true {s t : ℕ} (hlt : s < live.length) (ht : live[t]? = some true) :
    (live.set s true)[t]? = some true := by
  rw [List.getElem?_set]
  by_cases hst : s = t
  · subst hst
    simp [hlt]
  · simpa [hst] using ht

/-- Marking another state that leads to an accepting one. -/
theorem Marks.mark {pending : ℕ → Prop} {s : ℕ} (h : Marks transitions accepting live pending)
    (hlt : s < live.length) (hs : Alive transitions accepting s) :
    Marks transitions accepting (live.set s true) fun t => t = s ∨ pending t := by
  have hkeep : ∀ {t : ℕ}, live[t]? = some true → (live.set s true)[t]? = some true :=
    fun ht => getElem?_set_true hlt ht
  have hback : ∀ {t : ℕ}, (live.set s true)[t]? = some true → t = s ∨ live[t]? = some true := by
    intro t ht
    rw [List.getElem?_set] at ht
    by_cases hst : s = t
    · exact .inl hst.symm
    · exact .inr (by simpa [hst] using ht)
  refine ⟨by rw [List.length_set, h.length], fun t ht => hkeep (h.base t ht), ?_, ?_, ?_⟩
  · intro t ht
    rcases hback ht with rfl | ht
    · exact hs
    · exact h.sound t ht
  · rintro t (rfl | ht)
    · simp [hlt]
    · exact hkeep (h.marked t ht)
  · intro t ht hpending u hu
    obtain ⟨hne, hpending⟩ := not_or.1 hpending
    exact hkeep (h.closed t ((hback ht).resolve_left hne) hpending u hu)

/-- How many turns the search can still take. -/
def LivenessSearch.turns (self : LivenessSearch) : ℕ := self.live.count false + self.stack.length

/-- A predecessor of the target is marked. -/
theorem markSource_wp {self : LivenessSearch} {source target : ℕ}
    (h : Marks transitions accepting self.live fun t => t = target ∨ t ∈ self.stack)
    (hedge : (source, target) ∈ edges transitions) :
    Result.wp E (markSource self source) fun self' =>
      Marks transitions accepting self'.live (fun t => t = target ∨ t ∈ self'.stack) ∧
        self'.turns = self.turns ∧ self'.live[source]? = some true ∧
        ∀ t : ℕ, self.live[t]? = some true → self'.live[t]? = some true := by
  obtain ⟨row, hrow, -⟩ := mem_edges.1 hedge
  have hlt : source < self.live.length := by
    rw [h.length]
    exact (List.getElem?_eq_some_iff.1 hrow).1
  have hget := List.getElem?_eq_getElem hlt
  unfold markSource
  rw [vecGet_of hget]
  cases hlive : self.live[source] with
  | true =>
    rw [hlive] at hget
    exact ⟨h, rfl, hget, fun _ => id⟩
  | false =>
    have halive := (h.sound target (h.marked target (.inl rfl))).of_edge hedge
    rw [vecSet_of hlt]
    refine ⟨?_, ?_, by simp [hlt], fun t ht => ?_⟩
    · refine (h.mark hlt halive).congr fun t => ?_
      rw [List.mem_cons]
      tauto
    · have hmem : false ∈ self.live := hlive ▸ List.getElem_mem hlt
      have hpos := List.count_pos_iff.2 hmem
      unfold LivenessSearch.turns
      rw [List.count_set hlt, hlive, List.length_cons]
      simp
      omega
    · exact getElem?_set_true hlt ht

/-- The predecessors of the target are marked, and then those of the other states on the stack. -/
theorem traverse_wp {offsets predecessors : List ℕ} {fuel : ℕ} {self : LivenessSearch}
    (hslice : ∀ t < transitions.length, ∃ first last sources, offsets[t]? = some first ∧
      offsets[t + 1]? = some last ∧ vecSlice predecessors first last = .ok sources ∧
      ∀ s, s ∈ sources ↔ (s, t) ∈ edges transitions)
    (h : Marks transitions accepting self.live fun t => t ∈ self.stack)
    (hfuel : self.turns < fuel) :
    Result.wp E (traverse offsets predecessors fuel self) fun live =>
      Marks transitions accepting live fun _ => False := by
  induction fuel generalizing self with
  | zero => omega
  | succ fuel ih =>
    unfold traverse
    split
    · next hstack =>
      refine h.congr fun t => ?_
      rw [hstack]
      simp
    · next target stack hstack =>
      have htarget := h.marked target (hstack ▸ List.mem_cons_self)
      have hlt : target < transitions.length := by
        rw [← h.length]
        exact (List.getElem?_eq_some_iff.1 htarget).1
      obtain ⟨first, last, sources, hfirst, hlast, hsources, hmem⟩ := hslice target hlt
      rw [vecGet_of hfirst, vecGet_of hlast, Result.pure_bind_eq, Result.pure_bind_eq, hsources]
      change Result.wp E (sources.foldlM markSource { self with stack := stack } >>=
        traverse offsets predecessors fuel) _
      -- while its sources are marked, `target` counts as pending
      have hloop := Result.wp_foldlM (E := E) (f := markSource)
        (I := fun done rest search => done ++ rest = sources ∧
          Marks transitions accepting search.live (fun t => t = target ∨ t ∈ search.stack) ∧
          search.turns + 1 = self.turns ∧ ∀ s ∈ done, search.live[s]? = some true)
        (fun done s rest search hI => ?_) [] sources { self with stack := stack } ⟨rfl, ?_, ?_, ?_⟩
      · refine Result.wp_bind.2 (Result.wp_mono hloop fun search hsearch => ?_)
        obtain ⟨-, hmarks, hturns, hall⟩ := hsearch
        refine ih (hmarks.finish fun s hs => ?_) (by omega)
        exact hall s ((hmem s).2 hs)
      · obtain ⟨hdone, hmarks, hturns, hall⟩ := hI
        have hedge : (s, target) ∈ edges transitions := (hmem s).1 (by rw [← hdone]; simp)
        refine Result.wp_mono (markSource_wp hmarks hedge) fun search' hsearch' => ?_
        obtain ⟨hmarks', hturns', hs', hkeep⟩ := hsearch'
        refine ⟨by simpa using hdone, hmarks', by omega, fun t ht => ?_⟩
        rcases List.mem_append.1 ht with ht | ht
        · exact hkeep t (hall t ht)
        · rw [List.mem_singleton.1 ht]
          exact hs'
      · refine h.congr fun t => ?_
        rw [hstack, List.mem_cons]
      · unfold LivenessSearch.turns
        rw [hstack, List.length_cons]
        exact Nat.add_assoc _ _ _
      · exact fun s hs => absurd hs List.not_mem_nil

end Search

/-! ### The whole computation -/

section Liveness

variable {transitions : List (UInt8 → ℕ)} {accepting : List Bool} {limits : CompileLimits}
  {capacities : LivenessCapacities}

/-- The accepting states are on the stack first. -/
theorem stack_wp (hfits : accepting.length ≤ u32Max + 1 ∨
    ¬ LivenessFits limits capacities transitions) :
    Result.wp (ExceedsLiveness limits capacities transitions)
      (accepting.zipIdx.foldlM (fun (stack : List ℕ) entry =>
        if entry.1 then do
          let state ← toU32 entry.2 .dfaDeterminization
          pure (state :: stack)
        else pure stack) [])
      fun stack => (∀ s : ℕ, s ∈ stack ↔ accepting[s]? = some true) ∧
        stack.length = accepting.count true := by
  have hloop := Result.wp_foldlM (E := ExceedsLiveness limits capacities transitions)
    (f := fun (stack : List ℕ) (entry : Bool × ℕ) =>
      if entry.1 then do
        let state ← toU32 entry.2 .dfaDeterminization
        pure (state :: stack)
      else pure stack)
    (I := fun before after stack => before ++ after = accepting.zipIdx ∧
      (∀ s : ℕ, s ∈ stack ↔ (accepting.take before.length)[s]? = some true) ∧
      stack.length = (accepting.take before.length).count true)
    (fun before entry after stack hI => ?_) [] accepting.zipIdx [] ⟨rfl, by simp, rfl⟩
  · refine Result.wp_mono hloop fun stack hstack => ?_
    have hall := hstack.2
    rwa [List.nil_append, List.length_zipIdx, List.take_length] at hall
  · obtain ⟨hbefore, hmem, hlen⟩ := hI
    obtain ⟨hindex, hget⟩ := getElem?_of_zipIdx_eq hbefore.symm
    have hlt := (List.getElem?_eq_some_iff.1 hget).1
    have htake : accepting.take (before ++ [entry]).length =
        accepting.take before.length ++ [entry.1] := by
      rw [List.length_append, List.length_singleton, List.take_add_one, hget]
      rfl
    have hlength : (accepting.take before.length).length = before.length := by
      rw [List.length_take]
      omega
    rw [htake]
    cases hentry : entry.1 with
    | false =>
      refine ⟨by simpa using hbefore, fun s => ?_, ?_⟩
      · rw [hmem, getElem?_snoc]
        simp
      · rw [List.count_append, hlen]
        rfl
    | true =>
      rw [if_pos rfl, Result.wp_bind, toU32, Result.wp_bind, Result.wp_require]
      refine ⟨fun _ => ⟨by simpa using hbefore, fun s => ?_, ?_⟩, fun hmax => ⟨trivial, ?_⟩⟩
      · rw [List.mem_cons, hmem, getElem?_snoc, hlength, hindex]
        tauto
      · rw [List.length_cons, List.count_append, hlen]
        rfl
      -- a state above the `u32` range: the tables have too many rows
      · refine hfits.resolve_left fun hle => ?_
        omega

theorem computeLiveness_wp (hlen : accepting.length = transitions.length)
    (hrange : ∀ row ∈ transitions, ∀ byte, row byte < transitions.length ∨
      row byte = deadDfaState) :
    Result.wp (ExceedsLiveness limits capacities transitions)
      (computeLiveness transitions accepting limits capacities)
      fun live => live.length = transitions.length ∧
        ∀ s : ℕ, live[s]? = some true ↔ Alive transitions accepting s := by
  have hedges := edges_lt hrange
  unfold computeLiveness enforceCompileLimit
  rw [Result.wp_bind, Result.wp_require]
  refine ⟨fun _ => ?_, fun hne => absurd hlen.symm hne⟩
  rw [Result.wp_bind]
  refine Result.wp_mono (count_wp hrange) fun counted hcounted => ?_
  have hcount := hcounted.edgeCount
  simp only [Result.wp_bind, Result.wp_require, hcount]
  -- of the four budgets only the last is a limit; the others are sums that it bounds
  have hexceeds : ∀ {n m l : ℕ}, ¬ LivenessFits limits capacities transitions →
      ExceedsLiveness limits capacities transitions
        (.resourceLimitExceeded .dfaDeterminization m l) :=
    fun hnot => ⟨trivial, hnot⟩
  refine ⟨fun _ => ⟨fun _ => ⟨fun husize => ⟨fun _ => ?_, fun hmax => ⟨trivial, fun hfits =>
    hmax hfits.bytes⟩⟩, fun hmax => ⟨trivial, fun hfits => hmax hfits.usize⟩⟩,
    fun hmax => ⟨trivial, fun hfits => hmax ?_⟩⟩, fun hmax => ⟨trivial, fun hfits => hmax ?_⟩⟩
  · have hfour : (edges transitions).length * 4 ≤ usizeMax :=
      le_trans (by unfold livenessBytes; omega) husize
    refine Result.wp_mono (offsets_wp hcounted.length hcounted.count hedges)
      fun offsets hoffsets => ?_
    refine Result.wp_mono (fill_wp hedges hoffsets hfour) fun filled hfilled => ?_
    refine Result.wp_mono (stack_wp ?_) fun stack hstack => ?_
    · by_cases hle : accepting.length ≤ u32Max + 1
      · exact .inl hle
      · exact .inr fun hfits => hle (hlen ▸ hfits.states)
    -- the accepting states are marked and pending, and nothing has been followed yet
    · have hmarks : Marks transitions accepting accepting fun t => t ∈ stack := by
        refine ⟨hlen, fun s hs => hs, fun s hs => ⟨[], s, .nil s, hs⟩,
          fun s hs => (hstack.1 s).1 hs, fun t ht hpending => ?_⟩
        exact absurd ((hstack.1 t).2 ht) hpending
      refine Result.wp_mono (traverse_wp (fun t ht => ?_) hmarks ?_) fun live hlive => ?_
      · have hget : ∀ m ≤ transitions.length,
            offsets[m]? = some (start (predecessorCount transitions) m) := by
          intro m hm
          rw [hoffsets, List.getElem?_map, List.getElem?_range (by omega)]
          rfl
        obtain ⟨hle, hslice⟩ := hfilled.slice ht rfl
        refine ⟨_, _, bucket (edges transitions) t, hget t ht.le, hget (t + 1) ht, ?_,
          fun s => mem_bucket⟩
        unfold vecSlice
        rw [hslice]
        exact Result.bind_eq_ok.2 ⟨(),
          Result.require_eq_ok.2 ⟨start_mono (Nat.le_succ t), hle⟩, rfl⟩
      · have htotal := List.count_true_add_count_false accepting
        unfold LivenessSearch.turns
        dsimp only
        rw [hstack.2]
        omega
      · exact ⟨hlive.length, hlive.exact⟩
  · exact le_trans (by unfold livenessBytes; omega) hfits.usize
  · exact le_trans (by unfold livenessBytes; omega) hfits.usize

/-- **A state is live exactly when some word leads from it to an accepting one.**  The targets are
states or the dead state, there are at most `2 ^ 32` states, and the byte budget has room for the
tables; then the flags are returned, so that no index is out of bounds. -/
theorem computeLiveness_exact (hlen : accepting.length = transitions.length)
    (hrange : ∀ row ∈ transitions, ∀ byte, row byte < transitions.length ∨ row byte = deadDfaState)
    (hstates : transitions.length ≤ u32Max + 1)
    (hbytes : livenessBytes capacities transitions.length (edges transitions).length ≤
      min limits.maxDfaBytes usizeMax) :
    ∃ live, computeLiveness transitions accepting limits capacities = .ok live ∧
      live.length = transitions.length ∧
      ∀ s : ℕ, live[s]? = some true ↔
        ∃ w t, Leads transitions s w t ∧ accepting[t]? = some true := by
  obtain ⟨hmax, husize⟩ := le_min_iff.1 hbytes
  have hfits : LivenessFits limits capacities transitions := ⟨hstates, hmax, husize⟩
  have hwp : Result.wp (ExceedsLiveness limits capacities transitions)
      (computeLiveness transitions accepting limits capacities) _ := computeLiveness_wp hlen hrange
  exact Result.exists_of_wp (Result.wp_weaken hwp fun e he => he.2 hfits)

/-- State 0 reads `a` into state 1, which accepts and reads nothing; state 2 reads everything and
never leaves. -/
def letterTable : List (UInt8 → ℕ) :=
  [fun byte => if byte = 97 then 1 else deadDfaState, fun _ => deadDfaState, fun _ => 2]

theorem computeLiveness_exact_letterTable :
    computeLiveness letterTable [false, true, false] CompileLimits.default ⟨3, 3, 3⟩ =
        .ok [true, true, false] ∧
      ∀ s : ℕ, [true, true, false][s]? = some true ↔
        ∃ w t, Leads letterTable s w t ∧ [false, true, false][t]? = some true := by
  have hedges : (edges letterTable).length ≤ 256 := by
    unfold edges rowTargets
    decide +kernel
  have hrange : ∀ row ∈ letterTable, ∀ byte,
      row byte < letterTable.length ∨ row byte = deadDfaState := by
    intro row hrow byte
    simp only [letterTable, List.mem_cons, List.not_mem_nil, or_false] at hrow
    rcases hrow with rfl | rfl | rfl
    · dsimp only
      split
      · exact .inl (by decide)
      · exact .inr rfl
    · exact .inr rfl
    · exact .inl (show 2 < 3 by decide)
  have hbytes : livenessBytes ⟨3, 3, 3⟩ letterTable.length (edges letterTable).length ≤
      min CompileLimits.default.maxDfaBytes usizeMax := by
    have hle : livenessBytes ⟨3, 3, 3⟩ letterTable.length (edges letterTable).length ≤
        livenessBytes ⟨3, 3, 3⟩ 3 256 :=
      Nat.add_le_add_left (Nat.add_le_add_right (Nat.add_le_add_left
        (Nat.mul_le_mul_right 4 hedges) _) _) _
    exact hle.trans (by decide)
  have hlength : [false, true, false].length = letterTable.length := rfl
  obtain ⟨live, hlive, -, hexact⟩ := computeLiveness_exact hlength hrange (by decide) hbytes
  have hrun : (computeLiveness letterTable [false, true, false] .default ⟨3, 3, 3⟩).toOption =
      some [true, true, false] := by decide +kernel
  have hok := Result.toOption_eq_some.1 hrun
  obtain rfl := Except.ok.inj (hlive.symm.trans hok)
  exact ⟨hok, hexact⟩

/-! ### Too many states -/

/-- The ids of the sources are 32-bit. -/
theorem length_le_of_computeLiveness {live : List Bool}
    (h : computeLiveness transitions accepting limits capacities = .ok live) :
    transitions.length ≤ u32Max + 1 := by
  obtain ⟨_, -, h⟩ := Result.bind_eq_ok.1 h
  obtain ⟨counted, -, h⟩ := Result.bind_eq_ok.1 h
  obtain ⟨_, -, h⟩ := Result.bind_eq_ok.1 h
  obtain ⟨_, -, h⟩ := Result.bind_eq_ok.1 h
  obtain ⟨_, -, h⟩ := Result.bind_eq_ok.1 h
  obtain ⟨_, -, h⟩ := Result.bind_eq_ok.1 h
  obtain ⟨offsets, -, h⟩ := Result.bind_eq_ok.1 h
  obtain ⟨filled, hfilled, -⟩ := Result.bind_eq_ok.1 h
  have hids : ∀ entry ∈ transitions.zipIdx, entry.2 ≤ u32Max := by
    refine Result.foldlM_induction (I := fun entries _ => ∀ entry ∈ entries, entry.2 ≤ u32Max)
      hfilled (List.forall_mem_nil _) ?_
    intro entries entry self self' hentries hstep e he
    rcases List.mem_append.1 he with he | he
    · exact hentries e he
    · rw [List.mem_singleton.1 he]
      obtain ⟨source, hsource, -⟩ := Result.bind_eq_ok.1 hstep
      obtain ⟨_, hle, -⟩ := Result.bind_eq_ok.1 hsource
      exact Result.require_eq_ok.1 hle
  cases hn : transitions.length with
  | zero => exact Nat.zero_le _
  | succ n =>
    have hlt : n < transitions.length := by omega
    have hlast := hids (transitions[n], n)
      (List.mem_zipIdx_iff_getElem?.2 (List.getElem?_eq_getElem hlt))
    exact Nat.succ_le_succ hlast

/-- A table of states that read nothing. -/
def deadTable (n : ℕ) : List (UInt8 → ℕ) := List.replicate n fun _ => deadDfaState

theorem edges_deadTable (n : ℕ) : edges (deadTable n) = [] := by
  refine List.eq_nil_iff_forall_not_mem.2 ?_
  rintro ⟨s, t⟩ hp
  obtain ⟨row, hrow, hdead, byte, rfl⟩ := mem_edges.1 hp
  rw [List.eq_of_mem_replicate (List.mem_of_getElem? hrow)] at hdead
  exact hdead rfl

theorem deadTable_refused {n : ℕ} (hn : u32Max + 1 < n)
    (hsize : livenessBytes ⟨n, n, n⟩ n 0 ≤ usizeMax) :
    ∃ limits : CompileLimits,
      (List.replicate n false).length = (deadTable n).length ∧
      (∀ row ∈ deadTable n, ∀ byte, row byte = deadDfaState) ∧
      livenessBytes ⟨n, n, n⟩ (deadTable n).length (edges (deadTable n)).length ≤
        min limits.maxDfaBytes usizeMax ∧
      ∀ live, computeLiveness (deadTable n)
        (List.replicate n false) limits ⟨n, n, n⟩ ≠ .ok live := by
  have hlength : (deadTable n).length = n := List.length_replicate
  refine ⟨{ CompileLimits.default with maxDfaBytes := usizeMax }, ?_, ?_, ?_, fun live hlive => ?_⟩
  · rw [hlength, List.length_replicate]
  · intro row hrow byte
    rw [List.eq_of_mem_replicate hrow]
  · rw [hlength, edges_deadTable, List.length_nil]
    exact le_min hsize hsize
  · have hle := length_le_of_computeLiveness hlive
    rw [hlength] at hle
    omega

/-- **A table of `2 ^ 32 + 1` states is refused**, with room for it in the byte budget: its last
state has no 32-bit id. -/
theorem computeLiveness_refuses : ∃ limits : CompileLimits,
    (List.replicate (u32Max + 2) false).length = (deadTable (u32Max + 2)).length ∧
    (∀ row ∈ deadTable (u32Max + 2), ∀ byte, row byte = deadDfaState) ∧
    livenessBytes ⟨u32Max + 2, u32Max + 2, u32Max + 2⟩ (deadTable (u32Max + 2)).length
      (edges (deadTable (u32Max + 2))).length ≤ min limits.maxDfaBytes usizeMax ∧
    ∀ live, computeLiveness (deadTable (u32Max + 2)) (List.replicate (u32Max + 2) false) limits
      ⟨u32Max + 2, u32Max + 2, u32Max + 2⟩ ≠ .ok live :=
  deadTable_refused (Nat.lt_succ_self (u32Max + 1)) (by decide)

end Liveness

/-! ### The compiled automaton -/

theorem CompiledByteDfa.acceptsFrom_iff_leads {dfa : CompiledByteDfa} {s : ℕ} {w : List UInt8}
    (hrange : ∀ row ∈ dfa.transitions, ∀ byte, row byte < dfa.stateCount ∨
      row byte = deadDfaState) :
    dfa.acceptsFrom s w = true ↔
      ∃ t, Leads dfa.transitions s w t ∧ dfa.accepting[t]? = some true := by
  induction w generalizing s with
  | nil =>
    have haccepting : dfa.isAccepting s = true ↔ dfa.accepting[s]? = some true := by
      rw [CompiledByteDfa.isAccepting]
      cases dfa.accepting[s]? <;> simp
    rw [CompiledByteDfa.acceptsFrom, haccepting]
    constructor
    · intro h
      exact ⟨s, .nil s, h⟩
    · rintro ⟨t, hleads, h⟩
      cases hleads
      exact h
  | cons byte w ih =>
    rw [CompiledByteDfa.acceptsFrom]
    constructor
    · intro h
      by_cases hdead : dfa.isDead (dfa.nextState s byte) = true
      · rw [if_pos hdead] at h
        cases h
      · rw [if_neg hdead] at h
        obtain ⟨t, hleads, ht⟩ := ih.1 h
        cases hrow : dfa.transitions[s]? with
        | none =>
          rw [CompiledByteDfa.nextState, hrow] at hdead
          exact absurd rfl hdead
        | some row =>
          have hnext : dfa.nextState s byte = row byte := by
            rw [CompiledByteDfa.nextState, hrow]
          rw [hnext] at hdead hleads
          refine ⟨t, .cons hrow (fun heq => hdead ?_) hleads, ht⟩
          rw [CompiledByteDfa.isDead, heq]
          rfl
    · rintro ⟨t, hleads, ht⟩
      cases hleads with
      | @cons s t row byte w hrow hdead hleads =>
        have hlt := (hrange row (List.mem_of_getElem? hrow) byte).resolve_right hdead
        -- a target below the number of states is not taken for dead
        have hlive : dfa.isDead (row byte) = false := by
          rw [CompiledByteDfa.isDead, Bool.or_eq_false_iff]
          exact ⟨beq_eq_false_iff_ne.2 hdead, decide_eq_false (Nat.not_le.2 hlt)⟩
        have hnext : dfa.nextState s byte = row byte := by
          rw [CompiledByteDfa.nextState, hrow]
        rw [hnext, hlive]
        exact ih.2 ⟨t, hleads, ht⟩

/-- The live flags of a table are exact. -/
theorem CompiledByteDfa.liveExact_of_computeLiveness {dfa : CompiledByteDfa}
    {limits : CompileLimits}
    {capacities : LivenessCapacities} (hlen : dfa.accepting.length = dfa.transitions.length)
    (hrange : ∀ row ∈ dfa.transitions, ∀ byte, row byte < dfa.stateCount ∨ row byte = deadDfaState)
    (h : computeLiveness dfa.transitions dfa.accepting limits capacities = .ok dfa.live) :
    dfa.LiveExact := by
  have hwp : Result.wp (ExceedsLiveness limits capacities dfa.transitions)
      (computeLiveness dfa.transitions dfa.accepting limits capacities) _ :=
    computeLiveness_wp hlen hrange
  rw [h] at hwp
  intro s hs
  have hlive : dfa.isLive s = true ↔ dfa.live[s]? = some true := by
    rw [CompiledByteDfa.isLive]
    cases dfa.live[s]? <;> simp
  rw [hlive, hwp.2 s]
  simp only [acceptsFrom_iff_leads hrange]
  exact Iff.rfl

/-- What `compile_measured` makes of the determinized automaton. -/
def compileDeterminized {σ : Type} [DecidableEq σ] (raw : RawDfa σ) (limits : CompileLimits)
    (capacities : LivenessCapacities) (liveCapacity nfaStates nfaTransitions : ℕ) :
    Except CompileError CompiledByteDfa := do
  let (transitions, accepting) ← renumber raw limits
  let live ← computeLiveness transitions accepting limits capacities
  let memoryBytes := capacities.transitions * 1024 + capacities.accepting + liveCapacity
  Result.require (memoryBytes ≤ usizeMax)
    (.resourceLimitExceeded .dfaDeterminization usizeMax usizeMax)
  enforceCompileLimit .dfaDeterminization memoryBytes limits.maxDfaBytes
  pure {
    transitions := transitions
    accepting := accepting
    live := live
    nfaStates := nfaStates
    nfaTransitions := nfaTransitions
    memoryBytes := memoryBytes }

/-- **What is compiled accepts what the automaton accepts, and its live flags are exact.** -/
theorem compileDeterminized_spec {σ : Type} [DecidableEq σ] {raw : RawDfa σ}
    {limits : CompileLimits}
    {capacities : LivenessCapacities} {liveCapacity nfaStates nfaTransitions : ℕ}
    {dfa : CompiledByteDfa} {R : Finset σ} (hR : raw.Closed R) (hcard : R.card ≤ u32Max)
    (h : compileDeterminized raw limits capacities liveCapacity nfaStates nfaTransitions =
      .ok dfa) :
    dfa.LiveExact ∧ ∀ w, dfa.accepts w = raw.accepts w := by
  obtain ⟨table, htable, h⟩ := Result.bind_eq_ok.1 h
  obtain ⟨live, hlive, h⟩ := Result.bind_eq_ok.1 h
  obtain ⟨_, -, h⟩ := Result.bind_eq_ok.1 h
  obtain ⟨_, -, h⟩ := Result.bind_eq_ok.1 h
  obtain rfl := Result.pure_eq_ok.1 h
  have hwp := Result.wp_ok renumber_wp htable
  obtain ⟨order, horder⟩ := hwp
    { transitions := table.1
      accepting := table.2
      live := live
      nfaStates := nfaStates
      nfaTransitions := nfaTransitions
      memoryBytes := capacities.transitions * 1024 + capacities.accepting + liveCapacity } rfl rfl
  have hlen := (horder.length_le hR).trans hcard
  refine ⟨CompiledByteDfa.liveExact_of_computeLiveness ?_
    (fun row hrow => horder.target_lt hrow) hlive,
    fun w => horder.acceptsFrom_eq hlen horder.getElem?_zero⟩
  rw [horder.accepting, List.length_map, horder.transitions]

end OcEarley
