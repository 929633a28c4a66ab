import OcEarley.Grammar.Terminal
import OcEarley.Vocabulary.Basic

/-!
# Token indexes

An index maps the states of a byte DFA and the ids of a vocabulary to states.  `projectByteDfa`
follows the tokens from every state that they lead to.  Hash maps are association lists, in the
order in which they happen to be iterated.
-/

namespace OcEarley

/-! ### Byte DFAs -/

/-- `trait ByteDfa`. -/
structure ByteDfa (σ : Type) where
  startState : Option σ
  nextState : σ → UInt8 → σ
  isDead : σ → Bool
  isAccepting : σ → Bool
  isLive : σ → Bool
  stableStateId : σ → ℕ

/-- `impl ByteDfa for CompiledByteDfa`. -/
def CompiledByteDfa.byteDfa (dfa : CompiledByteDfa) : ByteDfa ℕ where
  startState := some CompiledByteDfa.startState
  nextState := dfa.nextState
  isDead := dfa.isDead
  isAccepting := dfa.isAccepting
  isLive := dfa.isLive
  stableStateId := id

/-- Whether the automaton is a regex's, or has exact live flags. -/
inductive ProjectionPolicy
  | legacy (regex : String)
  | exact
  deriving DecidableEq, Repr

/-- How an error message names the automaton. -/
def ProjectionPolicy.label : ProjectionPolicy → String
  | legacy regex => regex
  | exact => "certified byte DFA"

/-! ### Indexes -/

/-- The rows list ids of the vocabulary only, whose size was counted first. -/
structure Index where
  initialState : ℕ
  finalStates : Finset ℕ
  transitions : AList fun _ : ℕ => AList fun _ : ℕ => ℕ
  eosTokenId : ℕ
  vocabSize : ℕ
  token_lt : ∀ state row, transitions.lookup state = some row → ∀ token ∈ row.keys,
    token < vocabSize

namespace Index

/-- The state is accepting. -/
def isFinalState (index : Index) (state : ℕ) : Bool := state ∈ index.finalStates

/-- `allowed_tokens_iter`. -/
def allowedTokens (index : Index) (state : ℕ) : Option (List ℕ) :=
  (index.transitions.lookup state).map fun row => row.keys

/-- The state that a token leads to; the end of the sequence leads nowhere. -/
def nextState (index : Index) (state tokenId : ℕ) : Option ℕ :=
  if tokenId = index.eosTokenId then none
  else (index.transitions.lookup state).bind fun row => row.lookup tokenId

end Index

/-- The rows of the states. -/
abbrev TransitionRows : Type := AList fun _ : ℕ => AList fun _ : ℕ => ℕ

/-- The entry of a token id in the row of a state. -/
def target (rows : TransitionRows) (state tokenId : ℕ) : Option ℕ :=
  (rows.lookup state).bind (AList.lookup tokenId)

/-! ### Projection -/

/-- One more than the greatest token id. -/
def vocabularyWidth (vocabulary : Vocabulary) : Except Error ℕ := do
  let ids := vocabulary.tokens.entries.flatMap Sigma.snd
  let maximum := ids.foldl max vocabulary.eosTokenId
  Result.require (maximum + 1 ≤ usizeMax)
    (.compile (.resourceLimitExceeded .vocabularyProjection usizeMax (usizeMax - 1)))
  pure (maximum + 1)

namespace ByteDfa

variable {σ : Type} (dfa : ByteDfa σ)

/-- The state that a token leads to, `none` once a dead state is met. -/
def followToken : σ → List UInt8 → Option σ
  | state, [] => some state
  | state, byte :: token =>
    let next := dfa.nextState state byte
    if dfa.isDead next then none else followToken next token

/-- A byte in the report of an incompatible vocabulary. -/
def byteText (byte : UInt8) : String :=
  if byte.toNat < 128 then String.singleton (Char.ofNat byte.toNat)
  else String.ofList ['\\', 'x', Nat.digitChar (byte.toNat / 16), Nat.digitChar (byte.toNat % 16)]

/-- The bytes with which the state goes on, as an error message shows them. -/
def missingTokens (policy : ProjectionPolicy) (current : σ) : List String :=
  ((List.range 256).filter fun byte =>
    let test := dfa.nextState current (UInt8.ofNat byte)
    match policy with
    | .legacy _ => !dfa.isDead test
    | .exact => !dfa.isDead test && dfa.isLive test).map fun byte => byteText (UInt8.ofNat byte)

/-- The variables of the loop over the states. -/
structure Projection (σ : Type) where
  transitions : TransitionRows
  finalStates : List ℕ
  seen : List σ
  nextStates : List σ
  liveCache : AList fun _ : σ => Bool

variable [DecidableEq σ]

/-- `*live_cache.entry(state).or_insert_with(..)`. -/
def cachedLive (liveCache : AList fun _ : σ => Bool) (state : σ) :
    Bool × AList fun _ : σ => Bool :=
  match liveCache.lookup state with
  | some live => (live, liveCache)
  | none => (dfa.isLive state, liveCache.insert state (dfa.isLive state))

/-- Enter the target of a token id in the row of a state. -/
def addTransition (state next : ℕ) (transitions : TransitionRows) (tokenId : ℕ) :
    Except Error TransitionRows := do
  let row := (transitions.lookup state).getD ∅
  Result.require (∀ existing ∈ row.lookup tokenId, existing = next) (.ambiguousTokenId tokenId)
  pure (transitions.insert state (row.insert tokenId next))

/-- One iteration of the loop over the tokens; the flag is `has_valid_transitions`. -/
def projectToken (current : σ) (acc : Projection σ × Bool)
    (entry : Σ _ : List UInt8, List ℕ) : Except Error (Projection σ × Bool) :=
  match dfa.followToken current entry.1 with
  | none => pure acc
  | some next =>
    let cached := dfa.cachedLive acc.1.liveCache next
    let projection : Projection σ := { acc.1 with liveCache := cached.2 }
    if cached.1 then do
      let transitions ← entry.2.foldlM
        (addTransition (dfa.stableStateId current) (dfa.stableStateId next)) projection.transitions
      let projection : Projection σ := { projection with transitions }
      if next ∈ projection.seen then pure (projection, true)
      else
        pure ({ projection with
          seen := projection.seen ++ [next]
          nextStates := projection.nextStates ++ [next] }, true)
    else pure (projection, acc.2)

/-- `HashSet::insert`. -/
def insertNew (states : List ℕ) (state : ℕ) : List ℕ :=
  if state ∈ states then states else states ++ [state]

/-- One iteration of the loop over the states, for the state that was popped. -/
def projectState (vocabulary : Vocabulary) (policy : ProjectionPolicy) (projection : Projection σ)
    (current : σ) : Except Error (Projection σ) := do
  let accepting := dfa.isAccepting current
  let projection :=
    if accepting then { projection with
      finalStates := insertNew projection.finalStates (dfa.stableStateId current) }
    else projection
  let acc ← vocabulary.tokens.entries.foldlM (dfa.projectToken current) (projection, accepting)
  Result.require (acc.2 || accepting) (.incompatibleVocabulary policy.label
    (dfa.stableStateId current) (dfa.missingTokens policy current))
  pure acc.1

/-- `while let Some(current_state) = next_states.pop()`, with fuel for the states. -/
def projectStates (vocabulary : Vocabulary) (policy : ProjectionPolicy) :
    ℕ → Projection σ → Except Error (Projection σ)
  | fuel, projection =>
    match projection.nextStates.getLast?, fuel with
    | none, _ => pure projection
    | some _, 0 => throw (.compile .diverged)
    | some current, fuel + 1 => do
      let projection ← dfa.projectState vocabulary policy
        { projection with nextStates := projection.nextStates.dropLast } current
      projectStates vocabulary policy fuel projection

/-- The end-of-sequence token leads from every final state to itself. -/
def addEosTransitions (eosTokenId : ℕ) (finalStates : List ℕ) (transitions : TransitionRows) :
    TransitionRows :=
  finalStates.foldl (fun transitions state =>
    transitions.insert state
      (((transitions.lookup state).getD ∅).insert eosTokenId state)) transitions

/-- The fields of an index. -/
structure IndexFields where
  initialState : ℕ
  finalStates : List ℕ
  transitions : TransitionRows
  eosTokenId : ℕ
  vocabSize : ℕ

/-- `Index::project_byte_dfa`. -/
def projectByteDfa (fuel : ℕ) (vocabulary : Vocabulary) (policy : ProjectionPolicy) :
    Except Error IndexFields := do
  let vocabSize ← vocabularyWidth vocabulary
  let eosTokenId := vocabulary.eosTokenId
  let startState ← Result.unwrap dfa.startState .dfaHasNoStartState
  let stableStart := dfa.stableStateId startState
  if policy = .exact ∧ ¬dfa.isLive startState ∧ ¬dfa.isAccepting startState then
    pure {
      initialState := stableStart
      finalStates := []
      transitions := ∅
      eosTokenId
      vocabSize }
  else do
    let projection ← dfa.projectStates vocabulary policy fuel {
      transitions := ∅
      finalStates := []
      seen := [startState]
      nextStates := [startState]
      liveCache := ∅ }
    pure {
      initialState := stableStart
      finalStates := projection.finalStates
      transitions := addEosTransitions eosTokenId projection.finalStates projection.transitions
      eosTokenId
      vocabSize }

end ByteDfa

/-! ### The ids in the rows -/

@[simp] theorem target_empty (state tokenId : ℕ) : target ∅ state tokenId = none := rfl

theorem target_insert (rows : TransitionRows) (state tokenId next s t : ℕ) :
    target (rows.insert state (((rows.lookup state).getD ∅).insert tokenId next)) s t =
      if s = state ∧ t = tokenId then some next else target rows s t := by
  unfold target
  by_cases hs : s = state
  · subst hs
    rw [AList.lookup_insert, Option.bind_some]
    by_cases ht : t = tokenId
    · subst ht
      rw [AList.lookup_insert, if_pos ⟨rfl, rfl⟩]
    · rw [AList.lookup_insert_ne ht, if_neg fun h => ht h.2]
      cases rows.lookup s <;> rfl
  · rw [AList.lookup_insert_ne hs, if_neg fun h => hs h.1]

/-- The rows list ids below the width only. -/
def IdsBelow (width : ℕ) (rows : TransitionRows) : Prop :=
  ∀ s t x, target rows s t = some x → t < width

theorem IdsBelow.insert {width state tokenId next : ℕ} {rows : TransitionRows}
    (h : IdsBelow width rows) (hid : tokenId < width) :
    IdsBelow width
      (rows.insert state (((rows.lookup state).getD ∅).insert tokenId next)) := by
  intro s t x hx
  rw [target_insert] at hx
  split at hx
  · next heq => exact heq.2 ▸ hid
  · exact h s t x hx

namespace ByteDfa

variable {σ : Type} [DecidableEq σ] {dfa : ByteDfa σ} {width : ℕ}

theorem idsBelow_addTransitions {state next : ℕ} {ids : List ℕ} {rows : TransitionRows}
    (h : IdsBelow width rows) (hids : ∀ t ∈ ids, t < width) :
    Result.wp (fun _ => True) (ids.foldlM (addTransition state next) rows) (IdsBelow width) := by
  have hloop := Result.wp_foldlM (E := fun _ => True) (f := addTransition state next)
    (I := fun done rest rows => done ++ rest = ids ∧ IdsBelow width rows)
    (fun done t rest rows hI => ?_) [] ids rows ⟨rfl, h⟩
  · exact Result.wp_mono hloop fun rows hI => hI.2
  · unfold addTransition
    rw [Result.wp_bind, Result.wp_require]
    exact ⟨fun _ => ⟨by simp [hI.1], hI.2.insert (hids t (hI.1 ▸ by simp))⟩, fun _ => trivial⟩

theorem idsBelow_projectToken {current : σ} {acc : Projection σ × Bool}
    {entry : Σ _ : List UInt8, List ℕ} (h : IdsBelow width acc.1.transitions)
    (hids : ∀ t ∈ entry.2, t < width) :
    Result.wp (fun _ => True) (dfa.projectToken current acc entry)
      fun acc' => IdsBelow width acc'.1.transitions := by
  unfold projectToken
  cases dfa.followToken current entry.1 with
  | none => exact h
  | some next =>
    dsimp only
    split
    · rw [Result.wp_bind]
      refine Result.wp_mono (idsBelow_addTransitions h hids) fun rows hrows => ?_
      change Result.wp _ (if _ then _ else _) _
      split <;> exact hrows
    · exact h

variable {vocabulary : Vocabulary} {policy : ProjectionPolicy}

theorem idsBelow_projectStates
    (hids : ∀ entry ∈ vocabulary.tokens.entries, ∀ t ∈ entry.2, t < width) (fuel : ℕ)
    (p : Projection σ) (h : IdsBelow width p.transitions) :
    Result.wp (fun _ => True) (dfa.projectStates vocabulary policy fuel p)
      fun p' => IdsBelow width p'.transitions := by
  induction fuel generalizing p with
  | zero =>
    unfold projectStates
    cases p.nextStates.getLast? with
    | none => exact h
    | some current => trivial
  | succ fuel ih =>
    unfold projectStates
    cases p.nextStates.getLast? with
    | none => exact h
    | some current =>
      dsimp only
      rw [Result.wp_bind]
      unfold projectState
      dsimp only
      rw [Result.wp_bind]
      have hloop := Result.wp_foldlM (E := fun _ => True) (f := dfa.projectToken current)
        (I := fun done rest acc => done ++ rest = vocabulary.tokens.entries ∧
          IdsBelow width acc.1.transitions)
        (fun done entry rest acc hI => Result.wp_mono
          (idsBelow_projectToken hI.2 (hids entry (hI.1 ▸ by simp)))
          fun acc' h' => ⟨by simp [hI.1], h'⟩)
        [] vocabulary.tokens.entries
      refine Result.wp_mono (hloop _ ⟨rfl, ?_⟩) fun acc hacc => ?_
      · split <;> exact h
      · rw [Result.wp_bind, Result.wp_require]
        exact ⟨fun _ => ih _ hacc.2, fun _ => trivial⟩

theorem idsBelow_addEosTransitions {eosTokenId : ℕ} (heos : eosTokenId < width)
    {finalStates : List ℕ} {rows : TransitionRows} (h : IdsBelow width rows) :
    IdsBelow width (addEosTransitions eosTokenId finalStates rows) := by
  unfold addEosTransitions
  induction finalStates generalizing rows with
  | nil => exact h
  | cons state finalStates ih => exact ih (h.insert heos)

theorem le_foldl_max {ids : List ℕ} {m : ℕ} :
    m ≤ ids.foldl max m ∧ ∀ t ∈ ids, t ≤ ids.foldl max m := by
  induction ids generalizing m with
  | nil => simp
  | cons t ids ih =>
    obtain ⟨hm, hids⟩ := ih (m := max m t)
    refine ⟨(le_max_left m t).trans hm, fun t' ht' => ?_⟩
    rcases List.mem_cons.1 ht' with rfl | ht'
    · exact (le_max_right m t').trans hm
    · exact hids t' ht'

/-- The rows of a projection list ids below the width of the vocabulary. -/
theorem idsBelow_projectByteDfa {fuel : ℕ} {fields : IndexFields}
    (h : dfa.projectByteDfa fuel vocabulary policy = .ok fields) :
    IdsBelow fields.vocabSize fields.transitions := by
  obtain ⟨width, hwidth, h⟩ := Result.bind_eq_ok.1 h
  obtain ⟨_, -, hwidth⟩ := Result.bind_eq_ok.1 hwidth
  obtain rfl := Result.pure_eq_ok.1 hwidth
  obtain ⟨start, -, h⟩ := Result.bind_eq_ok.1 h
  dsimp only at h
  split at h
  · obtain rfl := Result.pure_eq_ok.1 h
    exact fun s t x hx => nomatch hx
  · obtain ⟨projection, hp, h⟩ := Result.bind_eq_ok.1 h
    obtain rfl := Result.pure_eq_ok.1 h
    have hids : ∀ entry ∈ vocabulary.tokens.entries, ∀ t ∈ entry.2,
        t < (vocabulary.tokens.entries.flatMap Sigma.snd).foldl max vocabulary.eosTokenId + 1 :=
      fun entry hentry t ht =>
        Nat.lt_succ_of_le (le_foldl_max.2 t (List.mem_flatMap.2 ⟨entry, hentry, ht⟩))
    have hrows : Result.wp (fun _ => True) (dfa.projectStates vocabulary policy fuel
        ⟨∅, [], [start], [start], ∅⟩) fun p' => IdsBelow _ p'.transitions :=
      idsBelow_projectStates hids fuel _ (fun s t x hx => nomatch hx)
    have hbelow := Result.wp_ok hrows hp
    exact idsBelow_addEosTransitions (Nat.lt_succ_of_le le_foldl_max.1) hbelow

end ByteDfa

theorem IdsBelow.token_lt {width : ℕ} {rows : TransitionRows} (h : IdsBelow width rows) :
    ∀ state row, rows.lookup state = some row → ∀ token ∈ row.keys, token < width := by
  intro state row hrow token htoken
  obtain ⟨x, hx⟩ := Option.isSome_iff_exists.1 (AList.lookup_isSome.2 (AList.mem_keys.2 htoken))
  exact h state token x (by rw [target, hrow, Option.bind_some, hx])

/-- `Index::from_certified_dfa`. -/
def Index.fromCertifiedDfa (dfa : CompiledByteDfa) (vocabulary : Vocabulary) :
    Except Error Index :=
  match h : dfa.byteDfa.projectByteDfa (dfa.stateCount + 1) vocabulary .exact with
  | .ok fields => pure {
      initialState := fields.initialState
      finalStates := fields.finalStates.toFinset
      transitions := fields.transitions
      eosTokenId := fields.eosTokenId
      vocabSize := fields.vocabSize
      token_lt := (ByteDfa.idsBelow_projectByteDfa h).token_lt }
  | .error e => throw e

theorem Index.wp_fromCertifiedDfa {dfa : CompiledByteDfa} {vocabulary : Vocabulary}
    {E : Error → Prop} {Q : Index → Prop}
    (h : Result.wp E (dfa.byteDfa.projectByteDfa (dfa.stateCount + 1) vocabulary .exact)
      fun fields => ∀ index : Index, index.initialState = fields.initialState →
        index.finalStates = fields.finalStates.toFinset →
          index.transitions = fields.transitions → index.eosTokenId = fields.eosTokenId →
            Q index) :
    Result.wp E (Index.fromCertifiedDfa dfa vocabulary) Q := by
  unfold Index.fromCertifiedDfa
  split
  · next fields hfields => exact Result.wp_ok h hfields _ rfl rfl rfl rfl
  · next e he =>
    have hE : E e := Result.wp_error h he
    exact hE

end OcEarley
