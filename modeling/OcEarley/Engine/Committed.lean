import OcEarley.Engine.Compile
import OcEarley.Engine.History

/-!
# The bytes of a guide

A guide keeps the bytes of the tokens that it has advanced over, along with their ids.  The bytes
come from the derived vocabulary, which only a parser has: a structural guide keeps track of them
whatever it goes through (`Guide.Replays.spells`), a guide over an index has none.
-/

namespace OcEarley

open Method

namespace Guide

/-- The number of bytes that the guide has committed. -/
def position (self : Guide) : ℕ := self.committedBytes.length

/-- One byte of a fingerprint. -/
def hashByte (hash : UInt64) (byte : UInt8) : UInt64 := (hash ^^^ byte.toUInt64) * 0x100000001b3

/-- `u32::to_le_bytes`. -/
def leBytes (id : ℕ) : List UInt8 :=
  [UInt8.ofNat id, UInt8.ofNat (id / 2 ^ 8), UInt8.ofNat (id / 2 ^ 16), UInt8.ofNat (id / 2 ^ 24)]

/-- The hash of what `state_fingerprint` looks at. -/
def fingerprint (finished : Bool) (ids : List ℕ) (bytes : List UInt8) : UInt64 :=
  let offset : UInt64 := 0xcbf29ce484222324
  bytes.foldl hashByte
    ((ids.flatMap leBytes).foldl hashByte (if finished then offset ^^^ 1 else offset))

/-- The fingerprint of what the guide has committed. -/
def stateFingerprint (self : Guide) : UInt64 :=
  fingerprint self.finished self.committedTokenIds self.committedBytes

end Guide

/-! ### Spelling out token ids -/

namespace Vocabulary

variable {vocabulary : Vocabulary} {ids : List ℕ} {id : ℕ} {bytes token : List UInt8}

/-- The bytes are those of the tokens with these ids, in order. -/
def Spells (vocabulary : Vocabulary) (ids : List ℕ) (bytes : List UInt8) : Prop :=
  ∃ tokens, List.Forall₂ (fun id token => id ∈ vocabulary.ids token) ids tokens ∧
    tokens.flatten = bytes

theorem spells_nil : vocabulary.Spells [] [] := ⟨[], .nil, rfl⟩

theorem Spells.snoc (h : vocabulary.Spells ids bytes) (hid : id ∈ vocabulary.ids token) :
    vocabulary.Spells (ids ++ [id]) (bytes ++ token) := by
  obtain ⟨tokens, htokens, rfl⟩ := h
  exact ⟨tokens ++ [token], List.rel_append htokens (.cons hid .nil), by simp⟩

/-- Only ids of the empty byte string spell nothing. -/
theorem spells_nil_iff : vocabulary.Spells ids [] ↔ ∀ id ∈ ids, id ∈ vocabulary.ids [] := by
  constructor
  · rintro ⟨tokens, htokens, hflat⟩
    rw [List.flatten_eq_nil_iff] at hflat
    induction htokens with
    | nil => exact fun id h => absurd h List.not_mem_nil
    | @cons id token ids tokens hid htokens ih =>
      obtain ⟨rfl, hrest⟩ := List.forall_mem_cons.1 hflat
      exact List.forall_mem_cons.2 ⟨hid, ih hrest⟩
  · intro h
    induction ids using List.reverseRecOn with
    | nil => exact spells_nil
    | append_singleton ids id ih =>
      exact (ih fun id hid => h id (List.mem_append_left _ hid)).snoc (h id (by simp))

end Vocabulary

theorem Index.eosTokenId_of_fromCertifiedDfa {dfa : CompiledByteDfa} {vocabulary : Vocabulary}
    {index : Index}
    (h : Index.fromCertifiedDfa dfa vocabulary = .ok index) :
    index.eosTokenId = vocabulary.eosTokenId := by
  have hfields : Result.wp (fun _ => True)
      (dfa.byteDfa.projectByteDfa (dfa.stateCount + 1) vocabulary .exact)
        fun fields => fields.eosTokenId = vocabulary.eosTokenId := by
    refine Result.wp_self ?_
    cases hrun : dfa.byteDfa.projectByteDfa (dfa.stateCount + 1) vocabulary .exact with
    | error e => trivial
    | ok fields =>
      intro _
      obtain ⟨_, -, hrun⟩ := Result.bind_eq_ok.1 hrun
      obtain ⟨_, -, hrun⟩ := Result.bind_eq_ok.1 hrun
      dsimp only at hrun
      split at hrun
      · obtain rfl := Result.pure_eq_ok.1 hrun
        rfl
      · obtain ⟨_, -, hrun⟩ := Result.bind_eq_ok.1 hrun
        obtain rfl := Result.pure_eq_ok.1 hrun
        rfl
  have hindex : Result.wp (fun _ => True) (Index.fromCertifiedDfa dfa vocabulary)
      fun index => index.eosTokenId = vocabulary.eosTokenId :=
    Index.wp_fromCertifiedDfa (Result.wp_mono hfields fun fields hfields index _ _ _ heos =>
      heos.trans hfields)
  have heos := Result.wp_ok hindex h
  exact heos

namespace Guide

variable {g g' initial r : Guide} {vocabulary : Vocabulary} {tokens : List ℕ}

/-- The committed bytes are those of the committed tokens but for the end of the sequence, and
the position and the fingerprint are made from them. -/
def TracksBytes (vocabulary : Vocabulary) (g : Guide) : Prop :=
  ∃ bytes, vocabulary.Spells (g.committedTokenIds.filter (· ≠ vocabulary.eosTokenId)) bytes ∧
    g.committedBytes = bytes ∧ g.position = bytes.length ∧
      g.stateFingerprint = fingerprint g.finished g.committedTokenIds bytes

theorem tracksBytes_iff : g.TracksBytes vocabulary ↔
    vocabulary.Spells (g.committedTokenIds.filter (· ≠ vocabulary.eosTokenId)) g.committedBytes :=
  ⟨fun ⟨_, hspells, hbytes, _⟩ => hbytes ▸ hspells, fun h => ⟨_, h, rfl, rfl, rfl⟩⟩

/-! ### One token -/

/-- The bytes that the guide knows of a token. -/
def tokenBytes (g : Guide) (token : ℕ) : Option (List UInt8) :=
  g.vocabulary.bind fun vocabulary => vocabulary.sharedBytes token

/-- What a guide commits when it advances. -/
theorem committedBytes_of_advance (hcol : g.runtime.HasColumn) {token : ℕ}
    (h : advance token g = .ok () g') :
    (token = g.eosTokenId ∧ g'.committedBytes = g.committedBytes) ∨
      (token ≠ g.eosTokenId ∧
        g'.committedBytes = g.committedBytes ++ (g.tokenBytes token).getD [] ∧
          ∀ recognizer, g.runtime = .structural recognizer →
            (g.tokenBytes token).isSome = true) := by
  unfold advance enforceRuntimeLimit at h
  rw [get_bind_apply] at h
  dsimp only at h
  obtain ⟨_, s, hs, h⟩ := bind_eq_ok.1 h
  obtain ⟨-, rfl⟩ := require_eq_ok.1 hs
  obtain ⟨_, s, hs, h⟩ := bind_eq_ok.1 h
  obtain ⟨-, rfl⟩ := require_eq_ok.1 hs
  obtain ⟨_, s, hs, h⟩ := bind_eq_ok.1 h
  obtain ⟨-, rfl⟩ := require_eq_ok.1 hs
  have hcommit : ∀ {c : GuideCheckpoint} {bytes : List UInt8} {t : Guide},
      commit c token bytes t = .ok () g' → g'.committedBytes = t.committedBytes ++ bytes := by
    intro c bytes t hc
    obtain ⟨t', ht', -, -, -, hbytes, -⟩ := commit_eq_ok c token bytes t
    obtain ⟨-, rfl⟩ := EStateM.Result.ok.inj (ht'.symm.trans hc)
    exact hbytes
  split at h
  · next htoken =>
    obtain ⟨_, s', hs', h⟩ := bind_eq_ok.1 h
    obtain ⟨-, rfl⟩ := require_eq_ok.1 hs'
    rw [bind_of_ok modify_apply] at h
    exact .inl ⟨htoken, (hcommit h).trans (List.append_nil _)⟩
  · next htoken =>
    -- the runtime moves, the log of the bytes does not
    have hrest : (do
        advanceRuntime token (g.tokenBytes token)
        commit g.checkpoint token ((g.tokenBytes token).getD []) :
          Method RuntimeError Guide Unit) g =
          .ok () g' → g'.committedBytes = g.committedBytes ++ (g.tokenBytes token).getD [] := by
      intro h
      obtain ⟨_, u, hu, h⟩ := bind_eq_ok.1 h
      rcases advanceRuntime_spec hcol token (g.tokenBytes token) with ⟨e, herr⟩ | ⟨runtime, -, hok⟩
      · cases hu.symm.trans herr
      · obtain ⟨-, rfl⟩ := EStateM.Result.ok.inj (hu.symm.trans hok)
        have hbytes := hcommit h
        exact hbytes
    cases hruntime : g.runtime with
    | dfa index state =>
      rw [hruntime] at h
      refine .inr ⟨htoken, hrest h, fun recognizer hstructural => ?_⟩
      cases hstructural
    | structural recognizer =>
      rw [hruntime] at h
      obtain ⟨_, t, ht, h⟩ := bind_eq_ok.1 h
      obtain ⟨hsome, rfl⟩ := require_eq_ok.1 ht
      exact .inr ⟨htoken, hrest h, fun _ _ => hsome⟩

/-- A guide over an index is able to advance over a token that does not end the sequence. -/
structure Admits (g : Guide) (token : ℕ) : Prop where
  unfinished : g.finished = false
  size : g.committedTokenIds.length + 1 ≤ usizeMax
  limit : g.committedTokenIds.length + 1 ≤ g.limits.maxCommittedTokens
  next : ∃ index state, g.runtime = .dfa index state ∧ (index.nextState state token).isSome = true

theorem exists_advance_dfa {index : Index} {state token : ℕ}
    (hruntime : g.runtime = .dfa index state)
    (htoken : token ≠ g.eosTokenId) : (∃ g', advance token g = .ok () g') ↔ g.Admits token := by
  -- an automaton has no vocabulary to ask for the bytes of the token
  have hunfold : advance token g = (do
      Method.require (g.finished = false) .guideFinished
      Method.require (g.committedTokenIds.length + 1 ≤ usizeMax)
        (.resourceLimitExceeded .committedTokens usizeMax g.limits.maxCommittedTokens)
      Method.require (g.committedTokenIds.length + 1 ≤ g.limits.maxCommittedTokens)
        (.resourceLimitExceeded .committedTokens (g.committedTokenIds.length + 1)
          g.limits.maxCommittedTokens)
      advanceRuntime token (g.tokenBytes token)
      commit g.checkpoint token ((g.tokenBytes token).getD []) :
        Method RuntimeError Guide Unit) g := by
    unfold advance enforceRuntimeLimit
    rw [bind_of_ok get_apply, if_neg htoken]
    simp only [hruntime]
    rfl
  have hmoves : ∀ next, index.nextState state token = some next →
      advanceRuntime token (g.tokenBytes token) g = .ok ()
        { g with runtime := .dfa index next } := by
    intro next hnext
    unfold advanceRuntime
    rw [bind_of_ok get_apply, hruntime]
    exact bind_of_ok (unwrap_eq_ok.2 ⟨hnext, rfl⟩)
  rw [hunfold]
  constructor
  · rintro ⟨g', h⟩
    obtain ⟨_, s, hs, h⟩ := bind_eq_ok.1 h
    obtain ⟨hunfinished, rfl⟩ := require_eq_ok.1 hs
    obtain ⟨_, s, hs, h⟩ := bind_eq_ok.1 h
    obtain ⟨hsize, rfl⟩ := require_eq_ok.1 hs
    obtain ⟨_, s, hs, h⟩ := bind_eq_ok.1 h
    obtain ⟨hlimit, rfl⟩ := require_eq_ok.1 hs
    refine ⟨hunfinished, hsize, hlimit, index, state, hruntime, ?_⟩
    obtain ⟨_, t, ht, -⟩ := bind_eq_ok.1 h
    unfold advanceRuntime at ht
    rw [get_bind_apply, hruntime] at ht
    obtain ⟨next, u, hu, -⟩ := bind_eq_ok.1 ht
    exact Option.isSome_iff_exists.2 ⟨next, (unwrap_eq_ok.1 hu).1⟩
  · rintro ⟨hunfinished, hsize, hlimit, index', state', hruntime', hsome⟩
    obtain ⟨rfl, rfl⟩ := GuideRuntime.dfa.inj (hruntime.symm.trans hruntime')
    obtain ⟨next, hnext⟩ := Option.isSome_iff_exists.1 hsome
    obtain ⟨g', hcommit, -⟩ := commit_eq_ok g.checkpoint token ((g.tokenBytes token).getD [])
      { g with runtime := .dfa index next }
    refine ⟨g', ?_⟩
    rw [bind_of_ok (require_of hunfinished), bind_of_ok (require_of hsize),
      bind_of_ok (require_of hlimit), bind_of_ok (hmoves next hnext)]
    exact hcommit

/-! ### Guides of a compiled vocabulary -/

/-- Where the guide has its token ids from: a derived vocabulary or an index. -/
inductive MadeFor (vocabulary : Vocabulary) (g : Guide) : Prop
  | dfa {index : Index} {state : ℕ} (hruntime : g.runtime = .dfa index state)
    (hvocabulary : g.vocabulary = none) (heos : g.eosTokenId = vocabulary.eosTokenId)
    (hindex : index.eosTokenId = vocabulary.eosTokenId) : MadeFor vocabulary g
  | structural {recognizer : RecognizerState} {derived : DerivedVocabulary}
    (hruntime : g.runtime = .structural recognizer) (hvocabulary : g.vocabulary = some derived)
    (heos : g.eosTokenId = vocabulary.eosTokenId) (hderived : derived.Represents vocabulary) :
    MadeFor vocabulary g

theorem MadeFor.eosTokenId (h : g.MadeFor vocabulary) : g.eosTokenId = vocabulary.eosTokenId := by
  cases h with
  | dfa _ _ heos _ => exact heos
  | structural _ _ heos _ => exact heos

theorem MadeFor.of_setting (h : g.MadeFor vocabulary) (hset : SameSetting g g')
    (hext : g.runtime.Extends g'.runtime) : g'.MadeFor vocabulary := by
  cases h with
  | dfa hruntime hvocabulary heos hindex =>
    rw [hruntime] at hext
    generalize hg' : g'.runtime = runtime at hext
    cases hext
    exact .dfa hg' (hset.vocabulary.trans hvocabulary) (hset.eosTokenId.trans heos) hindex
  | structural hruntime hvocabulary heos hderived =>
    rw [hruntime] at hext
    generalize hg' : g'.runtime = runtime at hext
    cases hext
    exact .structural hg' (hset.vocabulary.trans hvocabulary) (hset.eosTokenId.trans heos) hderived

theorem madeFor_fromCompiled {prepared : PreparedBackend} {compileLimits : CompileLimits}
    {compiled : CompiledSchema} {maxRollback generation : ℕ} {limits : RuntimeLimits}
    (hcompiled : CompiledSchema.ofPrepared prepared vocabulary compileLimits = .ok compiled)
    (hguide : Guide.fromCompiled compiled maxRollback limits generation = .ok g) :
    g.MadeFor vocabulary := by
  obtain ⟨-, -, hguide⟩ := Result.bind_eq_ok.1 hguide
  cases CompiledSchema.ofPrepared_eq_ok hcompiled with
  | dfa hprepared hindex hbackend =>
    rw [hbackend] at hguide
    obtain rfl := Result.pure_eq_ok.1 hguide
    have heos := Index.eosTokenId_of_fromCertifiedDfa hindex
    exact .dfa rfl rfl heos heos
  | structural hprepared hbackend hbuild hvocabulary =>
    split at hguide
    · next index hindex => exact absurd hindex (hbackend index)
    · obtain ⟨derived, hderived, hguide⟩ := Result.bind_eq_ok.1 hguide
      obtain ⟨recognizer, -, hguide⟩ := Result.bind_eq_ok.1 hguide
      obtain rfl := Result.pure_eq_ok.1 hguide
      obtain rfl := Option.some.inj (hvocabulary.symm.trans (Result.unwrap_eq_ok.1 hderived))
      have hrepresents := DerivedVocabulary.build_spec hbuild
      exact .structural rfl rfl hrepresents.eosTokenId hrepresents

/-! ### Replays -/

theorem filter_ne_snoc_eq (ids : List ℕ) (eos : ℕ) :
    (ids ++ [eos]).filter (· ≠ eos) = ids.filter (· ≠ eos) := by simp

theorem filter_ne_snoc_ne {ids : List ℕ} {token eos : ℕ} (h : token ≠ eos) :
    (ids ++ [token]).filter (· ≠ eos) = ids.filter (· ≠ eos) ++ [token] := by simp [h]

/-- A structural guide commits the bytes of the tokens. -/
theorem Replays.spells (hmade : initial.MadeFor vocabulary) (hcol : initial.runtime.HasColumn)
    {recognizer : RecognizerState} (hstructural : initial.runtime = .structural recognizer)
    (hbytes : initial.committedBytes = []) (h : initial.Replays tokens r) :
    vocabulary.Spells (tokens.filter (· ≠ vocabulary.eosTokenId)) r.committedBytes := by
  induction tokens using List.reverseRecOn generalizing r with
  | nil =>
    obtain rfl := h
    rw [hbytes]
    exact Vocabulary.spells_nil
  | append_singleton tokens token ih =>
    obtain ⟨t, ht, u, hadv, rfl⟩ := replays_append.1 h
    have hahead := ht.ahead hcol
    have hspells := ih ht
    cases hmade.of_setting hahead.toSameSetting hahead.runtime with
    | dfa hruntime _ _ _ =>
      have hext := hahead.runtime
      rw [hstructural, hruntime] at hext
      cases hext
    | structural hruntime hvocabulary heos hderived =>
      rcases committedBytes_of_advance (hahead.runtime.hasColumn hcol) hadv with
        ⟨htoken, hcommitted⟩ | ⟨htoken, hcommitted, hsome⟩
      · rw [htoken, heos, filter_ne_snoc_eq, hcommitted]
        exact hspells
      · obtain ⟨bytes, hshared⟩ := Option.isSome_iff_exists.1 (hsome _ hruntime)
        rw [filter_ne_snoc_ne (heos ▸ htoken), hcommitted, hshared, Option.getD_some]
        rw [tokenBytes, hvocabulary, Option.bind_some] at hshared
        exact hspells.snoc ((hderived.sharedBytes_iff token bytes).1 hshared)

/-- A guide over an index commits no bytes. -/
theorem Replays.committedBytes_dfa (hmade : initial.MadeFor vocabulary)
    (hcol : initial.runtime.HasColumn) {index : Index} {state : ℕ}
    (hdfa : initial.runtime = .dfa index state) (hbytes : initial.committedBytes = [])
    (h : initial.Replays tokens r) : r.committedBytes = [] := by
  induction tokens using List.reverseRecOn generalizing r with
  | nil =>
    obtain rfl := h
    exact hbytes
  | append_singleton tokens token ih =>
    obtain ⟨t, ht, u, hadv, rfl⟩ := replays_append.1 h
    have hahead := ht.ahead hcol
    cases hmade.of_setting hahead.toSameSetting hahead.runtime with
    | structural hruntime _ _ _ =>
      have hext := hahead.runtime
      rw [hdfa, hruntime] at hext
      cases hext
    | dfa hruntime hvocabulary _ _ =>
      rcases committedBytes_of_advance (hahead.runtime.hasColumn hcol) hadv with
        ⟨-, hcommitted⟩ | ⟨-, hcommitted, -⟩
      · rw [hcommitted, ih ht]
      · rw [hcommitted, ih ht, tokenBytes, hvocabulary]
        rfl

/-! ### Runs -/

theorem after_take_succ {ops : List GuideOp} {n : ℕ} {op : GuideOp} (h : ops[n]? = some op) :
    g.after (ops.take (n + 1)) = GuideOp.step (g.after (ops.take n)) op := by
  unfold after
  rw [List.take_add_one, h, Option.toList_some, List.foldl_append]
  rfl

/-- A token id is committed by advancing over it only. -/
theorem mem_committedTokenIds_step (hinitial : initial.Started) (h : Replayed initial g)
    {op : GuideOp} {id : ℕ} (hid : id ∈ (GuideOp.step g op).committedTokenIds) :
    id ∈ g.committedTokenIds ∨ op = .advance id ∧ ∃ g', advance id g = .ok () g' := by
  have hg := h.sound hinitial
  unfold GuideOp.step at hid
  cases op with
  | advance token =>
    -- only a call of `advance` that succeeds adds a token; masks leave the tokens alone
    have hspec := advance_spec hg.column token
    rw [GuideOp.run] at hid
    cases hrun : advance token g with
    | error e t =>
      rw [hrun] at hspec hid
      cases hspec
      exact .inl hid
    | ok u t =>
      rw [hrun] at hspec hid
      cases hspec with
      | advanced hadv =>
        rw [stateOf_ok, hadv.committedTokenIds] at hid
        rcases List.mem_append.1 hid with hid | hid
        · exact .inl hid
        · obtain rfl := List.mem_singleton.1 hid
          exact .inr ⟨rfl, t, hrun⟩
  | fillMask destination =>
    rw [GuideOp.run, GuideOp.stateOf_ignore,
      (fillMask_frame hg.column destination).1.committedTokenIds] at hid
    exact .inl hid
  | getTokens =>
    rw [GuideOp.run, GuideOp.stateOf_ignore, stateOf_getTokens,
      (fillMask_frame hg.column _).1.committedTokenIds] at hid
    exact .inl hid
  | rollback count =>
    rw [GuideOp.run] at hid
    cases hrun : Guide.rollback count g with
    | error e t =>
      have hop : GuideOp.run (.rollback count) g = .error e t := hrun
      have hsame := (h.failed hinitial hop).1
      rw [hrun, stateOf_error, hsame.committedTokenIds] at hid
      exact .inl hid
    | ok u t =>
      refine .inl ?_
      rw [hrun, stateOf_ok] at hid
      -- a rollback goes back to a prefix of the tokens
      by_cases hzero : count = 0
      · subst hzero
        obtain ⟨-, rfl⟩ := EStateM.Result.ok.inj hrun
        exact hid
      by_cases hcount : count ≤ g.history.length
      · obtain ⟨r, t', hok, hr, hcore, -⟩ := h.rollback_eq_ok hinitial hcount hzero
        obtain ⟨-, rfl⟩ := EStateM.Result.ok.inj (hok.symm.trans hrun)
        rw [hcore.committedTokenIds, hr.committedTokenIds hinitial] at hid
        exact List.mem_of_mem_take hid
      · unfold Guide.rollback at hrun
        rw [bind_of_ok get_apply, if_neg hzero, bind_of_error (require_of_not hcount)] at hrun
        cases hrun
  | reset =>
    obtain ⟨t, hok, hcore, -⟩ := h.reset hinitial
    rw [GuideOp.run, hok, stateOf_ok, hcore.committedTokenIds, hinitial.committedTokenIds] at hid
    exact absurd hid List.not_mem_nil

/-- The step advances a guide over an index along a token that has bytes. -/
def DropsBytes (vocabulary : Vocabulary) (g : Guide) : GuideOp → Prop
  | .advance token => g.Admits token ∧ token ≠ vocabulary.eosTokenId ∧ token ∉ vocabulary.ids []
  | _ => False

variable {ops : List GuideOp}

theorem Replayed.tracksBytes_structural (hinitial : initial.Started)
    (hmade : initial.MadeFor vocabulary) {recognizer : RecognizerState}
    (hstructural : initial.runtime = .structural recognizer) (hbytes : initial.committedBytes = [])
    (h : Replayed initial g) : g.TracksBytes vocabulary := by
  obtain ⟨r, hr, hcore⟩ := h.replays
  rw [tracksBytes_iff, hcore.committedBytes]
  exact hr.spells hmade hinitial.column hstructural hbytes

theorem Replayed.tracksBytes_dfa (hinitial : initial.Started) (hmade : initial.MadeFor vocabulary)
    {index : Index} {state : ℕ} (hdfa : initial.runtime = .dfa index state)
    (hbytes : initial.committedBytes = []) (h : Replayed initial g) :
    g.TracksBytes vocabulary ↔
      ∀ id ∈ g.committedTokenIds, id ≠ vocabulary.eosTokenId → id ∈ vocabulary.ids [] := by
  obtain ⟨r, hr, hcore⟩ := h.replays
  rw [tracksBytes_iff, hcore.committedBytes,
    hr.committedBytes_dfa hmade hinitial.column hdfa hbytes, Vocabulary.spells_nil_iff]
  simp only [List.mem_filter, decide_eq_true_iff, and_imp]

theorem Replayed.runtime_extends (hinitial : initial.Started) (h : Replayed initial g) :
    SameSetting initial g ∧ initial.runtime.Extends g.runtime := by
  obtain ⟨r, hr, hcore⟩ := h.replays
  have hahead := hr.ahead hinitial.column
  exact ⟨hahead.toSameSetting.trans hcore.toSameSetting, hcore.runtime ▸ hahead.runtime⟩

/-- A structural guide drops no bytes. -/
theorem Replayed.not_dropsBytes (hinitial : initial.Started) {recognizer : RecognizerState}
    (hstructural : initial.runtime = .structural recognizer) (h : Replayed initial g)
    (op : GuideOp) : ¬g.DropsBytes vocabulary op := by
  have hext := (h.runtime_extends hinitial).2
  cases op with
  | advance token =>
    rintro ⟨⟨-, -, -, index, state, hruntime, -⟩, -⟩
    rw [hstructural, hruntime] at hext
    cases hext
  | fillMask | getTokens | rollback | reset => exact id

/-- Along a run of a guide over an index. -/
theorem tracksBytes_dfa_iff (hinitial : initial.Started) (hmade : initial.MadeFor vocabulary)
    {index : Index} {state : ℕ} (hdfa : initial.runtime = .dfa index state)
    (hbytes : initial.committedBytes = []) :
    (∀ n, (initial.after (ops.take n)).TracksBytes vocabulary) ↔
      ∀ n op, ops[n]? = some op → ¬(initial.after (ops.take n)).DropsBytes vocabulary op := by
  have hreplayed : ∀ n, Replayed initial (initial.after (ops.take n)) := fun n =>
    hinitial.replayed.after hinitial _
  have heos : ∀ n, (initial.after (ops.take n)).eosTokenId = vocabulary.eosTokenId := fun n =>
    ((hreplayed n).runtime_extends hinitial).1.eosTokenId.trans hmade.eosTokenId
  have hruntime : ∀ n, ∃ state, (initial.after (ops.take n)).runtime = .dfa index state := by
    intro n
    have hext := ((hreplayed n).runtime_extends hinitial).2
    rw [hdfa] at hext
    generalize (initial.after (ops.take n)).runtime = runtime at hext
    cases hext
    exact ⟨_, rfl⟩
  -- a guide of an automaton has no bytes, so no token that it has committed may have any
  simp only [fun n => (hreplayed n).tracksBytes_dfa hinitial hmade hdfa hbytes]
  constructor
  · intro h n op hop hdrops
    cases op with
    | advance token =>
      obtain ⟨hadmits, htoken, hnil⟩ := hdrops
      obtain ⟨state, hstate⟩ := hruntime n
      obtain ⟨g', hg'⟩ := (exists_advance_dfa hstate (heos n ▸ htoken)).2 hadmits
      have hadv := advanced_of_ok ((hreplayed n).sound hinitial).column hg'
      refine hnil (h (n + 1) token ?_ htoken)
      rw [after_take_succ hop, GuideOp.step, GuideOp.run, hg', stateOf_ok, hadv.committedTokenIds]
      exact List.mem_append_right _ (List.mem_singleton_self token)
    | fillMask | getTokens | rollback | reset => exact hdrops
  · intro h n
    induction n with
    | zero =>
      intro id hid
      rw [List.take_zero, after, List.foldl_nil, hinitial.committedTokenIds] at hid
      exact absurd hid List.not_mem_nil
    | succ n ih =>
      intro id hid hne
      cases hop : ops[n]? with
      | none =>
        rw [List.take_of_length_le (Nat.le_succ_of_le (List.getElem?_eq_none_iff.1 hop)),
          ← List.take_of_length_le (List.getElem?_eq_none_iff.1 hop)] at hid
        exact ih id hid hne
      | some op =>
        rw [after_take_succ hop] at hid
        rcases mem_committedTokenIds_step hinitial (hreplayed n) hid with hid | ⟨rfl, hadv⟩
        · exact ih id hid hne
        · obtain ⟨state, hstate⟩ := hruntime n
          have hadmits := (exists_advance_dfa hstate (heos n ▸ hne)).1 hadv
          by_contra hnil
          exact h n _ hop ⟨hadmits, hne, hnil⟩

end Guide

/-- **When the committed bytes are those of the committed tokens.**  In every state of a run they
are, exactly if no step of it advances a guide over an index along a token that has bytes: a guide
with a parser always keeps them. -/
theorem committed_bytes_track {vocabulary : Vocabulary} {prepared : PreparedBackend}
    {compileLimits : CompileLimits} {compiled : CompiledSchema} {maxRollback generation : ℕ}
    {limits : RuntimeLimits} {g : Guide}
    (hcompiled : CompiledSchema.ofPrepared prepared vocabulary compileLimits = .ok compiled)
    (hguide : Guide.fromCompiled compiled maxRollback limits generation = .ok g)
    (ops : List GuideOp) :
    (∀ n, (g.after (ops.take n)).TracksBytes vocabulary) ↔
      ∀ n op, ops[n]? = some op → ¬(g.after (ops.take n)).DropsBytes vocabulary op := by
  have hstarted := (Guide.Fresh.fromCompiled hguide).started
  have hmade := Guide.madeFor_fromCompiled hcompiled hguide
  have hbytes : g.committedBytes = [] := by
    obtain ⟨-, -, hguide⟩ := Result.bind_eq_ok.1 hguide
    split at hguide
    · obtain rfl := Result.pure_eq_ok.1 hguide
      rfl
    · obtain ⟨_, -, hguide⟩ := Result.bind_eq_ok.1 hguide
      obtain ⟨_, -, hguide⟩ := Result.bind_eq_ok.1 hguide
      obtain rfl := Result.pure_eq_ok.1 hguide
      rfl
  cases hruntime : g.runtime with
  | dfa index state => exact Guide.tracksBytes_dfa_iff hstarted hmade hruntime hbytes
  | structural recognizer =>
    have hreplayed : ∀ n, Guide.Replayed g (g.after (ops.take n)) := fun n =>
      hstarted.replayed.after hstarted _
    exact iff_of_true
      (fun n => (hreplayed n).tracksBytes_structural hstarted hmade hruntime hbytes)
      (fun n op _ => (hreplayed n).not_dropsBytes hstarted hruntime op)

/-! ### The guide of `{"const": 1}` -/

/-- The automaton of `1`. -/
def oneDfa : CompiledByteDfa where
  transitions := [fun b => if b = 49 then 1 else deadDfaState, fun _ => deadDfaState]
  accepting := [false, true]
  live := [true, true]
  nfaStates := 0
  nfaTransitions := 0
  memoryBytes := 0

/-- The token `1` and the end of the sequence. -/
def oneVocabulary : Vocabulary where
  eosTokenId := 1
  tokens := ⟨[⟨[49], [0]⟩], (by decide : [[(49 : UInt8)]].Nodup)⟩
  eos_notMem := by decide
  nodup_ids := by decide

theorem exists_guide_one : ∃ compiled g,
    CompiledSchema.ofPrepared (.dfa oneDfa) oneVocabulary .default = .ok compiled ∧
      Guide.fromCompiled compiled 0 .default 0 = .ok g ∧
        (g.after [.advance 0]).committedTokenIds = [0] ∧
          (g.after [.advance 0]).committedBytes = [] :=
  ⟨_, _, rfl, rfl, rfl, rfl⟩

theorem committed_bytes_track_one : ∃ compiled g,
    CompiledSchema.ofPrepared (.dfa oneDfa) oneVocabulary .default = .ok compiled ∧
      Guide.fromCompiled compiled 0 .default 0 = .ok g ∧
        ((∀ n, (g.after (List.take n [.advance 0])).TracksBytes oneVocabulary) ↔
          ∀ n op, ([.advance 0] : List GuideOp)[n]? = some op →
            ¬(g.after (List.take n [.advance 0])).DropsBytes oneVocabulary op) := by
  obtain ⟨compiled, g, hcompiled, hguide, -⟩ := exists_guide_one
  exact ⟨compiled, g, hcompiled, hguide, committed_bytes_track hcompiled hguide _⟩

/-- After `1` no bytes are committed. -/
theorem dropped_bytes : ¬∀ (vocabulary : Vocabulary) (prepared : PreparedBackend)
    (compileLimits : CompileLimits) (compiled : CompiledSchema) (maxRollback generation : ℕ)
    (limits : RuntimeLimits) (g : Guide),
    CompiledSchema.ofPrepared prepared vocabulary compileLimits = .ok compiled →
      Guide.fromCompiled compiled maxRollback limits generation = .ok g →
        ∀ ops, (g.after ops).TracksBytes vocabulary := by
  intro h
  obtain ⟨compiled, g, hcompiled, hguide, hids, hdrops⟩ := exists_guide_one
  have htracks := h _ _ _ _ _ _ _ _ hcompiled hguide [.advance 0]
  rw [Guide.tracksBytes_iff, hids, hdrops, Vocabulary.spells_nil_iff] at htracks
  exact absurd (htracks 0 (by decide)) (by decide)

end OcEarley
