import Mathlib.Computability.Language
import OcEarley.Base.Error

/-!
# Compiled terminals

A terminal of the residual grammar is a literal or a byte DFA, and is read one byte at a time
through a cursor.  `CompiledTerminal.language` is what the terminal stands for;
`mem_language_iff_runFrom` says that the cursor decides it, as long as the words stay below
`2 ^ 32` bytes, where the offset of a literal would stop being a `u32`.
-/

namespace OcEarley

/-- All bytes in ascending order. -/
def allBytes : List UInt8 := (List.range 256).map UInt8.ofNat

theorem mem_allBytes (b : UInt8) : b ∈ allBytes :=
  List.mem_map.2 ⟨b.toNat, List.mem_range.2 b.toNat_lt, UInt8.ofNat_toNat⟩

/-- The state `DEAD_DFA_STATE` that rejects whatever follows. -/
def deadDfaState : ℕ := u32Max

/-- An automaton over bytes with its tables.  What leads nowhere goes to `deadDfaState`. -/
structure CompiledByteDfa where
  /-- One row of 256 targets for each state. -/
  transitions : List (UInt8 → ℕ)
  accepting : List Bool
  live : List Bool
  nfaStates : ℕ
  nfaTransitions : ℕ
  memoryBytes : ℕ

namespace CompiledByteDfa

variable (dfa : CompiledByteDfa)

/-- The states are numbered from the start state on. -/
def startState : ℕ := 0

/-- The state that a byte leads to. -/
def nextState (state : ℕ) (byte : UInt8) : ℕ :=
  match dfa.transitions[state]? with
  | some row => row byte
  | none => deadDfaState

/-- The state is the dead one, or out of range. -/
def isDead (state : ℕ) : Bool := state == deadDfaState || dfa.transitions.length ≤ state

/-- The state is accepting. -/
def isAccepting (state : ℕ) : Bool := dfa.accepting[state]?.getD false

/-- Some word leads from the state to an accepting one, as `compute_liveness` has found. -/
def isLive (state : ℕ) : Bool := dfa.live[state]?.getD false

/-- The number of states. -/
def stateCount : ℕ := dfa.transitions.length

/-- The loop of `accepts` from a state onwards. -/
def acceptsFrom (state : ℕ) : List UInt8 → Bool
  | [] => dfa.isAccepting state
  | byte :: bytes =>
    let state := dfa.nextState state byte
    if dfa.isDead state then false else acceptsFrom state bytes

/-- The automaton accepts the bytes. -/
def accepts (bytes : List UInt8) : Bool := dfa.acceptsFrom startState bytes

/-- The live flags say which states can still reach an accepting one. -/
def LiveExact : Prop :=
  ∀ state < dfa.stateCount, dfa.isLive state = true ↔ ∃ w, dfa.acceptsFrom state w = true

variable {dfa}

theorem lt_of_isDead_eq_false {state : ℕ} (h : dfa.isDead state = false) :
    state < dfa.stateCount := by
  simp only [isDead, Bool.or_eq_false_iff, decide_eq_false_iff_not, not_le] at h
  exact h.2

end CompiledByteDfa

/-- How far a terminal has been read: the bytes of a literal, or the state of an automaton. -/
inductive TerminalCursorState
  | literal (offset : ℕ)
  | dfa (state : ℕ)
  deriving DecidableEq, Repr

/-- A terminal of a residual grammar. -/
inductive CompiledTerminal
  | literal (bytes : List UInt8)
  | dfa (automaton : CompiledByteDfa)

namespace CompiledTerminal

/-- The cursor before the first byte. -/
def start : CompiledTerminal → TerminalCursorState
  | literal _ => .literal 0
  | dfa _ => .dfa CompiledByteDfa.startState

/-- The cursor after one more byte, if the terminal may go on with it. -/
def advance : CompiledTerminal → TerminalCursorState → UInt8 → Option TerminalCursorState
  | literal bytes, .literal offset, byte =>
    match bytes[offset]? with
    | none => none
    | some found =>
      if found ≠ byte then none
      else if offset + 1 ≤ u32Max then some (.literal (offset + 1)) else none
  | dfa d, .dfa state, byte =>
    let next := d.nextState state byte
    if d.isDead next then none else some (.dfa next)
  | _, _, _ => none

/-- What has been read is a whole word of the terminal. -/
def isAccepting : CompiledTerminal → TerminalCursorState → Bool
  | literal bytes, .literal offset => offset == bytes.length
  | dfa d, .dfa state => d.isAccepting state
  | _, _ => false

/-- What has been read can be completed to a word of the terminal. -/
def isLive : CompiledTerminal → TerminalCursorState → Bool
  | literal bytes, .literal offset => offset < bytes.length
  | dfa d, .dfa state => d.isLive state
  | _, _ => false

/-- The empty string is a word of the terminal. -/
def acceptsEmpty (t : CompiledTerminal) : Bool := t.isAccepting t.start

/-- The byte strings of the terminal. -/
def language : CompiledTerminal → Language UInt8
  | literal bytes => {bytes}
  | dfa d => {w | d.accepts w = true}

/-- The live flags of the terminal say which cursors can still reach an accepting one. -/
def LiveExact : CompiledTerminal → Prop
  | literal _ => True
  | dfa d => d.LiveExact

/-! ### Reading a word -/

/-- The cursor moved over a word. -/
def runFrom (t : CompiledTerminal) (cursor : TerminalCursorState) (w : List UInt8) :
    Option TerminalCursorState :=
  w.foldlM t.advance cursor

variable {t : CompiledTerminal} {cursor c c' : TerminalCursorState} {v w : List UInt8} {b : UInt8}

@[simp] theorem runFrom_nil : t.runFrom cursor [] = some cursor := rfl

theorem runFrom_cons :
    t.runFrom cursor (b :: w) = (t.advance cursor b).bind fun c => t.runFrom c w := rfl

theorem runFrom_append :
    t.runFrom cursor (v ++ w) = (t.runFrom cursor v).bind fun c => t.runFrom c w :=
  List.foldlM_append

theorem runFrom_snoc :
    t.runFrom cursor (w ++ [b]) = (t.runFrom cursor w).bind fun c => t.advance c b := by
  rw [runFrom_append]
  congr 1
  funext c
  rw [runFrom_cons]
  cases t.advance c b <;> rfl

theorem runFrom_literal_iff_of {bytes : List UInt8} {offset : ℕ}
    (h : offset + w.length ≤ u32Max ∨ bytes.length ≤ u32Max) :
    (literal bytes).runFrom (.literal offset) w = some c ↔
      c = .literal (offset + w.length) ∧ w <+: bytes.drop offset := by
  induction w generalizing offset with
  | nil => simp [eq_comm]
  | cons b w ih =>
    rw [List.length_cons] at h ⊢
    rw [runFrom_cons, advance]
    rcases hb : bytes[offset]? with _ | found
    · have : bytes.drop offset = [] := List.drop_eq_nil_of_le (List.getElem?_eq_none_iff.1 hb)
      simp [this]
    · obtain ⟨hlt, hget⟩ := List.getElem?_eq_some_iff.1 hb
      rw [List.drop_eq_getElem_cons hlt, hget, List.cons_prefix_cons]
      change (if found ≠ b then none else if offset + 1 ≤ u32Max
        then some (.literal (offset + 1)) else none : Option TerminalCursorState).bind _ = _ ↔ _
      by_cases hfb : found = b
      · rw [if_neg (not_not.2 hfb), if_pos (by omega), Option.bind_some,
          ih (by omega), Nat.add_right_comm, Nat.add_assoc]
        simp [hfb]
      · rw [if_pos hfb]
        simp [Ne.symm hfb]

theorem runFrom_literal_iff {bytes : List UInt8} {offset : ℕ} (h : offset + w.length ≤ u32Max) :
    (literal bytes).runFrom (.literal offset) w = some c ↔
      c = .literal (offset + w.length) ∧ w <+: bytes.drop offset :=
  runFrom_literal_iff_of (.inl h)

/-- A literal read from its start. -/
theorem run_literal_iff {bytes : List UInt8} (h : w.length ≤ u32Max) :
    (literal bytes).runFrom (literal bytes).start w = some c ↔
      c = .literal w.length ∧ w <+: bytes := by
  have key := @runFrom_literal_iff c w bytes 0
  rw [Nat.zero_add, List.drop_zero] at key
  exact key h

theorem acceptsFrom_iff_runFrom {d : CompiledByteDfa} {state : ℕ} :
    d.acceptsFrom state w = true ↔
      ∃ c, (dfa d).runFrom (.dfa state) w = some c ∧ (dfa d).isAccepting c = true := by
  induction w generalizing state with
  | nil => simp [CompiledByteDfa.acceptsFrom, isAccepting]
  | cons b w ih =>
    simp only [CompiledByteDfa.acceptsFrom, runFrom_cons, advance]
    by_cases hd : d.isDead (d.nextState state b) = true
    · simp [hd]
    · simp only [hd, Bool.false_eq_true, if_false, Option.bind_some]
      exact ih

/-- The cursor decides the words of the terminal. -/
theorem mem_language_iff_runFrom (hw : w.length ≤ u32Max) :
    w ∈ t.language ↔ ∃ c, t.runFrom t.start w = some c ∧ t.isAccepting c = true := by
  cases t with
  | literal bytes =>
    change w = bytes ↔ _
    simp only [run_literal_iff hw]
    constructor
    · rintro rfl
      exact ⟨_, ⟨rfl, List.prefix_refl w⟩, by simp [isAccepting]⟩
    · rintro ⟨c, ⟨rfl, hpre⟩, hacc⟩
      exact hpre.eq_of_length (by simpa [isAccepting] using hacc)
  | dfa d => exact acceptsFrom_iff_runFrom

/-- The offsets of a literal are 32-bit. -/
def Readable : CompiledTerminal → Prop
  | literal bytes => bytes.length ≤ u32Max
  | dfa _ => True

/-- A readable literal read from its start, over a word of any length. -/
theorem run_readable_literal_iff {bytes : List UInt8} (h : bytes.length ≤ u32Max) :
    (literal bytes).runFrom (literal bytes).start w = some c ↔
      c = .literal w.length ∧ w <+: bytes := by
  have key := @runFrom_literal_iff_of c w bytes 0
  rw [Nat.zero_add, List.drop_zero] at key
  exact key (.inr h)

/-- The cursor of a readable terminal decides its words. -/
theorem Readable.mem_language_iff_runFrom (ht : t.Readable) :
    w ∈ t.language ↔ ∃ c, t.runFrom t.start w = some c ∧ t.isAccepting c = true := by
  cases t with
  | literal bytes =>
    change w = bytes ↔ _
    simp only [run_readable_literal_iff ht]
    constructor
    · rintro rfl
      exact ⟨_, ⟨rfl, List.prefix_refl w⟩, by simp [isAccepting]⟩
    · rintro ⟨c, ⟨rfl, hpre⟩, hacc⟩
      exact hpre.eq_of_length (by simpa [isAccepting] using hacc)
  | dfa d => exact acceptsFrom_iff_runFrom

/-! ### Liveness -/

theorem exists_runFrom_of_mem (hw : w.length ≤ u32Max) (h : w ++ v ∈ t.language) :
    ∃ c, t.runFrom t.start w = some c := by
  cases t with
  | literal bytes =>
    obtain rfl : w ++ v = bytes := h
    exact ⟨_, (run_literal_iff hw).2 ⟨rfl, List.prefix_append w v⟩⟩
  | dfa d =>
    obtain ⟨c, hc, -⟩ := acceptsFrom_iff_runFrom.1 (show d.acceptsFrom _ (w ++ v) = true from h)
    rw [runFrom_append] at hc
    obtain ⟨c', hc', -⟩ := Option.bind_eq_some_iff.1 hc
    exact ⟨c', hc'⟩

theorem exists_of_advance_dfa {d : CompiledByteDfa} (h : (dfa d).advance cursor b = some c) :
    ∃ q, c = .dfa q ∧ q < d.stateCount := by
  cases cursor with
  | literal offset => cases h
  | dfa state =>
    simp only [advance] at h
    split at h
    · cases h
    · exact ⟨_, (Option.some.inj h).symm, CompiledByteDfa.lt_of_isDead_eq_false (by simp_all)⟩

/-- A cursor moved over a non-empty word is live if the word can be completed, and only if it
can be or is complete. -/
theorem isLive_iff_of_runFrom (ht : t.LiveExact) (hw : w.length ≤ u32Max) (hne : w ≠ [])
    (hc : t.runFrom t.start w = some c) :
    (t.isLive c = true → ∃ z, w ++ z ∈ t.language) ∧
      ∀ z ≠ [], w ++ z ∈ t.language → t.isLive c = true := by
  cases t with
  | literal bytes =>
    obtain ⟨rfl, y, hy⟩ := (run_literal_iff hw).1 hc
    refine ⟨fun _ => ⟨y, hy⟩, fun z hz h => ?_⟩
    have h : w ++ z = bytes := h
    have hz := List.length_pos_iff.2 hz
    simp [isLive, ← h, hz]
  | dfa d =>
    obtain ⟨w, b, rfl⟩ := (List.eq_nil_or_concat' _).resolve_left hne
    have hstep := hc
    rw [runFrom_snoc] at hstep
    obtain ⟨c₀, -, hadv⟩ := Option.bind_eq_some_iff.1 hstep
    obtain ⟨q, rfl, hq⟩ := exists_of_advance_dfa hadv
    have key : ∀ z, w ++ [b] ++ z ∈ (dfa d).language ↔ d.acceptsFrom q z = true := by
      intro z
      rw [acceptsFrom_iff_runFrom]
      change d.acceptsFrom _ _ = true ↔ _
      rw [acceptsFrom_iff_runFrom, runFrom_append, show (dfa d).runFrom (.dfa _) (w ++ [b]) = _
        from hc, Option.bind_some]
    constructor
    · intro hlive
      obtain ⟨z, hz⟩ := (ht q hq).1 hlive
      exact ⟨z, (key z).2 hz⟩
    · exact fun z _ h => (ht q hq).2 ⟨z, (key z).1 h⟩

/-! ### Scans

A recognizer keeps a scan only while its cursor is live. -/

/-- The cursor moved over a word, as long as it stays live. -/
def liveRun (t : CompiledTerminal) (w : List UInt8) : Option TerminalCursorState :=
  w.foldlM (fun cursor byte => (t.advance cursor byte).filter fun c => t.isLive c) t.start

/-- The words over which a scan reaches an accepting cursor. -/
def scanned (t : CompiledTerminal) : Language UInt8 :=
  {w | ∃ v b c c', w = v ++ [b] ∧ t.liveRun v = some c ∧ t.advance c b = some c' ∧
    t.isAccepting c' = true}

@[simp] theorem liveRun_nil : t.liveRun [] = some t.start := rfl

theorem liveRun_snoc :
    t.liveRun (w ++ [b]) =
      (t.liveRun w).bind fun c => (t.advance c b).filter fun c => t.isLive c := by
  simp [liveRun, List.foldlM_append]

/-- A live run is a run. -/
theorem runFrom_of_liveRun (h : t.liveRun w = some c) : t.runFrom t.start w = some c := by
  induction w using List.reverseRecOn generalizing c with
  | nil => exact h
  | append_singleton w b ih =>
    rw [liveRun_snoc] at h
    obtain ⟨c₀, h₀, h⟩ := Option.bind_eq_some_iff.1 h
    rw [runFrom_snoc, ih h₀, Option.bind_some]
    exact (Option.filter_eq_some_iff.1 h).1

theorem exists_runFrom_of_mem_scanned (h : w ∈ t.scanned) :
    ∃ c, t.runFrom t.start w = some c ∧ t.isAccepting c = true := by
  obtain ⟨v, b, c, c', rfl, hv, hadv, hacc⟩ := h
  refine ⟨c', ?_, hacc⟩
  rw [runFrom_snoc, runFrom_of_liveRun hv, Option.bind_some, hadv]

theorem nil_notMem_scanned : [] ∉ t.scanned := by
  rintro ⟨v, b, -, -, h, -⟩
  simp at h

/-- With exact live flags, a scan is dropped only when it cannot be completed any more. -/
theorem liveRun_eq_some_iff (ht : t.LiveExact) (hw : w.length ≤ u32Max) :
    t.liveRun w = some c ↔
      t.runFrom t.start w = some c ∧ (w ≠ [] → t.isLive c = true) := by
  induction w using List.reverseRecOn generalizing c with
  | nil => simp
  | append_singleton w b ih =>
    rw [List.length_append, List.length_singleton] at hw
    rw [liveRun_snoc, runFrom_snoc, Option.bind_eq_some_iff, Option.bind_eq_some_iff]
    constructor
    · rintro ⟨c₀, h₀, h⟩
      obtain ⟨hadv, hlive⟩ := Option.filter_eq_some_iff.1 h
      exact ⟨⟨c₀, ((ih (by omega)).1 h₀).1, hadv⟩, fun _ => hlive⟩
    · rintro ⟨⟨c₀, h₀, hadv⟩, hlive⟩
      have hlive := hlive (by simp)
      refine ⟨c₀, (ih (by omega)).2 ⟨h₀, fun hne => ?_⟩,
        Option.filter_eq_some_iff.2 ⟨hadv, hlive⟩⟩
      have hc : t.runFrom t.start (w ++ [b]) = some c := by
        rw [runFrom_snoc, h₀, Option.bind_some, hadv]
      obtain ⟨z, hz⟩ := (isLive_iff_of_runFrom ht (by simpa using hw) (by simp) hc).1 hlive
      exact (isLive_iff_of_runFrom ht (by omega) hne h₀).2 (b :: z) (by simp) (by simpa using hz)

/-- With exact live flags, scans find exactly the non-empty words of the terminal. -/
theorem mem_scanned_iff (ht : t.LiveExact) (hw : w.length ≤ u32Max) :
    w ∈ t.scanned ↔ w ≠ [] ∧ w ∈ t.language := by
  rw [mem_language_iff_runFrom hw]
  constructor
  · rintro ⟨v, b, c, c', rfl, hv, hadv, hacc⟩
    rw [List.length_append, List.length_singleton] at hw
    refine ⟨by simp, c', ?_, hacc⟩
    rw [runFrom_snoc, ((liveRun_eq_some_iff ht (by omega)).1 hv).1, Option.bind_some, hadv]
  · rintro ⟨hne, c', hc, hacc⟩
    obtain ⟨v, b, rfl⟩ := (List.eq_nil_or_concat' _).resolve_left hne
    have hlen := hw
    rw [List.length_append, List.length_singleton] at hlen
    have hmem : v ++ [b] ∈ t.language := (mem_language_iff_runFrom hw).2 ⟨c', hc, hacc⟩
    rw [runFrom_snoc] at hc
    obtain ⟨c, hv, hadv⟩ := Option.bind_eq_some_iff.1 hc
    refine ⟨v, b, c, c', rfl, (liveRun_eq_some_iff ht (by omega)).2 ⟨hv, fun hv' => ?_⟩, hadv,
      hacc⟩
    exact (isLive_iff_of_runFrom ht (by omega) hv' hv).2 [b] (by simp) hmem

end CompiledTerminal

end OcEarley
