import Mathlib.Data.Nat.Digits.Defs
import OcEarley.Lalr.Frame
import OcEarley.Lalr.Reductions

/-!
# The LALR recognizer under higher limits

A byte does the same under higher limits, unless it exceeds one of the lower ones
(`LalrRecognizer.follows_advanceByte`).  The loop of the reductions is the delicate part: its fuel
grows with the limit on the height of the stack.  A loop that uses up its fuel has come back to a
stack (`exists_stackAfter_eq`), so it has no end under any limit.

`is_accepting` and `is_live` run the parser on a copy and answer `false` when it fails.  They agree
with the higher limits as long as these probes stay within the lower ones (`ProbesFit`).
-/

namespace OcEarley

open Method

namespace LalrRecognizer

variable {compiled : CompiledLalr} {lookahead : Lookahead} {σ τ υ : List ℕ} {limits : RuntimeLimits}
  {generation fuel fuel' : ℕ} {s s' t : LalrRecognizer} {e : RuntimeError}

/-! ### Reductions without limits -/

/-- One round of the loop of `action_after_reductions`, if it makes a reduction. -/
def nextStack (compiled : CompiledLalr) (lookahead : Lookahead) (stack : List ℕ) :
    Option (List ℕ) := do
  let state ← stack.head?
  match findAction compiled.table state lookahead with
  | some (.reduce production) => do
    let production ← compiled.productions[production]?
    if production.rhs.length < stack.length then do
      let stack := stack.drop production.rhs.length
      let base ← stack.head?
      let target ← findGoto compiled.table base production.lhs
      some (target :: stack)
    else none
  | _ => none

/-- The stack after so many reductions. -/
def stackAfter (compiled : CompiledLalr) (lookahead : Lookahead) : ℕ → List ℕ → Option (List ℕ)
  | 0, stack => some stack
  | n + 1, stack => (nextStack compiled lookahead stack).bind (stackAfter compiled lookahead n)

theorem stackAfter_add (m n : ℕ) :
    stackAfter compiled lookahead (m + n) σ =
      (stackAfter compiled lookahead m σ).bind (stackAfter compiled lookahead n) := by
  induction m generalizing σ with
  | zero => rw [Nat.zero_add, stackAfter, Option.bind_some]
  | succ m ih =>
    rw [Nat.succ_add, stackAfter, stackAfter, Option.bind_assoc]
    exact congrArg _ (funext fun υ => ih)

theorem lt_of_findAction {q : ℕ} {action : Action}
    (h : findAction compiled.table q lookahead = some action) :
    q < compiled.table.actions.length := by
  obtain ⟨row, hrow, -⟩ := Option.bind_eq_some_iff.1 h
  exact (List.getElem?_eq_some_iff.1 hrow).1

/-- A reduction pops states, the one on top a state of the table, and pushes one. -/
theorem nextStack_eq_some (h : nextStack compiled lookahead σ = some τ) :
    ∃ q υ n target, σ = q :: υ ∧ q < compiled.table.actions.length ∧ n < σ.length ∧
      τ = target :: σ.drop n := by
  obtain ⟨q, hq, h⟩ := Option.bind_eq_some_iff.1 h
  obtain ⟨υ, rfl⟩ := List.head?_eq_some_iff.1 hq
  split at h
  · next production haction =>
    obtain ⟨production, -, h⟩ := Option.bind_eq_some_iff.1 h
    split at h
    · next hlt =>
      obtain ⟨base, -, h⟩ := Option.bind_eq_some_iff.1 h
      obtain ⟨target, -, h⟩ := Option.bind_eq_some_iff.1 h
      exact ⟨q, υ, _, target, rfl, lt_of_findAction haction, hlt, (Option.some.inj h).symm⟩
    · cases h
  · cases h

/-! ### Loops without end

After some reductions a stack consists of states that were pushed, and of what is left of the first
stack.  As a number it is written with a digit for each place: zero for what is left, and the state
moved up by one for what was pushed. -/

/-- The number of a stack with `pushed` on top of `kept` states of the first stack. -/
def stackCode (states kept : ℕ) (pushed : List ℕ) : ℕ :=
  Nat.ofDigits (states + 1) (List.replicate kept 0 ++ (pushed.map (· + 1)).reverse)

theorem stackCode_lt {states kept height : ℕ} {pushed : List ℕ} (hstates : 0 < states)
    (hlen : kept + pushed.length ≤ height) (hpushed : ∀ q ∈ pushed, q < states) :
    stackCode states kept pushed < (states + 1) ^ height := by
  refine (Nat.ofDigits_lt_base_pow_length (by omega) ?_).trans_le
    (Nat.pow_le_pow_right (by omega) (by simpa using hlen))
  intro d hd
  rcases List.mem_append.1 hd with hd | hd
  · rw [List.eq_of_mem_replicate hd]
    omega
  · obtain ⟨q, hq, rfl⟩ := List.mem_map.1 (List.mem_reverse.1 hd)
    exact Nat.succ_lt_succ (hpushed q hq)

theorem digits_stackCode {states kept : ℕ} {pushed : List ℕ} (hstates : 0 < states)
    (hne : pushed ≠ []) (hpushed : ∀ q ∈ pushed, q < states) :
    Nat.digits (states + 1) (stackCode states kept pushed) =
      List.replicate kept 0 ++ (pushed.map (· + 1)).reverse := by
  refine Nat.digits_ofDigits (states + 1) (by omega) _ (fun d hd => ?_) fun hcons => ?_
  · rcases List.mem_append.1 hd with hd | hd
    · rw [List.eq_of_mem_replicate hd]
      omega
    · obtain ⟨q, hq, rfl⟩ := List.mem_map.1 (List.mem_reverse.1 hd)
      exact Nat.succ_lt_succ (hpushed q hq)
  · obtain ⟨q, pushed, rfl⟩ := List.exists_cons_of_ne_nil hne
    simp

theorem stackCode_nil (states kept : ℕ) : stackCode states kept [] = 0 := by
  unfold stackCode
  rw [List.map_nil, List.reverse_nil, List.append_nil, Nat.ofDigits_replicate_zero]

theorem stackCode_ne_zero {states kept : ℕ} {pushed : List ℕ} (hstates : 0 < states)
    (hne : pushed ≠ []) (hpushed : ∀ q ∈ pushed, q < states) :
    stackCode states kept pushed ≠ 0 := by
  intro h
  have hdigits : Nat.digits (states + 1) (stackCode states kept pushed) = _ :=
    digits_stackCode hstates hne hpushed
  rw [h, Nat.digits_zero] at hdigits
  simp [hne] at hdigits

/-- The number tells the stack, if something was pushed. -/
theorem stackCode_inj {states kept kept' : ℕ} {pushed pushed' : List ℕ} (hstates : 0 < states)
    (hne : pushed ≠ []) (hne' : pushed' ≠ []) (hpushed : ∀ q ∈ pushed, q < states)
    (hpushed' : ∀ q ∈ pushed', q < states)
    (h : stackCode states kept pushed = stackCode states kept' pushed') :
    kept = kept' ∧ pushed = pushed' := by
  have hdigits := (digits_stackCode hstates hne hpushed).symm.trans
    ((congrArg _ h).trans (digits_stackCode hstates hne' hpushed'))
  -- the zeros are what is left of the first stack
  have hzero : ∀ (kept : ℕ) (pushed : List ℕ),
      (List.replicate kept 0 ++ (pushed.map (· + 1)).reverse).filter (· ≠ 0) =
        (pushed.map (· + 1)).reverse := by
    intro kept pushed
    rw [List.filter_append, List.filter_replicate_of_neg (by simp), List.nil_append,
      List.filter_eq_self]
    intro d hd
    obtain ⟨q, -, rfl⟩ := List.mem_map.1 (List.mem_reverse.1 hd)
    simp
  have hsame : pushed = pushed' := by
    have := (hzero kept pushed).symm.trans ((congrArg _ hdigits).trans (hzero kept' pushed'))
    exact List.map_injective_iff.2 (add_left_injective 1) (List.reverse_injective this)
  refine ⟨?_, hsame⟩
  have hlen := congrArg List.length hdigits
  simp only [List.length_append, List.length_replicate, List.length_reverse, List.length_map, hsame]
    at hlen
  omega

/-- After some reductions: what is left of the first stack, below states that were on top. -/
theorem stackAfter_eq_some {n : ℕ} (h : stackAfter compiled lookahead n σ = some τ)
    (hmore : nextStack compiled lookahead τ ≠ none) :
    ∃ pushed dropped, τ = pushed ++ σ.drop dropped ∧ dropped ≤ σ.length ∧
      (∀ q ∈ pushed, q < compiled.table.actions.length) ∧ (pushed = [] → n = 0) := by
  induction n generalizing τ with
  | zero =>
    obtain rfl := Option.some.inj h
    exact ⟨[], 0, rfl, Nat.zero_le _, by simp, fun _ => rfl⟩
  | succ n ih =>
    rw [stackAfter_add, Option.bind_eq_some_iff] at h
    obtain ⟨υ, hυ, h⟩ := h
    obtain ⟨τ', hnext, h⟩ := Option.bind_eq_some_iff.1 h
    obtain rfl := Option.some.inj h
    obtain ⟨pushed, dropped, rfl, hdropped, hpushed, -⟩ := ih hυ (by simp [hnext])
    obtain ⟨_, _, k, target, -, -, hk, rfl⟩ := nextStack_eq_some hnext
    obtain ⟨τ'', hτ''⟩ := Option.ne_none_iff_exists'.1 hmore
    obtain ⟨q, _, _, _, hcons, hq, -⟩ := nextStack_eq_some hτ''
    obtain ⟨rfl, -⟩ := List.cons.inj hcons
    refine ⟨target :: pushed.drop k, dropped + (k - pushed.length), ?_, ?_, ?_, by simp⟩
    · rw [List.drop_append, List.drop_drop, List.cons_append]
    · rw [List.length_append, List.length_drop] at hk
      omega
    · intro q' hq'
      rcases List.mem_cons.1 hq' with rfl | hq'
      · exact hq
      · exact hpushed q' (List.mem_of_mem_drop hq')

/-- More reductions than there are stacks of bounded height come back to a stack. -/
theorem exists_stackAfter_eq {height : ℕ}
    (h : ∀ n ≤ (compiled.table.actions.length + 1) ^ height + 1, ∃ τ,
      stackAfter compiled lookahead n σ = some τ ∧ τ.length ≤ height) :
    ∃ i j, i < j ∧ j ≤ (compiled.table.actions.length + 1) ^ height ∧
      stackAfter compiled lookahead i σ = stackAfter compiled lookahead j σ := by
  set states := compiled.table.actions.length with hstates
  -- the digits of the stack after `n` reductions
  have hdigits : ∀ n ≤ (states + 1) ^ height, ∃ kept pushed, kept + pushed.length ≤ height ∧
      (∀ q ∈ pushed, q < states) ∧ (pushed = [] → n = 0) ∧
      stackAfter compiled lookahead n σ = some (pushed ++ σ.drop (σ.length - kept)) := by
    intro n hn
    obtain ⟨τ, hτ, hlen⟩ := h n (by omega)
    obtain ⟨υ, hυ, -⟩ := h (n + 1) (by omega)
    have hmore : nextStack compiled lookahead τ ≠ none := by
      rw [stackAfter_add, hτ, Option.bind_some] at hυ
      intro hnone
      simp [stackAfter, hnone] at hυ
    obtain ⟨pushed, dropped, rfl, hdropped, hpushed, hnil⟩ := stackAfter_eq_some hτ hmore
    rw [List.length_append, List.length_drop] at hlen
    exact ⟨σ.length - dropped, pushed, by omega, hpushed, hnil,
      by rw [hτ, Nat.sub_sub_self hdropped]⟩
  have hpos : 0 < states := by
    obtain ⟨υ, hυ, -⟩ := h 1 (by omega)
    obtain ⟨υ, hnext, -⟩ := Option.bind_eq_some_iff.1 hυ
    obtain ⟨q, _, _, _, -, hq, -⟩ := nextStack_eq_some hnext
    omega
  choose! kept pushed hlen hpushed hnil hafter using hdigits
  obtain ⟨i, hi, j, hj, hne, hcode⟩ := Finset.exists_ne_map_eq_of_card_lt_of_maps_to
    (s := Finset.range ((states + 1) ^ height + 1)) (t := Finset.range ((states + 1) ^ height))
    (by simp) (f := fun n => stackCode states (kept n) (pushed n)) (by
      intro n hn
      have hn : n ≤ (states + 1) ^ height := Nat.lt_succ_iff.1 (by simpa using hn)
      simpa using stackCode_lt hpos (hlen n hn) (hpushed n hn))
  have hi : i ≤ (states + 1) ^ height := Nat.lt_succ_iff.1 (by simpa using hi)
  have hj : j ≤ (states + 1) ^ height := Nat.lt_succ_iff.1 (by simpa using hj)
  -- only the first stack has nothing pushed
  have hsome : ∀ i j, i ≤ (states + 1) ^ height → j ≤ (states + 1) ^ height → i ≠ j →
      stackCode states (kept i) (pushed i) = stackCode states (kept j) (pushed j) →
      pushed i ≠ [] := by
    intro i j hi hj hne hcode hempty
    have hj0 : pushed j ≠ [] := fun hempty' =>
      hne ((hnil i hi hempty).trans (hnil j hj hempty').symm)
    rw [hempty, stackCode_nil] at hcode
    exact stackCode_ne_zero hpos hj0 (hpushed j hj) hcode.symm
  obtain ⟨hkept, hsame⟩ := stackCode_inj hpos (hsome i j hi hj hne hcode)
    (hsome j i hj hi hne.symm hcode.symm) (hpushed i hi) (hpushed j hj) hcode
  have heq : stackAfter compiled lookahead i σ = stackAfter compiled lookahead j σ := by
    rw [hafter i hi, hafter j hj, hkept, hsame]
  rcases Nat.lt_or_gt_of_ne hne with hlt | hlt
  · exact ⟨i, j, hlt, hj, heq⟩
  · exact ⟨j, i, hlt, hi, heq.symm⟩

/-- A stack that comes back comes back for ever. -/
theorem exists_stackAfter {i j height : ℕ} (hij : i < j)
    (heq : stackAfter compiled lookahead i σ = stackAfter compiled lookahead j σ)
    (h : ∀ n ≤ j, ∃ τ, stackAfter compiled lookahead n σ = some τ ∧ (0 < n → τ.length ≤ height))
    (n : ℕ) : ∃ τ, stackAfter compiled lookahead n σ = some τ ∧ (0 < n → τ.length ≤ height) := by
  induction n using Nat.strong_induction_on with
  | _ n ih =>
    by_cases hn : n ≤ j
    · exact h n hn
    · have hback : stackAfter compiled lookahead n σ =
          stackAfter compiled lookahead (i + (n - j)) σ := by
        have hsum : n = j + (n - j) := by omega
        rw [hsum, stackAfter_add, ← heq, ← stackAfter_add, Nat.add_sub_cancel_left]
      obtain ⟨τ, hτ, hlen⟩ := ih (i + (n - j)) (by omega)
      exact ⟨τ, hback.trans hτ, fun _ => hlen (by omega)⟩

/-- A reduction of the recognizer is one of `nextStack`, within the limit. -/
theorem reduce_eq_ok {q production : ℕ}
    (haction : findAction s.compiled.table q lookahead = some (.reduce production))
    (h : reduce production (q :: υ) s = .ok τ s') :
    nextStack s.compiled lookahead (q :: υ) = some τ ∧ τ.length ≤ s.limits.maxParseStack := by
  simp only [reduce, enforceRuntimeLimit, modifyStats, bind_eq_ok, get_eq_ok, unwrap_eq_ok,
    require_eq_ok, modify_eq_ok, pure_eq_ok] at h
  obtain ⟨_, _, ⟨rfl, rfl⟩, rule, _, ⟨hrule, rfl⟩, _, _, ⟨hlt, rfl⟩, base, _,
    ⟨hbase, rfl⟩, target, _,
    ⟨hgoto, rfl⟩, _, _, ⟨hlen, rfl⟩, _, _, rfl, rfl, rfl⟩ := h
  refine ⟨?_, hlen⟩
  simp only [nextStack, List.head?_cons, Option.bind_eq_bind, Option.bind_some, haction,
    hrule, hbase,
    hgoto, if_pos hlt]

theorem reduce_ne_diverged {production : ℕ} (h : reduce production σ s = .error e s') :
    e ≠ .diverged := by
  have hwp : wp (· ≠ .diverged) (reduce production σ) (fun _ _ => True) s := by
    simp only [reduce, enforceRuntimeLimit, modifyStats, wp_bind, wp_get, wp_unwrap, wp_require,
      wp_modify, wp_pure]
    simp
  have hne := wp_error hwp h
  exact hne

/-- The loop runs out of fuel only on a chain of stacks as long as its fuel. -/
theorem exists_stackAfter_of_diverged
    (h : reductionLoop lookahead fuel σ s = .error .diverged s') {n : ℕ} (hn : n ≤ fuel) :
    ∃ τ, stackAfter s.compiled lookahead n σ = some τ ∧
      (0 < n → τ.length ≤ s.limits.maxParseStack) := by
  induction n generalizing fuel σ s with
  | zero => exact ⟨σ, rfl, fun h => absurd h (Nat.lt_irrefl 0)⟩
  | succ n ih =>
    obtain ⟨fuel, rfl⟩ : ∃ k, fuel = k + 1 := ⟨fuel - 1, by omega⟩
    unfold reductionLoop at h
    rw [get_bind_apply] at h
    cases σ with
    | nil => cases h
    | cons q υ =>
      rw [bind_of_ok (unwrap_eq_ok.2 ⟨List.head?_cons, rfl⟩)] at h
      rcases haction : findAction s.compiled.table q lookahead with _ | _ | production | _
      · rw [haction] at h
        cases h
      · rw [haction] at h
        cases h
      · rw [haction] at h
        rcases bind_eq_error.1 h with h | ⟨τ, s₁, hred, h⟩
        · exact absurd rfl (reduce_ne_diverged h)
        · obtain ⟨hnext, hlen⟩ := reduce_eq_ok haction hred
          have hsame := ((moves_reduce production (q :: υ)).of_ok hred).sameMachine
          obtain ⟨ρ, hρ, hlen'⟩ := ih h (by omega)
          rw [hsame.compiled] at hρ
          rw [hsame.limits] at hlen'
          refine ⟨ρ, by rw [stackAfter, hnext, Option.bind_some, hρ], fun _ => ?_⟩
          cases n with
          | zero => exact Option.some.inj hρ ▸ hlen
          | succ n => exact hlen' (Nat.succ_pos n)
      · rw [haction] at h
        cases h

/-- A reduction within the limit is made by the loop. -/
theorem reductionLoop_of_nextStack (hnext : nextStack s.compiled lookahead σ = some τ)
    (hlen : τ.length ≤ s.limits.maxParseStack) (fuel : ℕ) :
    ∃ s₁, reductionLoop lookahead (fuel + 1) σ s = reductionLoop lookahead fuel τ s₁ ∧
      SameMachine s s₁ := by
  obtain ⟨q, hq, hnext⟩ := Option.bind_eq_some_iff.1 hnext
  split at hnext
  · next production haction =>
    obtain ⟨rule, hrule, hnext⟩ := Option.bind_eq_some_iff.1 hnext
    split at hnext
    · next hlt =>
      obtain ⟨base, hbase, hnext⟩ := Option.bind_eq_some_iff.1 hnext
      obtain ⟨target, hgoto, hnext⟩ := Option.bind_eq_some_iff.1 hnext
      obtain rfl := Option.some.inj hnext
      obtain ⟨s₁, hred⟩ : ∃ s₁, reduce production σ s =
          .ok (target :: σ.drop rule.rhs.length) s₁ := by
        simp only [reduce, enforceRuntimeLimit, modifyStats, bind_eq_ok, get_eq_ok, unwrap_eq_ok,
          require_eq_ok, modify_eq_ok, pure_eq_ok]
        exact ⟨_, s, s, ⟨rfl, rfl⟩, rule, s, ⟨hrule, rfl⟩, (), s, ⟨hlt, rfl⟩, base, s, ⟨hbase, rfl⟩,
          target, s, ⟨hgoto, rfl⟩, (), s, ⟨hlen, rfl⟩, (), _, rfl, rfl, rfl⟩
      refine ⟨s₁, ?_, ((moves_reduce production σ).of_ok hred).sameMachine⟩
      rw [reductionLoop, get_bind_apply, bind_of_ok (unwrap_eq_ok.2 ⟨hq, rfl⟩), haction]
      exact bind_of_ok hred
    · cases hnext
  · cases hnext

/-- On a chain of stacks as long as its fuel the loop runs out of fuel. -/
theorem diverged_of_stackAfter (h : ∀ n ≤ fuel, ∃ τ, stackAfter s.compiled lookahead n σ = some τ ∧
    (0 < n → τ.length ≤ s.limits.maxParseStack)) :
    ∃ s', reductionLoop lookahead fuel σ s = .error .diverged s' := by
  induction fuel generalizing σ s with
  | zero => exact ⟨s, rfl⟩
  | succ fuel ih =>
    obtain ⟨τ, hτ, hlen⟩ := h 1 (by omega)
    obtain ⟨τ', hnext, hτ⟩ := Option.bind_eq_some_iff.1 hτ
    obtain rfl := Option.some.inj hτ
    obtain ⟨s₁, hloop, hsame⟩ := reductionLoop_of_nextStack hnext (hlen Nat.zero_lt_one) fuel
    rw [hloop]
    refine ih fun n hn => ?_
    obtain ⟨ρ, hρ, hlen'⟩ := h (n + 1) (by omega)
    rw [stackAfter, hnext, Option.bind_some] at hρ
    rw [hsame.compiled, hsame.limits]
    exact ⟨ρ, hρ, fun _ => hlen' (Nat.succ_pos n)⟩

/-! ### The same methods under higher limits -/

/-- The recognizer with other limits. -/
def relax (limits : RuntimeLimits) (generation : ℕ) (self : LalrRecognizer) : LalrRecognizer :=
  { self with limits := limits, generation := generation }

/-- The second recognizer is the first one with higher limits. -/
def Relaxed (limits : RuntimeLimits) (generation : ℕ) (s t : LalrRecognizer) : Prop :=
  s.limits.Within limits ∧ t = s.relax limits generation

theorem follows_modifyStats (f : LalrRuntimeStats → LalrRuntimeStats) :
    Follows RuntimeError.IsLimit (Relaxed limits generation) (modifyStats f) (modifyStats f) :=
  follows_modify fun _ _ ⟨hs, ht⟩ => ⟨hs, ht ▸ rfl⟩

theorem follows_reduce (production : ℕ) (σ : List ℕ) :
    Follows RuntimeError.IsLimit (Relaxed limits generation) (reduce production σ)
      (reduce production σ) := by
  refine follows_get_bind ?_
  rintro s _ ⟨hs, rfl⟩
  exact follows_bind (follows_unwrap _ _) fun _ => follows_bind (follows_require _ _) fun _ =>
    follows_bind (follows_unwrap _ _) fun _ => follows_bind (follows_unwrap _ _) fun _ =>
      follows_bind (follows_enforceRuntimeLimit _ _ hs.maxParseStack) fun _ =>
        follows_bind (follows_modifyStats _) fun _ => follows_pure _

/-- More fuel does no harm, unless the loop has run out of it. -/
theorem agrees_reductionLoop (hfuel : fuel ≤ fuel') (hst : Relaxed limits generation s t) :
    (∃ s', reductionLoop lookahead fuel σ s = .error .diverged s') ∨
      Agrees RuntimeError.IsLimit (Relaxed limits generation) (reductionLoop lookahead fuel σ s)
        (reductionLoop lookahead fuel' σ t) := by
  induction fuel generalizing fuel' σ s t with
  | zero => exact .inl ⟨s, rfl⟩
  | succ fuel ih =>
    obtain ⟨fuel', rfl⟩ : ∃ k, fuel' = k + 1 := ⟨fuel' - 1, by omega⟩
    have hcompiled : t.compiled = s.compiled := hst.2 ▸ rfl
    rw [reductionLoop, reductionLoop, get_bind_apply, get_bind_apply, hcompiled]
    cases σ with
    | nil => exact .inr .error
    | cons q υ =>
      rw [bind_of_ok (unwrap_eq_ok.2 ⟨List.head?_cons, rfl⟩),
        bind_of_ok (unwrap_eq_ok.2 ⟨List.head?_cons, rfl⟩)]
      rcases findAction s.compiled.table q lookahead with _ | _ | production | _
      · exact .inr (.ok hst)
      · exact .inr (.ok hst)
      · have hred := follows_reduce production (q :: υ) s t hst
        dsimp only
        rw [bind_apply, bind_apply]
        generalize reduce production (q :: υ) s = x at hred
        generalize reduce production (q :: υ) t = y at hred
        cases hred with
        | stop h => exact .inr (.stop h)
        | ok h => exact ih (by omega) h
        | error => exact .inr .error
      · exact .inr (.ok hst)

theorem reductionFuel_le (hs : s.limits.Within limits) (generation : ℕ) (σ : List ℕ) :
    s.reductionFuel σ ≤ (s.relax limits generation).reductionFuel σ :=
  Nat.succ_le_succ (Nat.pow_le_pow_right (Nat.succ_pos _) (max_le_max_left _ hs.maxParseStack))

/-- **Reductions under higher limits.**  A loop that runs out of fuel does so under all limits. -/
theorem follows_actionAfterReductions (σ : List ℕ) (lookahead : Lookahead) :
    Follows RuntimeError.IsLimit (Relaxed limits generation) (actionAfterReductions σ lookahead)
      (actionAfterReductions σ lookahead) := by
  rintro s _ ⟨hs, rfl⟩
  unfold actionAfterReductions
  rw [get_bind_apply, get_bind_apply]
  have hloop : (∃ s', reductionLoop lookahead (s.reductionFuel σ) σ s = .error .diverged s') ∨
      Agrees RuntimeError.IsLimit (Relaxed limits generation) _ _ :=
    agrees_reductionLoop (reductionFuel_le hs generation σ) ⟨hs, rfl⟩
  rcases hloop with ⟨s', h⟩ | h
  · -- the loop has come back to a stack, so it has no end
    have hchain : ∀ n ≤ s.reductionFuel σ, _ := fun n hn => exists_stackAfter_of_diverged h hn
    have hshort : ∀ n ≤
        (s.compiled.table.actions.length + 1) ^ max σ.length s.limits.maxParseStack + 1,
        ∃ τ, stackAfter s.compiled lookahead n σ = some τ ∧
          τ.length ≤ max σ.length s.limits.maxParseStack := by
      intro n hn
      obtain ⟨τ, hτ, hlen⟩ := hchain n hn
      refine ⟨τ, hτ, ?_⟩
      rcases Nat.eq_zero_or_pos n with rfl | hpos
      · exact Option.some.inj hτ ▸ le_max_left _ _
      · exact (hlen hpos).trans (le_max_right _ _)
    obtain ⟨i, j, hij, hj, heq⟩ := exists_stackAfter_eq hshort
    have hforever : ∀ n ≤ (s.relax limits generation).reductionFuel σ, ∃ τ,
        stackAfter s.compiled lookahead n σ = some τ ∧
          (0 < n → τ.length ≤ limits.maxParseStack) := by
      intro n _
      have hj' : j ≤ s.reductionFuel σ := hj.trans (Nat.le_succ _)
      obtain ⟨τ, hτ, hlen⟩ := exists_stackAfter hij heq (fun n hn => hchain n (hn.trans hj')) n
      exact ⟨τ, hτ, fun hpos => (hlen hpos).trans hs.maxParseStack⟩
    obtain ⟨t', ht'⟩ : ∃ t', reductionLoop lookahead ((s.relax limits generation).reductionFuel σ) σ
        (s.relax limits generation) = .error .diverged t' := diverged_of_stackAfter hforever
    rw [h, ht']
    exact .error
  · exact h

theorem follows_startCandidate (candidates : List TerminalCandidate) (terminal : ℕ) :
    Follows RuntimeError.IsLimit (Relaxed limits generation) (startCandidate candidates terminal)
      (startCandidate candidates terminal) := by
  refine follows_bind (follows_require _ _) fun _ => follows_get_bind ?_
  rintro s _ ⟨hs, rfl⟩
  refine follows_bind (follows_actionAfterReductions _ _) fun reduced => follows_bind ?_ fun _ =>
    follows_bind (follows_modifyStats _) fun _ => follows_pure _
  rcases reduced with ⟨_ | _ | _ | _, stack⟩
  · exact follows_pure _
  · refine follows_bind (follows_unwrap _ _) fun _ => follows_get_bind ?_
    rintro s _ ⟨-, rfl⟩
    exact follows_pure _
  · exact follows_pure _
  · exact follows_pure _

theorem follows_startCandidates :
    Follows RuntimeError.IsLimit (Relaxed limits generation) startCandidates startCandidates := by
  refine follows_get_bind ?_
  rintro s _ ⟨hs, rfl⟩
  exact follows_bind (follows_foldlM follows_startCandidate _ _) fun _ =>
    follows_bind (follows_enforceRuntimeLimit _ _ hs.maxActiveScans) fun _ =>
      follows_modify fun _ _ ⟨hs, ht⟩ => ⟨hs, ht ▸ rfl⟩

theorem follows_advanceCandidate (byte : UInt8) (advanced : Advanced)
    (candidate : TerminalCandidate) :
    Follows RuntimeError.IsLimit (Relaxed limits generation)
      (advanceCandidate byte advanced candidate) (advanceCandidate byte advanced candidate) := by
  refine follows_get_bind ?_
  rintro s _ ⟨-, rfl⟩
  refine follows_bind (follows_unwrap _ _) fun terminal => ?_
  split
  · exact follows_pure _
  · exact follows_pure _

theorem follows_shiftCandidate (candidate : TerminalCandidate) :
    Follows RuntimeError.IsLimit (Relaxed limits generation) (shiftCandidate candidate)
      (shiftCandidate candidate) := by
  refine follows_get_bind ?_
  rintro s _ ⟨hs, rfl⟩
  exact follows_bind (follows_enforceRuntimeLimit _ _ hs.maxParseStack) fun _ =>
    follows_modify fun _ _ ⟨hs, ht⟩ => ⟨hs, ht ▸ rfl⟩

theorem follows_finishByte (nextPosition : ℕ) :
    Follows RuntimeError.IsLimit (Relaxed limits generation) (finishByte nextPosition)
      (finishByte nextPosition) :=
  follows_bind (follows_require _ _) fun _ =>
    follows_bind (follows_modify fun _ _ ⟨hs, ht⟩ => ⟨hs, ht ▸ rfl⟩) fun _ =>
      follows_bind (follows_modifyStats _) fun _ => follows_pure _

theorem follows_readByte (byte : UInt8) (nextPosition : ℕ) :
    Follows RuntimeError.IsLimit (Relaxed limits generation) (readByte byte nextPosition)
      (readByte byte nextPosition) := by
  refine follows_get_bind ?_
  rintro s _ ⟨-, rfl⟩
  refine follows_bind (follows_modify fun _ _ ⟨hs, ht⟩ => ⟨hs, ht ▸ rfl⟩) fun _ =>
    follows_bind (follows_foldlM (follows_advanceCandidate byte) _ _) fun advanced =>
      follows_bind (follows_require _ _) fun _ => ?_
  split
  · exact follows_bind (follows_shiftCandidate _) fun _ => follows_finishByte _
  · refine follows_bind (follows_modify fun _ _ ⟨hs, ht⟩ => ⟨hs, ht ▸ rfl⟩) fun _ => ?_
    split
    · exact follows_pure _
    · exact follows_finishByte _

/-- **A byte under higher limits.** -/
theorem follows_advanceByte (byte : UInt8) :
    Follows RuntimeError.IsLimit (Relaxed limits generation) (advanceByte byte)
      (advanceByte byte) := by
  rintro s _ ⟨hs, rfl⟩
  rw [advanceByte_apply, advanceByte_apply]
  refine follows_bind (follows_enforceRuntimeLimit _ _ hs.maxInputBytes)
    (fun _ => follows_bind ?_ fun _ => follows_readByte byte _) s _ ⟨hs, rfl⟩
  change Follows _ _ (if s.candidates.isEmpty then startCandidates else pure ())
    (if s.candidates.isEmpty then startCandidates else pure ())
  split
  · exact follows_startCandidates
  · exact follows_pure ()

/-! ### Probes -/

/-- The probe of `is_accepting`, if it makes one, exceeds no limit. -/
def AcceptanceFits (s : LalrRecognizer) : Prop :=
  s.candidates = [] → ∀ e, valueOf (actionAfterReductions s.stack .eof s) = .error e → ¬e.IsLimit

/-- The probe of `is_live`, if it makes one, exceeds no limit. -/
def LivenessFits (s : LalrRecognizer) : Prop :=
  s.candidates = [] → s.isAccepting = false →
    ∀ e, valueOf (startCandidates s) = .error e → ¬e.IsLimit

theorem acceptanceFits_of_isAccepting (h : s.isAccepting = true) : s.AcceptanceFits := by
  intro hempty e he
  unfold isAccepting at h
  rw [valueOf_eq_error.1 he, hempty] at h
  cases h

theorem isAccepting_relax (hs : s.limits.Within limits) (hfits : s.AcceptanceFits) :
    (s.relax limits generation).isAccepting = s.isAccepting := by
  cases hempty : s.candidates with
  | cons c candidates =>
    unfold isAccepting
    change (if !s.candidates.isEmpty then _ else _) = _
    rw [hempty]
    rfl
  | nil =>
    have hagrees : Agrees RuntimeError.IsLimit (Relaxed limits generation) _ _ :=
      follows_actionAfterReductions s.stack .eof s _ ⟨hs, rfl⟩
    have hprobe := hfits hempty
    have hstack : (s.relax limits generation).stack = s.stack := rfl
    have hempty' : (s.relax limits generation).candidates = [] := hempty
    rw [isAccepting_of_nil hempty, isAccepting_of_nil hempty', hstack]
    generalize actionAfterReductions s.stack .eof s = x at hagrees hprobe
    generalize actionAfterReductions s.stack .eof (s.relax limits generation) = y at hagrees
    cases hagrees with
    | stop h => exact absurd h (hprobe _ rfl)
    | @ok answer _ _ h => rcases answer with ⟨_ | _ | _ | _, _⟩ <;> rfl
    | error => rfl

theorem isLive_relax (hs : s.limits.Within limits) (hfits : s.AcceptanceFits)
    (hlive : s.LivenessFits) : (s.relax limits generation).isLive = s.isLive := by
  have hsame : (s.relax limits generation).isAccepting = s.isAccepting :=
    isAccepting_relax hs hfits
  cases hempty : s.candidates with
  | cons c candidates =>
    unfold isLive
    change (if !s.candidates.isEmpty then _ else _) = _
    rw [hempty]
    rfl
  | nil =>
    cases hacc : s.isAccepting with
    | true =>
      unfold isLive
      rw [hsame, hacc]
      rfl
    | false =>
      have hagrees : Agrees RuntimeError.IsLimit (Relaxed limits generation) _ _ :=
        follows_startCandidates s _ ⟨hs, rfl⟩
      have hprobe := hlive hempty hacc
      have hempty' : (s.relax limits generation).candidates = [] := hempty
      rw [isLive_of_nil hempty hacc, isLive_of_nil hempty' (hsame.trans hacc)]
      generalize startCandidates s = x at hagrees hprobe
      generalize startCandidates (s.relax limits generation) = y at hagrees
      cases hagrees with
      | stop h => exact absurd h (hprobe _ rfl)
      | ok h =>
        obtain ⟨-, rfl⟩ := h
        rfl
      | error => rfl

end LalrRecognizer

end OcEarley
