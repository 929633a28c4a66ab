import OcEarley.Base.Lists
import OcEarley.Grammar.Grammar

/-!
# Productive and reachable nonterminals

The two searches of the grammar reduction.  `productiveNonterminals` counts, for every production,
the nonterminals of its right-hand side that are not known to be productive yet;
`reachableNonterminals` is a search from the start symbol.  Both mark a nonterminal when they push
it, so that none is pushed twice (`Search.Marked`).

`productiveNonterminals_spec` and `reachableNonterminals_spec` say that the flags are exact.
-/

namespace OcEarley

/-- The flags of a search with the nonterminals that are marked and were not looked at yet. -/
structure Search where
  flags : List Bool
  pending : List ℕ

namespace Search

/-- Mark a nonterminal and push it, unless it is marked. -/
def mark (s : Search) (nonterminal : ℕ) : Except CompileError Search := do
  if ← vecGet s.flags nonterminal then pure s
  else pure ⟨s.flags.set nonterminal true, s.pending ++ [nonterminal]⟩

/-- The marked nonterminals are the ones that were looked at and the pending ones, each of them
once, and all of them satisfy `P`. -/
structure Marked (count : ℕ) (P : ℕ → Prop) (done : List ℕ) (s : Search) : Prop where
  length_eq : s.flags.length = count
  mem_iff : ∀ A, A ∈ done ++ s.pending ↔ s.flags[A]? = some true
  nodup : (done ++ s.pending).Nodup
  sound : ∀ A ∈ done ++ s.pending, P A

variable {count : ℕ} {P : ℕ → Prop} {done : List ℕ} {s : Search}

theorem Marked.lt (h : Marked count P done s) {A : ℕ} (hA : A ∈ done ++ s.pending) :
    A < count := by
  obtain ⟨hlt, -⟩ := List.getElem?_eq_some_iff.1 ((h.mem_iff A).1 hA)
  exact h.length_eq ▸ hlt

/-- As long as something is pending, not everything was looked at. -/
theorem Marked.length_lt (h : Marked count P done s) (hs : s.pending ≠ []) :
    done.length < count := by
  have hle : (done ++ s.pending).length ≤ count := by
    have hsub : done ++ s.pending ⊆ List.range count := fun A hA => List.mem_range.2 (h.lt hA)
    simpa using (h.nodup.subperm hsub).length_le
  rw [List.length_append] at hle
  have := List.length_pos_iff.2 hs
  omega

theorem Marked.init : Marked count P [] ⟨List.replicate count false, []⟩ where
  length_eq := List.length_replicate
  mem_iff A := by simp [List.getElem?_replicate]
  nodup := List.nodup_nil
  sound A hA := absurd hA List.not_mem_nil

theorem Marked.mark (h : Marked count P done s) {A : ℕ} (hA : A < count) (hP : P A) :
    ∃ s', s.mark A = .ok s' ∧ Marked count P done s' ∧ A ∈ done ++ s'.pending ∧
      ∀ B ∈ done ++ s.pending, B ∈ done ++ s'.pending := by
  have hlt : A < s.flags.length := h.length_eq ▸ hA
  have hget := List.getElem?_eq_getElem hlt
  unfold Search.mark
  rw [vecGet_of hget]
  cases hflag : s.flags[A] with
  | true =>
    rw [hflag] at hget
    exact ⟨s, rfl, h, (h.mem_iff A).2 hget, fun B hB => hB⟩
  | false =>
    have hnot : A ∉ done ++ s.pending := by
      rw [h.mem_iff, hget, hflag]
      simp
    refine ⟨⟨s.flags.set A true, s.pending ++ [A]⟩, rfl, ⟨?_, fun B => ?_, ?_, ?_⟩, ?_, ?_⟩
    · simpa using h.length_eq
    · rw [← List.append_assoc, List.mem_append, h.mem_iff, List.mem_singleton,
        List.getElem?_set]
      by_cases hB : A = B
      · subst hB
        simp [hlt]
      · simp [hB, Ne.symm hB]
    · rw [← List.append_assoc]
      exact h.nodup.append (List.nodup_singleton A) (by simpa using hnot)
    · intro B hB
      rw [← List.append_assoc, List.mem_append, List.mem_singleton] at hB
      exact hB.elim (h.sound B) fun hB => hB ▸ hP
    · simp
    · intro B hB
      rw [← List.append_assoc]
      exact List.mem_append_left _ hB

end Search

namespace Grammar

variable (g : Grammar)

/-! ### The counting search -/

/-- The counters of the productions, and for every nonterminal the productions that wait for it,
once for each occurrence. -/
structure Counting where
  remaining : List ℕ
  waiting : List (List ℕ)

/-- Count the nonterminals of the right-hand side of the production `index`. -/
def countSymbol (index : ℕ) (counted : ℕ × List (List ℕ)) :
    GrammarSymbol → Except CompileError (ℕ × List (List ℕ))
  | .terminal _ => pure counted
  | .nonterminal id => do
    Result.require (counted.1 + 1 ≤ usizeMax)
      (.resourceLimitExceeded .grammarReduction usizeMax (usizeMax - 1))
    let waiting ← vecGet counted.2 id
    pure (counted.1 + 1, counted.2.set id (waiting ++ [index]))

/-- The nonterminals that each production still waits for, counted, and for each nonterminal the
productions that wait for it. -/
def countNonterminals : Except CompileError Counting :=
  g.productions.zipIdx.foldlM (fun counting entry => do
    let counted ← entry.1.rhs.foldlM (countSymbol entry.2) (0, counting.waiting)
    pure ⟨counting.remaining ++ [counted.1], counted.2⟩)
    ⟨[], List.replicate g.nonterminals.length []⟩

/-- The nonterminals with a production that has no nonterminal. -/
def seedProductive (remaining : List ℕ) : Except CompileError Search :=
  g.productions.zipIdx.foldlM (fun s entry => do
    let count ← vecGet remaining entry.2
    if count = 0 then s.mark entry.1.lhs else pure s)
    ⟨List.replicate g.nonterminals.length false, []⟩

/-- A nonterminal that the production waited for is productive. -/
def release (state : List ℕ × Search) (production : ℕ) :
    Except CompileError (List ℕ × Search) := do
  let count ← vecGet state.1 production
  Result.require (0 < count) .panicked
  let remaining := state.1.set production (count - 1)
  if count - 1 = 0 then do
    let found ← vecGet g.productions production
    let s ← state.2.mark found.lhs
    pure (remaining, s)
  else pure (remaining, state.2)

/-- `while let Some(nonterminal) = queue.pop_front()`. -/
def releaseLoop (waiting : List (List ℕ)) :
    ℕ → List ℕ × Search → Except CompileError (List Bool)
  | fuel, (remaining, s) =>
    match s.pending with
    | [] => pure s.flags
    | nonterminal :: queue =>
      match fuel with
      | 0 => throw .diverged
      | fuel + 1 => do
        let productions ← vecGet waiting nonterminal
        let state ← productions.foldlM g.release (remaining, ⟨s.flags, queue⟩)
        releaseLoop waiting fuel state

/-- The nonterminals that generate something: what nothing is waited for is released,
one after the other. -/
def productiveNonterminals : Except CompileError (List Bool) := do
  let counting ← g.countNonterminals
  let s ← g.seedProductive counting.remaining
  g.releaseLoop counting.waiting g.nonterminals.length (counting.remaining, s)

/-! ### The search from the start symbol -/

/-- The productions by their left-hand sides. -/
def indexProductions : Except CompileError (List (List Production)) :=
  g.productions.foldlM (fun productionsByLhs production => do
    let productions ← vecGet productionsByLhs production.lhs
    pure (productionsByLhs.set production.lhs (productions ++ [production])))
    (List.replicate g.nonterminals.length [])

/-- A symbol of a reachable production. -/
def reachSymbol (s : Search) : GrammarSymbol → Except CompileError Search
  | .terminal _ => pure s
  | .nonterminal target => s.mark target

/-- All symbols of a reachable production are reachable. -/
def reachProduction (s : Search) (production : Production) : Except CompileError Search :=
  production.rhs.foldlM reachSymbol s

/-- `while let Some(nonterminal) = stack.pop()`. -/
def reachLoop (productionsByLhs : List (List Production)) :
    ℕ → Search → Except CompileError (List Bool)
  | fuel, s =>
    match s.pending.getLast? with
    | none => pure s.flags
    | some nonterminal =>
      match fuel with
      | 0 => throw .diverged
      | fuel + 1 => do
        let productions ← vecGet productionsByLhs nonterminal
        let s ← productions.foldlM reachProduction ⟨s.flags, s.pending.dropLast⟩
        reachLoop productionsByLhs fuel s

/-- The nonterminals that the start reaches. -/
def reachableNonterminals : Except CompileError (List Bool) := do
  let productionsByLhs ← g.indexProductions
  let flags ← vecSet (List.replicate g.nonterminals.length false) g.start true
  reachLoop productionsByLhs g.nonterminals.length ⟨flags, [g.start]⟩

/-! ### The counters -/

/-- The number of nonterminals of a right-hand side that are not in `done`. -/
def outstanding (done : List ℕ) (rhs : List GrammarSymbol) : ℕ :=
  rhs.countP fun
    | .nonterminal A => A ∉ done
    | .terminal _ => false

theorem outstanding_nonterminal_cons {done : List ℕ} {A : ℕ} {rhs : List GrammarSymbol} :
    outstanding done (.nonterminal A :: rhs) =
      outstanding done rhs + if A ∈ done then 0 else 1 := by
  by_cases hA : A ∈ done <;> simp [outstanding, hA]

theorem outstanding_terminal_cons {done : List ℕ} {t : ℕ} {rhs : List GrammarSymbol} :
    outstanding done (.terminal t :: rhs) = outstanding done rhs := by
  simp [outstanding]

theorem outstanding_append {done : List ℕ} {β γ : List GrammarSymbol} :
    outstanding done (β ++ γ) = outstanding done β + outstanding done γ :=
  List.countP_append

theorem outstanding_le_length {done : List ℕ} {rhs : List GrammarSymbol} :
    outstanding done rhs ≤ rhs.length :=
  List.countP_le_length

theorem outstanding_eq_zero_iff {done : List ℕ} {rhs : List GrammarSymbol} :
    outstanding done rhs = 0 ↔ ∀ A, .nonterminal A ∈ rhs → A ∈ done := by
  unfold outstanding
  rw [List.countP_eq_zero]
  constructor
  · intro h A hA
    simpa using h _ hA
  · intro h s hs
    cases s with
    | terminal t => simp
    | nonterminal A => simpa using h A hs

/-- Looking at one more nonterminal settles its occurrences. -/
theorem outstanding_snoc {done : List ℕ} {A : ℕ} (hA : A ∉ done) {rhs : List GrammarSymbol} :
    outstanding done rhs = outstanding (done ++ [A]) rhs + rhs.count (.nonterminal A) := by
  induction rhs with
  | nil => rfl
  | cons s rhs ih =>
    cases s with
    | terminal t => simp [outstanding_terminal_cons, ih]
    | nonterminal B =>
      rw [outstanding_nonterminal_cons, outstanding_nonterminal_cons, ih, List.count_cons]
      by_cases hB : B = A
      · subst hB
        simp [hA]
        omega
      · by_cases hd : B ∈ done <;> simp [hB, hd]
        omega

/-- Every production waits for each nonterminal as often as its right-hand side mentions it. -/
def Waits (count : ℕ) (rhss : List (List GrammarSymbol)) (waiting : List (List ℕ)) : Prop :=
  waiting.length = count ∧ ∀ (A : ℕ) (row : List ℕ), waiting[A]? = some row → ∀ p : ℕ,
    row.count p = (rhss[p]?.getD []).count (.nonterminal A)

theorem Waits.snoc_nil {count : ℕ} {rhss : List (List GrammarSymbol)} {waiting : List (List ℕ)}
    (h : Waits count rhss waiting) : Waits count (rhss ++ [[]]) waiting := by
  refine ⟨h.1, fun A row hrow p => ?_⟩
  rw [h.2 A row hrow p]
  rcases Nat.lt_trichotomy p rhss.length with hp | rfl | hp
  · rw [List.getElem?_append_left hp]
  · simp
  · rw [List.getElem?_eq_none hp.le, List.getElem?_eq_none (by simp; omega)]

theorem Waits.terminal {count t : ℕ} {rhss : List (List GrammarSymbol)}
    {rhs : List GrammarSymbol} {waiting : List (List ℕ)}
    (h : Waits count (rhss ++ [rhs]) waiting) :
    Waits count (rhss ++ [rhs ++ [.terminal t]]) waiting := by
  refine ⟨h.1, fun A row hrow p => ?_⟩
  rw [h.2 A row hrow p]
  rcases Nat.lt_trichotomy p rhss.length with hp | rfl | hp
  · rw [List.getElem?_append_left hp, List.getElem?_append_left hp]
  · simp [List.count_append]
  · rw [List.getElem?_eq_none (by simp; omega), List.getElem?_eq_none (by simp; omega)]

theorem Waits.nonterminal {count A : ℕ} {rhss : List (List GrammarSymbol)}
    {rhs : List GrammarSymbol} {waiting : List (List ℕ)} {row : List ℕ}
    (h : Waits count (rhss ++ [rhs]) waiting) (hrow : waiting[A]? = some row) :
    Waits count (rhss ++ [rhs ++ [.nonterminal A]])
      (waiting.set A (row ++ [rhss.length])) := by
  have hlt : A < waiting.length := (List.getElem?_eq_some_iff.1 hrow).1
  refine ⟨by simpa using h.1, fun B found hfound p => ?_⟩
  -- only the row of `A` and the production `rhss.length` change
  obtain ⟨old, hold, hcount⟩ : ∃ old, waiting[B]? = some old ∧
      found.count p = old.count p + if B = A ∧ p = rhss.length then 1 else 0 := by
    rw [List.getElem?_set] at hfound
    by_cases hB : A = B
    · subst hB
      rw [if_pos rfl, if_pos hlt] at hfound
      obtain rfl := Option.some.inj hfound
      refine ⟨row, hrow, ?_⟩
      have hone : [rhss.length].count p = if p = rhss.length then 1 else 0 := by
        rw [List.count_singleton]
        by_cases hp : p = rhss.length
        · simp [hp]
        · simp [hp, Ne.symm hp]
      simp [List.count_append, hone]
    · rw [if_neg hB] at hfound
      exact ⟨found, hfound, by simp [Ne.symm hB]⟩
  rw [hcount, h.2 B old hold p]
  rcases Nat.lt_trichotomy p rhss.length with hp | rfl | hp
  · rw [List.getElem?_append_left hp, List.getElem?_append_left hp]
    simp [hp.ne]
  · by_cases hB : B = A
    · simp [List.count_append, hB]
    · simp [List.count_append, hB, Ne.symm hB]
  · rw [List.getElem?_eq_none (by simp; omega), List.getElem?_eq_none (by simp; omega)]
    simp [hp.ne']

variable {g : Grammar}

theorem countSymbols_wp (hg : g.WellFormed) {production : Production}
    {rhss : List (List GrammarSymbol)} {waiting : List (List ℕ)}
    (hw : Waits g.nonterminals.length rhss waiting) (hp : production ∈ g.productions) :
    Result.wp (fun _ => False)
      (production.rhs.foldlM (countSymbol rhss.length) (0, waiting))
      fun counted => counted.1 = outstanding [] production.rhs ∧
        Waits g.nonterminals.length (rhss ++ [production.rhs]) counted.2 := by
  refine Result.wp_foldlM (I := fun p l counted => p ++ l = production.rhs ∧
    counted.1 = outstanding [] p ∧ Waits g.nonterminals.length (rhss ++ [p]) counted.2)
    ?_ [] production.rhs (0, waiting) ⟨rfl, rfl, hw.snoc_nil⟩ |> Result.wp_mono <| ?_
  · rintro p s l ⟨count, waiting⟩ ⟨hl, hcount, hw⟩
    change count = _ at hcount
    have hl' : p ++ [s] ++ l = production.rhs := by simpa using hl
    have hle : outstanding [] (p ++ [s]) ≤ usizeMax := by
      refine outstanding_le_length.trans (le_trans ?_ (hg.rhs_length _ hp))
      rw [← hl']
      simp
    rw [outstanding_append] at hle
    cases s with
    | terminal t =>
      refine ⟨hl', ?_, hw.terminal⟩
      rw [outstanding_append, outstanding_terminal_cons]
      exact hcount
    | nonterminal A =>
      have hA : A < g.nonterminals.length :=
        hg.rhs_inRange _ hp (.nonterminal A) (by rw [← hl]; simp)
      have hrow := List.getElem?_eq_getElem (hw.1 ▸ hA)
      have h1 : outstanding [] [.nonterminal A] = 1 := by simp [outstanding]
      simp only [countSymbol, Result.wp_bind, Result.wp_require, wp_vecGet hrow, Result.wp_pure]
      refine ⟨fun _ => ⟨hl', ?_, hw.nonterminal hrow⟩, fun h => h ?_⟩
      · rw [outstanding_append, h1, hcount]
      · rwa [hcount, ← h1]
  · rintro counted ⟨hl, h⟩
    rw [List.nil_append] at h
    exact h

theorem countNonterminals_wp (hg : g.WellFormed) :
    Result.wp (fun _ => False) g.countNonterminals fun counting =>
      counting.remaining = g.productions.map (outstanding [] ·.rhs) ∧
        Waits g.nonterminals.length (g.productions.map Production.rhs) counting.waiting := by
  unfold countNonterminals
  refine Result.wp_foldlM (I := fun p l counting => p ++ l = g.productions.zipIdx ∧
    counting.remaining = p.map (outstanding [] ·.1.rhs) ∧
    Waits g.nonterminals.length (p.map (·.1.rhs)) counting.waiting)
    ?_ [] g.productions.zipIdx _ ⟨rfl, rfl, ?_⟩ |> Result.wp_mono <| ?_
  · rintro p ⟨production, index⟩ l ⟨remaining, waiting⟩ ⟨hl, hremaining, hw⟩
    obtain ⟨rfl, hget⟩ := getElem?_of_zipIdx_eq hl.symm
    have hsymbols := countSymbols_wp hg hw (List.mem_of_getElem? hget)
    rw [List.length_map] at hsymbols
    rw [Result.wp_bind]
    refine Result.wp_mono hsymbols fun counted h => ?_
    refine ⟨by simpa using hl, ?_, by simpa using h.2⟩
    change remaining ++ [counted.1] = _
    rw [List.map_append, h.1]
    exact congrArg (· ++ _) hremaining
  · refine ⟨List.length_replicate, fun A row hrow p => ?_⟩
    obtain rfl := List.eq_of_mem_replicate (List.mem_of_getElem? hrow)
    simp
  · rintro ⟨remaining, waiting⟩ ⟨hl, hremaining, hw⟩
    rw [List.append_nil, List.nil_append] at hl
    rw [List.nil_append, hl] at hremaining hw
    have hmap : g.productions.zipIdx.map (·.1) = g.productions := List.zipIdx_map_fst 0 _
    constructor
    · rw [← hmap, List.map_map]
      exact hremaining
    · rw [← hmap, List.map_map]
      exact hw

/-! ### The counting search is exact -/

/-- What the loop maintains: `done` was looked at, and `rest` are the productions that the
nonterminal under consideration still has to release. -/
structure Released (g : Grammar) (done rest : List ℕ) (state : List ℕ × Search) : Prop where
  counts : ∀ {p : ℕ} {production : Production}, g.productions[p]? = some production →
    state.1[p]? = some (outstanding done production.rhs + rest.count p)
  marked : Search.Marked g.nonterminals.length (IsProductive g.Rule) done state.2
  closed : ∀ {p : ℕ} {production : Production}, g.productions[p]? = some production →
    state.1[p]? = some 0 → production.lhs ∈ done ++ state.2.pending

/-- A production with nothing outstanding makes its left-hand side productive. -/
theorem isProductive_of_outstanding {done : List ℕ} {p : ℕ} {production : Production}
    (hp : g.productions[p]? = some production) (h : outstanding done production.rhs = 0)
    (hdone : ∀ A ∈ done, IsProductive g.Rule A) : IsProductive g.Rule production.lhs :=
  isProductive_iff.2 ⟨production.rhs, ⟨production, List.mem_of_getElem? hp, rfl, rfl⟩,
    fun B hB => hdone B (outstanding_eq_zero_iff.1 h B hB)⟩

theorem release_wp (hg : g.WellFormed) {done rest : List ℕ} {p : ℕ} {state : List ℕ × Search}
    (hp : p < g.productions.length) (h : g.Released done (p :: rest) state) :
    Result.wp (fun _ => False) (g.release state p) (g.Released done rest) := by
  obtain ⟨remaining, s⟩ := state
  have hfound := List.getElem?_eq_getElem hp
  set production := g.productions[p] with hproduction
  have hcount := h.counts hfound
  rw [List.count_cons_self, ← Nat.add_assoc] at hcount
  have hlt : p < remaining.length := (List.getElem?_eq_some_iff.1 hcount).1
  have counts : ∀ {q : ℕ} {found : Production}, g.productions[q]? = some found →
      (remaining.set p (outstanding done production.rhs + rest.count p))[q]? =
        some (outstanding done found.rhs + rest.count q) := by
    intro q found hq
    rw [List.getElem?_set]
    by_cases hpq : p = q
    · subst hpq
      obtain rfl := Option.some.inj (hfound.symm.trans hq)
      simp [hlt]
    · rw [if_neg hpq, h.counts hq, List.count_cons_of_ne hpq]
  have old : ∀ {q : ℕ} {found : Production}, p ≠ q → g.productions[q]? = some found →
      (remaining.set p (outstanding done production.rhs + rest.count p))[q]? = some 0 →
        found.lhs ∈ done ++ s.pending := by
    intro q found hpq hq h0
    rw [List.getElem?_set_ne hpq] at h0
    exact h.closed hq h0
  simp only [release, Result.wp_bind, wp_vecGet hcount, Result.wp_require,
    Nat.add_sub_cancel]
  refine ⟨fun _ => ?_, fun h0 => h0 (Nat.succ_pos _)⟩
  split
  · next h0 =>
    -- the last of its nonterminals: the left-hand side is productive
    obtain ⟨hout, -⟩ := Nat.add_eq_zero_iff.1 h0
    have hlhs := isProductive_of_outstanding hfound hout fun A hA =>
      h.marked.sound A (List.mem_append_left _ hA)
    obtain ⟨s', hmark, hs', hmem, hold⟩ := h.marked.mark (hg.lhs_lt_of_getElem? hfound) hlhs
    simp only [Result.wp_bind, wp_vecGet hfound]
    rw [hmark]
    refine ⟨counts, hs', fun {q found} hq hzero => ?_⟩
    by_cases hpq : p = q
    · subst hpq
      obtain rfl := Option.some.inj (hfound.symm.trans hq)
      exact hmem
    · exact hold _ (old hpq hq hzero)
  · next h0 =>
    refine ⟨counts, h.marked, fun {q found} hq hzero => ?_⟩
    by_cases hpq : p = q
    · subst hpq
      rw [counts hfound] at hzero
      exact absurd (Option.some.inj hzero) h0
    · exact old hpq hq hzero

/-- With nothing pending, the nonterminals that were looked at are closed under the productions,
so they are all the productive ones. -/
theorem Released.exact {done remaining : List ℕ} {flags : List Bool}
    (h : g.Released done [] (remaining, ⟨flags, []⟩)) (A : ℕ) :
    flags[A]? = some true ↔ IsProductive g.Rule A := by
  rw [← h.marked.mem_iff]
  refine ⟨h.marked.sound A, fun hA => hA.induction fun B γ hB hγ => ?_⟩
  obtain ⟨p, production, hp, rfl, rfl⟩ := rule_iff.1 hB
  refine h.closed hp ?_
  have hout : outstanding done production.rhs = 0 :=
    outstanding_eq_zero_iff.2 fun C hC => by simpa using hγ C hC
  rw [h.counts hp, hout]
  rfl

/-- Taking a nonterminal off the queue leaves the productions that wait for it to release. -/
theorem Released.pop {waiting : List (List ℕ)}
    (hw : Waits g.nonterminals.length (g.productions.map Production.rhs) waiting)
    {done remaining : List ℕ} {flags : List Bool} {A : ℕ} {queue row : List ℕ}
    (h : g.Released done [] (remaining, ⟨flags, A :: queue⟩)) (hrow : waiting[A]? = some row) :
    g.Released (done ++ [A]) row (remaining, ⟨flags, queue⟩) where
  counts {p production} hp := by
    have hA : A ∉ done := fun hA => by
      have hnodup := h.marked.nodup
      exact (List.nodup_append.1 hnodup).2.2 A hA A List.mem_cons_self rfl
    rw [h.counts hp, outstanding_snoc hA, hw.2 A row hrow p, List.getElem?_map, hp]
    simp
  marked := {
    length_eq := h.marked.length_eq
    mem_iff := fun B => by rw [← h.marked.mem_iff B, List.append_assoc]; rfl
    nodup := by rw [List.append_assoc]; exact h.marked.nodup
    sound := fun B hB => by rw [List.append_assoc] at hB; exact h.marked.sound B hB }
  closed {p production} hp h0 := by
    rw [List.append_assoc]
    exact h.closed hp h0

theorem releaseLoop_wp (hg : g.WellFormed) {waiting : List (List ℕ)}
    (hw : Waits g.nonterminals.length (g.productions.map Production.rhs) waiting) {fuel : ℕ}
    {done : List ℕ} {state : List ℕ × Search} (h : g.Released done [] state)
    (hfuel : g.nonterminals.length ≤ done.length + fuel) :
    Result.wp (fun _ => False) (g.releaseLoop waiting fuel state) fun flags =>
      flags.length = g.nonterminals.length ∧
        ∀ A, flags[A]? = some true ↔ IsProductive g.Rule A := by
  induction fuel generalizing done state with
  | zero =>
    obtain ⟨remaining, ⟨flags, pending⟩⟩ := state
    cases pending with
    | nil => exact ⟨h.marked.length_eq, h.exact⟩
    | cons A queue =>
      have := h.marked.length_lt (List.cons_ne_nil A queue)
      omega
  | succ fuel ih =>
    obtain ⟨remaining, ⟨flags, pending⟩⟩ := state
    cases pending with
    | nil => exact ⟨h.marked.length_eq, h.exact⟩
    | cons A queue =>
      have hA : A < g.nonterminals.length := h.marked.lt (by simp)
      obtain ⟨row, hrow⟩ : ∃ row, waiting[A]? = some row :=
        ⟨_, List.getElem?_eq_getElem (hw.1 ▸ hA)⟩
      have hpop := h.pop hw hrow
      -- only productions are waiting
      have hrange : ∀ p ∈ row, p < g.productions.length := fun p hp => by
        by_contra hge
        have hcount := hw.2 A row hrow p
        rw [List.getElem?_eq_none (by simpa using hge)] at hcount
        exact absurd (List.count_eq_zero.1 hcount) (not_not.2 hp)
      rw [releaseLoop]
      simp only [Result.wp_bind, wp_vecGet hrow]
      refine Result.wp_mono (Result.wp_foldlM (I := fun _ l state =>
        (∀ p ∈ l, p < g.productions.length) ∧ g.Released (done ++ [A]) l state)
        (fun _ p l state hI => ?_) [] row _ ⟨hrange, hpop⟩) fun state hstate => ?_
      · refine Result.wp_mono (release_wp hg (hI.1 p List.mem_cons_self) hI.2) fun _ h => ?_
        exact ⟨fun q hq => hI.1 q (List.mem_cons_of_mem _ hq), h⟩
      · refine ih hstate.2 ?_
        rw [List.length_append, List.length_singleton]
        omega

theorem seedProductive_wp (hg : g.WellFormed) :
    Result.wp (fun _ => False)
      (g.seedProductive (g.productions.map (outstanding [] ·.rhs)))
      fun s => g.Released [] [] (g.productions.map (outstanding [] ·.rhs), s) := by
  unfold seedProductive
  refine Result.wp_mono (Result.wp_foldlM (I := fun p l s => p ++ l = g.productions.zipIdx ∧
    Search.Marked g.nonterminals.length (IsProductive g.Rule) [] s ∧
    ∀ entry ∈ p, outstanding [] entry.1.rhs = 0 → entry.1.lhs ∈ s.pending)
    ?_ [] g.productions.zipIdx _ ⟨rfl, Search.Marked.init, fun _ h => absurd h List.not_mem_nil⟩)
    ?_
  · rintro p ⟨production, index⟩ l s ⟨hl, hs, hp⟩
    obtain ⟨rfl, hget⟩ := getElem?_of_zipIdx_eq hl.symm
    have hcount : (g.productions.map (outstanding [] ·.rhs))[p.length]? =
        some (outstanding [] production.rhs) := by simp [hget]
    have hl' : p ++ [(production, p.length)] ++ l = g.productions.zipIdx := by simpa using hl
    simp only [Result.wp_bind, wp_vecGet hcount]
    split
    · next h0 =>
      obtain ⟨s', hmark, hs', hmem, hold⟩ := hs.mark (hg.lhs_lt_of_getElem? hget)
        (isProductive_of_outstanding hget h0 fun A hA => absurd hA List.not_mem_nil)
      rw [hmark]
      refine ⟨hl', hs', fun entry hentry hzero => ?_⟩
      rcases List.mem_append.1 hentry with hentry | hentry
      · exact hold _ (hp entry hentry hzero)
      · obtain rfl := List.mem_singleton.1 hentry
        exact hmem
    · next h0 =>
      refine ⟨hl', hs, fun entry hentry hzero => ?_⟩
      rcases List.mem_append.1 hentry with hentry | hentry
      · exact hp entry hentry hzero
      · obtain rfl := List.mem_singleton.1 hentry
        exact absurd hzero h0
  · rintro s ⟨hl, hs, hp⟩
    rw [List.append_nil, List.nil_append] at hl
    rw [List.nil_append] at hp
    refine ⟨fun {p production} h => by simp [h], hs, fun {p production} h h0 => ?_⟩
    refine hp (production, p) (List.mem_zipIdx_iff_getElem?.2 h) ?_
    simpa [h] using h0

/-- The flags say which nonterminals are productive. -/
theorem productiveNonterminals_spec (hg : g.WellFormed) :
    ∃ flags, g.productiveNonterminals = .ok flags ∧ flags.length = g.nonterminals.length ∧
      ∀ A, flags[A]? = some true ↔ IsProductive g.Rule A := by
  refine Result.exists_of_wp ?_
  unfold productiveNonterminals
  rw [Result.wp_bind]
  refine Result.wp_mono (countNonterminals_wp hg) fun counting ⟨hremaining, hw⟩ => ?_
  rw [Result.wp_bind, hremaining]
  exact Result.wp_mono (seedProductive_wp hg) fun s hs => releaseLoop_wp hg hw hs (by simp)

/-! ### The search from the start symbol is exact -/

theorem indexProductions_wp (hg : g.WellFormed) :
    Result.wp (fun _ => False) g.indexProductions fun productionsByLhs =>
      productionsByLhs.length = g.nonterminals.length ∧
        ∀ A row, productionsByLhs[A]? = some row → row = g.productionsFor A := by
  unfold indexProductions
  refine Result.wp_mono (Result.wp_foldlM (I := fun p l rows => p ++ l = g.productions ∧
    rows.length = g.nonterminals.length ∧
    ∀ A row, rows[A]? = some row → row = p.filter fun production => production.lhs = A)
    ?_ [] g.productions _ ⟨rfl, List.length_replicate, fun A row hrow => ?_⟩) ?_
  · rintro p production l rows ⟨hl, hlen, hrows⟩
    have hlt : production.lhs < g.nonterminals.length :=
      hg.lhs_lt production (by rw [← hl]; simp)
    obtain ⟨row, hrow⟩ : ∃ row, rows[production.lhs]? = some row :=
      ⟨_, List.getElem?_eq_getElem (hlen ▸ hlt)⟩
    simp only [Result.wp_bind, wp_vecGet hrow, Result.wp_pure]
    refine ⟨by simpa using hl, by simpa using hlen, fun A found hfound => ?_⟩
    rw [List.getElem?_set] at hfound
    rw [List.filter_append]
    by_cases hA : production.lhs = A
    · subst hA
      rw [if_pos rfl, if_pos (hlen ▸ hlt)] at hfound
      obtain rfl := Option.some.inj hfound
      simp [hrows _ _ hrow]
    · rw [if_neg hA] at hfound
      simp [hrows A found hfound, hA]
  · rw [List.eq_of_mem_replicate (List.mem_of_getElem? hrow)]
    rfl
  · rintro rows ⟨-, h⟩
    exact h

/-- Reading a right-hand side marks its nonterminals. -/
theorem reachProduction_wp {count : ℕ} {P : ℕ → Prop} {done : List ℕ} {s : Search}
    {production : Production}
    (hrhs : ∀ B, .nonterminal B ∈ production.rhs → B < count ∧ P B)
    (hs : Search.Marked count P done s) :
    Result.wp (fun _ => False) (reachProduction s production) fun s' =>
      Search.Marked count P done s' ∧ (∀ B ∈ done ++ s.pending, B ∈ done ++ s'.pending) ∧
        ∀ B, .nonterminal B ∈ production.rhs → B ∈ done ++ s'.pending := by
  refine Result.wp_mono (Result.wp_foldlM (I := fun p l s' => p ++ l = production.rhs ∧
    Search.Marked count P done s' ∧ (∀ B ∈ done ++ s.pending, B ∈ done ++ s'.pending) ∧
    ∀ B, .nonterminal B ∈ p → B ∈ done ++ s'.pending) ?_ [] production.rhs s
    ⟨rfl, hs, fun _ => id, fun B hB => absurd hB List.not_mem_nil⟩) fun s' h => h.2
  rintro p symbol l s' ⟨hl, hs', hold, hp⟩
  have hl' : p ++ [symbol] ++ l = production.rhs := by simpa using hl
  cases symbol with
  | terminal t =>
    refine ⟨hl', hs', hold, fun B hB => hp B ?_⟩
    simpa using hB
  | nonterminal A =>
    obtain ⟨hA, hPA⟩ := hrhs A (by rw [← hl]; simp)
    obtain ⟨s'', hmark, hs'', hmem, hold'⟩ := hs'.mark hA hPA
    change Result.wp _ (s'.mark A) _
    rw [hmark]
    refine ⟨hl', hs'', fun B hB => hold' B (hold B hB), fun B hB => ?_⟩
    rcases List.mem_append.1 hB with hB | hB
    · exact hold' B (hp B hB)
    · cases List.mem_singleton.1 hB
      exact hmem

/-- What the loop maintains: whatever a nonterminal in `done` mentions is marked. -/
structure Reached (g : Grammar) (done : List ℕ) (s : Search) : Prop where
  marked : Search.Marked g.nonterminals.length (Reaches g.Rule g.start) done s
  start_mem : g.start ∈ done ++ s.pending
  closed : ∀ A ∈ done, ∀ B, Mentions g.Rule A B → B ∈ done ++ s.pending

theorem Reached.exact {done : List ℕ} {s : Search} (h : g.Reached done s) (hs : s.pending = [])
    (A : ℕ) : s.flags[A]? = some true ↔ Reaches g.Rule g.start A := by
  rw [← h.marked.mem_iff]
  refine ⟨h.marked.sound A, fun hA => ?_⟩
  induction hA with
  | refl => exact h.start_mem
  | tail _ hstep ih =>
    rw [hs, List.append_nil] at ih
    exact h.closed _ ih _ hstep

theorem reachLoop_wp (hg : g.WellFormed) {productionsByLhs : List (List Production)}
    (hlen : productionsByLhs.length = g.nonterminals.length)
    (hrows : ∀ A row, productionsByLhs[A]? = some row → row = g.productionsFor A) {fuel : ℕ}
    {done : List ℕ} {s : Search} (h : g.Reached done s)
    (hfuel : g.nonterminals.length ≤ done.length + fuel) :
    Result.wp (fun _ => False) (reachLoop productionsByLhs fuel s) fun flags =>
      flags.length = g.nonterminals.length ∧
        ∀ A, flags[A]? = some true ↔ Reaches g.Rule g.start A := by
  -- `done` are the nonterminals that were popped; with as many rounds as nonterminals all are
  induction fuel generalizing done s with
  | zero =>
    rw [reachLoop]
    cases hlast : s.pending.getLast? with
    | none => exact ⟨h.marked.length_eq, h.exact (List.getLast?_eq_none_iff.1 hlast)⟩
    | some A =>
      have := h.marked.length_lt fun hnil => by simp [hnil] at hlast
      omega
  | succ fuel ih =>
    rw [reachLoop]
    cases hlast : s.pending.getLast? with
    | none => exact ⟨h.marked.length_eq, h.exact (List.getLast?_eq_none_iff.1 hlast)⟩
    | some A =>
      obtain ⟨init, hinit⟩ := List.getLast?_eq_some_iff.1 hlast
      have hperm : (done ++ s.pending).Perm ((done ++ [A]) ++ init) := by
        rw [hinit, List.append_assoc]
        exact (List.perm_append_comm).append_left done
      -- the nonterminal that is popped moves from the pending to the done ones
      have hpop : Search.Marked g.nonterminals.length (Reaches g.Rule g.start) (done ++ [A])
          ⟨s.flags, init⟩ :=
        { length_eq := h.marked.length_eq
          mem_iff := fun B => by rw [← hperm.mem_iff, h.marked.mem_iff]
          nodup := hperm.nodup_iff.1 h.marked.nodup
          sound := fun B hB => h.marked.sound B (hperm.mem_iff.2 hB) }
      have hA : A ∈ done ++ s.pending := hperm.mem_iff.2 (by simp)
      obtain ⟨row, hrow⟩ : ∃ row, productionsByLhs[A]? = some row :=
        ⟨_, List.getElem?_eq_getElem (hlen ▸ h.marked.lt hA)⟩
      obtain rfl := hrows A row hrow
      simp only [hinit, List.dropLast_concat, Result.wp_bind, wp_vecGet hrow]
      refine Result.wp_mono (Result.wp_foldlM (I := fun p l s' => p ++ l = g.productionsFor A ∧
        Search.Marked g.nonterminals.length (Reaches g.Rule g.start) (done ++ [A]) s' ∧
        (∀ B ∈ done ++ s.pending, B ∈ (done ++ [A]) ++ s'.pending) ∧
        ∀ production ∈ p, ∀ B, .nonterminal B ∈ production.rhs → B ∈ (done ++ [A]) ++ s'.pending)
        ?_ [] (g.productionsFor A) ⟨s.flags, init⟩
        ⟨rfl, hpop, fun B hB => hperm.mem_iff.1 hB, fun _ hp => absurd hp List.not_mem_nil⟩) ?_
      · rintro p production l s' ⟨hl, hs', hold, hp⟩
        have hmem : production ∈ g.productionsFor A := by rw [← hl]; simp
        obtain ⟨hproduction, hlhs⟩ := List.mem_filter.1 hmem
        have hlhs : production.lhs = A := of_decide_eq_true hlhs
        refine Result.wp_mono (reachProduction_wp (fun B hB => ⟨?_, ?_⟩) hs') ?_
        · exact hg.rhs_inRange production hproduction _ hB
        · exact (h.marked.sound A hA).tail ⟨_, ⟨production, hproduction, hlhs, rfl⟩, hB⟩
        · rintro s'' ⟨hs'', hold', hrhs⟩
          refine ⟨by simpa using hl, hs'', fun B hB => hold' B (hold B hB), fun q hq B hB => ?_⟩
          rcases List.mem_append.1 hq with hq | hq
          · exact hold' B (hp q hq B hB)
          · obtain rfl := List.mem_singleton.1 hq
            exact hrhs B hB
      · rintro s' ⟨-, hs', hold, hp⟩
        refine ih ⟨hs', hold _ h.start_mem, fun B hB C hC => ?_⟩ ?_
        · rcases List.mem_append.1 hB with hB | hB
          · exact hold C (h.closed B hB C hC)
          · obtain rfl := List.mem_singleton.1 hB
            obtain ⟨γ, ⟨production, hproduction, hlhs, rfl⟩, hC⟩ := hC
            exact hp production (List.mem_filter.2 ⟨hproduction, decide_eq_true hlhs⟩) C hC
        · rw [List.length_append, List.length_singleton]
          omega

/-- The flags say which nonterminals are reached from the start symbol. -/
theorem reachableNonterminals_spec (hg : g.WellFormed) :
    ∃ flags, g.reachableNonterminals = .ok flags ∧ flags.length = g.nonterminals.length ∧
      ∀ A, flags[A]? = some true ↔ Reaches g.Rule g.start A := by
  refine Result.exists_of_wp ?_
  unfold reachableNonterminals
  rw [Result.wp_bind]
  refine Result.wp_mono (indexProductions_wp hg) fun productionsByLhs ⟨hlen, hrows⟩ => ?_
  simp only [Result.wp_bind]
  rw [wp_vecSet (by simpa using hg.start_lt)]
  have hinit : Search.Marked g.nonterminals.length (Reaches g.Rule g.start) []
      ⟨List.replicate g.nonterminals.length false, []⟩ := Search.Marked.init
  obtain ⟨s, hmark, hs, hmem, -⟩ := hinit.mark hg.start_lt Relation.ReflTransGen.refl
  have hpush : Search.mark ⟨List.replicate g.nonterminals.length false, []⟩ g.start =
      .ok ⟨(List.replicate g.nonterminals.length false).set g.start true, [g.start]⟩ := by
    have hget : (List.replicate g.nonterminals.length false)[g.start]? = some false := by
      simp [hg.start_lt]
    rw [Search.mark, vecGet_of hget]
    rfl
  obtain rfl := Except.ok.inj (hmark.symm.trans hpush)
  have hreached : g.Reached [] ⟨_, [g.start]⟩ := ⟨hs, hmem, fun A hA => absurd hA List.not_mem_nil⟩
  exact reachLoop_wp hg hlen hrows hreached (by simp)

end Grammar

end OcEarley
