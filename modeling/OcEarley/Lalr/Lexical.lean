import OcEarley.Grammar.Residual
import OcEarley.Lalr.Build

/-!
# Lexical safety

Both searches of `lexicalSafety` end with every reachable cursor seen, so they only miss what does
not exist: no word of a terminal is a prefix of a word of another one, or of a longer word of its
own (`lexicalSafety_spec`).
-/

namespace OcEarley

theorem hasFound_eq_false {α : Type} {search : Except SearchExit α}
    (h : SearchExit.hasFound search = .ok false) : ∃ a, search = .ok a := by
  rcases search with (_ | _) | a
  · cases h
  · cases h
  · exact ⟨a, rfl⟩

/-! ### One terminal -/

namespace CompiledByteDfa

variable {dfa : CompiledByteDfa} {state : ℕ} {result : List ℕ}

theorem mem_successors {next : ℕ} :
    next ∈ dfa.successors state ↔ (∃ b, dfa.nextState state b = next) ∧
      dfa.isDead next = false := by
  simp [successors, mem_allBytes]

/-- A search that ends has seen no accepting state, and all states behind it. -/
theorem searchAccepting_spec (h : searchAccepting dfa state = .ok result) :
    (∀ next ∈ dfa.successors state, next ∈ result) ∧ ∀ current ∈ result,
      dfa.isAccepting current = false ∧ ∀ next ∈ dfa.successors current, next ∈ result := by
  obtain ⟨start, hstart, h⟩ := Result.bind_eq_ok.1 h
  obtain ⟨hseen, hqueue, hnew, -⟩ := Worklist.visit_spec hstart
  obtain ⟨hsub, hclosed⟩ := Worklist.explore_closed h
    (fun a ha => (hseen a).2 ((hqueue a ha).imp_left fun h => absurd h List.not_mem_nil))
    (fun a ha hna => absurd ((hnew a ha).resolve_left List.not_mem_nil) hna)
  refine ⟨fun next hnext => hsub next ((hseen next).2 (.inr hnext)), fun current hcurrent => ?_⟩
  obtain ⟨l, hstep, hl⟩ := hclosed current hcurrent
  split at hstep
  · cases hstep
  · next hacc =>
    obtain rfl := Result.pure_eq_ok.1 hstep
    exact ⟨by simpa using hacc, hl⟩

theorem acceptsFrom_cons_eq_false {b : UInt8} {w : List UInt8}
    (h : ∀ next ∈ dfa.successors state, dfa.acceptsFrom next w = false) :
    dfa.acceptsFrom state (b :: w) = false := by
  simp only [acceptsFrom]
  split
  · rfl
  · next hdead => exact h _ (mem_successors.2 ⟨⟨b, rfl⟩, by simpa using hdead⟩)

/-- Nothing behind the state accepts. -/
theorem acceptsFrom_eq_false (h : searchAccepting dfa state = .ok result) {w : List UInt8}
    (hw : w ≠ []) : dfa.acceptsFrom state w = false := by
  obtain ⟨hstart, hclosed⟩ := searchAccepting_spec h
  have key : ∀ (w : List UInt8), ∀ current ∈ result, dfa.acceptsFrom current w = false := by
    intro w
    induction w with
    | nil => exact fun current hcurrent => (hclosed current hcurrent).1
    | cons b w ih =>
      exact fun current hcurrent => acceptsFrom_cons_eq_false fun next hnext =>
        ih next ((hclosed current hcurrent).2 next hnext)
  cases w with
  | nil => exact absurd rfl hw
  | cons b w => exact acceptsFrom_cons_eq_false fun next hnext => key w next (hstart next hnext)

end CompiledByteDfa

/-- No word of the terminal is longer than another one that it begins with. -/
theorem terminalIsPrefixFree_spec {terminal : CompiledTerminal}
    (h : terminalIsPrefixFree terminal = .ok true) {u z : List UInt8} (hu : u ≠ [])
    (hmem : u ∈ terminal.language) (hlong : u ++ z ∈ terminal.language) : z = [] := by
  cases terminal with
  | literal bytes =>
    obtain rfl : u = bytes := hmem
    simpa using show u ++ z = u from hlong
  | dfa d =>
    obtain ⟨found, hfound, h⟩ := Result.bind_eq_ok.1 h
    obtain rfl : found = false := by simpa using Result.pure_eq_ok.1 h
    obtain ⟨⟨⟩, hsearch⟩ := hasFound_eq_false hfound
    -- the state after `u` accepts, so the search from it has failed
    obtain ⟨c, hc, hacc⟩ := CompiledTerminal.acceptsFrom_iff_runFrom.1
      (show d.acceptsFrom CompiledByteDfa.startState u = true from hmem)
    obtain ⟨c', hc', hacc'⟩ := CompiledTerminal.acceptsFrom_iff_runFrom.1
      (show d.acceptsFrom CompiledByteDfa.startState (u ++ z) = true from hlong)
    rw [CompiledTerminal.runFrom_append, hc, Option.bind_some] at hc'
    obtain ⟨u, b, rfl⟩ := (List.eq_nil_or_concat' u).resolve_left hu
    rw [CompiledTerminal.runFrom_snoc] at hc
    obtain ⟨c₀, -, hadvance⟩ := Option.bind_eq_some_iff.1 hc
    obtain ⟨q, rfl, hq⟩ := CompiledTerminal.exists_of_advance_dfa hadvance
    by_contra hz
    have hstate := Result.forM_eq_ok hsearch q (List.mem_range.2 hq)
    obtain ⟨-, -, hstate⟩ := Result.bind_eq_ok.1 hstate
    rw [if_pos (show d.isAccepting q = true from hacc)] at hstate
    obtain ⟨result, hresult, -⟩ := Result.bind_eq_ok.1 hstate
    have hreject := CompiledByteDfa.acceptsFrom_eq_false hresult hz
    rw [CompiledTerminal.acceptsFrom_iff_runFrom.2 ⟨c', hc', hacc'⟩] at hreject
    cases hreject

/-! ### Two terminals -/

section Pair

variable {left right : CompiledTerminal} {c c' : TerminalCursorState} {u : List UInt8}

/-- A step without an accepting cursor lists every pair of next cursors. -/
theorem stepPair_spec {pair : TerminalCursorState × TerminalCursorState}
    {l : List (TerminalCursorState × TerminalCursorState)} (h : stepPair left right pair = .ok l)
    {b : UInt8} (hc : left.advance pair.1 b = some c) (hc' : right.advance pair.2 b = some c') :
    (c, c') ∈ l ∧ left.isAccepting c = false ∧ right.isAccepting c' = false := by
  have key := Result.foldlM_induction
    (I := fun (done : List UInt8) (pairs : List (TerminalCursorState × TerminalCursorState)) =>
      ∀ b ∈ done, ∀ c c', left.advance pair.1 b = some c → right.advance pair.2 b = some c' →
        (c, c') ∈ pairs ∧ left.isAccepting c = false ∧ right.isAccepting c' = false) h
    (fun b hb => absurd hb List.not_mem_nil) ?_
  · exact key b (mem_allBytes b) c c' hc hc'
  · intro done byte pairs pairs' hI hstep b hb c c' hc hc'
    have hmono : ∀ pair ∈ pairs, pair ∈ pairs' := by
      intro pair hpair
      split at hstep
      · split at hstep
        · cases hstep
        · obtain rfl := Result.pure_eq_ok.1 hstep
          exact List.mem_append_left _ hpair
      · obtain rfl := Result.pure_eq_ok.1 hstep
        exact hpair
    rcases List.mem_append.1 hb with hb | hb
    · exact (hI b hb c c' hc hc').imp_left (hmono _)
    · obtain rfl := List.mem_singleton.1 hb
      rw [hc, hc'] at hstep
      dsimp only at hstep
      split at hstep
      · cases hstep
      · next hacc =>
        obtain rfl := Result.pure_eq_ok.1 hstep
        exact ⟨List.mem_append_right _ (List.mem_singleton_self _), by simpa using hacc⟩

/-- Two cursors that read the same bytes do not accept. -/
theorem isAccepting_eq_false_of_overlap
    (h : terminalLanguagesHavePrefixOverlap left right = .ok false) (hu : u ≠ [])
    (hc : left.runFrom left.start u = some c) (hc' : right.runFrom right.start u = some c') :
    left.isAccepting c = false ∧ right.isAccepting c' = false := by
  obtain ⟨result, hresult⟩ := hasFound_eq_false h
  obtain ⟨hsub, hclosed⟩ := Worklist.explore_closed hresult (fun _ => id)
    (fun a ha hna => absurd ha hna)
  have key : (c, c') ∈ result ∧ (u ≠ [] → left.isAccepting c = false ∧
      right.isAccepting c' = false) := by
    clear hu
    induction u using List.reverseRecOn generalizing c c' with
    | nil =>
      obtain rfl := Option.some.inj hc
      obtain rfl := Option.some.inj hc'
      exact ⟨hsub _ (List.mem_singleton_self _), fun h => absurd rfl h⟩
    | append_singleton u b ih =>
      rw [CompiledTerminal.runFrom_snoc] at hc hc'
      obtain ⟨d, hd, hc⟩ := Option.bind_eq_some_iff.1 hc
      obtain ⟨d', hd', hc'⟩ := Option.bind_eq_some_iff.1 hc'
      obtain ⟨l, hstep, hl⟩ := hclosed _ (ih hd hd').1
      obtain ⟨hmem, hacc⟩ := stepPair_spec hstep hc hc'
      exact ⟨hl _ hmem, fun _ => hacc⟩
  exact key.2 hu

theorem overlapFree_spec {terminals : List CompiledTerminal}
    (h : overlapFree terminals = .ok true) :
    terminals.Pairwise fun left right =>
      terminalLanguagesHavePrefixOverlap left right = .ok false := by
  induction terminals with
  | nil => exact .nil
  | cons left rest ih =>
    obtain ⟨overlap, hoverlap, h⟩ := Result.bind_eq_ok.1 h
    cases overlap with
    | true => cases h
    | false =>
      refine List.pairwise_cons.2 ⟨?_, ih h⟩
      -- once an overlap is found the answer stays `true`
      have key := Result.foldlM_induction
        (I := fun (done : List CompiledTerminal) (found : Bool) => found = false →
          ∀ right ∈ done, terminalLanguagesHavePrefixOverlap left right = .ok false) hoverlap
        (fun _ right hright => absurd hright List.not_mem_nil) ?_
      · exact key rfl
      · intro done right found found' hI hstep hfound' other hother
        subst hfound'
        split at hstep
        · cases hstep
        · next hfound =>
          rcases List.mem_append.1 hother with hother | hother
          · exact hI (by simpa using hfound) other hother
          · exact List.mem_singleton.1 hother ▸ hstep

end Pair

/-! ### All terminals -/

/-- A word of a terminal that is short enough to be read is no prefix of any other word. -/
def ResidualGrammar.PrefixSafe (g : ResidualGrammar) : Prop :=
  ∀ {t t' : ℕ} {u z : List UInt8}, u.length ≤ u32Max → u ≠ [] → u ∈ g.terminalLanguage t →
    u ++ z ∈ g.terminalLanguage t' → t = t' ∧ z = []

theorem mem_terminalLanguage {g : ResidualGrammar} {t : ℕ} {w : List UInt8} :
    w ∈ g.terminalLanguage t ↔ ∃ terminal, g.terminals[t]? = some terminal ∧
      w ∈ terminal.language := by
  unfold ResidualGrammar.terminalLanguage
  cases g.terminals[t]? with
  | none => simp
  | some terminal => simp

/-- What the check has found out. -/
theorem lexicalSafety_eq_ok_true {terminals : List CompiledTerminal}
    (h : lexicalSafety terminals = .ok true) :
    (∀ terminal ∈ terminals, terminalIsPrefixFree terminal = .ok true) ∧
      overlapFree terminals = .ok true := by
  obtain ⟨safe, hsafe, h⟩ := Result.bind_eq_ok.1 h
  cases safe with
  | false => cases h
  | true =>
    refine ⟨?_, h⟩
    have key := Result.foldlM_induction
      (I := fun (done : List CompiledTerminal) (safe : Bool) => safe = true →
        ∀ terminal ∈ done, terminalIsPrefixFree terminal = .ok true) hsafe
      (fun _ terminal hmem => absurd hmem List.not_mem_nil) ?_
    · exact key rfl
    · intro done terminal safe safe' hI hstep hsafe' other hother
      subst hsafe'
      split at hstep
      · next hsafe =>
        rcases List.mem_append.1 hother with hother | hother
        · exact hI hsafe other hother
        · exact List.mem_singleton.1 hother ▸ hstep
      · cases hstep

/-- Cursors of two terminals that read the same bytes do not accept. -/
theorem isAccepting_eq_false_of_ne {terminals : List CompiledTerminal}
    (h : overlapFree terminals = .ok true) {t t' : ℕ} {left right : CompiledTerminal}
    {c c' : TerminalCursorState} {u : List UInt8} (hne : t ≠ t') (hl : terminals[t]? = some left)
    (hr : terminals[t']? = some right) (hu : u ≠ []) (hc : left.runFrom left.start u = some c)
    (hc' : right.runFrom right.start u = some c') : left.isAccepting c = false := by
  have hpair := List.pairwise_iff_getElem.1 (overlapFree_spec h)
  obtain ⟨hlt, rfl⟩ := List.getElem?_eq_some_iff.1 hl
  obtain ⟨hlt', rfl⟩ := List.getElem?_eq_some_iff.1 hr
  rcases Nat.lt_or_gt_of_ne hne with hne | hne
  · exact (isAccepting_eq_false_of_overlap (hpair t t' hlt hlt' hne) hu hc hc').1
  · exact (isAccepting_eq_false_of_overlap (hpair t' t hlt' hlt hne) hu hc' hc).2

/-- **Lexical safety.**  The check only passes prefix-safe terminals. -/
theorem lexicalSafety_spec {g : ResidualGrammar} (h : lexicalSafety g.terminals = .ok true) :
    g.PrefixSafe := by
  obtain ⟨hfree, hoverlap⟩ := lexicalSafety_eq_ok_true h
  intro t t' u z hlen hu hmem hlong
  obtain ⟨terminal, hterminal, hmem⟩ := mem_terminalLanguage.1 hmem
  obtain ⟨terminal', hterminal', hlong⟩ := mem_terminalLanguage.1 hlong
  obtain ⟨c, hc, hacc⟩ := (CompiledTerminal.mem_language_iff_runFrom hlen).1 hmem
  obtain ⟨c', hc'⟩ := CompiledTerminal.exists_runFrom_of_mem hlen hlong
  by_cases hne : t = t'
  · subst hne
    obtain rfl := Option.some.inj (hterminal.symm.trans hterminal')
    have hsafe := hfree _ (List.mem_of_getElem? hterminal)
    exact ⟨rfl, terminalIsPrefixFree_spec hsafe hu hmem hlong⟩
  · have := isAccepting_eq_false_of_ne hoverlap hne hterminal hterminal' hu hc hc'
    rw [hacc] at this
    cases this

end OcEarley
