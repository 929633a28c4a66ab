import Mathlib.Computability.Language

/-!
# Prefix codes

A family of languages no word of which begins another one.  A word has at most one split into words
of a prefix code (`IsPrefixCode.split_unique`).
-/

namespace OcEarley

variable {ι α : Type*}

/-- No word is a proper prefix of a word of the same or another language, and no word belongs to
two languages. -/
structure IsPrefixCode (L : ι → Language α) : Prop where
  prefix_free : ∀ {i j u z}, u ∈ L i → u ++ z ∈ L j → z = []
  disjoint : ∀ {i j u}, u ∈ L i → u ∈ L j → i = j

namespace IsPrefixCode

variable {L : ι → Language α}

/-- Of two words that begin the same word, both are the same and of one language. -/
theorem eq_of_append_eq (h : IsPrefixCode L) {i j : ι} {u u' v v' : List α} (hu : u ∈ L i)
    (hu' : u' ∈ L j) (heq : u ++ v = u' ++ v') : i = j ∧ u = u' := by
  have hword : u = u' := by
    rcases List.append_eq_append_iff.1 heq with ⟨z, rfl, -⟩ | ⟨z, rfl, -⟩
    · rw [h.prefix_free hu hu', List.append_nil]
    · rw [h.prefix_free hu' hu, List.append_nil]
  subst hword
  exact ⟨h.disjoint hu hu', rfl⟩

/-- A word has at most one split into words of the languages, which are told apart. -/
theorem split_unique (h : IsPrefixCode L) (hnil : ∀ i, [] ∉ L i) {xs ys : List (ι × List α)}
    (hxs : ∀ x ∈ xs, x.2 ∈ L x.1) (hys : ∀ y ∈ ys, y.2 ∈ L y.1)
    (heq : (xs.map Prod.snd).flatten = (ys.map Prod.snd).flatten) : xs = ys := by
  have hne : ∀ {x : ι × List α} {l : List (ι × List α)}, x.2 ∈ L x.1 →
      ((x :: l).map Prod.snd).flatten ≠ [] := by
    intro x l hx hflat
    rw [List.map_cons, List.flatten_cons] at hflat
    exact hnil x.1 ((List.append_eq_nil_iff.1 hflat).1 ▸ hx)
  induction xs generalizing ys with
  | nil =>
    cases ys with
    | nil => rfl
    | cons y ys => exact absurd heq.symm (hne (hys y List.mem_cons_self))
  | cons x xs ih =>
    cases ys with
    | nil => exact absurd heq (hne (hxs x List.mem_cons_self))
    | cons y ys =>
      rw [List.forall_mem_cons] at hxs hys
      rw [List.map_cons, List.map_cons, List.flatten_cons, List.flatten_cons] at heq
      obtain ⟨hindex, hword⟩ := h.eq_of_append_eq hxs.1 hys.1 heq
      rw [hword] at heq
      rw [Prod.ext hindex hword, ih hxs.2 hys.2 (List.append_cancel_left heq)]

end IsPrefixCode

end OcEarley
