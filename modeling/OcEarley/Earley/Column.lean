import Mathlib.Data.List.ProdSigma
import OcEarley.Earley.Effect

/-!
# Columns

`ChartColumn.Agenda e n a c` is the bookkeeping of column `n` after `a` of its items have been
processed: the items are distinct and are exactly the membership keys, and the waiting lists hold
the processed items by their next symbols.  `EarleyRecognizer.Closed` says what processing an item
has put into the column.
-/

namespace OcEarley

/-! ### Keys -/

theorem EarleyItem.key_eq {item : EarleyItem} (h : item.origin ≤ u32Max) :
    item.key = item.dotted * 2 ^ 32 + item.origin := by
  unfold EarleyItem.key
  rw [← Nat.shiftLeft_add_eq_or_of_lt (show item.origin < 2 ^ 32 by unfold u32Max at h; omega),
    Nat.shiftLeft_eq]

/-- Keys tell items apart as long as their origins are 32-bit numbers. -/
theorem EarleyItem.key_inj {item item' : EarleyItem} (h : item.origin ≤ u32Max)
    (h' : item'.origin ≤ u32Max) (heq : item.key = item'.key) : item = item' := by
  rw [key_eq h, key_eq h'] at heq
  unfold u32Max at h h'
  obtain ⟨d, o⟩ := item
  obtain ⟨d', o'⟩ := item'
  simp only [mk.injEq] at *
  omega

namespace ChartColumn

/-- The next symbol of an item is `s`. -/
def NextIs (e : CompiledEarley) (s : GrammarSymbol) (item : EarleyItem) : Prop :=
  (e.rest item.dotted).head? = some s

instance (e : CompiledEarley) (s : GrammarSymbol) : DecidablePred (NextIs e s) :=
  fun item => inferInstanceAs (Decidable ((e.rest item.dotted).head? = some s))

/-- The item fits column `n`. -/
structure Fits (e : CompiledEarley) (n : ℕ) (item : EarleyItem) : Prop where
  dotted_lt : item.dotted < e.dotted.length
  origin_le : item.origin ≤ n

/-- Column `n` after `a` of its items have been processed. -/
structure Agenda (e : CompiledEarley) (n a : ℕ) (c : ChartColumn) : Prop where
  position : c.position = n
  fits : ∀ item ∈ c.items, Fits e n item
  mem_iff : ∀ item, item.origin ≤ u32Max → (item.key ∈ c.membership ↔ item ∈ c.items)
  nodup : c.items.Nodup
  nonterminal : ∀ B, c.waitingNonterminal.get B =
    (c.items.take a).filter (NextIs e (.nonterminal B))
  terminal : ∀ t, c.waitingTerminal.get t = (c.items.take a).filter (NextIs e (.terminal t))
  mem_nonterminal : ∀ B, B ∈ c.waitingNonterminal ↔ c.waitingNonterminal.get B ≠ []

variable {e : CompiledEarley} {n a : ℕ} {c : ChartColumn} {item : EarleyItem}
  {l : List EarleyItem}

theorem agenda_new : Agenda e n 0 (.new n) where
  position := rfl
  fits := by simp [new]
  mem_iff := by simp [new]
  nodup := List.nodup_nil
  nonterminal := by simp [new]
  terminal := by simp [new]
  mem_nonterminal := by simp [new, Waiters]

theorem wait_items {sym : Option GrammarSymbol} : (c.wait item sym).items = c.items := by
  rcases sym with _ | ⟨t⟩ | ⟨B⟩ <;> rfl

theorem items_prefix_wait_insertAll {sym : Option GrammarSymbol} :
    c.items <+: ((c.wait item sym).insertAll l).items :=
  wait_items ▸ (items_prefix_insertAll : _ <+: ((c.wait item sym).insertAll l).items)

theorem wait_position {sym : Option GrammarSymbol} :
    (c.wait item sym).position = c.position := by
  rcases sym with _ | ⟨t⟩ | ⟨B⟩ <;> rfl

theorem wait_leoByPostdot {sym : Option GrammarSymbol} :
    (c.wait item sym).leoByPostdot = c.leoByPostdot := by
  rcases sym with _ | ⟨t⟩ | ⟨B⟩ <;> rfl

namespace Agenda

theorem mem_insert (h : Agenda e n a c) (hn : n ≤ u32Max) (hitem : Fits e n item)
    {x : EarleyItem} : x ∈ (c.insert item).items ↔ x ∈ c.items ∨ x = item := by
  have hmem := h.mem_iff item (hitem.origin_le.trans hn)
  unfold ChartColumn.insert
  split
  · next hkey =>
    exact ⟨.inl, fun hx => hx.elim id fun hx => hx ▸ hmem.1 hkey⟩
  · simp

theorem insert (h : Agenda e n a c) (hn : n ≤ u32Max) (ha : a ≤ c.items.length)
    (hitem : Fits e n item) : Agenda e n a (c.insert item) := by
  have hmem := h.mem_iff item (hitem.origin_le.trans hn)
  unfold ChartColumn.insert
  split
  · exact h
  · next hkey =>
    have htake : (c.items ++ [item]).take a = c.items.take a := List.take_append_of_le_length ha
    refine ⟨h.position, ?_, ?_, ?_, ?_, ?_, h.mem_nonterminal⟩
    · intro x hx
      rcases List.mem_append.1 hx with hx | hx
      · exact h.fits x hx
      · exact List.mem_singleton.1 hx ▸ hitem
    · intro x hx
      simp only [Finset.mem_insert, List.mem_append, List.mem_singleton, h.mem_iff x hx]
      exact ⟨fun h => h.symm.imp_right (EarleyItem.key_inj hx (hitem.origin_le.trans hn)),
        fun h => h.symm.imp_left (congrArg EarleyItem.key)⟩
    · exact List.nodup_append.2 ⟨h.nodup, List.nodup_singleton _, by
        rintro x hx _ hy rfl
        exact hkey (hmem.2 (List.mem_singleton.1 hy ▸ hx))⟩
    · exact fun B => (h.nonterminal B).trans (by rw [htake])
    · exact fun t => (h.terminal t).trans (by rw [htake])

theorem insertAll (h : Agenda e n a c) (hn : n ≤ u32Max) (ha : a ≤ c.items.length)
    (hl : ∀ item ∈ l, Fits e n item) : Agenda e n a (c.insertAll l) ∧
      ∀ x, x ∈ (c.insertAll l).items ↔ x ∈ c.items ∨ x ∈ l := by
  induction l generalizing c with
  | nil => exact ⟨h, by simp⟩
  | cons item l ih =>
    have hitem := hl item List.mem_cons_self
    have hle := ha.trans (@items_prefix_insert c item).length_le
    obtain ⟨h', hmem⟩ := ih (h.insert hn ha hitem) hle fun x hx => hl x (List.mem_cons_of_mem _ hx)
    refine ⟨h', fun x => ?_⟩
    rw [insertAll_cons, hmem, h.mem_insert hn hitem, List.mem_cons, or_assoc]

/-- Processing the next item files it under its next symbol. -/
theorem wait (h : Agenda e n a c) (hitem : c.items[a]? = some item) :
    Agenda e n (a + 1) (c.wait item (e.rest item.dotted).head?) := by
  have htake : c.items.take (a + 1) = c.items.take a ++ [item] := by
    rw [List.take_add_one, hitem]
    rfl
  -- the waiting list of each symbol grows by the item iff the symbol is the next one
  have hfilter : ∀ s, (c.items.take (a + 1)).filter (NextIs e s) =
      (c.items.take a).filter (NextIs e s) ++ if NextIs e s item then [item] else [] := by
    intro s
    rw [htake, List.filter_append]
    by_cases hs : NextIs e s item <;> simp [hs]
  rcases hnext : (e.rest item.dotted).head? with _ | ⟨t⟩ | ⟨B⟩
  · refine ⟨h.position, h.fits, h.mem_iff, h.nodup, fun B => ?_, fun t => ?_, h.mem_nonterminal⟩
    · rw [wait_items, hfilter, if_neg (by simp [NextIs, hnext]), List.append_nil]
      exact h.nonterminal B
    · rw [wait_items, hfilter, if_neg (by simp [NextIs, hnext]), List.append_nil]
      exact h.terminal t
  · refine ⟨h.position, h.fits, h.mem_iff, h.nodup, fun B => ?_, fun t' => ?_, h.mem_nonterminal⟩
    · rw [wait_items, hfilter, if_neg (by simp [NextIs, hnext]), List.append_nil]
      exact h.nonterminal B
    · change (c.waitingTerminal.push t item).get t' = _
      rw [wait_items, hfilter, Waiters.get_push, h.terminal, h.terminal]
      by_cases ht : t' = t
      · subst ht
        simp [NextIs, hnext]
      · simp [NextIs, hnext, ht, Ne.symm ht]
  · refine ⟨h.position, h.fits, h.mem_iff, h.nodup, fun B' => ?_, fun t => ?_, fun B' => ?_⟩
    · change (c.waitingNonterminal.push B item).get B' = _
      rw [wait_items, hfilter, Waiters.get_push, h.nonterminal, h.nonterminal]
      by_cases hB : B' = B
      · subst hB
        simp [NextIs, hnext]
      · simp [NextIs, hnext, hB, Ne.symm hB]
    · rw [wait_items, hfilter, if_neg (by simp [NextIs, hnext]), List.append_nil]
      exact h.terminal t
    · change B' ∈ c.waitingNonterminal.push B item ↔ (c.waitingNonterminal.push B item).get B' ≠ []
      rw [Waiters.mem_push, Waiters.get_push, h.mem_nonterminal]
      by_cases hB : B' = B <;> simp [hB]

/-- A column has at most one item for each dotted rule and origin. -/
theorem length_le (h : Agenda e n a c) : c.items.length ≤ e.dotted.length * (n + 1) := by
  have hsub : c.items.map (fun item => (item.dotted, item.origin)) ⊆
      List.range e.dotted.length ×ˢ List.range (n + 1) := by
    intro x hx
    obtain ⟨item, hitem, rfl⟩ := List.mem_map.1 hx
    have := h.fits item hitem
    exact List.mem_product.2 ⟨List.mem_range.2 this.dotted_lt,
      List.mem_range.2 (Nat.lt_succ_of_le this.origin_le)⟩
  have hnodup : (c.items.map fun item => (item.dotted, item.origin)).Nodup :=
    h.nodup.map fun x y hxy => by
      cases x
      cases y
      simpa using hxy
  have := (hnodup.subperm hsub).length_le
  simpa [List.length_product] using this

theorem mem_nonterminal_of_mem (h : Agenda e n c.items.length c) {B : ℕ} {β : List GrammarSymbol}
    (hitem : item ∈ c.items) (hr : e.rest item.dotted = .nonterminal B :: β) :
    item ∈ c.waitingNonterminal.get B := by
  rw [h.nonterminal, List.take_length, List.mem_filter]
  exact ⟨hitem, by simp [NextIs, hr]⟩

theorem mem_terminal_of_mem (h : Agenda e n c.items.length c) {t : ℕ} {β : List GrammarSymbol}
    (hitem : item ∈ c.items) (hr : e.rest item.dotted = .terminal t :: β) :
    item ∈ c.waitingTerminal.get t := by
  rw [h.terminal, List.take_length, List.mem_filter]
  exact ⟨hitem, by simp [NextIs, hr]⟩

/-- A waiting item is in the column, with the symbol it waits for after its dot. -/
theorem of_mem_nonterminal (h : Agenda e n a c) {B : ℕ}
    (hitem : item ∈ c.waitingNonterminal.get B) :
    item ∈ c.items ∧ ∃ β, e.rest item.dotted = .nonterminal B :: β := by
  rw [h.nonterminal, List.mem_filter, decide_eq_true_eq] at hitem
  exact ⟨List.mem_of_mem_take hitem.1, List.head?_eq_some_iff.1 hitem.2⟩

theorem of_mem_terminal (h : Agenda e n a c) {t : ℕ} (hitem : item ∈ c.waitingTerminal.get t) :
    item ∈ c.items ∧ ∃ β, e.rest item.dotted = .terminal t :: β := by
  rw [h.terminal, List.mem_filter, decide_eq_true_eq] at hitem
  exact ⟨List.mem_of_mem_take hitem.1, List.head?_eq_some_iff.1 hitem.2⟩

end Agenda

end ChartColumn

end OcEarley
