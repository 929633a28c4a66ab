import OcEarley.Formal.Yield

/-!
# Earley charts

The items of an Earley chart are pairs of a *dotted rule* and an origin.  `DottedGrammar` keeps
of a dotted rule what the deduction rules look at: the symbols after the dot, the rule with the
dot moved on, and the left-hand side.

* `DottedGrammar.Chart` : the items deduced over a word by prediction, scanning and completion;
* `Chart.sound` and `chart_complete` : an item `(d, i)` of column `j` says that the symbols
  before its dot derive the segment from `i` to `j`; the start rule is completed over the whole
  word iff the start symbol derives it;
* `Chart.viable` : the input read so far can be continued to a word of the language;
* `Saturated` : what a recognizer has to establish about its columns, with or without Leo's
  shortcut, and `Saturated.mem_iff` : such columns hold the deduced items, except completed items
  that a Leo entry has jumped over.
-/

namespace OcEarley

/-- The dotted rules of a grammar with a start rule. -/
structure DottedGrammar (N T D : Type*) where
  /-- Left-hand side. -/
  lhs : D → N
  /-- The symbols after the dot. -/
  rest : D → List (Symbol T N)
  /-- The dot moved over one symbol. -/
  advance : D → D
  /-- The rules of a nonterminal, with the dot in front. -/
  starts : N → D → Prop
  /-- The dotted start rule. -/
  init : D
  rest_advance : ∀ {d s β}, rest d = s :: β → rest (advance d) = β
  lhs_advance : ∀ {d s β}, rest d = s :: β → lhs (advance d) = lhs d
  lhs_starts : ∀ {A d}, starts A d → lhs d = A
  init_fresh : ∀ {d A β}, rest d = .nonterminal A :: β → A ≠ lhs init

/-- The segment of `x` between two positions. -/
def segment {α : Type*} (x : List α) (i j : ℕ) : List α := (x.take j).drop i

section Segment

variable {α : Type*} {x : List α} {i j k : ℕ}

@[simp] theorem segment_self : segment x i i = [] := by simp [segment]

theorem segment_zero : segment x 0 j = x.take j := rfl

theorem segment_append (hij : i ≤ j) (hjk : j ≤ k) :
    segment x i j ++ segment x j k = segment x i k := by
  unfold segment
  rw [← List.take_append_drop (j - i) ((x.take k).drop i), List.take_drop, List.drop_drop,
    Nat.add_sub_cancel' hij, List.take_take, Nat.min_eq_left hjk]

theorem length_segment (hj : j ≤ x.length) : (segment x i j).length = j - i := by
  simp [segment, Nat.min_eq_left hj]

theorem segment_succ (hij : i ≤ j) (hj : j < x.length) :
    segment x i (j + 1) = segment x i j ++ [x[j]] := by
  rw [← segment_append hij (Nat.le_succ j)]
  congr 1
  unfold segment
  rw [← List.take_concat_get' x j hj, List.drop_append, List.drop_take]
  simp [Nat.min_eq_left hj.le]

/-- A segment that starts with `u` goes on after `u`. -/
theorem segment_eq_append {u v : List α} (hij : i ≤ j) (hj : j ≤ x.length)
    (h : segment x i j = u ++ v) :
    i + u.length ≤ j ∧ segment x i (i + u.length) = u ∧ segment x (i + u.length) j = v := by
  have hlen : j - i = u.length + v.length := by
    rw [← length_segment (x := x) (i := i) hj, h, List.length_append]
  have hle : i + u.length ≤ j := by omega
  have happ := (segment_append (x := x) (Nat.le_add_right i u.length) hle).trans h
  have hu : (segment x i (i + u.length)).length = u.length := by
    rw [length_segment (by omega)]; omega
  exact ⟨hle, List.append_inj happ hu⟩

end Segment

namespace DottedGrammar

variable {N T D α : Type*} (G : DottedGrammar N T D)

/-- The productions of the grammar. -/
def Rule (A : N) (γ : List (Symbol T N)) : Prop := ∃ d, G.starts A d ∧ G.rest d = γ

/-- The items `(d, i)` deduced in column `j` over the word `x`. -/
inductive Chart (L : T → Language α) (x : List α) : ℕ → D → ℕ → Prop
  | init : Chart L x 0 G.init 0
  | predict {j i : ℕ} {d c : D} {B : N} {β : List (Symbol T N)} :
      Chart L x j d i → G.rest d = .nonterminal B :: β → G.starts B c → Chart L x j c j
  | scan {j k i : ℕ} {d : D} {t : T} {β : List (Symbol T N)} :
      Chart L x k d i → G.rest d = .terminal t :: β → k ≤ j → j ≤ x.length →
      segment x k j ∈ L t → Chart L x j (G.advance d) i
  | complete {j k i : ℕ} {d c : D} {B : N} {β : List (Symbol T N)} :
      Chart L x k d i → G.rest d = .nonterminal B :: β → Chart L x j c k → G.rest c = [] →
      G.lhs c = B → Chart L x j (G.advance d) i

variable {G} {L : T → Language α} {x : List α} {j i : ℕ} {d : D}

namespace Chart

theorem origin_le (h : G.Chart L x j d i) : i ≤ j := by
  induction h with
  | init => exact le_rfl
  | predict => exact le_rfl
  | scan _ _ hkj _ _ ih => exact ih.trans hkj
  | complete _ _ _ _ _ ih₁ ih₂ => exact ih₁.trans ih₂

theorem column_le (h : G.Chart L x j d i) : j ≤ x.length := by
  induction h with
  | init => exact Nat.zero_le _
  | predict _ _ _ ih => exact ih
  | scan _ _ _ hj _ _ => exact hj
  | complete _ _ _ _ _ _ ih => exact ih

/-- The chart grows with the words of the terminals in the input. -/
theorem mono {L' : T → Language α}
    (hL : ∀ t k j, segment x k j ∈ L t → segment x k j ∈ L' t) (h : G.Chart L x j d i) :
    G.Chart L' x j d i := by
  induction h with
  | init => exact .init
  | predict _ hr hc ih => exact ih.predict hr hc
  | scan _ hr hkj hj ht ih => exact ih.scan hr hkj hj (hL _ _ _ ht)
  | complete _ hr _ hc' hB ih ihc => exact ih.complete hr ihc hc' hB

/-- A column depends on the input up to it. -/
theorem of_append {z : List α} (h : G.Chart L (x ++ z) j d i) (hj : j ≤ x.length) :
    G.Chart L x j d i := by
  induction h with
  | init => exact .init
  | predict _ hr hc ih => exact (ih hj).predict hr hc
  | scan _ hr hkj _ ht ih =>
    refine (ih (hkj.trans hj)).scan hr hkj hj ?_
    rwa [segment, List.take_append_of_le_length hj] at ht
  | complete h hr hc hc' hB ih ihc =>
    exact (ih (hc.origin_le.trans hj)).complete hr (ihc hj) hc' hB

/-- **Soundness.**  Whatever the symbols after the dot derive, the left-hand side derives after
the segment between origin and column. -/
theorem sound (h : G.Chart L x j d i) (hd : G.lhs d ≠ G.lhs G.init) :
    ∀ v, Yields G.Rule L (G.rest d) v →
      Yields G.Rule L [.nonterminal (G.lhs d)] (segment x i j ++ v) := by
  induction h with
  | init => exact absurd rfl hd
  | @predict j i d c B β _ _ hc _ =>
    intro v hv
    rw [segment_self, List.nil_append, G.lhs_starts hc]
    exact .of_production ⟨c, hc, rfl⟩ hv
  | @scan j k i d t β h hr hkj _ ht ih =>
    intro v hv
    rw [G.rest_advance hr] at hv
    rw [G.lhs_advance hr] at hd ⊢
    rw [← segment_append h.origin_le hkj, List.append_assoc]
    exact ih hd _ (hr ▸ .terminal ht hv)
  | @complete j k i d c B β h hr hc hc' hB ih ihc =>
    intro v hv
    rw [G.rest_advance hr] at hv
    rw [G.lhs_advance hr] at hd ⊢
    rw [← segment_append h.origin_le hc.origin_le, List.append_assoc]
    refine ih hd _ ?_
    rw [hr, yields_cons_iff]
    refine ⟨_, _, rfl, ?_, hv⟩
    simpa [hB] using ihc (hB ▸ G.init_fresh hr) [] (hc' ▸ .nil)

/-- A completed item derives its segment. -/
theorem sound_complete (h : G.Chart L x j d i) (hd : G.lhs d ≠ G.lhs G.init)
    (hr : G.rest d = []) : Yields G.Rule L [.nonterminal (G.lhs d)] (segment x i j) := by
  simpa using h.sound hd [] (hr ▸ .nil)

/-- Soundness of the items of the start rule. -/
theorem sound_init (h : G.Chart L x j d i) (hd : G.lhs d = G.lhs G.init) :
    i = 0 ∧ ∀ v, Yields G.Rule L (G.rest d) v →
      Yields G.Rule L (G.rest G.init) (x.take j ++ v) := by
  induction h with
  | init => exact ⟨rfl, fun v hv => by simpa using hv⟩
  | @predict j i d c B β _ hr hc _ =>
    exact absurd ((G.lhs_starts hc).symm.trans hd) (G.init_fresh hr)
  | @scan j k i d t β h hr hkj _ ht ih =>
    rw [G.lhs_advance hr] at hd
    obtain ⟨hi, ih⟩ := ih hd
    refine ⟨hi, fun v hv => ?_⟩
    rw [G.rest_advance hr] at hv
    rw [← segment_zero, ← segment_append (Nat.zero_le k) hkj, List.append_assoc, segment_zero]
    exact ih _ (hr ▸ .terminal ht hv)
  | @complete j k i d c B β h hr hc hc' hB ih _ =>
    rw [G.lhs_advance hr] at hd
    obtain ⟨hi, ih⟩ := ih hd
    refine ⟨hi, fun v hv => ?_⟩
    rw [G.rest_advance hr] at hv
    rw [← segment_zero, ← segment_append (Nat.zero_le k) hc.origin_le, List.append_assoc,
      segment_zero]
    refine ih _ ?_
    rw [hr, yields_cons_iff]
    exact ⟨_, _, rfl, by simpa [hB] using hc.sound_complete (hB ▸ G.init_fresh hr) hc', hv⟩

/-- **Viability.**  When the symbols behind a dotted symbol all derive something, the input up to
the column of an item can be continued to a word of the language. -/
theorem viable (hp : ∀ d s β, G.rest d = s :: β → ∃ v, Yields G.Rule L β v)
    (h : G.Chart L x j d i) :
    ∃ z, ∀ v, Yields G.Rule L (G.rest d) v →
      Yields G.Rule L (G.rest G.init) (x.take j ++ v ++ z) := by
  induction h with
  | init => exact ⟨[], fun v hv => by simpa using hv⟩
  | @predict j i d c B β _ hr hc ih =>
    obtain ⟨z, ih⟩ := ih
    obtain ⟨b, hb⟩ := hp d _ _ hr
    refine ⟨b ++ z, fun v hv => ?_⟩
    have := ih (v ++ b) (hr ▸ .nonterminal ⟨c, hc, rfl⟩ hv hb)
    simpa using this
  | @scan j k i d t β h hr hkj _ ht ih =>
    obtain ⟨z, ih⟩ := ih
    refine ⟨z, fun v hv => ?_⟩
    rw [G.rest_advance hr] at hv
    have := ih (segment x k j ++ v) (hr ▸ .terminal ht hv)
    rwa [← List.append_assoc, ← segment_zero, segment_append (Nat.zero_le k) hkj,
      segment_zero] at this
  | @complete j k i d c B β h hr hc hc' hB ih _ =>
    obtain ⟨z, ih⟩ := ih
    refine ⟨z, fun v hv => ?_⟩
    rw [G.rest_advance hr] at hv
    have := ih (segment x k j ++ v) (by
      rw [hr, yields_cons_iff]
      exact ⟨_, _, rfl, by simpa [hB] using hc.sound_complete (hB ▸ G.init_fresh hr) hc', hv⟩)
    rwa [← List.append_assoc, ← segment_zero, segment_append (Nat.zero_le k) hc.origin_le,
      segment_zero] at this

end Chart

/-! ### Completeness -/

/-- **Completeness.**  An item whose next symbols derive the segment up to column `j` is moved
over them in column `j`. -/
theorem chart_of_yields {α' β : List (Symbol T N)} {v : List α} (hv : Yields G.Rule L α' v) :
    ∀ {k j i : ℕ} {d : D}, G.Chart L x k d i → G.rest d = α' ++ β → k ≤ j → j ≤ x.length →
      segment x k j = v → ∃ d', G.Chart L x j d' i ∧ G.rest d' = β ∧ G.lhs d' = G.lhs d := by
  induction hv generalizing β with
  | nil =>
    intro k j i d h hr hkj hj hv
    have hlen := length_segment (x := x) (i := k) hj
    rw [hv, List.length_nil] at hlen
    obtain rfl : k = j := by omega
    exact ⟨d, h, hr, rfl⟩
  | @terminal t u v γ ht _ ih =>
    intro k j i d h hr hkj hj hv
    obtain ⟨hle, hu, hv⟩ := segment_eq_append hkj hj hv
    have hd := h.scan hr (Nat.le_add_right k u.length) (hle.trans hj) (by rwa [hu])
    obtain ⟨d', h', hr', hl'⟩ := ih hd (G.rest_advance hr) hle hj hv
    exact ⟨d', h', hr', hl'.trans (G.lhs_advance hr)⟩
  | @nonterminal A γ γ' u v hA _ _ ih₁ ih₂ =>
    intro k j i d h hr hkj hj hv
    obtain ⟨hle, hu, hv⟩ := segment_eq_append hkj hj hv
    obtain ⟨c, hc, hγ⟩ := hA
    obtain ⟨c', h', hr', hl'⟩ := ih₁ (h.predict hr hc) (β := []) (by simpa using hγ)
      (Nat.le_add_right k u.length) (hle.trans hj) hu
    have hd := h.complete hr h' hr' (hl'.trans (G.lhs_starts hc))
    obtain ⟨d', h', hr', hl'⟩ := ih₂ hd (G.rest_advance hr) hle hj hv
    exact ⟨d', h', hr', hl'.trans (G.lhs_advance hr)⟩

/-- An item is moved over a nonterminal that derives the empty word in its own column. -/
theorem Chart.nullable {B : N} {β : List (Symbol T N)} (h : G.Chart L x j d i)
    (hr : G.rest d = .nonterminal B :: β) (hB : Yields G.Rule L [.nonterminal B] []) :
    G.Chart L x j (G.advance d) i := by
  obtain ⟨γ, ⟨c, hc, hγ⟩, hnil⟩ := yields_nonterminal_iff.1 hB
  obtain ⟨c', h', hr', hl'⟩ := chart_of_yields hnil (h.predict hr hc) (β := [])
    (by simpa using hγ) le_rfl h.column_le segment_self
  exact h.complete hr h' hr' (hl'.trans (G.lhs_starts hc))

/-- The start rule is completed in column `j` iff its symbols derive the input up to `j`. -/
theorem chart_advance_init_iff {S : N} (hS : G.rest G.init = [.nonterminal S]) (hj : j ≤ x.length) :
    G.Chart L x j (G.advance G.init) 0 ↔ Yields G.Rule L [.nonterminal S] (x.take j) := by
  constructor
  · intro h
    have := (h.sound_init (G.lhs_advance hS)).2 [] ((G.rest_advance hS).symm ▸ .nil)
    simpa [hS] using this
  · intro h
    obtain ⟨γ, ⟨c, hc, hγ⟩, h⟩ := yields_nonterminal_iff.1 h
    obtain ⟨c', h', hr', hl'⟩ := chart_of_yields h (Chart.init.predict hS hc) (β := [])
      (by simpa using hγ) (Nat.zero_le j) hj segment_zero
    exact Chart.init.complete hS h' hr' (hl'.trans (G.lhs_starts hc))

/-- A derivation that runs over position `n` is inside a terminal there: some item of a column
up to `n` waits for a terminal one of whose words starts in that column and ends behind `n`. -/
theorem chart_open_of_yields {α' β : List (Symbol T N)} {v : List α} {n : ℕ}
    (hv : Yields G.Rule L α' v) :
    ∀ {k j i : ℕ} {d : D}, G.Chart L x k d i → G.rest d = α' ++ β → k ≤ n → n < j →
      j ≤ x.length → segment x k j = v →
      ∃ k' d' i' t β' j', G.Chart L x k' d' i' ∧ G.rest d' = .terminal t :: β' ∧ k' ≤ n ∧
        n < j' ∧ j' ≤ x.length ∧ segment x k' j' ∈ L t := by
  induction hv generalizing β with
  | nil =>
    intro k j i d h hr hkn hnj hj hv
    have hlen := length_segment (x := x) (i := k) hj
    rw [hv, List.length_nil] at hlen
    omega
  | @terminal t u v γ ht _ ih =>
    intro k j i d h hr hkn hnj hj hv
    obtain ⟨hle, hu, hv⟩ := segment_eq_append (by omega) hj hv
    by_cases hn : n < k + u.length
    · exact ⟨k, d, i, t, _, k + u.length, h, hr, hkn, hn, hle.trans hj, by rwa [hu]⟩
    · have hd := h.scan hr (Nat.le_add_right k u.length) (hle.trans hj) (by rwa [hu])
      exact ih hd (G.rest_advance hr) (by omega) hnj hj hv
  | @nonterminal A γ γ' u v hA hγu _ ih₁ ih₂ =>
    intro k j i d h hr hkn hnj hj hv
    obtain ⟨hle, hu, hv⟩ := segment_eq_append (by omega) hj hv
    obtain ⟨c, hc, hγ⟩ := hA
    by_cases hn : n < k + u.length
    · exact ih₁ (h.predict hr hc) (β := []) (by simpa using hγ) hkn hn (hle.trans hj) hu
    · obtain ⟨c', h', hr', hl'⟩ := chart_of_yields hγu (h.predict hr hc) (β := [])
        (by simpa using hγ) (Nat.le_add_right k u.length) (hle.trans hj) hu
      have hd := h.complete hr h' hr' (hl'.trans (G.lhs_starts hc))
      exact ih₂ hd (G.rest_advance hr) (by omega) hnj hj hv

/-! ### Saturated columns -/

/-- Leo entries of the columns: `leo k B e o` says that column `k` sends a completed `B` to the
item `(e, o)`.  An entry stands for a chain of completions with a single waiter each. -/
def LeoChain (G : DottedGrammar N T D) (C : ℕ → D → ℕ → Prop) (leo : ℕ → N → D → ℕ → Prop)
    (k : ℕ) : Prop :=
  ∀ B e o, leo k B e o → ∃ d i, C k d i ∧ G.rest d = [.nonterminal B] ∧
    (∀ d' i' β, C k d' i' → G.rest d' = .nonterminal B :: β → d' = d ∧ i' = i) ∧
    ((e = G.advance d ∧ o = i) ∨ (i < k ∧ leo i (G.lhs d) e o))

/-- Columns `0, …, n` of a recognizer over `x`: `C j d i` says that column `j` holds `(d, i)`. -/
structure Saturated (G : DottedGrammar N T D) (L : T → Language α) (x : List α) (n : ℕ)
    (C : ℕ → D → ℕ → Prop) (leo : ℕ → N → D → ℕ → Prop) : Prop where
  sound : ∀ {j d i}, j ≤ n → C j d i → G.Chart L x j d i
  init : C 0 G.init 0
  predict : ∀ {j d i B β c}, j ≤ n → C j d i → G.rest d = .nonterminal B :: β → G.starts B c →
    C j c j
  nullable : ∀ {j d i B β}, j ≤ n → C j d i → G.rest d = .nonterminal B :: β →
    Yields G.Rule L [.nonterminal B] [] → C j (G.advance d) i
  scan : ∀ {k j d i t β}, k < j → j ≤ n → C k d i → G.rest d = .terminal t :: β →
    segment x k j ∈ L t → C j (G.advance d) i
  complete : ∀ {k j d i B β c}, k < j → j ≤ n → C k d i → G.rest d = .nonterminal B :: β →
    C j c k → G.rest c = [] → G.lhs c = B → (∀ e o, ¬ leo k B e o) → C j (G.advance d) i
  jump : ∀ {k j B c e o}, k < j → j ≤ n → C j c k → G.rest c = [] → G.lhs c = B →
    leo k B e o → C j e o
  chain : ∀ {k}, k ≤ n → LeoChain G C leo k

/-- A completed item that a Leo entry has jumped over. -/
def Skipped (G : DottedGrammar N T D) (C : ℕ → D → ℕ → Prop) (leo : ℕ → N → D → ℕ → Prop)
    (j : ℕ) (d : D) (i : ℕ) : Prop :=
  G.rest d = [] ∧ i < j ∧ ∃ e o, leo i (G.lhs d) e o ∧ C j e o

/-- The target of a Leo entry is deduced from every completed item the entry applies to. -/
theorem chart_of_leo {n : ℕ} {C : ℕ → D → ℕ → Prop} {leo : ℕ → N → D → ℕ → Prop}
    (hC : ∀ {k d i}, k ≤ n → C k d i → G.Chart L x k d i)
    (hchain : ∀ {k}, k ≤ n → LeoChain G C leo k) {k : ℕ} :
    ∀ {B c e o}, k ≤ n → leo k B e o → G.Chart L x j c k → G.rest c = [] → G.lhs c = B →
      G.Chart L x j e o := by
  induction k using Nat.strong_induction_on with
  | _ k ih =>
    intro B c e o hk hleo hc hc' hB
    obtain ⟨d, i, hd, hr, -, htop⟩ := hchain hk _ _ _ hleo
    have ha := (hC hk hd).complete hr hc hc' hB
    rcases htop with ⟨rfl, rfl⟩ | ⟨hik, hleo'⟩
    · exact ha
    · exact ih i hik (hik.le.trans hk) hleo' ha (G.rest_advance hr) (G.lhs_advance hr)

namespace Saturated

variable {n : ℕ} {C : ℕ → D → ℕ → Prop} {leo : ℕ → N → D → ℕ → Prop}

/-- Every deduced item is in its column, or was jumped over. -/
theorem mem_or_skipped (hS : Saturated G L x n C leo) (hne : ∀ t, [] ∉ L t)
    (h : G.Chart L x j d i) (hj : j ≤ n) : C j d i ∨ Skipped G C leo j d i := by
  induction h with
  | init => exact .inl hS.init
  | @predict j i d c B β _ hr hc ih =>
    rcases ih hj with h | ⟨hnil, -⟩
    · exact .inl (hS.predict hj h hr hc)
    · simp [hr] at hnil
  | @scan j k i d t β h hr hkj hjx ht ih =>
    have hlt : k < j := by
      rcases Nat.lt_or_eq_of_le hkj with h | rfl
      · exact h
      · exact absurd (by simpa using ht) (hne t)
    rcases ih (hkj.trans hj) with h | ⟨hnil, -⟩
    · exact .inl (hS.scan hlt hj h hr ht)
    · simp [hr] at hnil
  | @complete j k i d c B β h hr hc hc' hB ih ihc =>
    have hkj := hc.origin_le
    have hd : C k d i := by
      rcases ih (hkj.trans hj) with h | ⟨hnil, -⟩
      · exact h
      · simp [hr] at hnil
    rcases Nat.lt_or_eq_of_le hkj with hlt | rfl
    · by_cases hno : ∃ e o, leo k B e o
      · -- the entry applies, whether the completed item is in the column or was jumped over
        obtain ⟨e, o, htop, hmem⟩ : ∃ e o, leo k B e o ∧ C j e o := by
          rcases ihc hj with hcj | ⟨-, -, e, o, hleo, hmem⟩
          · obtain ⟨e, o, hleo⟩ := hno
            exact ⟨e, o, hleo, hS.jump hlt hj hcj hc' hB hleo⟩
          · exact ⟨e, o, hB ▸ hleo, hmem⟩
        obtain ⟨d', i', -, hr', huniq, hcase⟩ := hS.chain (hkj.trans hj) _ _ _ htop
        obtain ⟨rfl, rfl⟩ := huniq _ _ _ hd hr
        rcases hcase with ⟨rfl, rfl⟩ | ⟨hik, hleo⟩
        · exact .inl hmem
        · rw [hr'] at hr
          exact .inr ⟨(G.rest_advance hr').trans rfl, hik.trans hlt, e, o,
            (G.lhs_advance hr').symm ▸ hleo, hmem⟩
      · have hno' : ∀ e o, ¬ leo k B e o := fun e o h => hno ⟨e, o, h⟩
        rcases ihc hj with hcj | ⟨-, -, e, o, hleo, -⟩
        · exact .inl (hS.complete hlt hj hd hr hcj hc' hB hno')
        · exact absurd (hB ▸ hleo) (hno' e o)
    · have hnull : Yields G.Rule L [.nonterminal B] [] := by
        simpa [hB] using hc.sound_complete (hB ▸ G.init_fresh hr) hc'
      exact .inl (hS.nullable hj hd hr hnull)

/-- The columns hold exactly the deduced items that have a symbol after the dot. -/
theorem mem_iff (hS : Saturated G L x n C leo) (hne : ∀ t, [] ∉ L t) (hj : j ≤ n)
    (hr : G.rest d ≠ []) : C j d i ↔ G.Chart L x j d i :=
  ⟨hS.sound hj, fun h => (hS.mem_or_skipped hne h hj).resolve_right fun h' => hr h'.1⟩

/-- The completed start rule is never jumped over. -/
theorem mem_advance_init_iff (hS : Saturated G L x n C leo) (hne : ∀ t, [] ∉ L t) (hj : j ≤ n)
    {s : Symbol T N} (hinit : G.rest G.init = [s]) :
    C j (G.advance G.init) 0 ↔ G.Chart L x j (G.advance G.init) 0 := by
  refine ⟨hS.sound hj, fun h => (hS.mem_or_skipped hne h hj).resolve_right ?_⟩
  rintro ⟨-, -, e, o, hleo, -⟩
  obtain ⟨d, i, -, hr, -, -⟩ := hS.chain (Nat.zero_le n) _ _ _ hleo
  exact G.init_fresh hr (G.lhs_advance hinit)

end Saturated

end DottedGrammar

end OcEarley
