import Mathlib.Data.Set.Lattice
import Mathlib.Logic.Relation

/-!
# Strongly connected components

A depth-first search numbers the nodes and keeps those that are in no component yet on a stack.  The
path leads from the root to the node whose edges are examined, and `low` is the number of a node of
the stack that a node of the path is known to reach.  `DepthFirst` is the invariant of the search:
when all edges of the last node of the path are examined and its `low` is its own number, the nodes
above it on the stack are one component (`DepthFirst.close`), and otherwise they belong to that of a
node below it (`DepthFirst.finish`).
-/

namespace OcEarley

open Relation

variable {α : Type*}

/-- Each of the nodes is reachable from the other. -/
def Mutual (E : α → α → Prop) (v w : α) : Prop := ReflTransGen E v w ∧ ReflTransGen E w v

/-- The invariant of the search; the path and the stack begin with their last node. -/
structure DepthFirst (E : α → α → Prop) (index low : α → ℕ) (examined : α → α → Prop)
    (path stack : List α) (closed : Set α) : Prop where
  sorted : stack.Pairwise fun v w => index w < index v
  path_sublist : path.Sublist stack
  reaches : ∀ p ∈ path, ∀ v ∈ stack, index p ≤ index v → ReflTransGen E p v
  covered : ∀ v ∈ stack, ∃ p ∈ path, index p ≤ index v
  back : ∀ v ∈ stack, v ∉ path → ∃ w ∈ stack, index w < index v ∧ ReflTransGen E v w
  all_examined : ∀ v ∈ stack, v ∉ path → ∀ w, E v w → examined v w
  examined_from : ∀ v w, examined v w → v ∈ stack ∨ v ∈ closed
  examined_to : ∀ v ∈ stack, ∀ w, examined v w → w ∈ stack ∨ w ∈ closed
  low_sound : ∀ p ∈ path, ∃ w ∈ stack, index w = low p ∧ index w ≤ index p ∧ ReflTransGen E p w
  low_le : ∀ p ∈ path, ∀ v ∈ stack, index p ≤ index v →
    (∀ q ∈ path, index q ≤ index v → index q ≤ index p) →
    ∀ w ∈ stack, examined v w → low p ≤ index w
  disjoint : ∀ v ∈ stack, v ∉ closed
  closed_edges : ∀ v ∈ closed, ∀ w, E v w → w ∈ closed

namespace DepthFirst

variable {E : α → α → Prop} {index index' low low' : α → ℕ} {examined : α → α → Prop}
  {path rest stack : List α} {closed : Set α} {p t : α}

theorem mem_closed_of_reaches (h : DepthFirst E index low examined path stack closed) {v w : α}
    (hv : v ∈ closed) (hreach : ReflTransGen E v w) : w ∈ closed := by
  induction hreach with
  | refl => exact hv
  | tail _ hedge ih => exact h.closed_edges _ ih _ hedge

/-- The last node of the path has the largest number of its nodes. -/
theorem index_le (h : DepthFirst E index low examined path stack closed)
    (hpath : path = p :: rest) : ∀ q ∈ path, index q ≤ index p := by
  have hsorted := h.sorted.sublist h.path_sublist
  rw [hpath] at hsorted ⊢
  intro q hq
  rcases List.mem_cons.1 hq with rfl | hq
  · exact le_rfl
  · exact ((List.pairwise_cons.1 hsorted).1 q hq).le

theorem index_lt (h : DepthFirst E index low examined path stack closed)
    (hpath : path = p :: rest) : ∀ q ∈ rest, index q < index p := by
  have hsorted := h.sorted.sublist h.path_sublist
  rw [hpath] at hsorted
  exact (List.pairwise_cons.1 hsorted).1

theorem mem_stack (h : DepthFirst E index low examined path stack closed) (hp : p ∈ path) :
    p ∈ stack := h.path_sublist.subset hp

/-- A search begins with an empty stack. -/
theorem empty (index low : α → ℕ) (hexamined : ∀ v w, examined v w → v ∈ closed)
    (hclosed : ∀ v ∈ closed, ∀ w, E v w → w ∈ closed) :
    DepthFirst E index low examined [] [] closed := by
  refine ⟨.nil, List.Sublist.slnil, ?_, ?_, ?_, ?_,
    fun v w hvw => .inr (hexamined v w hvw), ?_, ?_, ?_,
    ?_, hclosed⟩ <;> simp

/-- The last node of the path has an edge to a node that was not seen before. -/
theorem discover (h : DepthFirst E index low examined path stack closed) (hstack : t ∉ stack)
    (hclosed : t ∉ closed)
    (hindex : ∀ v ∈ stack, index' v = index v) (hlow : ∀ v ∈ stack, low' v = low v)
    (hnew : ∀ v ∈ stack, index' v < index' t) (hlowt : low' t = index' t)
    (hedge : ∀ p ∈ path.head?, E p t) :
    DepthFirst E index' low' (fun v w => examined v w ∨ path.head? = some v ∧ w = t) (t :: path)
      (t :: stack) closed := by
  have hsub := h.path_sublist.subset
  have hreach : ∀ p ∈ path, ReflTransGen E p t := by
    intro p hp
    obtain ⟨q, rest, hpath⟩ := List.exists_cons_of_ne_nil (List.ne_nil_of_mem hp)
    have hq : q ∈ path := hpath ▸ List.mem_cons_self
    exact (h.reaches p hp q (hsub hq) (h.index_le hpath p hp)).tail
      (hedge q (by rw [hpath]; rfl))
  have hfrom : ∀ w, ¬ examined t w := fun w hw =>
    (h.examined_from t w hw).elim hstack hclosed
  have hne : ∀ {p}, p ∈ path → t ≠ p := fun hp heq => hstack (heq ▸ hsub hp)
  refine ⟨?_, h.path_sublist.cons_cons t, ?_, ?_, ?_, ?_, ?_, ?_, ?_, ?_, ?_, h.closed_edges⟩
  · refine List.pairwise_cons.2 ⟨hnew, h.sorted.imp_of_mem fun hv hw hlt => ?_⟩
    rwa [hindex _ hv, hindex _ hw]
  · intro p hp v hv hle
    rcases List.mem_cons.1 hp with rfl | hpath <;> rcases List.mem_cons.1 hv with rfl | hold
    · exact .refl
    · exact absurd (hnew v hold) hle.not_gt
    · exact hreach p hpath
    · exact h.reaches p hpath v hold (by rwa [hindex p (hsub hpath), hindex v hold] at hle)
  · intro v hv
    rcases List.mem_cons.1 hv with rfl | hv
    · exact ⟨v, List.mem_cons_self, le_rfl⟩
    · obtain ⟨p, hp, hle⟩ := h.covered v hv
      exact ⟨p, List.mem_cons_of_mem _ hp, by rwa [hindex p (hsub hp), hindex v hv]⟩
  · intro v hv hnot
    rcases List.mem_cons.1 hv with rfl | hv
    · exact absurd List.mem_cons_self hnot
    · obtain ⟨w, hw, hlt, hreach⟩ := h.back v hv fun hp => hnot (List.mem_cons_of_mem _ hp)
      exact ⟨w, List.mem_cons_of_mem _ hw, by rwa [hindex w hw, hindex v hv], hreach⟩
  · intro v hv hnot w hedge
    rcases List.mem_cons.1 hv with rfl | hv
    · exact absurd List.mem_cons_self hnot
    · exact .inl (h.all_examined v hv (fun hp => hnot (List.mem_cons_of_mem _ hp)) w hedge)
  · rintro v w (hvw | ⟨hv, -⟩)
    · exact (h.examined_from v w hvw).imp_left (List.mem_cons_of_mem _)
    · exact .inl (List.mem_cons_of_mem _ (hsub (List.mem_of_mem_head? hv)))
  · rintro v hv w (hvw | ⟨-, rfl⟩)
    · rcases List.mem_cons.1 hv with rfl | hv
      · exact (hfrom w hvw).elim
      · exact (h.examined_to v hv w hvw).imp_left (List.mem_cons_of_mem _)
    · exact .inl List.mem_cons_self
  · intro p hp
    rcases List.mem_cons.1 hp with rfl | hp
    · exact ⟨p, List.mem_cons_self, hlowt.symm, le_rfl, .refl⟩
    · obtain ⟨w, hw, heq, hle, hreach⟩ := h.low_sound p hp
      refine ⟨w, List.mem_cons_of_mem _ hw, ?_, ?_, hreach⟩
      · rw [hindex w hw, heq, hlow p (hsub hp)]
      · rwa [hindex w hw, hindex p (hsub hp)]
  · intro p hp v hv hle hlast w hw hvw
    -- the new node is the last one, and nothing behind it is examined
    rcases List.mem_cons.1 hv with rfl | hold
    · rcases hvw with hvw | ⟨hhead, -⟩
      · exact (hfrom w hvw).elim
      · exact absurd rfl (hne (List.mem_of_mem_head? hhead))
    rcases List.mem_cons.1 hp with rfl | hpath
    · exact absurd (hnew v hold) hle.not_gt
    rw [hlow p (hsub hpath)]
    rw [hindex p (hsub hpath), hindex v hold] at hle
    rcases hvw with hvw | ⟨-, rfl⟩
    · have hold' : w ∈ stack := by
        rcases List.mem_cons.1 hw with rfl | hold'
        · exact ((h.examined_to v hold w hvw).resolve_left hstack |> hclosed).elim
        · exact hold'
      rw [hindex w hold']
      refine h.low_le p hpath v hold hle (fun q hq hqv => ?_) w hold' hvw
      have := hlast q (List.mem_cons_of_mem _ hq) (by rwa [hindex q (hsub hq), hindex v hold])
      rwa [hindex q (hsub hq), hindex p (hsub hpath)] at this
    · obtain ⟨w', -, heq, hle', -⟩ := h.low_sound p hpath
      have := hnew p (hsub hpath)
      rw [hindex p (hsub hpath)] at this
      omega
  · intro v hv
    rcases List.mem_cons.1 hv with rfl | hv
    · exact hclosed
    · exact h.disjoint v hv

/-- The last node of the path has an edge to a node that was seen before. -/
theorem examine (h : DepthFirst E index low examined path stack closed) (hpath : path = p :: rest)
    (hedge : E p t) (ht : t ∈ stack ∨ t ∈ closed) (hlow : ∀ q ∈ rest, low' q = low q)
    (hstack : t ∈ stack → low' p = min (low p) (index t)) (hclosed : t ∈ closed → low' p = low p) :
    DepthFirst E index low' (fun v w => examined v w ∨ v = p ∧ w = t) path stack closed := by
  have hp : p ∈ path := hpath ▸ List.mem_cons_self
  have hcases : ∀ q ∈ path, q = p ∨ q ∈ rest := fun q hq => List.mem_cons.1 (hpath ▸ hq)
  have hle : ∀ q ∈ path, low' q ≤ low q := by
    intro q hq
    rcases hcases q hq with rfl | hq
    · rcases ht with ht | ht
      · exact (hstack ht).trans_le (min_le_left _ _)
      · exact (hclosed ht).le
    · exact (hlow q hq).le
  refine { h with
    all_examined := fun v hv hnot w hvw => .inl (h.all_examined v hv hnot w hvw)
    examined_from := ?_, examined_to := ?_, low_sound := ?_, low_le := ?_ }
  · rintro v w (hvw | ⟨rfl, -⟩)
    · exact h.examined_from v w hvw
    · exact .inl (h.mem_stack hp)
  · rintro v hv w (hvw | ⟨-, rfl⟩)
    · exact h.examined_to v hv w hvw
    · exact ht
  · intro q hq
    obtain ⟨w, hw, heq, hwq, hreach⟩ := h.low_sound q hq
    rcases hcases q hq with rfl | hrest
    · rcases ht with ht | ht
      · rw [hstack ht]
        rcases le_total (low q) (index t) with hmin | hmin
        · exact ⟨w, hw, by rw [min_eq_left hmin, heq], hwq, hreach⟩
        · exact ⟨t, ht, (min_eq_right hmin).symm, hmin.trans (heq ▸ hwq), .single hedge⟩
      · exact ⟨w, hw, heq.trans (hclosed ht).symm, hwq, hreach⟩
    · exact ⟨w, hw, heq.trans (hlow q hrest).symm, hwq, hreach⟩
  · rintro q hq v hv hqv hlast w hw (hvw | ⟨rfl, rfl⟩)
    · exact (hle q hq).trans (h.low_le q hq v hv hqv hlast w hw hvw)
    · -- the node itself is the last one of the path that was found before it
      rcases hcases q hq with rfl | hrest
      · exact (hstack hw).trans_le (min_le_right _ _)
      · exact absurd (hlast v hp le_rfl) (h.index_lt hpath q hrest).not_ge

/-- All edges of the last node of the path are examined, and it reaches a node below it. -/
theorem finish (h : DepthFirst E index low examined path stack closed) (hpath : path = p :: rest)
    (hall : ∀ w, E p w → examined p w) (hne : low p ≠ index p)
    (hlow : ∀ q ∈ rest.tail, low' q = low q)
    (hhead : ∀ q ∈ rest.head?, low' q = min (low q) (low p)) :
    DepthFirst E index low' examined rest stack closed := by
  have hp : p ∈ path := hpath ▸ List.mem_cons_self
  have hsub : ∀ q ∈ rest, q ∈ path := fun q hq => hpath ▸ List.mem_cons_of_mem p hq
  have hnot : ∀ {v}, v ≠ p → v ∉ rest → v ∉ path := fun hvp hv hmem =>
    (List.mem_cons.1 (hpath ▸ hmem)).elim hvp hv
  obtain ⟨w₀, hw₀, heq₀, hle₀, hreach₀⟩ := h.low_sound p hp
  have hlt₀ : low p < index p := lt_of_le_of_ne (heq₀ ▸ hle₀) hne
  -- `p` reaches something older, which some node of the path covers: there is one before `p`
  obtain ⟨q₀, rest, rfl⟩ : ∃ q₀ rest', rest = q₀ :: rest' := by
    obtain ⟨q, hq, hle⟩ := h.covered w₀ hw₀
    rw [hpath] at hq
    rcases List.mem_cons.1 hq with rfl | hq
    · omega
    · exact List.exists_cons_of_ne_nil (List.ne_nil_of_mem hq)
  have hq₀ : low' q₀ = min (low q₀) (low p) := hhead q₀ rfl
  have hlt := h.index_lt hpath
  have hsorted : ∀ q ∈ rest, index q < index q₀ := by
    have hsorted := h.sorted.sublist h.path_sublist
    rw [hpath] at hsorted
    exact (List.pairwise_cons.1 hsorted.of_cons).1
  refine { h with
    path_sublist := (List.sublist_cons_self p _).trans (hpath ▸ h.path_sublist)
    reaches := fun q hq => h.reaches q (hsub q hq)
    covered := fun v hv => ?_, back := fun v hv hvnot => ?_, all_examined := fun v hv hvnot => ?_,
    low_sound := fun q hq => ?_, low_le := fun q hq v hv hle hlast w hw hvw => ?_ }
  · obtain ⟨q, hq, hle⟩ := h.covered v hv
    rw [hpath] at hq
    rcases List.mem_cons.1 hq with rfl | hq
    · exact ⟨q₀, List.mem_cons_self, (hlt q₀ List.mem_cons_self).le.trans hle⟩
    · exact ⟨q, hq, hle⟩
  · by_cases hvp : v = p
    · subst hvp
      exact ⟨w₀, hw₀, heq₀ ▸ hlt₀, hreach₀⟩
    · exact h.back v hv (hnot hvp hvnot)
  · by_cases hvp : v = p
    · subst hvp
      exact hall
    · exact h.all_examined v hv (hnot hvp hvnot)
  · obtain ⟨w, hw, heq, hle, hreach⟩ := h.low_sound q (hsub q hq)
    rcases List.mem_cons.1 hq with rfl | hrest
    · rcases le_total (low q) (low p) with hmin | hmin
      · exact ⟨w, hw, by rw [hq₀, min_eq_left hmin, heq], hle, hreach⟩
      · have hstep := h.reaches q (hsub q hq) p (h.mem_stack hp) (hlt q hq).le
        exact ⟨w₀, hw₀, by rw [hq₀, min_eq_right hmin, heq₀], by omega, hstep.trans hreach₀⟩
    · exact ⟨w, hw, heq.trans (hlow q hrest).symm, hle, hreach⟩
  · by_cases hpv : index p ≤ index v
    · -- the nodes behind the last one go over to the node before it
      have hpw := h.low_le p hp v hv hpv (fun q hq _ => h.index_le hpath q hq) w hw hvw
      rcases List.mem_cons.1 hq with rfl | hrest
      · exact hq₀.trans_le ((min_le_right _ _).trans hpw)
      · have := hlast q₀ List.mem_cons_self ((hlt q₀ List.mem_cons_self).le.trans hpv)
        exact absurd (hsorted q hrest) this.not_gt
    · have hqw := h.low_le q (hsub q hq) v hv hle (fun q' hq' hle' => by
        rw [hpath] at hq'
        rcases List.mem_cons.1 hq' with rfl | hq'
        · exact absurd hle' hpv
        · exact hlast q' hq' hle') w hw hvw
      rcases List.mem_cons.1 hq with rfl | hrest
      · exact hq₀.trans_le ((min_le_left _ _).trans hqw)
      · exact (hlow q hrest).trans_le hqw

/-- All edges of the last node of the path are examined, and it reaches no node below it: the nodes
down to it are a component. -/
theorem close (h : DepthFirst E index low examined path stack closed) (hpath : path = p :: rest)
    (hall : ∀ w, E p w → examined p w) (heq : low p = index p) {above below : List α}
    (hstack : stack = above ++ p :: below) (hlow : ∀ q ∈ rest, low' q = low q) :
    (∀ v ∈ above ++ [p], ∀ w, Mutual E v w ↔ w ∈ above ++ [p]) ∧
      DepthFirst E index low' examined rest below (closed ∪ {v | v ∈ above ++ [p]}) := by
  have hp : p ∈ path := hpath ▸ List.mem_cons_self
  have hsub : ∀ q ∈ rest, q ∈ path := fun q hq => hpath ▸ List.mem_cons_of_mem p hq
  have hsorted := hstack ▸ h.sorted
  obtain ⟨-, hbelow, habove⟩ := List.pairwise_append.1 hsorted
  obtain ⟨hlt, hbelow⟩ := List.pairwise_cons.1 hbelow
  have hsplit : ∀ {v}, v ∈ stack ↔ v ∈ above ++ [p] ∨ v ∈ below := by
    intro v
    rw [hstack]
    simp only [List.mem_append, List.mem_cons, List.not_mem_nil, or_false, or_assoc]
  have hge : ∀ v ∈ above ++ [p], index p ≤ index v := by
    intro v hv
    rcases List.mem_append.1 hv with hv | hv
    · exact (habove v hv p List.mem_cons_self).le
    · exact List.mem_singleton.1 hv ▸ le_rfl
  -- no edge leaves the component and the closed nodes
  have hedges : ∀ v ∈ above ++ [p], ∀ w, E v w → w ∈ above ++ [p] ∨ w ∈ closed := by
    intro v hv w hvw
    have hvstack := hsplit.2 (.inl hv)
    have hexamined : examined v w := by
      by_cases hvp : v = p
      · subst hvp
        exact hall w hvw
      · refine h.all_examined v hvstack (fun hvpath => ?_) w hvw
        rw [hpath] at hvpath
        rcases List.mem_cons.1 hvpath with rfl | hvpath
        · exact hvp rfl
        · exact absurd (hge v hv) (h.index_lt hpath v hvpath).not_ge
    rcases h.examined_to v hvstack w hexamined with hw | hw
    · have hle := h.low_le p hp v hvstack (hge v hv) (fun q hq _ => h.index_le hpath q hq) w hw
        hexamined
      rcases hsplit.1 hw with hw | hw
      · exact .inl hw
      · exact absurd (heq ▸ hle) (hlt w hw).not_ge
    · exact .inr hw
  have hreaches : ∀ v ∈ above ++ [p], ∀ w, ReflTransGen E v w → w ∈ above ++ [p] ∨ w ∈ closed := by
    intro v hv w hvw
    induction hvw with
    | refl => exact .inl hv
    | tail _ hedge ih =>
      rcases ih with ih | ih
      · exact hedges _ ih _ hedge
      · exact .inr (h.closed_edges _ ih _ hedge)
  have hroot : ∀ v ∈ above ++ [p], ReflTransGen E v p := by
    intro v
    induction hn : index v using Nat.strong_induction_on generalizing v with
    | _ n ih =>
      intro hv
      by_cases hvp : v = p
      · subst hvp
        exact .refl
      · have hvstack := hsplit.2 (.inl hv)
        obtain ⟨w, hw, hwv, hreach⟩ := h.back v hvstack fun hvpath => by
          rw [hpath] at hvpath
          rcases List.mem_cons.1 hvpath with rfl | hvpath
          · exact hvp rfl
          · exact absurd (hge v hv) (h.index_lt hpath v hvpath).not_ge
        have hmem := (hreaches v hv w hreach).resolve_right (h.disjoint w hw)
        exact hreach.trans (ih (index w) (hn ▸ hwv) w rfl hmem)
  refine ⟨fun v hv w => ⟨fun hmutual => ?_, fun hw => ?_⟩, ?_⟩
  · rcases hreaches v hv w hmutual.1 with hw | hw
    · exact hw
    · exact absurd (h.mem_closed_of_reaches hw hmutual.2) (h.disjoint v (hsplit.2 (.inl hv)))
  · have hfrom : ∀ w ∈ above ++ [p], ReflTransGen E p w := fun w hw =>
      h.reaches p hp w (hsplit.2 (.inl hw)) (hge w hw)
    exact ⟨(hroot v hv).trans (hfrom w hw), (hroot w hw).trans (hfrom v hv)⟩
  have hsubstack : ∀ v ∈ below, v ∈ stack := fun v hv => hsplit.2 (.inr hv)
  have hnotp : ∀ v ∈ below, v ≠ p := fun v hv hvp => absurd (hvp ▸ hlt v hv) (lt_irrefl _)
  have hnot : ∀ v ∈ below, v ∉ rest → v ∉ path := fun v hv hvrest hmem =>
    (List.mem_cons.1 (hpath ▸ hmem)).elim (hnotp v hv) hvrest
  have hlower : ∀ v ∈ stack, index v < index p → v ∈ below := fun v hv hlt' =>
    (hsplit.1 hv).resolve_left fun hmem => absurd (hge v hmem) hlt'.not_ge
  refine ⟨hbelow, ?_, fun q hq v hv => h.reaches q (hsub q hq) v (hsubstack v hv), fun v hv => ?_,
    fun v hv hvnot => ?_, fun v hv hvnot => h.all_examined v (hsubstack v hv) (hnot v hv hvnot),
    fun v w hvw => ?_, fun v hv w hvw => ?_, fun q hq => ?_, fun q hq v hv hle hlast w hw hvw => ?_,
    fun v hv hclosed => ?_, fun v hv w hvw => ?_⟩
  · -- the rest of the path is below its last node
    have hpathsub := h.path_sublist
    rw [hpath, hstack] at hpathsub
    obtain ⟨l₁, l₂, hl, hl₁, hl₂⟩ := List.sublist_append_iff.1 hpathsub
    cases l₁ with
    | nil =>
      rw [List.nil_append] at hl
      exact List.cons_sublist_cons.1 (hl ▸ hl₂)
    | cons a l₁ =>
      obtain ⟨rfl, -⟩ := List.cons.inj hl
      exact absurd (habove p (hl₁.subset List.mem_cons_self) p List.mem_cons_self) (lt_irrefl _)
  · obtain ⟨q, hq, hle⟩ := h.covered v (hsubstack v hv)
    rw [hpath] at hq
    rcases List.mem_cons.1 hq with rfl | hq
    · exact absurd hle (hlt v hv).not_ge
    · exact ⟨q, hq, hle⟩
  · obtain ⟨w, hw, hwv, hreach⟩ := h.back v (hsubstack v hv) (hnot v hv hvnot)
    exact ⟨w, hlower w hw (hwv.trans (hlt v hv)), hwv, hreach⟩
  · rcases h.examined_from v w hvw with hv | hv
    · exact (hsplit.1 hv).elim (fun hv => .inr (.inr hv)) .inl
    · exact .inr (.inl hv)
  · rcases h.examined_to v (hsubstack v hv) w hvw with hw | hw
    · exact (hsplit.1 hw).elim (fun hw => .inr (.inr hw)) .inl
    · exact .inr (.inl hw)
  · obtain ⟨w, hw, heq, hle, hreach⟩ := h.low_sound q (hsub q hq)
    have hlt' := hle.trans_lt (h.index_lt hpath q hq)
    exact ⟨w, hlower w hw hlt', heq.trans (hlow q hq).symm, hle, hreach⟩
  · rw [hlow q hq]
    refine h.low_le q (hsub q hq) v (hsubstack v hv) hle (fun q' hq' hle' => ?_) w
      (hsubstack w hw) hvw
    rw [hpath] at hq'
    rcases List.mem_cons.1 hq' with rfl | hq'
    · exact absurd hle' (hlt v hv).not_ge
    · exact hlast q' hq' hle'
  · rcases hclosed with hclosed | hmem
    · exact h.disjoint v (hsubstack v hv) hclosed
    · exact absurd (hge v hmem) (hlt v hv).not_ge
  · rcases hv with hv | hv
    · exact .inl (h.closed_edges v hv w hvw)
    · exact (hedges v hv w hvw).elim .inr .inl

end DepthFirst

end OcEarley
