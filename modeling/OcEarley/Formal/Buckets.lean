import OcEarley.Base.Lists

/-!
# Grouping by target

Pairs of a source and a target are laid out in one vector, those of a target next to each other:
the buckets are counted first, the prefix sums of the counts are where the buckets start, and every
source is then put behind those of its bucket that are already there.

* `Buckets.start_add_inj` : the slots of different buckets are different;
* `Buckets.Filled.put` : one source goes into a slot of its bucket and touches no other;
* `Buckets.Filled.slice` : between two starts stands the bucket, once it is full.
-/

namespace OcEarley

namespace Buckets

variable {α : Type*}

/-- The sources of a target, in their order. -/
def bucket (pairs : List (α × ℕ)) (t : ℕ) : List α :=
  (pairs.filter fun p => p.2 = t).map fun p => p.1

/-- Where a bucket starts. -/
def start (count : ℕ → ℕ) : ℕ → ℕ
  | 0 => 0
  | t + 1 => start count t + count t

variable {count : ℕ → ℕ} {pairs : List (α × ℕ)} {slots : List α} {cursors : List ℕ} {s : α}
  {t u n k l : ℕ}

@[simp] theorem bucket_nil : bucket ([] : List (α × ℕ)) t = [] := rfl

theorem bucket_snoc : bucket (pairs ++ [(s, u)]) t = bucket pairs t ++
    if u = t then [s] else [] := by
  unfold bucket
  rw [List.filter_append, List.map_append]
  by_cases h : u = t <;> simp [h]

theorem mem_bucket : s ∈ bucket pairs t ↔ (s, t) ∈ pairs := by
  unfold bucket
  rw [List.mem_map]
  constructor
  · rintro ⟨p, hp, rfl⟩
    obtain ⟨hp, ht⟩ := List.mem_filter.1 hp
    rw [← of_decide_eq_true ht]
    exact hp
  · intro h
    exact ⟨(s, t), List.mem_filter.2 ⟨h, decide_eq_true rfl⟩, rfl⟩

/-- A bucket does not shrink. -/
theorem length_bucket_le (rest : List (α × ℕ)) :
    (bucket pairs t).length ≤ (bucket (pairs ++ rest) t).length := by
  unfold bucket
  rw [List.filter_append, List.map_append, List.length_append]
  exact Nat.le_add_right _ _

theorem countP_lt_succ (m : ℕ) :
    pairs.countP (fun p => p.2 < m + 1) =
      pairs.countP (fun p => p.2 < m) + pairs.countP fun p => p.2 = m := by
  induction pairs with
  | nil => rfl
  | cons p pairs ih =>
    simp only [List.countP_cons, decide_eq_true_eq]
    split_ifs <;> omega

/-- The start behind the last bucket is the number of pairs. -/
theorem start_eq_length (hlt : ∀ p ∈ pairs, p.2 < n) :
    start (fun t => (bucket pairs t).length) n = pairs.length := by
  have hcount : ∀ m, start (fun t => (bucket pairs t).length) m =
      pairs.countP fun p => p.2 < m := by
    intro m
    induction m with
    | zero => simp [start]
    | succ m ih =>
      rw [start, ih, bucket, List.length_map, ← List.countP_eq_length_filter, countP_lt_succ]
  rw [hcount, List.countP_eq_length.2 fun p hp => decide_eq_true (hlt p hp)]

theorem start_mono (h : t ≤ u) : start count t ≤ start count u := by
  induction u with
  | zero => rw [Nat.le_zero.1 h]
  | succ u ih =>
    rcases Nat.lt_or_ge t (u + 1) with hlt | hge
    · exact (ih (Nat.le_of_lt_succ hlt)).trans (Nat.le_add_right _ _)
    · rw [le_antisymm h hge]

/-- A slot of a bucket lies before the buckets that follow. -/
theorem start_add_lt (hk : k < count t) (h : t < u) : start count t + k < start count u :=
  (Nat.add_lt_add_left hk _).trans_le (start_mono h)

theorem start_add_inj (hk : k < count t) (hl : l < count u)
    (h : start count t + k = start count u + l) : t = u ∧ k = l := by
  rcases Nat.lt_trichotomy t u with hlt | rfl | hgt
  · have := start_add_lt hk hlt
    omega
  · exact ⟨rfl, by omega⟩
  · have := start_add_lt hl hgt
    omega

/-- The sources of some pairs stand in the slots of their buckets, and the cursors say
how many of each. -/
structure Filled (count : ℕ → ℕ) (n : ℕ) (pairs : List (α × ℕ)) (cursors : List ℕ)
    (slots : List α) :
    Prop where
  length : slots.length = start count n
  room : ∀ t, (bucket pairs t).length ≤ count t
  cursor : ∀ t < n, cursors[t]? = some (bucket pairs t).length
  slot : ∀ t < n, ∀ (k : ℕ) (s : α), (bucket pairs t)[k]? = some s →
    slots[start count t + k]? = some s

theorem Filled.put (h : Filled count n pairs cursors slots) (ht : t < n)
    (hroom : (bucket pairs t).length < count t) :
    start count t + (bucket pairs t).length < slots.length ∧
      Filled count n (pairs ++ [(s, t)]) (cursors.set t ((bucket pairs t).length + 1))
        (slots.set (start count t + (bucket pairs t).length) s) := by
  have hlt : start count t + (bucket pairs t).length < slots.length := by
    rw [h.length]
    exact start_add_lt hroom ht
  refine ⟨hlt, ⟨?_, fun u => ?_, fun u hu => ?_, fun u hu k v hv => ?_⟩⟩
  · rw [List.length_set, h.length]
  · rw [bucket_snoc]
    by_cases htu : t = u
    · subst htu
      simpa using Nat.succ_le_of_lt hroom
    · simpa [htu] using h.room u
  · rw [bucket_snoc, List.getElem?_set]
    by_cases htu : t = u
    · subst htu
      have hcursor := (List.getElem?_eq_some_iff.1 (h.cursor t hu)).1
      simp [hcursor]
    · simpa [htu] using h.cursor u hu
  · rw [bucket_snoc] at hv
    rw [List.getElem?_set]
    by_cases hslot : start count t + (bucket pairs t).length = start count u + k
    · -- the slot that is written belongs to the end of the bucket of `t`
      have hk : k < count u := by
        have hlen := (List.getElem?_eq_some_iff.1 hv).1
        have hu' := h.room u
        by_cases htu : t = u
        · subst htu
          rw [if_pos rfl, List.length_append, List.length_singleton] at hlen
          omega
        · rw [if_neg htu, List.append_nil] at hlen
          omega
      obtain ⟨rfl, rfl⟩ := start_add_inj hroom hk hslot
      rw [if_pos rfl, if_pos (by omega)]
      rw [if_pos rfl, List.getElem?_append_right le_rfl, Nat.sub_self] at hv
      exact hv
    · rw [if_neg hslot]
      by_cases htu : t = u
      · subst htu
        rw [if_pos rfl] at hv
        rcases getElem?_snoc.1 hv with hv | ⟨rfl, -⟩
        · exact h.slot t hu k v hv
        · exact absurd rfl hslot
      · rw [if_neg htu, List.append_nil] at hv
        exact h.slot u hu k v hv

theorem Filled.slice (h : Filled count n pairs cursors slots) (ht : t < n)
    (hfull : (bucket pairs t).length = count t) :
    start count (t + 1) ≤ slots.length ∧
      (slots.take (start count (t + 1))).drop (start count t) = bucket pairs t := by
  have hle : start count (t + 1) ≤ slots.length := by
    rw [h.length]
    exact start_mono ht
  refine ⟨hle, List.ext_getElem? fun k => ?_⟩
  rw [List.getElem?_drop, List.getElem?_take]
  have hstart : start count (t + 1) = start count t + count t := rfl
  by_cases hk : k < count t
  · rw [if_pos (by omega)]
    have hget := List.getElem?_eq_getElem (hfull.symm ▸ hk)
    rw [hget]
    exact h.slot t ht k _ hget
  · rw [if_neg (by omega), List.getElem?_eq_none (by omega)]

end Buckets

end OcEarley
