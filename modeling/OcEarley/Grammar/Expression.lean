import Mathlib.Computability.Language
import Mathlib.Data.List.Destutter
import Mathlib.Data.List.Sort
import OcEarley.Base.Error

/-!
# Regular expressions

The expressions that certification builds, with the operations `concat`, `union` and `star` that
flatten, sort and drop what adds nothing.  `RegularExpression.language` is what an expression
denotes when its atoms do; the operations denote the product, the sum and the star
(`language_concat`, `language_union`, `language_star`), and an expression that they build is `Empty`
or has no `Empty` inside (`Built.proper`).
-/

namespace OcEarley

/-- A regular expression over atoms, each with its text and, if there is one, the
text of its reverse. -/
inductive RegularExpression
  | empty
  | epsilon
  | atom (forward : String) (reverse : Option String)
  | concat (parts : List RegularExpression)
  | union (branches : List RegularExpression)
  | star (expression : RegularExpression)

namespace RegularExpression

/-! ### The derived order -/

/-- The place of the constructor. -/
def rank : RegularExpression → ℕ
  | .empty => 0
  | .epsilon => 1
  | .atom .. => 2
  | .concat _ => 3
  | .union _ => 4
  | .star _ => 5

mutual

/-- By constructor, then by the fields. -/
def cmp : RegularExpression → RegularExpression → Ordering
  | .atom forward reverse, .atom forward' reverse' =>
    (compare forward forward').then (compare reverse reverse')
  | .concat parts, .concat parts' => cmpList parts parts'
  | .union branches, .union branches' => cmpList branches branches'
  | .star e, .star e' => cmp e e'
  | e, e' => compare e.rank e'.rank

/-- The order of lists of expressions. -/
def cmpList : List RegularExpression → List RegularExpression → Ordering
  | [], [] => .eq
  | [], _ :: _ => .lt
  | _ :: _, [] => .gt
  | e :: es, e' :: es' => (cmp e e').then (cmpList es es')

end

mutual

theorem eq_of_cmp : ∀ e e' : RegularExpression, cmp e e' = .eq → e = e' := by
  intro e e' h
  cases e <;> cases e' <;> simp_all [cmp, rank, Ordering.then_eq_eq]
  case concat.concat parts parts' => exact eq_of_cmpList parts parts' h
  case union.union branches branches' => exact eq_of_cmpList branches branches' h
  case star.star e e' => exact eq_of_cmp e e' h

theorem eq_of_cmpList : ∀ es es' : List RegularExpression, cmpList es es' = .eq → es = es' := by
  intro es es' h
  cases es <;> cases es' <;> simp_all [cmpList, Ordering.then_eq_eq]
  case cons.cons e es e' es' => exact ⟨eq_of_cmp e e' h.1, eq_of_cmpList es es' h.2⟩

end

mutual

theorem cmp_self : ∀ e : RegularExpression, cmp e e = .eq := by
  intro e
  cases e with
  | empty | epsilon => rfl
  | atom forward reverse => simp [cmp]
  | concat parts | union parts => exact cmpList_self parts
  | star e => exact cmp_self e

theorem cmpList_self : ∀ es : List RegularExpression, cmpList es es = .eq := by
  intro es
  cases es with
  | nil => rfl
  | cons e es => simp [cmpList, cmp_self e, cmpList_self es]

end

instance : DecidableEq RegularExpression := fun e e' =>
  if h : cmp e e' = .eq then .isTrue (eq_of_cmp e e' h)
  else .isFalse fun heq => h (heq ▸ cmp_self e)

end RegularExpression

/-- `sort`, by the derived order. -/
def sortExpressions (l : List RegularExpression) : List RegularExpression :=
  l.insertionSort fun e e' => e.cmp e' ≠ .gt

/-- `concat`, for its flattened parts; `none` where a part is `Empty`. -/
def flattenParts : List RegularExpression → Option (List RegularExpression)
  | [] => some []
  | .empty :: _ => none
  | .epsilon :: parts => flattenParts parts
  | .concat nested :: parts => (flattenParts parts).map (nested ++ ·)
  | other :: parts => (flattenParts parts).map (other :: ·)

/-- The concatenation, flattened; empty if one of the parts is. -/
def concat (parts : List RegularExpression) : RegularExpression :=
  match flattenParts parts with
  | none => .empty
  | some [] => .epsilon
  | some [part] => part
  | some flattened => .concat flattened

/-- The branches of `union` that are kept, those of nested unions in their place. -/
def flattenBranches : List RegularExpression → List RegularExpression
  | [] => []
  | .empty :: branches => flattenBranches branches
  | .union nested :: branches => nested ++ flattenBranches branches
  | other :: branches => other :: flattenBranches branches

/-- The union, flattened, in order and without repetitions. -/
def union (branches : List RegularExpression) : RegularExpression :=
  match (sortExpressions (flattenBranches branches)).destutter (· ≠ ·) with
  | [] => .empty
  | [branch] => branch
  | unique => .union unique

/-- The iteration, which is not nested. -/
def star : RegularExpression → RegularExpression
  | .empty => .epsilon
  | .epsilon => .epsilon
  | .star e => .star e
  | e => .star e

theorem mem_destutter_ne {α : Type*} [DecidableEq α] {l : List α} {a : α} :
    a ∈ l.destutter (· ≠ ·) ↔ a ∈ l := by
  refine ⟨fun h => (List.destutter_sublist _ l).subset h, ?_⟩
  have haux : ∀ (l : List α) (b : α), a ∈ b :: l → a ∈ l.destutter' (· ≠ ·) b := by
    intro l
    induction l with
    | nil => exact fun b h => by simpa using h
    | cons c l ih =>
      intro b h
      by_cases hbc : b = c
      · subst hbc
        rw [List.destutter'_cons_neg _ (by simp)]
        exact ih b (by simpa using h)
      · rw [List.destutter'_cons_pos _ hbc, List.mem_cons]
        exact (List.mem_cons.1 h).imp_right (ih c)
  cases l with
  | nil => exact fun h => h
  | cons b l => exact haux l b

/-- The branches that `union` keeps. -/
theorem mem_unique {branches : List RegularExpression} {e : RegularExpression} :
    e ∈ (sortExpressions (flattenBranches branches)).destutter (· ≠ ·) ↔
      e ∈ flattenBranches branches := by
  rw [mem_destutter_ne]
  exact (List.perm_insertionSort _ _).mem_iff

namespace RegularExpression

variable {α : Type*} (A : String → Option String → Language α)

/-! ### Languages -/

mutual

/-- What an expression denotes, for the languages of its atoms. -/
def language : RegularExpression → Language α
  | .empty => 0
  | .epsilon => 1
  | .atom forward reverse => A forward reverse
  | .concat parts => (languages parts).prod
  | .union branches => (languages branches).sum
  | .star e => KStar.kstar (language e)

/-- The languages of the expressions. -/
def languages : List RegularExpression → List (Language α)
  | [] => []
  | e :: es => language e :: languages es

end

theorem languages_eq_map (es : List RegularExpression) : languages A es = es.map (language A) := by
  induction es with
  | nil => rfl
  | cons e es ih => rw [languages, ih, List.map_cons]

theorem mem_sum {ι : Type*} {l : List ι} {f : ι → Language α} {x : List α} :
    x ∈ (l.map f).sum ↔ ∃ i ∈ l, x ∈ f i := by
  induction l with
  | nil => simp
  | cons i l ih => simp [Language.mem_add, ih]

theorem language_parts {parts : List RegularExpression} :
    (parts.map (language A)).prod =
      (flattenParts parts).elim 0 fun flattened => (flattened.map (language A)).prod := by
  induction parts using flattenParts.induct with
  | case1 => rfl
  | case2 parts => simp [flattenParts, language]
  | case3 parts ih => simp [flattenParts, language, ih]
  | case4 nested parts ih =>
    rw [flattenParts, List.map_cons, List.prod_cons, ih, language, languages_eq_map]
    cases flattenParts parts <;> simp
  | case5 other parts h1 h2 h3 ih =>
    rw [flattenParts, List.map_cons, List.prod_cons, ih]
    · cases flattenParts parts <;> simp
    all_goals assumption

/-- **Concatenation denotes the product.** -/
theorem language_concat (parts : List RegularExpression) :
    language A (OcEarley.concat parts) = (parts.map (language A)).prod := by
  rw [language_parts, OcEarley.concat]
  split
  · simp [*, language]
  · simp [*, language]
  · simp [*]
  · simp [*, language, languages_eq_map]

theorem mem_language_branches {branches : List RegularExpression} {x : List α} :
    (∃ e ∈ flattenBranches branches, x ∈ language A e) ↔ ∃ e ∈ branches, x ∈ language A e := by
  induction branches using flattenBranches.induct with
  | case1 => rfl
  | case2 branches ih => simp [flattenBranches, ih, language]
  | case3 nested branches ih =>
    simp [flattenBranches, or_and_right, exists_or, ih, language, languages_eq_map, mem_sum]
  | case4 other branches h1 h2 ih =>
    rw [flattenBranches]
    · simp [ih]
    all_goals assumption

/-- **Union denotes the sum.** -/
theorem language_union (branches : List RegularExpression) :
    language A (OcEarley.union branches) = (branches.map (language A)).sum := by
  have hmem : ∀ x : List α, x ∈ (branches.map (language A)).sum ↔
      ∃ e ∈ (sortExpressions (flattenBranches branches)).destutter (· ≠ ·),
        x ∈ language A e := by
    intro x
    simp only [mem_sum, mem_unique, mem_language_branches]
  ext x
  rw [hmem, OcEarley.union]
  split
  · simp [*, language]
  · simp [*]
  · simp [*, language, languages_eq_map, mem_sum]

/-- **Star denotes the Kleene star.** -/
theorem language_star (e : RegularExpression) :
    language A (OcEarley.star e) = KStar.kstar (language A e) := by
  cases e <;> simp [OcEarley.star, language]

/-! ### The expressions that the operations build -/

variable {atoms : String → Option String → Prop}

/-- What `concat`, `union` and `star` build from atoms. -/
inductive Built (atoms : String → Option String → Prop) : RegularExpression → Prop
  | atom {forward : String} {reverse : Option String} (h : atoms forward reverse) :
    Built atoms (.atom forward reverse)
  | concat {parts : List RegularExpression} (h : ∀ e ∈ parts, Built atoms e) :
    Built atoms (OcEarley.concat parts)
  | union {branches : List RegularExpression} (h : ∀ e ∈ branches, Built atoms e) :
    Built atoms (OcEarley.union branches)
  | star {e : RegularExpression} (h : Built atoms e) : Built atoms (OcEarley.star e)

/-- Nothing is `Empty`, not even as a union without branches. -/
inductive Proper (atoms : String → Option String → Prop) : RegularExpression → Prop
  | epsilon : Proper atoms .epsilon
  | atom {forward : String} {reverse : Option String} (h : atoms forward reverse) :
    Proper atoms (.atom forward reverse)
  | concat {parts : List RegularExpression} (h : ∀ e ∈ parts, Proper atoms e) :
    Proper atoms (.concat parts)
  | union {branches : List RegularExpression} (hne : branches ≠ [])
    (h : ∀ e ∈ branches, Proper atoms e) : Proper atoms (.union branches)
  | star {e : RegularExpression} (h : Proper atoms e) : Proper atoms (.star e)

theorem not_proper_empty : ¬ Proper atoms .empty := by
  intro h
  cases h

theorem proper_parts {parts : List RegularExpression}
    (h : ∀ e ∈ parts, e = .empty ∨ Proper atoms e) :
    ∀ flattened ∈ flattenParts parts, ∀ e ∈ flattened, Proper atoms e := by
  induction parts using flattenParts.induct with
  | case1 => simp [flattenParts]
  | case2 parts => simp [flattenParts]
  | case3 parts ih =>
    obtain ⟨-, hrest⟩ := List.forall_mem_cons.1 h
    simpa only [flattenParts] using ih hrest
  | case4 nested parts ih =>
    obtain ⟨hhead, hrest⟩ := List.forall_mem_cons.1 h
    have hnested : ∀ e ∈ nested, Proper atoms e := by
      cases hhead.resolve_left (by simp) with
      | concat hnested => exact hnested
    simp only [flattenParts, Option.mem_map, forall_exists_index, and_imp]
    rintro _ rest hmem rfl e he
    exact (List.mem_append.1 he).elim (hnested e) (ih hrest rest hmem e)
  | case5 other parts h1 h2 h3 ih =>
    obtain ⟨hhead, hrest⟩ := List.forall_mem_cons.1 h
    rw [flattenParts]
    · simp only [Option.mem_map, forall_exists_index, and_imp]
      rintro _ rest hmem rfl e he
      obtain rfl | he := List.mem_cons.1 he
      · exact hhead.resolve_left h1
      · exact ih hrest rest hmem e he
    all_goals assumption

theorem proper_branches {branches : List RegularExpression}
    (h : ∀ e ∈ branches, e = .empty ∨ Proper atoms e) :
    ∀ e ∈ flattenBranches branches, Proper atoms e := by
  induction branches using flattenBranches.induct with
  | case1 => simp [flattenBranches]
  | case2 branches ih =>
    obtain ⟨-, hrest⟩ := List.forall_mem_cons.1 h
    simpa only [flattenBranches] using ih hrest
  | case3 nested branches ih =>
    obtain ⟨hhead, hrest⟩ := List.forall_mem_cons.1 h
    have hnested : ∀ e ∈ nested, Proper atoms e := by
      cases hhead.resolve_left (by simp) with
      | union _ hnested => exact hnested
    rw [flattenBranches]
    intro e he
    exact (List.mem_append.1 he).elim (hnested e) (ih hrest e)
  | case4 other branches h1 h2 ih =>
    obtain ⟨hhead, hrest⟩ := List.forall_mem_cons.1 h
    rw [flattenBranches]
    · intro e he
      obtain rfl | he := List.mem_cons.1 he
      · exact hhead.resolve_left h1
      · exact ih hrest e he
    all_goals assumption

theorem proper_concat {parts : List RegularExpression}
    (h : ∀ e ∈ parts, e = .empty ∨ Proper atoms e) :
    OcEarley.concat parts = .empty ∨ Proper atoms (OcEarley.concat parts) := by
  have hparts := proper_parts h
  rw [OcEarley.concat]
  split
  case h_1 => exact .inl rfl
  case h_2 => exact .inr .epsilon
  case h_3 part heq => exact .inr (hparts _ heq part List.mem_cons_self)
  case h_4 flattened _ _ heq => exact .inr (.concat (hparts _ heq))

theorem proper_union {branches : List RegularExpression}
    (h : ∀ e ∈ branches, e = .empty ∨ Proper atoms e) :
    OcEarley.union branches = .empty ∨ Proper atoms (OcEarley.union branches) := by
  have hbranches : ∀ e ∈ (sortExpressions (flattenBranches branches)).destutter (· ≠ ·),
      Proper atoms e := fun e he => proper_branches h e (mem_unique.1 he)
  rw [OcEarley.union]
  split
  case h_1 => exact .inl rfl
  case h_2 branch heq => exact .inr (hbranches branch (by simp [heq]))
  case h_3 hne _ => exact .inr (.union hne hbranches)

theorem proper_star {e : RegularExpression} (h : e = .empty ∨ Proper atoms e) :
    Proper atoms (OcEarley.star e) := by
  obtain rfl | h := h
  · exact .epsilon
  · cases h with
    | epsilon => exact .epsilon
    | atom h => exact .star (.atom h)
    | concat h => exact .star (.concat h)
    | union hne h => exact .star (.union hne h)
    | star h => exact .star h

/-- **The operations leave no `Empty` inside.** -/
theorem Built.proper {e : RegularExpression} (h : Built atoms e) : e = .empty ∨ Proper atoms e := by
  induction h with
  | atom h => exact .inr (.atom h)
  | concat _ ih => exact proper_concat ih
  | union _ ih => exact proper_union ih
  | star _ ih => exact .inr (proper_star ih)

/-! ### Reversal -/

mutual

/-- The reversed expression, if every atom has a reverse. -/
def reversed : RegularExpression → Option RegularExpression
  | .empty => some .empty
  | .epsilon => some .epsilon
  | .atom forward reverse => reverse.map fun reverse => .atom reverse (some forward)
  | .concat parts => (reversedAll parts).map fun reversed => OcEarley.concat reversed.reverse
  | .union branches => (reversedAll branches).map OcEarley.union
  | .star e => (reversed e).map OcEarley.star

/-- The reversed expressions, if every atom has a reverse. -/
def reversedAll : List RegularExpression → Option (List RegularExpression)
  | [] => some []
  | e :: es => (reversed e).bind fun e => (reversedAll es).map (e :: ·)

end

end RegularExpression

end OcEarley
