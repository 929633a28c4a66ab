import Mathlib.Computability.Language

/-!
# The syntax of regular expressions

Texts are read with the standard precedence: an alternation of concatenations of pieces, each with
its postfix operators behind it.  What a piece is besides a group `(?:...)`, and which operators
there are besides `*`, is left to a `RegexSyntax`: a piece or an operator is told from the front of
the text, and ends before a bar, a closing parenthesis or the end.
-/

namespace OcEarley

variable {α : Type*}

/-- Nothing of a concatenation follows: the text is at its end, a bar or a closing parenthesis. -/
def ConcatEnds (text : List Char) : Prop := ∀ c ∈ text.head?, c = '|' ∨ c = ')'

@[simp] theorem concatEnds_nil : ConcatEnds [] := by simp [ConcatEnds]

@[simp] theorem concatEnds_bar (text : List Char) : ConcatEnds ('|' :: text) := by simp [ConcatEnds]

@[simp] theorem concatEnds_close (text : List Char) :
    ConcatEnds (')' :: text) := by simp [ConcatEnds]

theorem ConcatEnds.append {s t : List Char} (hs : ConcatEnds s) (ht : ConcatEnds t) :
    ConcatEnds (s ++ t) := by
  cases s with
  | nil => exact ht
  | cons c s => exact hs

/-- How the pieces that are not groups are read, and the operators behind a piece. -/
structure RegexSyntax (α : Type*) where
  piece : List Char → Option (Language α × List Char)
  operator : List Char → Option ((Language α → Language α) × List Char)
  piece_ends : ∀ {s}, ConcatEnds s → piece s = none
  piece_group : ∀ s, piece ('(' :: '?' :: ':' :: s) = none
  piece_append : ∀ {s L r}, piece s = some (L, r) → ∀ t, ConcatEnds t →
    piece (s ++ t) = some (L, r ++ t)
  operator_ends : ∀ {s}, ConcatEnds s → operator s = none
  operator_group : ∀ s, operator ('(' :: s) = none
  operator_append : ∀ {s f r}, operator s = some (f, r) → ∀ t, ConcatEnds t →
    operator (s ++ t) = some (f, r ++ t)
  operator_none_append : ∀ {s}, operator s = none → ∀ t, ConcatEnds t → operator (s ++ t) = none
  operator_star : ∀ {s}, ConcatEnds s → operator ('*' :: s) = some (fun L => KStar.kstar L, s)

/-- What is read: the operators of a piece are those behind what the piece denotes. -/
inductive Level (α : Type*)
  | alternation
  | concatenation
  | factor
  | operators (L : Language α)

/-- From the front of the text a language is read, and the rest is left. -/
inductive Reads (S : RegexSyntax α) : Level α → List Char → Language α → List Char → Prop
  | last {s r : List Char} {L : Language α} (h : Reads S .concatenation s L r)
      (hr : r.head? ≠ some '|') : Reads S .alternation s L r
  | branch {s r r' : List Char} {L L' : Language α} (h : Reads S .concatenation s L ('|' :: r))
      (hrest : Reads S .alternation r L' r') : Reads S .alternation s (L + L') r'
  | done {s : List Char} (hs : ConcatEnds s) : Reads S .concatenation s 1 s
  | next {s r r' : List Char} {L L' : Language α} (h : Reads S .factor s L r)
      (hrest : Reads S .concatenation r L' r') : Reads S .concatenation s (L * L') r'
  | group {s r r' : List Char} {L L' : Language α} (h : Reads S .alternation s L (')' :: r))
      (hrest : Reads S (.operators L) r L' r') : Reads S .factor ('(' :: '?' :: ':' :: s) L' r'
  | piece {s r r' : List Char} {L L' : Language α} (h : S.piece s = some (L, r))
      (hrest : Reads S (.operators L) r L' r') : Reads S .factor s L' r'
  | bare {s : List Char} {L : Language α} (h : S.operator s = none) : Reads S (.operators L) s L s
  | apply {s r r' : List Char} {L L' : Language α} {f : Language α → Language α}
      (h : S.operator s = some (f, r)) (hrest : Reads S (.operators (f L)) r L' r') :
      Reads S (.operators L) s L' r'

/-- The text is a complete regular expression for the language. -/
def RegexDenotes (S : RegexSyntax α) (text : List Char) (L : Language α) : Prop :=
  Reads S .alternation text L []

variable {S : RegexSyntax α} {s t r r' : List Char} {L L' : Language α}

namespace Reads

theorem not_factor (h : ConcatEnds s) : ¬ Reads S .factor s L r := by
  intro hread
  cases hread with
  | group => exact absurd (h '(' rfl) (by decide)
  | piece hpiece => simp [S.piece_ends h] at hpiece

/-- **A text is read in one way.** -/
theorem unique {k : Level α} (h : Reads S k s L r) (h' : Reads S k s L' r') : L = L' ∧ r = r' := by
  induction h generalizing L' r' with
  | last _ hr ih =>
    cases h' with
    | last h' _ => exact ih h'
    | branch h' _ =>
      obtain ⟨-, rfl⟩ := ih h'
      exact absurd rfl hr
  | branch _ _ ih ihrest =>
    cases h' with
    | last h' hr' =>
      obtain ⟨-, rfl⟩ := ih h'
      exact absurd rfl hr'
    | branch h' hrest' =>
      obtain ⟨rfl, heq⟩ := ih h'
      obtain rfl := (List.cons.inj heq).2
      obtain ⟨rfl, rfl⟩ := ihrest hrest'
      exact ⟨rfl, rfl⟩
  | done hs =>
    cases h' with
    | done => exact ⟨rfl, rfl⟩
    | next h' _ => exact absurd h' (not_factor hs)
  | next h _ ih ihrest =>
    cases h' with
    | done hs => exact absurd h (not_factor hs)
    | next h' hrest' =>
      obtain ⟨rfl, rfl⟩ := ih h'
      obtain ⟨rfl, rfl⟩ := ihrest hrest'
      exact ⟨rfl, rfl⟩
  | group _ _ ih ihrest =>
    cases h' with
    | group h' hrest' =>
      obtain ⟨rfl, heq⟩ := ih h'
      obtain rfl := (List.cons.inj heq).2
      exact ihrest hrest'
    | piece h' _ => simp [S.piece_group] at h'
  | piece h _ ihrest =>
    cases h' with
    | group => simp [S.piece_group] at h
    | piece h' hrest' =>
      obtain ⟨rfl, rfl⟩ := Prod.mk.inj (Option.some.inj (h.symm.trans h'))
      exact ihrest hrest'
  | bare h =>
    cases h' with
    | bare => exact ⟨rfl, rfl⟩
    | apply h' _ => simp [h] at h'
  | apply h _ ihrest =>
    cases h' with
    | bare h' => simp [h'] at h
    | apply h' hrest' =>
      obtain ⟨rfl, rfl⟩ := Prod.mk.inj (Option.some.inj (h.symm.trans h'))
      exact ihrest hrest'

/-- What is read does not change when a text that ends it follows; an alternation goes
on at a bar. -/
theorem append {k : Level α} (h : Reads S k s L r) (ht : ConcatEnds t)
    (hbar : k = .alternation → r ≠ [] ∨ t.head? ≠ some '|') :
    Reads S k (s ++ t) L (r ++ t) := by
  induction h with
  | @last s r L _ hr ih =>
    refine .last (ih fun hk => by cases hk) ?_
    cases r with
    | nil => exact (hbar rfl).resolve_left fun hne => hne rfl
    | cons c r => exact hr
  | branch _ _ ih ihrest => exact .branch (ih fun hk => by cases hk) (ihrest hbar)
  | done hs => exact .done (hs.append ht)
  | next _ _ ih ihrest => exact .next (ih fun hk => by cases hk) (ihrest hbar)
  | group _ _ ih ihrest =>
    exact .group (ih fun _ => .inl (List.cons_ne_nil _ _)) (ihrest fun hk => by cases hk)
  | piece h _ ihrest => exact .piece (S.piece_append h t ht) (ihrest fun hk => by cases hk)
  | bare h => exact .bare (S.operator_none_append h t ht)
  | apply h _ ihrest => exact .apply (S.operator_append h t ht) (ihrest fun hk => by cases hk)

/-- A text for a language, and a bar and another one behind it. -/
theorem bar {k : Level α} (h : Reads S k s L r) (hk : k = .alternation) (hr : r = [])
    (h' : Reads S .alternation t L' []) :
    Reads S .alternation (s ++ '|' :: t) (L + L') [] := by
  induction h with
  | last h _ _ =>
    subst hr
    exact .branch (h.append (concatEnds_bar t) fun hk => by cases hk) h'
  | branch h _ _ ihrest =>
    rw [add_assoc]
    exact .branch (h.append (concatEnds_bar t) fun hk => by cases hk) (ihrest rfl hr)
  | done | next | group | piece | bare | apply => cases hk

end Reads

namespace RegexDenotes

/-- A complete text has one language. -/
theorem unique (h : RegexDenotes S s L) (h' : RegexDenotes S s L') : L = L' := (Reads.unique h h').1

theorem nil : RegexDenotes S [] 1 := .last (.done concatEnds_nil) (by simp)

/-- Texts with a bar between them denote the union. -/
theorem alternation {ι : Type*} {l : List ι} {text : ι → List Char} {language : ι → Language α}
    (h : ∀ i ∈ l, RegexDenotes S (text i) (language i)) (hne : l ≠ []) :
    RegexDenotes S (['|'].intercalate (l.map text)) (l.map language).sum := by
  obtain ⟨i, l, rfl⟩ := List.exists_cons_of_ne_nil hne
  induction l generalizing i with
  | nil => simpa using h i List.mem_cons_self
  | cons j l ih =>
    obtain ⟨hhead, htail⟩ := List.forall_mem_cons.1 h
    have hrest := ih j htail (List.cons_ne_nil _ _)
    rw [List.map_cons, List.map_cons, List.intercalate_cons_cons, List.map_cons, List.sum_cons,
      List.append_assoc]
    exact Reads.bar hhead rfl rfl hrest

/-- A group is one factor, whatever stands in it. -/
theorem factor (h : RegexDenotes S s L) (hrest : Reads S (.operators L) t L' r) :
    Reads S .factor ('(' :: '?' :: ':' :: (s ++ ')' :: t)) L' r :=
  .group (Reads.append h (concatEnds_close t) fun _ => .inr (by simp)) hrest

/-- A factor that is the whole text. -/
theorem of_factor (h : Reads S .factor s L []) : RegexDenotes S s L := by
  have hconcat : Reads S .concatenation s (L * 1) [] := .next h (.done concatEnds_nil)
  rw [mul_one] at hconcat
  exact .last hconcat (by simp)

theorem group (h : RegexDenotes S s L) : RegexDenotes S ('(' :: '?' :: ':' :: (s ++ [')'])) L :=
  of_factor (h.factor (.bare (S.operator_ends concatEnds_nil)))

theorem star (h : RegexDenotes S s L) :
    RegexDenotes S ('(' :: '?' :: ':' :: (s ++ [')', '*'])) (KStar.kstar L) :=
  of_factor (h.factor (.apply (S.operator_star concatEnds_nil)
    (.bare (S.operator_ends concatEnds_nil))))

/-- Groups next to each other denote the concatenation of what stands in them. -/
theorem concatenation {ι : Type*} {l : List ι} {text : ι → List Char} {language : ι → Language α}
    (h : ∀ i ∈ l, RegexDenotes S (text i) (language i)) :
    RegexDenotes S (l.flatMap fun i => '(' :: '?' :: ':' :: (text i ++ [')']))
      (l.map language).prod := by
  refine .last ?_ (by simp)
  induction l with
  | nil => exact .done concatEnds_nil
  | cons i l ih =>
    obtain ⟨hhead, htail⟩ := List.forall_mem_cons.1 h
    rw [List.flatMap_cons, List.map_cons, List.prod_cons]
    have hoperators : S.operator (l.flatMap fun i => '(' :: '?' :: ':' :: (text i ++ [')'])) =
        none := by
      cases l with
      | nil => exact S.operator_ends concatEnds_nil
      | cons => exact S.operator_group _
    have hfactor := hhead.factor (.bare hoperators)
    simp only [List.cons_append, List.append_assoc]
    exact .next hfactor (ih htail)

end RegexDenotes

/-! ### Characters that stand for themselves -/

/-- A character that is no operator. -/
def plainPiece : List Char → Option (Language Char × List Char)
  | [] => none
  | c :: s => if c ∈ ['(', ')', '|', '*'] then none else some ({[c]}, s)

/-- The star. -/
def plainOperator : List Char → Option ((Language Char → Language Char) × List Char)
  | [] => none
  | c :: s => if c = '*' then some (fun L => KStar.kstar L, s) else none

theorem plainPiece_ends {s : List Char} (h : ConcatEnds s) : plainPiece s = none := by
  cases s with
  | nil => rfl
  | cons c s => rcases h c rfl with rfl | rfl <;> simp [plainPiece]

theorem plainPiece_group (s : List Char) : plainPiece ('(' :: '?' :: ':' :: s) = none := by
  simp [plainPiece]

theorem plainPiece_append {s r : List Char} {L : Language Char} (h : plainPiece s = some (L, r))
    (t : List Char) (_ : ConcatEnds t) : plainPiece (s ++ t) = some (L, r ++ t) := by
  cases s with
  | nil => cases h
  | cons c s =>
    simp only [plainPiece, List.cons_append] at h ⊢
    split at h
    · cases h
    · cases h
      simp [*]

theorem plainOperator_ends {s : List Char} (h : ConcatEnds s) : plainOperator s = none := by
  cases s with
  | nil => rfl
  | cons c s => rcases h c rfl with rfl | rfl <;> simp [plainOperator]

theorem plainOperator_group (s : List Char) : plainOperator ('(' :: s) = none := by
  simp [plainOperator]

theorem plainOperator_append {s r : List Char} {f : Language Char → Language Char}
    (h : plainOperator s = some (f, r)) (t : List Char) (_ : ConcatEnds t) :
    plainOperator (s ++ t) = some (f, r ++ t) := by
  cases s with
  | nil => cases h
  | cons c s =>
    simp only [plainOperator, List.cons_append] at h ⊢
    split at h
    · cases h
      simp [*]
    · cases h

theorem plainOperator_none_append {s : List Char} (h : plainOperator s = none) (t : List Char)
    (ht : ConcatEnds t) : plainOperator (s ++ t) = none := by
  cases s with
  | nil => exact plainOperator_ends ht
  | cons c s => simpa [plainOperator] using h

theorem plainOperator_star {s : List Char} (_ : ConcatEnds s) :
    plainOperator ('*' :: s) = some (fun L => KStar.kstar L, s) := rfl

/-- The syntax without classes and escapes, and with the star as its only operator. -/
def RegexSyntax.plain : RegexSyntax Char where
  piece := plainPiece
  operator := plainOperator
  piece_ends := plainPiece_ends
  piece_group := plainPiece_group
  piece_append := plainPiece_append
  operator_ends := plainOperator_ends
  operator_group := plainOperator_group
  operator_append := plainOperator_append
  operator_none_append := plainOperator_none_append
  operator_star := plainOperator_star

theorem regexDenotes_char {c : Char} (h : c ∉ ['(', ')', '|', '*']) :
    RegexDenotes .plain [c] {[c]} :=
  .of_factor (.piece (if_neg h) (.bare rfl))

/-! ### Characters that are spelled -/

section Spelled

variable (spell : Char → List α)

/-- A character that has no other meaning stands for its spelling. -/
def spelledPiece : List Char → Option (Language α × List Char)
  | [] => none
  | c :: s => if c ∈ ['(', ')', '|', '*'] then none else some ({spell c}, s)

/-- The star, over any alphabet. -/
def starOperator : List Char → Option ((Language α → Language α) × List Char)
  | [] => none
  | c :: s => if c = '*' then some (fun L => KStar.kstar L, s) else none

variable {spell}

theorem spelledPiece_ends (h : ConcatEnds s) : spelledPiece spell s = none := by
  cases s with
  | nil => rfl
  | cons c s => rcases h c rfl with rfl | rfl <;> simp [spelledPiece]

theorem spelledPiece_group (s : List Char) :
    spelledPiece spell ('(' :: '?' :: ':' :: s) = none := by
  simp [spelledPiece]

theorem spelledPiece_append (h : spelledPiece spell s = some (L, r)) (t : List Char)
    (_ : ConcatEnds t) : spelledPiece spell (s ++ t) = some (L, r ++ t) := by
  cases s with
  | nil => cases h
  | cons c s =>
    simp only [spelledPiece, List.cons_append] at h ⊢
    split at h
    · cases h
    · cases h
      simp [*]

theorem starOperator_ends (h : ConcatEnds s) : starOperator (α := α) s = none := by
  cases s with
  | nil => rfl
  | cons c s => rcases h c rfl with rfl | rfl <;> simp [starOperator]

theorem starOperator_group (s : List Char) : starOperator (α := α) ('(' :: s) = none := by
  simp [starOperator]

theorem starOperator_append {f : Language α → Language α} (h : starOperator s = some (f, r))
    (t : List Char) (_ : ConcatEnds t) : starOperator (s ++ t) = some (f, r ++ t) := by
  cases s with
  | nil => cases h
  | cons c s =>
    simp only [starOperator, List.cons_append] at h ⊢
    split at h
    · cases h
      simp [*]
    · cases h

theorem starOperator_none_append (h : starOperator (α := α) s = none) (t : List Char)
    (ht : ConcatEnds t) : starOperator (α := α) (s ++ t) = none := by
  cases s with
  | nil => exact starOperator_ends ht
  | cons c s => simpa [starOperator] using h

theorem starOperator_star (_ : ConcatEnds s) :
    starOperator (α := α) ('*' :: s) = some (fun L => KStar.kstar L, s) := rfl

/-- The same syntax, for words of another alphabet. -/
def RegexSyntax.spelled (spell : Char → List α) : RegexSyntax α where
  piece := spelledPiece spell
  operator := starOperator
  piece_ends := spelledPiece_ends
  piece_group := spelledPiece_group
  piece_append := spelledPiece_append
  operator_ends := starOperator_ends
  operator_group := starOperator_group
  operator_append := starOperator_append
  operator_none_append := starOperator_none_append
  operator_star := starOperator_star

theorem regexDenotes_spelled {c : Char} (h : c ∉ ['(', ')', '|', '*']) :
    RegexDenotes (.spelled spell) [c] {spell c} :=
  .of_factor (.piece (if_neg h) (.bare rfl))

end Spelled

end OcEarley
