import OcEarley.Formal.Pattern
import OcEarley.Formal.Regex

/-!
# The syntax of the patterns

What follows a concatenation has no part in how it is parsed (`parse_local`), so that the parser of
the patterns gives a `RegexSyntax`: a piece is an atom, groups included, and the operators are the
postfix operators (`patternSyntax`).
-/

namespace OcEarley

namespace Pattern

/-! ### Byte strings -/

theorem byteLanguage_empty : byteLanguage .empty = 1 := by
  ext x
  constructor
  · rintro ⟨l, hl, rfl⟩
    obtain rfl := mem_language_empty.1 hl
    exact rfl
  · rintro rfl
    exact ⟨[], rfl, rfl⟩

theorem byteLanguage_concat (p q : Pattern) :
    (concat p q).byteLanguage = p.byteLanguage * q.byteLanguage := by
  ext x
  rw [Language.mem_mul]
  constructor
  · rintro ⟨l, hl, rfl⟩
    obtain ⟨u, hu, v, hv, rfl⟩ := Language.mem_mul.1 hl
    exact ⟨encode u, ⟨u, hu, rfl⟩, encode v, ⟨v, hv, rfl⟩, (encode_append u v).symm⟩
  · rintro ⟨_, ⟨u, hu, rfl⟩, _, ⟨v, hv, rfl⟩, rfl⟩
    exact ⟨u ++ v, Language.append_mem_mul hu hv, (encode_append u v).symm⟩

theorem byteLanguage_alternate (p q : Pattern) :
    (alternate p q).byteLanguage = p.byteLanguage + q.byteLanguage := by
  ext x
  rw [Language.mem_add]
  constructor
  · rintro ⟨l, hl | hl, rfl⟩
    · exact .inl ⟨l, hl, rfl⟩
    · exact .inr ⟨l, hl, rfl⟩
  · rintro (⟨l, hl, rfl⟩ | ⟨l, hl, rfl⟩)
    · exact ⟨l, .inl hl, rfl⟩
    · exact ⟨l, .inr hl, rfl⟩

theorem encode_flatten (texts : List (List Char)) :
    encode texts.flatten = (texts.map encode).flatten := by
  induction texts with
  | nil => rfl
  | cons text texts ih =>
    rw [List.flatten_cons, encode_append, ih, List.map_cons, List.flatten_cons]

theorem exists_texts {p : Pattern} {words : List (List UInt8)}
    (h : ∀ word ∈ words, word ∈ p.byteLanguage) :
    ∃ texts : List (List Char), (∀ text ∈ texts, text ∈ p.language) ∧ words = texts.map encode := by
  induction words with
  | nil => exact ⟨[], by simp, rfl⟩
  | cons word words ih =>
    obtain ⟨⟨text, htext, rfl⟩, hrest⟩ := List.forall_mem_cons.1 h
    obtain ⟨texts, htexts, rfl⟩ := ih hrest
    exact ⟨text :: texts, List.forall_mem_cons.2 ⟨htext, htexts⟩, rfl⟩

theorem byteLanguage_star (p : Pattern) : (star p).byteLanguage = KStar.kstar p.byteLanguage := by
  ext x
  rw [Language.mem_kstar]
  constructor
  · rintro ⟨l, hl, rfl⟩
    obtain ⟨texts, rfl, htexts⟩ := Language.mem_kstar.1 hl
    refine ⟨texts.map encode, encode_flatten texts, fun word hword => ?_⟩
    obtain ⟨text, htext, rfl⟩ := List.mem_map.1 hword
    exact ⟨text, htexts text htext, rfl⟩
  · rintro ⟨words, rfl, hwords⟩
    obtain ⟨texts, htexts, rfl⟩ := exists_texts hwords
    exact ⟨texts.flatten, Language.mem_kstar.2 ⟨texts, rfl, htexts⟩, (encode_flatten texts).symm⟩

/-! ### What follows -/

variable {s r t : List Char}

theorem parseEscape_append {c : Char} (h : parseEscape s = some (c, r)) (t : List Char) :
    parseEscape (s ++ t) = some (c, r ++ t) := by
  unfold parseEscape at h
  split at h
  · next high low rest =>
    obtain ⟨high', hhigh, h⟩ := Option.bind_eq_some_iff.1 h
    obtain ⟨low', hlow, h⟩ := Option.bind_eq_some_iff.1 h
    cases h
    simp [parseEscape, hhigh, hlow]
  · next d rest hshort =>
    split at h
    · cases h
    · next hd =>
      -- the letter of a hexadecimal escape is no punctuation
      have hx : d ≠ 'x' := by
        rintro rfl
        exact hd (by decide)
      cases h
      rw [List.cons_append, parseEscape, if_neg hd]
      rintro high low rest' rfl
      exact absurd rfl hx
  · cases h

theorem parseClassChar_append {c : Char} (h : parseClassChar s = some (c, r)) (t : List Char) :
    parseClassChar (s ++ t) = some (c, r ++ t) := by
  unfold parseClassChar at h
  split at h
  · exact parseEscape_append h t
  · cases h
  · next d rest hescape hclose =>
    cases h
    rw [List.cons_append, parseClassChar]
    · exact hescape
    · exact hclose
  · cases h

theorem parseClass_nil (fuel : ℕ) : parseClass fuel [] = none := by
  cases fuel <;> rfl

theorem parseClass_close (fuel : ℕ) (s : List Char) :
    parseClass fuel (']' :: s) = some ([], s) := by
  cases fuel <;> rfl

/-- What follows a class has no part in it, and more fuel does not change it. -/
theorem parseClass_append (t : List Char) {fuel : ℕ} :
    ∀ {s r : List Char} {ranges : List (Char × Char)} {fuel' : ℕ},
      parseClass fuel s = some (ranges, r) → fuel ≤ fuel' →
      parseClass fuel' (s ++ t) = some (ranges, r ++ t) := by
  induction fuel with
  | zero =>
    intro s r ranges fuel' h _
    unfold parseClass at h
    split at h
    · obtain ⟨rfl, rfl⟩ := Prod.mk.inj (Option.some.inj h)
      exact parseClass_close fuel' _
    · cases h
    · next hzero _ => cases hzero
  | succ fuel ih =>
    intro s r ranges fuel' h hfuel
    obtain ⟨fuel', rfl⟩ := Nat.exists_eq_succ_of_ne_zero (show fuel' ≠ 0 by omega)
    have hle : fuel ≤ fuel' := by omega
    cases s with
    | nil => exact absurd h (by simp [parseClass_nil])
    | cons c s =>
      by_cases hc : c = ']'
      · subst hc
        rw [parseClass_close] at h
        obtain ⟨rfl, rfl⟩ := Prod.mk.inj (Option.some.inj h)
        exact parseClass_close _ _
      · have hclose : ∀ l rest, c :: l = ']' :: rest → False :=
          fun l rest h => hc (List.cons.inj h).1
        rw [List.cons_append]
        rw [parseClass.eq_3 _ _ (hclose s)] at h
        rw [parseClass.eq_3 _ _ (hclose (s ++ t))]
        obtain ⟨⟨low, rest⟩, hlow, h⟩ := Option.bind_eq_some_iff.1 h
        have hlow' := parseClassChar_append hlow t
        rw [List.cons_append] at hlow'
        rw [hlow']
        dsimp only [Option.bind_eq_bind, Option.bind_some] at h ⊢
        split at h
        · next rest' =>
          obtain ⟨rfl, rfl⟩ := Prod.mk.inj (Option.some.inj h)
          rfl
        · next rest' hend =>
          obtain ⟨⟨high, rest''⟩, hhigh, h⟩ := Option.bind_eq_some_iff.1 h
          obtain ⟨⟨ranges', r'⟩, hranges, h⟩ := Option.bind_eq_some_iff.1 h
          obtain ⟨rfl, rfl⟩ := Prod.mk.inj (Option.some.inj h)
          -- the text that is appended cannot close the class: what was read goes on before it
          have hne : ∀ l, rest' ++ t ≠ ']' :: l := by
            intro l hl
            cases rest' with
            | nil => cases hhigh
            | cons d rest' => exact hend rest' ((List.cons.inj hl).1 ▸ rfl)
          rw [List.cons_append]
          split
          · next heq => exact absurd (List.cons.inj heq).2 (hne _)
          · next heq =>
            obtain rfl := (List.cons.inj heq).2
            rw [parseClassChar_append hhigh t, Option.bind_some, ih hranges hle]
            rfl
          · next _ hother => exact absurd rfl (hother _)
        · next hend hdash =>
          obtain ⟨⟨ranges', r'⟩, hranges, h⟩ := Option.bind_eq_some_iff.1 h
          obtain ⟨rfl, rfl⟩ := Prod.mk.inj (Option.some.inj h)
          have hne : ∀ l, rest ++ t ≠ '-' :: l := by
            intro l hl
            cases rest with
            | nil =>
              rw [parseClass_nil] at hranges
              cases hranges
            | cons d rest => exact hdash rest ((List.cons.inj hl).1 ▸ rfl)
          split
          · next heq => exact absurd heq (hne _)
          · next heq => exact absurd heq (hne _)
          · rw [ih hranges hle]
            rfl

/-- No operator stands at the front. -/
theorem parsePostfix_plain {p : Pattern} (fuel : ℕ) (h : ∀ c ∈ s.head?, c ∉ ['*', '+', '?']) :
    parsePostfix fuel p s = (p, s) := by
  cases fuel with
  | zero => rfl
  | succ fuel =>
    have hne : ∀ {c : Char} {rest : List Char}, c ∈ ['*', '+', '?'] → s ≠ c :: rest := by
      rintro c rest hc rfl
      exact h c rfl hc
    rw [parsePostfix]
    · exact fun _ rest _ heq => hne (by simp) heq
    · exact fun _ rest _ heq => hne (by simp) heq
    · exact fun _ rest _ heq => hne (by simp) heq

theorem plain_of_concatEnds (ht : ConcatEnds t) : ∀ c ∈ t.head?, c ∉ ['*', '+', '?'] := by
  intro c hc
  rcases ht c hc with rfl | rfl <;> decide

theorem parsePostfix_append (ht : ConcatEnds t) :
    ∀ {s : List Char} {fuel fuel' : ℕ} {p : Pattern}, s.length ≤ fuel → (s ++ t).length ≤ fuel' →
      parsePostfix fuel' p (s ++ t) =
        ((parsePostfix fuel p s).1, (parsePostfix fuel p s).2 ++ t) := by
  intro s
  induction s with
  | nil =>
    intro fuel fuel' p _ _
    rw [List.nil_append, parsePostfix_plain fuel' (plain_of_concatEnds ht),
      parsePostfix_plain fuel (by simp)]
    rfl
  | cons c s ih =>
    intro fuel fuel' p hfuel hfuel'
    rw [List.cons_append, List.length_cons] at hfuel'
    rw [List.length_cons] at hfuel
    obtain ⟨fuel, rfl⟩ := Nat.exists_eq_succ_of_ne_zero (show fuel ≠ 0 by omega)
    obtain ⟨fuel', rfl⟩ := Nat.exists_eq_succ_of_ne_zero (show fuel' ≠ 0 by omega)
    have hle : s.length ≤ fuel := by omega
    have hle' : (s ++ t).length ≤ fuel' := by omega
    rw [List.cons_append]
    by_cases hstar : c = '*'
    · subst hstar
      exact ih hle hle'
    by_cases hplus : c = '+'
    · subst hplus
      exact ih hle hle'
    by_cases hquestion : c = '?'
    · subst hquestion
      exact ih hle hle'
    rw [parsePostfix_plain, parsePostfix_plain]
    · rfl
    · simp [hstar, hplus, hquestion]
    · simp [hstar, hplus, hquestion]

theorem parseConcat_ends {fuel : ℕ} (ht : ConcatEnds t) :
    parseConcat (fuel + 1) t = some (.empty, t) := by
  cases t with
  | nil => rfl
  | cons c t => rcases ht c rfl with rfl | rfl <;> rfl

/-- What the three parsers do not read has no part in what they return. -/
structure Local (fuel fuel' : ℕ) (t : List Char) : Prop where
  alternation : ∀ {s r p}, parseAlternation fuel s = some (p, ')' :: r) →
    parseAlternation fuel' (s ++ t) = some (p, ')' :: (r ++ t))
  concat : ∀ {s r p}, parseConcat fuel s = some (p, r) →
    parseConcat fuel' (s ++ t) = some (p, r ++ t)
  atom : ∀ {s r p}, parseAtom fuel s = some (p, r) → parseAtom fuel' (s ++ t) = some (p, r ++ t)

section Local

variable {fuel fuel' : ℕ} {p : Pattern}

theorem parseAlternation_local (hlocal : Local fuel fuel' t)
    (h : parseAlternation (fuel + 1) s = some (p, ')' :: r)) :
    parseAlternation (fuel' + 1) (s ++ t) = some (p, ')' :: (r ++ t)) := by
  rw [parseAlternation] at h ⊢
  obtain ⟨⟨q, rest⟩, hconcat, h⟩ := Option.bind_eq_some_iff.1 h
  rw [hlocal.concat hconcat]
  dsimp only [Option.bind_eq_bind, Option.bind_some] at h ⊢
  split at h
  · next rest' =>
    obtain ⟨⟨q', r'⟩, halternation, h⟩ := Option.bind_eq_some_iff.1 h
    obtain ⟨rfl, rfl⟩ := Prod.mk.inj (Option.some.inj h)
    change (parseAlternation fuel' (rest' ++ t)).bind _ = _
    rw [hlocal.alternation halternation]
    rfl
  · obtain ⟨rfl, rfl⟩ := Prod.mk.inj (Option.some.inj h)
    rfl

theorem parseConcat_local (ht : ConcatEnds t) (hlocal : Local fuel fuel' t)
    (h : parseConcat (fuel + 1) s = some (p, r)) :
    parseConcat (fuel' + 1) (s ++ t) = some (p, r ++ t) := by
  cases s with
  | nil =>
    obtain ⟨rfl, rfl⟩ := Prod.mk.inj (Option.some.inj h)
    exact parseConcat_ends ht
  | cons c s =>
    by_cases hends : c = '|' ∨ c = ')'
    · have hstop : ∀ l, ConcatEnds (c :: l) := by
        intro l d hd
        obtain rfl := Option.some.inj hd
        exact hends
      rw [parseConcat_ends (hstop s)] at h
      obtain ⟨rfl, rfl⟩ := Prod.mk.inj (Option.some.inj h)
      exact parseConcat_ends (hstop (s ++ t))
    · have hbar : ∀ l rest, c :: l = '|' :: rest → False :=
        fun l rest heq => hends (.inl (List.cons.inj heq).1)
      have hclose : ∀ l rest, c :: l = ')' :: rest → False :=
        fun l rest heq => hends (.inr (List.cons.inj heq).1)
      have hnil : ∀ l, c :: l = [] → False := fun l heq => by cases heq
      rw [parseConcat.eq_5 _ _ (hnil s) (hbar s) (hclose s)] at h
      rw [List.cons_append, parseConcat.eq_5 _ _ (hnil (s ++ t)) (hbar (s ++ t)) (hclose (s ++ t))]
      obtain ⟨⟨q, rest⟩, hatom, h⟩ := Option.bind_eq_some_iff.1 h
      have hatom' := hlocal.atom hatom
      rw [List.cons_append] at hatom'
      rw [hatom']
      dsimp only [Option.bind_eq_bind, Option.bind_some] at h ⊢
      rw [parsePostfix_append ht le_rfl le_rfl]
      obtain ⟨⟨q', r'⟩, hconcat, h⟩ := Option.bind_eq_some_iff.1 h
      obtain ⟨rfl, rfl⟩ := Prod.mk.inj (Option.some.inj h)
      rw [hlocal.concat hconcat]
      rfl

theorem parseClass_local (h : parseAtom (fuel + 1) ('[' :: s) = some (p, r)) :
    parseAtom (fuel' + 1) ('[' :: s ++ t) = some (p, r ++ t) := by
  cases s with
  | nil => exact absurd h (by simp [parseAtom, parseClass])
  | cons d s =>
    by_cases hnegated : d = '^'
    · subst hnegated
      rw [parseAtom] at h
      obtain ⟨⟨ranges, rest⟩, hranges, h⟩ := Option.bind_eq_some_iff.1 h
      obtain ⟨rfl, rfl⟩ := Prod.mk.inj (Option.some.inj h)
      rw [List.cons_append, List.cons_append, parseAtom,
        parseClass_append t hranges (by simp)]
      rfl
    · have hne : ∀ l rest, d :: l = '^' :: rest → False :=
        fun l rest heq => hnegated (List.cons.inj heq).1
      rw [parseAtom.eq_4 _ _ (hne s)] at h
      rw [List.cons_append, List.cons_append, parseAtom.eq_4 _ _ (hne (s ++ t))]
      obtain ⟨⟨ranges, rest⟩, hranges, h⟩ := Option.bind_eq_some_iff.1 h
      obtain ⟨rfl, rfl⟩ := Prod.mk.inj (Option.some.inj h)
      rw [← List.cons_append, parseClass_append t hranges (by simp)]
      rfl

theorem parseAtom_local (hlocal : Local fuel fuel' t) (h : parseAtom (fuel + 1) s = some (p, r)) :
    parseAtom (fuel' + 1) (s ++ t) = some (p, r ++ t) := by
  cases s with
  | nil => cases h
  | cons c s =>
    by_cases hopen : c = '('
    · subst hopen
      rw [parseAtom] at h
      rw [List.cons_append, parseAtom]
      obtain ⟨⟨q, rest⟩, halternation, h⟩ := Option.bind_eq_some_iff.1 h
      dsimp only at h
      split at h
      · obtain ⟨rfl, rfl⟩ := Prod.mk.inj (Option.some.inj h)
        rw [hlocal.alternation halternation]
        rfl
      · cases h
    by_cases hclass : c = '['
    · subst hclass
      exact parseClass_local h
    by_cases hescape : c = '\\'
    · subst hescape
      rw [parseAtom] at h
      obtain ⟨⟨d, rest⟩, hd, h⟩ := Option.bind_eq_some_iff.1 h
      obtain ⟨rfl, rfl⟩ := Prod.mk.inj (Option.some.inj h)
      rw [List.cons_append, parseAtom, parseEscape_append hd t]
      rfl
    rw [parseAtom] at h
    · obtain ⟨rfl, rfl⟩ := Prod.mk.inj (Option.some.inj h)
      rw [List.cons_append, parseAtom]
      · exact hopen
      · exact fun rest heq => absurd heq hclass
      · exact hclass
      · exact hescape
    · exact hopen
    · exact fun rest heq => absurd heq hclass
    · exact hclass
    · exact hescape

/-- More fuel does no harm, and what follows is left alone. -/
theorem parse_local (ht : ConcatEnds t) : fuel ≤ fuel' → Local fuel fuel' t := by
  induction fuel generalizing fuel' with
  | zero =>
    intro _
    exact ⟨fun h => (by cases h), fun h => (by cases h), fun h => (by cases h)⟩
  | succ fuel ih =>
    intro hfuel
    obtain ⟨fuel', rfl⟩ := Nat.exists_eq_succ_of_ne_zero (show fuel' ≠ 0 by omega)
    have hlocal := ih (show fuel ≤ fuel' by omega)
    exact ⟨parseAlternation_local hlocal, parseConcat_local ht hlocal, parseAtom_local hlocal⟩

end Local

theorem parseAtom_unique {n m : ℕ} {a b : Pattern × List Char} (h : parseAtom n s = some a)
    (h' : parseAtom m s = some b) : a = b := by
  have hn : Local n (max n m) [] := parse_local concatEnds_nil (le_max_left n m)
  have hm : Local m (max n m) [] := parse_local concatEnds_nil (le_max_right n m)
  simpa using (hn.atom h).symm.trans (hm.atom h')

/-! ### The syntax -/

/-- A piece starts here: not the end of a concatenation, and no group with flags. -/
def opensPiece : List Char → Bool
  | [] => false
  | c :: rest => c ≠ '|' && c ≠ ')' && !(c = '(' && rest.head? = some '?')

/-- The language of a piece of a text, and the rest of the text. -/
def piece (s : List Char) : Option (Language UInt8 × List Char) :=
  if opensPiece s then
    (parseAtom (3 * s.length + 3) s).map fun atom => (atom.1.byteLanguage, atom.2)
  else none

/-- What the operator at the beginning of a text does, and the rest of the text. -/
def operator : List Char → Option ((Language UInt8 → Language UInt8) × List Char)
  | '*' :: rest => some (fun L => KStar.kstar L, rest)
  | '+' :: rest => some (fun L => L * KStar.kstar L, rest)
  | '?' :: rest => some (fun L => L + 1, rest)
  | _ => none

theorem opensPiece_ends (h : ConcatEnds s) : opensPiece s = false := by
  cases s with
  | nil => rfl
  | cons c s => rcases h c rfl with rfl | rfl <;> rfl

theorem opensPiece_append (h : opensPiece s = true) (ht : ConcatEnds t) :
    opensPiece (s ++ t) = true := by
  cases s with
  | nil => cases h
  | cons c s =>
    cases s with
    | nil =>
      have hflags : t.head? ≠ some '?' := by
        intro hhead
        rcases ht '?' hhead with hc | hc <;> cases hc
      simp only [opensPiece, List.singleton_append, hflags] at h ⊢
      simpa using h
    | cons d s => exact h

theorem piece_eq_some {L : Language UInt8} : piece s = some (L, r) ↔
    opensPiece s = true ∧ ∃ p, parseAtom (3 * s.length + 3) s = some (p, r) ∧
      p.byteLanguage = L := by
  unfold piece
  split
  · next hopens =>
    rw [Option.map_eq_some_iff]
    constructor
    · rintro ⟨⟨p, r⟩, hatom, h⟩
      obtain ⟨rfl, rfl⟩ := Prod.mk.inj h
      exact ⟨hopens, p, hatom, rfl⟩
    · rintro ⟨-, p, hatom, rfl⟩
      exact ⟨(p, r), hatom, rfl⟩
  · next hopens => simp [hopens]

theorem piece_append {L : Language UInt8} (h : piece s = some (L, r)) (t : List Char)
    (ht : ConcatEnds t) : piece (s ++ t) = some (L, r ++ t) := by
  obtain ⟨hopens, p, hatom, rfl⟩ := piece_eq_some.1 h
  refine piece_eq_some.2 ⟨opensPiece_append hopens ht, p, ?_, rfl⟩
  rw [List.length_append]
  exact (parse_local ht (by omega)).atom hatom

theorem operator_plain (h : ∀ c ∈ s.head?, c ∉ ['*', '+', '?']) : operator s = none := by
  cases s with
  | nil => rfl
  | cons c s =>
    have hc := h c rfl
    simp only [List.mem_cons, List.not_mem_nil, or_false, not_or] at hc
    rw [operator]
    · exact fun rest heq => hc.1 (List.cons.inj heq).1
    · exact fun rest heq => hc.2.1 (List.cons.inj heq).1
    · exact fun rest heq => hc.2.2 (List.cons.inj heq).1

theorem operator_append {f : Language UInt8 → Language UInt8} (h : operator s = some (f, r))
    (t : List Char) : operator (s ++ t) = some (f, r ++ t) := by
  unfold operator at h
  split at h
  · cases h
    rfl
  · cases h
    rfl
  · cases h
    rfl
  · cases h

theorem operator_none_append (h : operator s = none) (ht : ConcatEnds t) :
    operator (s ++ t) = none := by
  cases s with
  | nil => exact operator_plain (plain_of_concatEnds ht)
  | cons c s =>
    refine operator_plain fun d hd => ?_
    obtain rfl := Option.some.inj hd
    intro hmem
    simp only [List.mem_cons, List.not_mem_nil, or_false] at hmem
    rcases hmem with rfl | rfl | rfl <;> cases h

end Pattern

/-- The syntax of regular expressions that the patterns are written in. -/
def patternSyntax : RegexSyntax UInt8 where
  piece := Pattern.piece
  operator := Pattern.operator
  piece_ends := fun h => by rw [Pattern.piece, Pattern.opensPiece_ends h]; rfl
  piece_group := fun _ => rfl
  piece_append := Pattern.piece_append
  operator_ends := fun h => Pattern.operator_plain (Pattern.plain_of_concatEnds h)
  operator_group := fun _ => rfl
  operator_append := fun h t _ => Pattern.operator_append h t
  operator_none_append := fun h _ ht => Pattern.operator_none_append h ht
  operator_star := fun _ => rfl

namespace Pattern

variable {s r t : List Char}

/-- The operators behind a piece. -/
theorem reads_operators {fuel : ℕ} : ∀ {s : List Char} {p : Pattern}, s.length ≤ fuel →
    Reads patternSyntax (.operators p.byteLanguage) s (parsePostfix fuel p s).1.byteLanguage
      (parsePostfix fuel p s).2 := by
  induction fuel with
  | zero =>
    intro s p hs
    obtain rfl := List.length_eq_zero_iff.1 (Nat.le_zero.1 hs)
    exact .bare rfl
  | succ fuel ih =>
    intro s p hs
    cases s with
    | nil => exact .bare rfl
    | cons c s =>
      have hle : s.length ≤ fuel := Nat.le_of_succ_le_succ hs
      by_cases hstar : c = '*'
      · subst hstar
        exact .apply rfl (byteLanguage_star p ▸ ih hle)
      by_cases hplus : c = '+'
      · subst hplus
        have hplus : (plus p).byteLanguage = p.byteLanguage * KStar.kstar p.byteLanguage := by
          rw [plus, byteLanguage_concat, byteLanguage_star]
        exact .apply rfl (hplus ▸ ih hle)
      by_cases hquestion : c = '?'
      · subst hquestion
        have hoptional : (optional p).byteLanguage = p.byteLanguage + 1 := by
          rw [optional, byteLanguage_alternate, byteLanguage_empty]
        exact .apply rfl (hoptional ▸ ih hle)
      have hplain : ∀ d ∈ (c :: s).head?, d ∉ ['*', '+', '?'] := by
        simp [hstar, hplus, hquestion]
      rw [parsePostfix_plain _ hplain]
      exact .bare (operator_plain hplain)

/-- The pieces of a concatenation start as pieces, up to the end of the text. -/
def opensPieces : ℕ → List Char → Bool
  | 0, _ => false
  | _ + 1, [] => true
  | fuel + 1, c :: s => opensPiece (c :: s) &&
    match parseAtom (3 * (c :: s).length + 3) (c :: s) with
    | some (p, rest) => opensPieces fuel (parsePostfix rest.length p rest).2
    | none => false

theorem mul_byteLanguage_eq {p q : Pattern} :
    p.byteLanguage * q.byteLanguage = (if q = .empty then p else .concat p q).byteLanguage := by
  split
  · next hq => rw [hq, byteLanguage_empty, mul_one]
  · exact (byteLanguage_concat p q).symm

/-- A concatenation denotes what its pattern matches. -/
theorem reads_concat {n : ℕ} : ∀ {fuel : ℕ} {s : List Char} {p : Pattern},
    parseConcat fuel s = some (p, []) → opensPieces n s = true →
    Reads patternSyntax .concatenation s p.byteLanguage [] := by
  induction n with
  | zero => exact fun _ hopens => by cases hopens
  | succ n ih =>
    intro fuel s p h hopens
    cases fuel with
    | zero => cases h
    | succ fuel =>
      cases s with
      | nil =>
        obtain rfl := (Prod.mk.inj (Option.some.inj h)).1
        rw [byteLanguage_empty]
        exact .done concatEnds_nil
      | cons c s =>
        obtain ⟨hpiece, hrest⟩ := Bool.and_eq_true_iff.1 hopens
        have hends : ∀ d, d = '|' ∨ d = ')' → c ≠ d := by
          rintro d hd rfl
          have hstop : ConcatEnds (c :: s) := by
            intro e he
            obtain rfl := Option.some.inj he
            exact hd
          rw [opensPiece_ends hstop] at hpiece
          cases hpiece
        rw [parseConcat.eq_5 _ _ (fun heq => by cases heq)
          (fun rest heq => hends _ (.inl rfl) (List.cons.inj heq).1)
          (fun rest heq => hends _ (.inr rfl) (List.cons.inj heq).1)] at h
        obtain ⟨⟨q, rest⟩, hatom, h⟩ := Option.bind_eq_some_iff.1 h
        obtain ⟨⟨q', rest'⟩, hconcat, h⟩ := Option.bind_eq_some_iff.1 h
        obtain ⟨rfl, rfl⟩ := Prod.mk.inj (Option.some.inj h)
        cases hfull : parseAtom (3 * (c :: s).length + 3) (c :: s) with
        | none =>
          rw [hfull] at hrest
          cases hrest
        | some found =>
          obtain rfl := parseAtom_unique hfull hatom
          rw [hfull] at hrest
          rw [← mul_byteLanguage_eq]
          exact .next (.piece (piece_eq_some.2 ⟨hpiece, q, hfull, rfl⟩) (reads_operators le_rfl))
            (ih hconcat hrest)

/-- **A text denotes what its pattern matches.** -/
theorem regexDenotes_of_parseConcat (fuel n : ℕ) {text : String} {p : Pattern}
    (h : parseConcat fuel text.toList = some (p, [])) (hopens : opensPieces n text.toList = true)
    (hlanguage : patternLanguage text = p.byteLanguage) :
    RegexDenotes patternSyntax text.toList (patternLanguage text) :=
  hlanguage ▸ .last (reads_concat h hopens) (by simp)

/-! ### Escaped texts -/

theorem opensPiece_escapeChars (c : Char) (l : List Char) :
    opensPiece (escapeChars (c :: l)) = true := by
  rw [escapeChars, List.flatMap_cons]
  by_cases hc : c ∈ metaCharacters
  · rw [if_pos hc]
    simp [opensPiece]
  · have hne : ∀ d ∈ metaCharacters, c ≠ d := fun d hd heq => hc (heq ▸ hd)
    rw [if_neg hc]
    simp [opensPiece, hne '|' (by decide), hne ')' (by decide), hne '(' (by decide)]

theorem opensPieces_succ {fuel : ℕ} {p : Pattern} (hpiece : opensPiece s = true)
    (hatom : parseAtom (3 * s.length + 3) s = some (p, r)) :
    opensPieces (fuel + 1) s = opensPieces fuel (parsePostfix r.length p r).2 := by
  cases s with
  | nil => cases hpiece
  | cons c s => rw [opensPieces, hpiece, hatom, Bool.true_and]

theorem opensPieces_escapeChars (l : List Char) :
    ∀ {n : ℕ}, l.length < n → opensPieces n (escapeChars l) = true := by
  induction l with
  | nil =>
    intro n hn
    obtain ⟨n, rfl⟩ := Nat.exists_eq_succ_of_ne_zero hn.ne'
    rfl
  | cons c l ih =>
    intro n hn
    obtain ⟨n, rfl⟩ := Nat.exists_eq_succ_of_ne_zero (Nat.ne_zero_of_lt hn)
    rw [opensPieces_succ (opensPiece_escapeChars c l) (parseAtom_escapeChars (by omega) c l),
      parsePostfix_escapeChars]
    exact ih (Nat.lt_of_succ_lt_succ hn)

/-- **An escaped text denotes itself alone.** -/
theorem regexDenotes_escape (text : String) :
    RegexDenotes patternSyntax (escape text).toList (patternLanguage (escape text)) := by
  have hlanguage := patternLanguage_eq (parse_escape text)
  rw [escape] at hlanguage ⊢
  refine regexDenotes_of_parseConcat (text.toList.length + 2)
    (text.toList.length + 1) ?_ ?_ hlanguage
  · rw [String.toList_ofList]
    exact parseConcat_escapeChars _ le_rfl
  · rw [String.toList_ofList]
    exact opensPieces_escapeChars _ (Nat.lt_succ_self _)

end Pattern

end OcEarley
