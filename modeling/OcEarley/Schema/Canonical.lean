import OcEarley.Schema.Json
import OcEarley.Schema.NumberExact

/-!
# Canonical values decide equality

Compact texts are written one after the other without any framing.  They can still be taken apart:
a string ends at the first quote that is not escaped, a number ends before a delimiter, and arrays
and objects end with their brackets.  So values that are written in the same way are the same in
the data model, and conversely (`canonicalValue_eq_iff`).
-/

namespace OcEarley

/-! ### Strings -/

/-- The value of a lower-case hexadecimal digit. -/
def hexValue (c : Char) : ℕ := if c.toNat < 58 then c.toNat - 48 else c.toNat - 87

/-- The character after a backslash, with a letter of a short escape. -/
def shortEscape (e : Char) : Char :=
  if e = 'b' then Char.ofNat 0x08
  else if e = 'f' then Char.ofNat 0x0C
  else if e = 'n' then Char.ofNat 0x0A
  else if e = 'r' then Char.ofNat 0x0D
  else if e = 't' then Char.ofNat 0x09
  else e

/-- Reads a character of a string and how it is escaped. -/
def readPiece : List Char → Option (Char × List Char)
  | [] => none
  | c :: l =>
    if c = '\\' then
      match l with
      | [] => none
      | e :: l =>
        if e = 'u' then
          match l with
          | _ :: _ :: high :: low :: l => some (Char.ofNat (16 * hexValue high + hexValue low), l)
          | _ => none
        else some (shortEscape e, l)
    else some (c, l)

theorem hexValue_hexDigit {n : ℕ} (h : n < 16) : hexValue (hexDigit n) = n := by
  revert n
  decide

theorem eq_ofNat {c : Char} {n : ℕ} (h : c.toNat = n) : c = Char.ofNat n := by
  rw [← h, Char.ofNat_toNat]

/-- A character is read back. -/
theorem readPiece_escapeChar (c : Char) (l : List Char) :
    readPiece (escapeChar c ++ l) = some (c, l) := by
  unfold escapeChar
  split_ifs with hquote hback hb hf hn hr ht hlow
  · subst hquote
    rfl
  · subst hback
    rfl
  · obtain rfl := eq_ofNat hb
    rfl
  · obtain rfl := eq_ofNat hf
    rfl
  · obtain rfl := eq_ofNat hn
    rfl
  · obtain rfl := eq_ofNat hr
    rfl
  · obtain rfl := eq_ofNat ht
    rfl
  · have hhigh : hexValue (hexDigit (c.toNat / 16)) = c.toNat / 16 := hexValue_hexDigit (by omega)
    have hlow : hexValue (hexDigit (c.toNat % 16)) = c.toNat % 16 := hexValue_hexDigit (by omega)
    have hvalue : 16 * (c.toNat / 16) + c.toNat % 16 = c.toNat := Nat.div_add_mod _ _
    have hread : readPiece
        (['\\', 'u', '0', '0', hexDigit (c.toNat / 16), hexDigit (c.toNat % 16)] ++ l) =
          some (Char.ofNat (16 * hexValue (hexDigit (c.toNat / 16)) +
            hexValue (hexDigit (c.toNat % 16))), l) := rfl
    rw [hread, hhigh, hlow, hvalue, Char.ofNat_toNat]
  · exact if_neg hback

theorem escapeChar_ne_quote (c : Char) (l r : List Char) : escapeChar c ++ l ≠ '"' :: r := by
  intro h
  have hread := readPiece_escapeChar c l
  rw [h] at hread
  obtain ⟨rfl, -⟩ := Prod.mk.inj (Option.some.inj hread)
  exact absurd (List.cons.inj h).1 (by decide)

/-- The characters of a string can be told from its text. -/
theorem flatMap_escapeChar_injective {s s' r r' : List Char}
    (h : s.flatMap escapeChar ++ '"' :: r = s'.flatMap escapeChar ++ '"' :: r') :
    s = s' ∧ r = r' := by
  induction s generalizing s' with
  | nil =>
    cases s' with
    | nil => exact ⟨rfl, (List.cons.inj h).2⟩
    | cons c s' =>
      rw [List.flatMap_cons, List.append_assoc] at h
      exact absurd h.symm (escapeChar_ne_quote c _ _)
  | cons c s ih =>
    rw [List.flatMap_cons, List.append_assoc] at h
    cases s' with
    | nil => exact absurd h (escapeChar_ne_quote c _ _)
    | cons c' s' =>
      rw [List.flatMap_cons, List.append_assoc] at h
      have hread := readPiece_escapeChar c (s.flatMap escapeChar ++ '"' :: r)
      rw [h, readPiece_escapeChar] at hread
      obtain ⟨rfl, hrest⟩ := Prod.mk.inj (Option.some.inj hread)
      obtain ⟨rfl, hr⟩ := ih hrest.symm
      exact ⟨rfl, hr⟩

/-- The text of a string shows where it ends. -/
theorem jsonString_injective {s s' : String} {r r' : List Char}
    (h : (jsonString s).toList ++ r = (jsonString s').toList ++ r') : s = s' ∧ r = r' := by
  have htext : ∀ s : String, (jsonString s).toList = '"' :: s.toList.flatMap escapeChar ++ ['"'] :=
    fun _ => String.toList_ofList
  rw [htext, htext] at h
  simp only [List.cons_append, List.append_assoc, List.nil_append, List.cons.injEq, true_and] at h
  obtain ⟨hs, hr⟩ := flatMap_escapeChar_injective h
  exact ⟨String.toList_inj.1 hs, hr⟩

/-! ### Delimiters -/

/-- A character that comes after a value inside an array or an object. -/
def IsDelimiter (c : Char) : Prop := c = ',' ∨ c = ']' ∨ c = '\x7d'

/-- Nothing comes, or a delimiter. -/
def Ends (r : List Char) : Prop := ∀ c l, r = c :: l → IsDelimiter c

theorem ends_nil : Ends [] := nofun

theorem ends_cons {c : Char} {l : List Char} (h : IsDelimiter c) : Ends (c :: l) := by
  rintro _ _ heq
  exact (List.cons.inj heq).1 ▸ h

/-- A text without delimiters ends where the first one comes. -/
theorem append_injective_of_ends {s s' r r' : List Char} (hs : ∀ c ∈ s, ¬IsDelimiter c)
    (hs' : ∀ c ∈ s', ¬IsDelimiter c) (hr : Ends r) (hr' : Ends r') (h : s ++ r = s' ++ r') :
    s = s' ∧ r = r' := by
  induction s generalizing s' with
  | nil =>
    cases s' with
    | nil => exact ⟨rfl, h⟩
    | cons c s' => exact absurd (hr c (s' ++ r') h) (hs' c List.mem_cons_self)
  | cons c s ih =>
    cases s' with
    | nil => exact absurd (hr' c (s ++ r) h.symm) (hs c List.mem_cons_self)
    | cons c' s' =>
      obtain ⟨rfl, htail⟩ := List.cons.inj h
      obtain ⟨rfl, hrest⟩ := ih (fun d hd => hs d (List.mem_cons_of_mem _ hd))
        (fun d hd => hs' d (List.mem_cons_of_mem _ hd)) htail
      exact ⟨rfl, hrest⟩

/-! ### Elements between brackets -/

section Joined

variable {α β : Type} {W : α → List Char → Prop} {d : α → β} {l l' : List α}
  {ts ts' : List (List Char)} {r r' : List Char} {close : Char}

/-- The texts of `W` start with no delimiter. -/
def StartsInside (W : α → List Char → Prop) : Prop :=
  ∀ a s, W a s → ∃ c l, s = c :: l ∧ ¬IsDelimiter c

/-- Texts that end before a delimiter belong to elements with the same data. -/
def Separates (W : α → List Char → Prop) (d : α → β) (a : α) : Prop :=
  ∀ b s s' r r', W a s → W b s' → Ends r → Ends r' → s ++ r = s' ++ r' → d a = d b ∧ r = r'

theorem joinComma_cons (t : List Char) (ts : List (List Char)) (r : List Char) :
    joinComma (t :: ts) ++ r = t ++ if ts = [] then r else ',' :: (joinComma ts ++ r) := by
  unfold joinComma
  cases ts with
  | nil => simp
  | cons t' ts => simp [List.intercalate_cons_cons]

theorem joinComma_ne_close (hstart : StartsInside W) (hclose : IsDelimiter close) {a : α}
    {t : List Char} (ht : W a t) : joinComma (t :: ts) ++ r ≠ close :: r' := by
  obtain ⟨c, u, rfl, hc⟩ := hstart a t ht
  rw [joinComma_cons, List.cons_append]
  intro h
  exact hc ((List.cons.inj h).1 ▸ hclose)

/-- Elements between brackets can be told apart. -/
theorem joinComma_injective (hstart : StartsInside W) (hclose : IsDelimiter close)
    (hcomma : close ≠ ',') (hsep : ∀ a ∈ l, Separates W d a) (hts : List.Forall₂ W l ts)
    (hts' : List.Forall₂ W l' ts')
    (h : joinComma ts ++ close :: r = joinComma ts' ++ close :: r') :
    l.map d = l'.map d ∧ r = r' := by
  have hend : ∀ (ts : List (List Char)) (r : List Char),
      Ends (if ts = [] then close :: r else ',' :: (joinComma ts ++ close :: r)) := by
    intro ts r
    split
    · exact ends_cons hclose
    · exact ends_cons (.inl rfl)
  induction hts generalizing l' ts' with
  | nil =>
    cases hts' with
    | nil => exact ⟨rfl, (List.cons.inj h).2⟩
    | cons hb _ => exact absurd h.symm (joinComma_ne_close hstart hclose hb)
  | @cons a t l ts ha hts ih =>
    cases hts' with
    | nil => exact absurd h (joinComma_ne_close hstart hclose ha)
    | @cons b t' l' ts' hb hts' =>
      rw [joinComma_cons, joinComma_cons] at h
      obtain ⟨hdata, hrest⟩ := hsep a List.mem_cons_self b t t' _ _ ha hb (hend _ _) (hend _ _) h
      have hsep' : ∀ a ∈ l, Separates W d a := fun a ha => hsep a (List.mem_cons_of_mem _ ha)
      have hnil : ∀ {l : List α} {ts : List (List Char)}, List.Forall₂ W l ts →
          ts = [] → l = [] := by
        rintro _ _ hts rfl
        exact List.forall₂_nil_right_iff.1 hts
      by_cases hl : ts = [] <;> by_cases hl' : ts' = []
      · rw [if_pos hl, if_pos hl'] at hrest
        rw [hnil hts hl, hnil hts' hl', List.map_cons, hdata]
        exact ⟨rfl, (List.cons.inj hrest).2⟩
      · rw [if_pos hl, if_neg hl'] at hrest
        exact absurd (List.cons.inj hrest).1 hcomma
      · rw [if_neg hl, if_pos hl'] at hrest
        exact absurd (List.cons.inj hrest).1.symm hcomma
      · rw [if_neg hl, if_neg hl'] at hrest
        obtain ⟨hmap, hr⟩ := ih hsep' hts' (List.cons.inj hrest).2
        rw [List.map_cons, List.map_cons, hdata, hmap]
        exact ⟨rfl, hr⟩

/-- Elements with the same data are written in the same way. -/
theorem forall₂_determined (hdet : ∀ a ∈ l, ∀ b s s', W a s → W b s' → d a = d b → s = s')
    (hts : List.Forall₂ W l ts) (hts' : List.Forall₂ W l' ts') (h : l.map d = l'.map d) :
    ts = ts' := by
  induction hts generalizing l' ts' with
  | nil =>
    cases hts' with
    | nil => rfl
    | cons => cases h
  | @cons a t l ts ha hts ih =>
    cases hts' with
    | nil => cases h
    | @cons b t' l' ts' hb hts' =>
      obtain ⟨hhead, htail⟩ := List.cons.inj h
      rw [hdet a List.mem_cons_self b t t' ha hb hhead,
        ih (fun a ha => hdet a (List.mem_cons_of_mem _ ha)) hts' htail]

end Joined

/-! ### Values -/

namespace JsonValue

/-- A character that the text of a value of some type starts with. -/
def kindOfChar (c : Char) : ℕ :=
  if c = 'n' then 0
  else if c = 't' ∨ c = 'f' then 1
  else if c = '"' then 2
  else if c = '[' then 3
  else if c = '\x7b' then 4
  else 5

/-- A number for each kind of value. -/
def kind : JsonValue → ℕ
  | .null => 0
  | .bool _ => 1
  | .string _ => 2
  | .array _ => 3
  | .object _ => 4
  | .number _ => 5

end JsonValue

/-- What the text of a number consists of. -/
theorem NumberLiteral.mem_text {n : NumberLiteral} {c : Char} (hc : c ∈ n.text) :
    c.isDigit = true ∨ c ∈ ['-', '+', '.', 'e', 'E'] := by
  have htext : n.text = n.signText ++ n.integer ++ n.fractionText ++ n.exponentText := rfl
  rw [htext] at hc
  simp only [List.mem_append] at hc
  rcases hc with ((hc | hc) | hc) | hc
  · unfold signText at hc
    split at hc
    · rw [List.mem_singleton.1 hc]
      exact .inr (by decide)
    · cases hc
  · exact .inl (n.integer_digits.2 c hc)
  · unfold fractionText at hc
    split at hc
    · next f hf =>
      rcases List.mem_cons.1 hc with rfl | hc
      · exact .inr (by decide)
      · exact .inl ((n.fraction_digits f hf).2 c hc)
    · cases hc
  · unfold exponentText at hc
    split at hc
    · next e sign ds hexp =>
      obtain ⟨he, hsign, -, hdigit⟩ := n.exponent_form e sign ds hexp
      rcases List.mem_cons.1 hc with rfl | hc
      · rcases he with rfl | rfl <;> exact .inr (by decide)
      · rcases List.mem_append.1 hc with hc | hc
        · cases sign with
          | none => cases hc
          | some c' =>
            obtain rfl := List.mem_singleton.1 hc
            rcases hsign c rfl with rfl | rfl <;> exact .inr (by decide)
        · exact .inl (hdigit c hc)
    · cases hc

/-- The first character of a number is a minus sign or a digit. -/
theorem NumberLiteral.text_head (n : NumberLiteral) :
    ∃ c l, n.text = c :: l ∧ (c = '-' ∨ c.isDigit = true) := by
  obtain ⟨c, l, hc⟩ := List.exists_cons_of_ne_nil n.integer_digits.1
  have hdigit : c.isDigit = true := n.integer_digits.2 c (hc ▸ List.mem_cons_self)
  have htext : n.text = n.signText ++ n.integer ++ n.fractionText ++ n.exponentText := rfl
  rw [htext, signText, hc]
  cases n.negative with
  | true => exact ⟨_, _, rfl, .inl rfl⟩
  | false => exact ⟨_, _, rfl, .inr hdigit⟩

theorem not_isDelimiter_of_number {c : Char}
    (hc : c.isDigit = true ∨ c ∈ ['-', '+', '.', 'e', 'E']) : ¬IsDelimiter c := by
  rintro (rfl | rfl | rfl) <;> revert hc <;> decide

open JsonValue in
/-- The first character shows the type of the value. -/
theorem writeCanonical_head {v : JsonValue} {s : List Char} (h : writeCanonical v = .ok s) :
    ∃ c l, s = c :: l ∧ ¬IsDelimiter c ∧ kindOfChar c = v.kind := by
  have hinside : ∀ {c : Char}, ¬(c = ',' ∨ c = ']' ∨ c = '\x7d') → ¬IsDelimiter c := id
  cases v with
  | null =>
    obtain rfl := Result.pure_eq_ok.1 h
    exact ⟨_, _, rfl, hinside (by decide), rfl⟩
  | bool b =>
    obtain rfl := Result.pure_eq_ok.1 h
    cases b
    · exact ⟨_, _, rfl, hinside (by decide), rfl⟩
    · exact ⟨_, _, rfl, hinside (by decide), rfl⟩
  | number n =>
    obtain ⟨m, rfl, -, -⟩ := canonicalNumber_literal h
    obtain ⟨c, l, hc, hfirst⟩ := m.text_head
    refine ⟨c, l, hc, not_isDelimiter_of_number
      (NumberLiteral.mem_text (hc ▸ List.mem_cons_self)), ?_⟩
    unfold kindOfChar
    rcases hfirst with rfl | hdigit
    · rfl
    · have hne : ∀ d : Char, d.isDigit = false → c ≠ d := fun d hd => ne_of_isDigit hdigit hd
      rw [if_neg (hne _ rfl), if_neg (not_or.2 ⟨hne _ rfl, hne _ rfl⟩), if_neg (hne _ rfl),
        if_neg (hne _ rfl), if_neg (hne _ rfl)]
      rfl
  | string s =>
    obtain rfl := Result.pure_eq_ok.1 h
    have htext : (jsonString s).toList = '"' :: s.toList.flatMap escapeChar ++ ['"'] :=
      String.toList_ofList
    exact ⟨'"', _, htext, hinside (by decide), rfl⟩
  | array elements =>
    obtain ⟨texts, -, h⟩ := Result.bind_eq_ok.1 h
    obtain rfl := Result.pure_eq_ok.1 h
    exact ⟨_, _, rfl, hinside (by decide), rfl⟩
  | object members =>
    obtain ⟨texts, -, h⟩ := Result.bind_eq_ok.1 h
    obtain rfl := Result.pure_eq_ok.1 h
    exact ⟨_, _, rfl, hinside (by decide), rfl⟩

/-- `s` is what is written for the value. -/
def Writes (v : JsonValue) (s : List Char) : Prop := writeCanonical v = .ok s

/-- `s` is what is written for the member. -/
def WritesMember (m : String × JsonValue) (s : List Char) : Prop :=
  ∃ text, Writes m.2 text ∧ s = (jsonString m.1).toList ++ ':' :: text

/-- The member of an object with its value's data. -/
def memberEntry (m : String × JsonValue) : String × JsonData := (m.1, m.2.data)

theorem forall₂_of_mapM {α β : Type} {f : α → Except CompileError β} {l : List α} {r : List β}
    (h : l.mapM f = .ok r) : List.Forall₂ (fun a b => f a = .ok b) l r := by
  refine Result.wp_ok (E := fun _ => True) (Result.wp_mapM fun a _ => ?_) h
  cases f a with
  | ok b => exact rfl
  | error e => trivial

theorem writes_array {elements : List JsonValue} {s : List Char} (h : Writes (.array elements) s) :
    ∃ texts, List.Forall₂ Writes elements texts ∧ s = '[' :: joinComma texts ++ [']'] := by
  obtain ⟨texts, htexts, h⟩ := Result.bind_eq_ok.1 h
  obtain rfl := Result.pure_eq_ok.1 h
  have hall := forall₂_of_mapM htexts
  rw [writeElements_eq, List.forall₂_map_left_iff] at hall
  exact ⟨texts, hall, rfl⟩

theorem writes_object {members : List (String × JsonValue)} {s : List Char}
    (h : Writes (.object members) s) :
    ∃ texts, List.Forall₂ WritesMember (sortByKey (fun m => m.1) members) texts ∧
      s = '\x7b' :: joinComma texts ++ ['\x7d'] := by
  obtain ⟨texts, htexts, h⟩ := Result.bind_eq_ok.1 h
  obtain rfl := Result.pure_eq_ok.1 h
  have hall := forall₂_of_mapM htexts
  have hkey : ∀ m : String × JsonValue, (m.1, writeCanonical m.2).1 = m.1 := fun _ => rfl
  rw [writeMembers_eq, sortByKey_map hkey, List.forall₂_map_left_iff] at hall
  refine ⟨texts, hall.imp fun m s hs => ?_, rfl⟩
  obtain ⟨text, htext, hs⟩ := Result.bind_eq_ok.1 hs
  exact ⟨text, htext, (Result.pure_eq_ok.1 hs).symm⟩

theorem data_object (members : List (String × JsonValue)) :
    (JsonValue.object members).data =
      .object ((sortByKey (fun m => m.1) members).map memberEntry) := by
  have hkey : ∀ m : String × JsonValue, (memberEntry m).1 = m.1 := fun _ => rfl
  rw [JsonValue.data, JsonValue.memberData_eq, ← sortByKey_map hkey]
  rfl

theorem startsInside_writes : StartsInside Writes := by
  intro v s h
  obtain ⟨c, l, hs, hc, -⟩ := writeCanonical_head h
  exact ⟨c, l, hs, hc⟩

theorem startsInside_writesMember : StartsInside WritesMember := by
  rintro m _ ⟨text, -, rfl⟩
  have htext : (jsonString m.1).toList = '"' :: m.1.toList.flatMap escapeChar ++ ['"'] :=
    String.toList_ofList
  rw [htext]
  exact ⟨'"', _, rfl, by rintro (h | h | h) <;> revert h <;> decide⟩

theorem kind_eq_of_writes {v w : JsonValue} {s s' r r' : List Char} (hs : Writes v s)
    (hs' : Writes w s') (h : s ++ r = s' ++ r') : v.kind = w.kind := by
  obtain ⟨c, l, rfl, -, hkind⟩ := writeCanonical_head hs
  obtain ⟨c', l', rfl, -, hkind'⟩ := writeCanonical_head hs'
  rw [← hkind, ← hkind', (List.cons.inj h).1]

theorem isDelimiter_bracket : IsDelimiter ']' := .inr (.inl rfl)

theorem isDelimiter_brace : IsDelimiter '\x7d' := .inr (.inr rfl)

/-- A member is separated if its value is. -/
theorem separates_member {m : String × JsonValue} (h : Separates Writes JsonValue.data m.2) :
    Separates WritesMember memberEntry m := by
  rintro m' _ _ r r' ⟨text, htext, rfl⟩ ⟨text', htext', rfl⟩ hr hr' heq
  simp only [List.append_assoc, List.cons_append] at heq
  obtain ⟨hkey, hrest⟩ := jsonString_injective heq
  obtain ⟨hdata, htail⟩ := h m'.2 text text' r r' htext htext' hr hr' (List.cons.inj hrest).2
  exact ⟨Prod.ext hkey hdata, htail⟩

/-- The text of a value shows the value and where it ends. -/
theorem separates_writes (v : JsonValue) : Separates Writes JsonValue.data v := by
  -- The first character tells the kind of a value, so both texts are of one kind.
  induction v using JsonValue.ind with
  | null =>
    intro w s s' r r' hs hs' hr hr' h
    have hkind := kind_eq_of_writes hs hs' h
    cases w with
    | null =>
      obtain rfl := Result.pure_eq_ok.1 hs
      obtain rfl := Result.pure_eq_ok.1 hs'
      exact ⟨rfl, List.append_cancel_left h⟩
    | _ => simp [JsonValue.kind] at hkind
  | bool b =>
    intro w s s' r r' hs hs' hr hr' h
    have hkind := kind_eq_of_writes hs hs' h
    cases w with
    | bool b' =>
      obtain rfl := Result.pure_eq_ok.1 hs
      obtain rfl := Result.pure_eq_ok.1 hs'
      cases b <;> cases b'
      · exact ⟨rfl, List.append_cancel_left h⟩
      · exact absurd (List.cons.inj h).1 (by decide)
      · exact absurd (List.cons.inj h).1 (by decide)
      · exact ⟨rfl, List.append_cancel_left h⟩
    | _ => simp [JsonValue.kind] at hkind
  | number n =>
    intro w s s' r r' hs hs' hr hr' h
    have hkind := kind_eq_of_writes hs hs' h
    cases w with
    | number m =>
      -- a number has no end mark of its own: the rest must begin with a delimiter
      have hinside : ∀ {n : NumberLiteral} {s : List Char}, Writes (.number n) s →
          ∀ c ∈ s, ¬IsDelimiter c := by
        intro n s hs c hc
        obtain ⟨k, rfl, -, -⟩ := canonicalNumber_literal hs
        exact not_isDelimiter_of_number (NumberLiteral.mem_text hc)
      obtain ⟨rfl, hrest⟩ := append_injective_of_ends (hinside hs) (hinside hs') hr hr' h
      exact ⟨congrArg JsonData.number (canonicalNumber_injective hs hs'), hrest⟩
    | _ => simp [JsonValue.kind] at hkind
  | string text =>
    intro w s s' r r' hs hs' hr hr' h
    have hkind := kind_eq_of_writes hs hs' h
    cases w with
    | string text' =>
      obtain rfl := Result.pure_eq_ok.1 hs
      obtain rfl := Result.pure_eq_ok.1 hs'
      obtain ⟨rfl, hrest⟩ := jsonString_injective h
      exact ⟨rfl, hrest⟩
    | _ => simp [JsonValue.kind] at hkind
  | array elements ih =>
    intro w s s' r r' hs hs' hr hr' h
    have hkind := kind_eq_of_writes hs hs' h
    cases w with
    | array elements' =>
      obtain ⟨texts, htexts, rfl⟩ := writes_array hs
      obtain ⟨texts', htexts', rfl⟩ := writes_array hs'
      simp only [List.append_assoc, List.cons_append, List.nil_append] at h
      obtain ⟨hdata, hrest⟩ := joinComma_injective startsInside_writes isDelimiter_bracket
        (by decide) ih htexts htexts' (List.cons.inj h).2
      refine ⟨?_, hrest⟩
      rw [JsonValue.data, JsonValue.data, JsonValue.elementData_eq, JsonValue.elementData_eq, hdata]
    | _ => simp [JsonValue.kind] at hkind
  | object members ih =>
    intro w s s' r r' hs hs' hr hr' h
    have hkind := kind_eq_of_writes hs hs' h
    cases w with
    | object members' =>
      obtain ⟨texts, htexts, rfl⟩ := writes_object hs
      obtain ⟨texts', htexts', rfl⟩ := writes_object hs'
      simp only [List.append_assoc, List.cons_append, List.nil_append] at h
      -- members are written in the order of their names
      have hsep : ∀ m ∈ sortByKey (fun m => m.1) members, Separates WritesMember memberEntry m :=
        fun m hm => separates_member (ih m (mem_sortByKey.1 hm))
      obtain ⟨hdata, hrest⟩ := joinComma_injective startsInside_writesMember isDelimiter_brace
        (by decide) hsep htexts htexts' (List.cons.inj h).2
      refine ⟨?_, hrest⟩
      rw [data_object, data_object, hdata]
    | _ => simp [JsonValue.kind] at hkind

/-- What is written for a value depends on the data only. -/
theorem writes_of_data {v w : JsonValue} {s s' : List Char} (hs : Writes v s) (hs' : Writes w s')
    (h : v.data = w.data) : s = s' := by
  induction v using JsonValue.ind generalizing w s s' with
  | null =>
    cases w with
    | null => exact Except.ok.inj (hs.symm.trans hs')
    | _ => simp [JsonValue.data] at h
  | bool b =>
    cases w with
    | bool b' =>
      obtain rfl : b = b' := by simpa [JsonValue.data] using h
      exact Except.ok.inj (hs.symm.trans hs')
    | _ => simp [JsonValue.data] at h
  | number n =>
    cases w with
    | number m => exact canonicalNumber_of_value hs hs' (by simpa [JsonValue.data] using h)
    | _ => simp [JsonValue.data] at h
  | string text =>
    cases w with
    | string text' =>
      obtain rfl : text = text' := by simpa [JsonValue.data] using h
      exact Except.ok.inj (hs.symm.trans hs')
    | _ => simp [JsonValue.data] at h
  | array elements ih =>
    cases w with
    | array elements' =>
      obtain ⟨texts, htexts, rfl⟩ := writes_array hs
      obtain ⟨texts', htexts', rfl⟩ := writes_array hs'
      have hdata : elements.map JsonValue.data = elements'.map JsonValue.data := by
        simpa [JsonValue.data, JsonValue.elementData_eq] using h
      rw [forall₂_determined (fun v hv w s s' hs hs' hd => ih v hv hs hs' hd) htexts htexts' hdata]
    | _ => simp [JsonValue.data] at h
  | object members ih =>
    cases w with
    | object members' =>
      obtain ⟨texts, htexts, rfl⟩ := writes_object hs
      obtain ⟨texts', htexts', rfl⟩ := writes_object hs'
      rw [data_object, data_object] at h
      refine congrArg (fun texts => '\x7b' :: joinComma texts ++ ['\x7d'])
        (forall₂_determined ?_ htexts htexts' (JsonData.object.inj h))
      rintro m hm m' _ _ ⟨text, htext, rfl⟩ ⟨text', htext', rfl⟩ hentry
      obtain ⟨hkey, hdata⟩ := Prod.mk.inj hentry
      rw [ih m (mem_sortByKey.1 hm) htext htext' hdata, hkey]
    | _ => simp [JsonValue.data] at h

/-- **Canonical values decide equality.** -/
theorem canonicalValue_eq_iff {v w : JsonValue} {c c' : CanonicalValue}
    (hv : canonicalValue v = .ok c) (hw : canonicalValue w = .ok c') :
    c = c' ↔ v.data = w.data := by
  obtain ⟨s, hs, hv⟩ := Result.bind_eq_ok.1 hv
  obtain ⟨s', hs', hw⟩ := Result.bind_eq_ok.1 hw
  obtain rfl := Result.pure_eq_ok.1 hv
  obtain rfl := Result.pure_eq_ok.1 hw
  constructor
  · intro h
    obtain rfl : s = s' := String.ofList_inj.1 (CanonicalValue.mk.inj h)
    exact (separates_writes v w s s [] [] hs hs' ends_nil ends_nil rfl).1
  · intro h
    rw [writes_of_data hs hs' h]

/-- Objects with distinct keys are the same in the data model iff they have the same members. -/
theorem data_object_eq_iff {members members' : List (String × JsonValue)}
    (hmembers : (members.map Prod.fst).Nodup) :
    (JsonValue.object members).data = (JsonValue.object members').data ↔
      (members.map memberEntry).Perm (members'.map memberEntry) := by
  have hkeys : ((members.map memberEntry).map Prod.fst).Nodup := by
    rw [List.map_map]
    exact hmembers
  have hkey : ∀ m : String × JsonValue, (memberEntry m).1 = m.1 := fun _ => rfl
  rw [data_object, data_object, JsonData.object.injEq, ← sortByKey_map hkey, ← sortByKey_map hkey]
  exact sortByKey_eq_iff hkeys

end OcEarley
