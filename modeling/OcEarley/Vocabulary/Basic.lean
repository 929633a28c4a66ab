import Mathlib.Data.List.AList
import OcEarley.Base.Error

/-!
# Vocabularies

Byte strings and their token ids, in the order in which the map happens to be iterated.  The id of
the end-of-sequence token never belongs to a byte string, and no byte string lists an id twice.
-/

namespace OcEarley

/-- The token strings with their ids, of which the end of the sequence is none. -/
structure Vocabulary where
  eosTokenId : ℕ
  tokens : AList fun _ : List UInt8 => List ℕ
  eos_notMem : ∀ entry ∈ tokens.entries, eosTokenId ∉ entry.2
  nodup_ids : ∀ entry ∈ tokens.entries, entry.2.Nodup

namespace Vocabulary

/-- `Vocabulary::new`. -/
def new (eosTokenId : ℕ) : Vocabulary where
  eosTokenId := eosTokenId
  tokens := ∅
  eos_notMem _ h := absurd h List.not_mem_nil
  nodup_ids _ h := absurd h List.not_mem_nil

/-- The ids of a token string. -/
def tokenIds (vocabulary : Vocabulary) (token : List UInt8) : Option (List ℕ) :=
  vocabulary.tokens.lookup token

/-- The ids of a byte string, none if it is not a token. -/
def ids (vocabulary : Vocabulary) (token : List UInt8) : List ℕ :=
  (vocabulary.tokenIds token).getD []

theorem mem_ids {vocabulary : Vocabulary} {token : List UInt8} {id : ℕ} :
    id ∈ vocabulary.ids token ↔
      ∃ entry ∈ vocabulary.tokens.entries, entry.1 = token ∧ id ∈ entry.2 := by
  unfold ids tokenIds
  constructor
  · intro h
    cases hlookup : vocabulary.tokens.lookup token with
    | none =>
      rw [hlookup] at h
      exact absurd h List.not_mem_nil
    | some ids =>
      rw [hlookup] at h
      exact ⟨⟨token, ids⟩, AList.mem_lookup_iff.1 hlookup, rfl, h⟩
  · rintro ⟨⟨token, ids⟩, hmem, rfl, h⟩
    rw [AList.mem_lookup_iff.2 hmem]
    exact h

theorem nodup_ids_token (vocabulary : Vocabulary) (token : List UInt8) :
    (vocabulary.ids token).Nodup := by
  unfold ids tokenIds
  cases hlookup : vocabulary.tokens.lookup token with
  | none => exact List.nodup_nil
  | some ids => exact vocabulary.nodup_ids _ (AList.mem_lookup_iff.1 hlookup)

theorem eos_notMem_ids (vocabulary : Vocabulary) (token : List UInt8) :
    vocabulary.eosTokenId ∉ vocabulary.ids token := by
  rw [mem_ids]
  rintro ⟨entry, hmem, -, h⟩
  exact vocabulary.eos_notMem entry hmem h

/-- The ids are values of `u32`. -/
def IdsInRange (vocabulary : Vocabulary) : Prop :=
  vocabulary.eosTokenId ≤ u32Max ∧
    ∀ entry ∈ vocabulary.tokens.entries, ∀ id ∈ entry.2, id ≤ u32Max

/-- `Vocabulary::try_insert`. -/
def tryInsert (vocabulary : Vocabulary) (token : List UInt8) (id : ℕ) :
    Except Error Vocabulary :=
  if heos : id = vocabulary.eosTokenId then throw .eosTokenDisallowed
  else if hid : id ∈ vocabulary.ids token then pure vocabulary
  else
    pure { vocabulary with
      tokens := vocabulary.tokens.insert token (vocabulary.ids token ++ [id])
      eos_notMem := by
        intro entry h
        rw [AList.entries_insert] at h
        rcases List.mem_cons.1 h with rfl | h
        · exact fun h => (List.mem_append.1 h).elim (vocabulary.eos_notMem_ids token)
            fun h => heos (List.mem_singleton.1 h).symm
        · exact vocabulary.eos_notMem entry (List.kerase_sublist _ _ |>.subset h)
      nodup_ids := by
        intro entry h
        rw [AList.entries_insert] at h
        rcases List.mem_cons.1 h with rfl | h
        · exact (vocabulary.nodup_ids_token token).append (List.nodup_singleton id)
            (List.disjoint_singleton.2 hid)
        · exact vocabulary.nodup_ids entry (List.kerase_sublist _ _ |>.subset h) }

/-- `Vocabulary::remove`. -/
def remove (vocabulary : Vocabulary) (token : List UInt8) : Vocabulary where
  eosTokenId := vocabulary.eosTokenId
  tokens := vocabulary.tokens.erase token
  eos_notMem entry h := vocabulary.eos_notMem entry ((List.kerase_sublist _ _).subset h)
  nodup_ids entry h := vocabulary.nodup_ids entry ((List.kerase_sublist _ _).subset h)

/-- `deduplicate_ids`: the first occurrence of every id stays. -/
def deduplicateIds : List ℕ → List ℕ
  | [] => []
  | id :: ids => id :: (deduplicateIds ids).filter (· ≠ id)

theorem mem_deduplicateIds {ids : List ℕ} {id : ℕ} : id ∈ deduplicateIds ids ↔ id ∈ ids := by
  induction ids with
  | nil => rfl
  | cons a ids ih =>
    simp only [deduplicateIds, List.mem_cons, List.mem_filter, decide_eq_true_iff, ih]
    by_cases h : id = a <;> simp [h]

theorem nodup_deduplicateIds : ∀ ids : List ℕ, (deduplicateIds ids).Nodup
  | [] => List.nodup_nil
  | id :: ids => List.nodup_cons.2 ⟨by simp, (nodup_deduplicateIds ids).filter _⟩

theorem deduplicateIds_eq_self {ids : List ℕ} (h : ids.Nodup) : deduplicateIds ids = ids := by
  induction ids with
  | nil => rfl
  | cons id ids ih =>
    obtain ⟨hid, hids⟩ := List.nodup_cons.1 h
    rw [deduplicateIds, ih hids, List.filter_eq_self.2]
    exact fun a ha => decide_eq_true fun heq => hid (heq ▸ ha)

/-- `TryFrom<(TokenId, HashMap<Token, Vec<TokenId>>)>`. -/
def tryFrom (eosTokenId : ℕ) (tokens : AList fun _ : List UInt8 => List ℕ) :
    Except Error Vocabulary :=
  if heos : ∃ entry ∈ tokens.entries, eosTokenId ∈ entry.2 then throw .eosTokenDisallowed
  else
    pure {
      eosTokenId := eosTokenId
      tokens := ⟨tokens.entries.map fun entry => ⟨entry.1, deduplicateIds entry.2⟩, by
        have hkeys : (tokens.entries.map fun entry =>
            (⟨entry.1, deduplicateIds entry.2⟩ : Σ _ : List UInt8, List ℕ)).keys =
              tokens.entries.keys := by
          simp [List.keys, Function.comp_def]
        rw [List.NodupKeys, hkeys]
        exact tokens.nodupKeys⟩
      eos_notMem := by
        intro entry h hmem
        obtain ⟨entry', h', rfl⟩ := List.mem_map.1 h
        exact heos ⟨entry', h', mem_deduplicateIds.1 hmem⟩
      nodup_ids := by
        intro entry h
        obtain ⟨entry', h', rfl⟩ := List.mem_map.1 h
        exact nodup_deduplicateIds _ }

/-- `TryFrom<(TokenId, HashMap<String, Vec<TokenId>>)>`. -/
def tryFromStrings (eosTokenId : ℕ) (tokens : AList fun _ : String => List ℕ) :
    Except Error Vocabulary :=
  tryFrom eosTokenId ⟨tokens.entries.map fun entry => ⟨entry.1.toByteArray.data.toList, entry.2⟩, by
    have hkeys : (tokens.entries.map fun entry =>
        (⟨entry.1.toByteArray.data.toList, entry.2⟩ : Σ _ : List UInt8, List ℕ)).keys =
          tokens.entries.keys.map fun key => key.toByteArray.data.toList := by
      simp [List.keys, Function.comp_def]
    rw [List.NodupKeys, hkeys]
    refine tokens.nodupKeys.map fun key key' h => ?_
    exact String.toByteArray_inj.1 (ByteArray.ext (Array.toList_inj.1 h))⟩

/-- Every vocabulary can be made with `TryFrom`. -/
theorem tryFrom_tokens (vocabulary : Vocabulary) :
    tryFrom vocabulary.eosTokenId vocabulary.tokens = .ok vocabulary := by
  have heos : ¬∃ entry ∈ vocabulary.tokens.entries, vocabulary.eosTokenId ∈ entry.2 := by
    rintro ⟨entry, h, hmem⟩
    exact vocabulary.eos_notMem entry h hmem
  have hentries : (vocabulary.tokens.entries.map fun entry =>
      (⟨entry.1, deduplicateIds entry.2⟩ : Σ _ : List UInt8, List ℕ)) =
        vocabulary.tokens.entries := by
    refine (List.map_congr_left fun entry h => ?_).trans (List.map_id _)
    rw [deduplicateIds_eq_self (vocabulary.nodup_ids entry h)]
    rfl
  rw [tryFrom, dif_neg heos]
  obtain ⟨eosTokenId, tokens, heos, hnodup⟩ := vocabulary
  exact congrArg Except.ok (by simp only [mk.injEq, true_and]; exact AList.ext hentries)

end Vocabulary

end OcEarley
