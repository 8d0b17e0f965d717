import Declass.Token.Lexer
import Mathlib.Data.String.Basic

/-!
# The spans of the tokens

The tokens of a text stand one after the other from its start on (`Placed`), so a token starts after the bytes of the tokens before
it. Main statement: the spans are a partition of the text (`partitions_of_tokenize`), where positions and slices are those of the
UTF-8 string that the text is.
-/

namespace Declass

namespace Text

theorem byteSize_eq_utf8Len (s : Text) : byteSize s = String.utf8Len s := by
  induction s with
  | nil => rfl
  | cons c s ih =>
    simp only [byteSize, List.foldr_cons, String.utf8Len_cons] at ih ⊢
    rw [ih, Nat.add_comm]

theorem byteSize_append (s t : Text) : byteSize (s ++ t) = byteSize s + byteSize t := by
  rw [byteSize_eq_utf8Len, String.utf8Len_append, ← byteSize_eq_utf8Len, ← byteSize_eq_utf8Len]

theorem byteSize_pos {s : Text} (h : s ≠ []) : 0 < byteSize s := by
  obtain ⟨c, rest, rfl⟩ := List.exists_cons_of_ne_nil h
  have hc : 0 < c.utf8Size := Char.utf8Size_pos c
  simp only [byteSize, List.foldr_cons]
  omega

/-- A place after some characters is between two characters. -/
theorem isValid_utf8Len (before after : Text) :
    String.Pos.Raw.IsValid (String.ofList (before ++ after)) ⟨String.utf8Len before⟩ := by
  refine String.Pos.Raw.isValid_iff_exists_append.2 ⟨.ofList before, .ofList after, String.ofList_append, ?_⟩
  rw [String.rawEndPos_ofList]

/-- The bytes from `i` up to `j`, if these places are between characters. -/
def slice? (x : Text) (i j : Nat) : Option Text :=
  if i ≤ j ∧ String.Pos.Raw.IsValid (String.ofList x) ⟨i⟩ ∧ String.Pos.Raw.IsValid (String.ofList x) ⟨j⟩ then
    some (String.Pos.Raw.extract (String.ofList x) ⟨i⟩ ⟨j⟩).toList
  else none

theorem isValid_byteSize (a b : Text) : String.Pos.Raw.IsValid (String.ofList (a ++ b)) ⟨byteSize a⟩ := by
  rw [byteSize_eq_utf8Len]
  exact isValid_utf8Len a b

theorem slice?_append (a b c : Text) : slice? (a ++ b ++ c) (byteSize a) (byteSize (a ++ b)) = some b := by
  have hle : byteSize a ≤ byteSize (a ++ b) := by
    rw [byteSize_append]
    exact Nat.le_add_right _ _
  have ha : String.Pos.Raw.IsValid (.ofList (a ++ b ++ c)) ⟨byteSize a⟩ := by
    rw [List.append_assoc]
    exact isValid_byteSize a (b ++ c)
  rw [slice?, if_pos ⟨hle, ha, isValid_byteSize (a ++ b) c⟩, byteSize_append, byteSize_eq_utf8Len, byteSize_eq_utf8Len,
    String.extract_of_valid, String.toList_ofList]

theorem slice?_byteSize (a b : Text) : slice? (a ++ b) (byteSize a) (byteSize (a ++ b)) = some b := by
  have h := slice?_append a b []
  rwa [List.append_nil] at h

end Text

namespace Token

open Text

/-- The tokens stand one after the other from `offset` on, and none is empty. -/
inductive Placed : Nat → List Token → Prop where
  | nil (offset : Nat) : Placed offset []
  | cons {offset : Nat} {t : Token} {ts : List Token} :
      t.start = offset → t.text ≠ [] → Placed t.stop ts → Placed offset (t :: ts)

theorem placed_tokenizeFrom (lineStart : Bool) (offset : Nat) (s : Text) : Placed offset (tokenizeFrom lineStart offset s) := by
  fun_induction tokenizeFrom lineStart offset s with
  | case1 _ offset => exact .nil offset
  | case2 _ _ c rest kind n _ token ih => exact .cons rfl (List.cons_ne_nil _ _) ih

namespace Placed

variable {offset : Nat} {t : Token} {ts : List Token}

/-- A token starts after the bytes of the tokens before it. -/
theorem start_eq {as bs : List Token} (h : Placed offset (as ++ t :: bs)) : t.start = offset + byteSize (spelling as) := by
  induction as generalizing offset with
  | nil =>
    cases h with
    | cons hst _ _ => simp [spelling, byteSize, hst]
  | cons a as ih =>
    cases h with
    | cons hst _ hs =>
      rw [ih hs, stop, hst, Nat.add_assoc, ← byteSize_append]
      rfl

theorem text_ne_nil (h : Placed offset ts) (ht : t ∈ ts) : t.text ≠ [] := by
  induction h with
  | nil => simp at ht
  | cons _ hne _ ih =>
    rcases List.mem_cons.1 ht with rfl | ht
    · exact hne
    · exact ih ht

theorem isChain (h : Placed offset ts) : ts.IsChain fun t u => u.start = t.stop := by
  induction h with
  | nil => exact .nil
  | cons _ _ hs ih =>
    cases hs with
    | nil => exact .singleton _
    | cons hst _ _ => exact .cons_cons hst ih

/-- A token's span starts after what is before it. -/
theorem exists_around (h : Placed 0 ts) (ht : t ∈ ts) : ∃ before after, spelling ts = before ++ t.text ++ after ∧
      t.start = String.utf8Len before ∧ t.stop = String.utf8Len before + String.utf8Len t.text := by
  obtain ⟨as, bs, rfl⟩ := List.append_of_mem ht
  have hs : t.start = String.utf8Len (spelling as) := by
    rw [h.start_eq, byteSize_eq_utf8Len, Nat.zero_add]
  refine ⟨spelling as, spelling bs, by simp [spelling], hs, ?_⟩
  rw [stop, hs, byteSize_eq_utf8Len]

end Placed

/-- The spans cut the string into non-empty pieces between characters, and each token is its piece. -/
structure Partitions (s : String) (ts : List Token) : Prop where
  first : ∀ t, ts.head? = some t → t.start = 0
  adjacent : ts.IsChain fun t u => u.start = t.stop
  last : ∀ t, ts.getLast? = some t → t.stop = s.utf8ByteSize
  nonempty : ∀ t ∈ ts, t.start < t.stop
  boundaries : ∀ t ∈ ts, String.Pos.Raw.IsValid s ⟨t.start⟩ ∧ String.Pos.Raw.IsValid s ⟨t.stop⟩
  slice : ∀ t ∈ ts, String.Pos.Raw.extract s ⟨t.start⟩ ⟨t.stop⟩ = String.ofList t.text
  whole : String.ofList (spelling ts) = s

variable {ts : List Token}

theorem partitions_of_placed (h : Placed 0 ts) : Partitions (String.ofList (spelling ts)) ts where
  first t ht := by
    obtain ⟨rest, rfl⟩ := List.head?_eq_some_iff.1 ht
    cases h with
    | cons hst _ _ => exact hst
  adjacent := h.isChain
  last t ht := by
    obtain ⟨as, rfl⟩ := List.getLast?_eq_some_iff.1 ht
    rw [stop, h.start_eq, Nat.zero_add, String.utf8ByteSize_ofList, ← byteSize_eq_utf8Len, ← byteSize_append]
    simp [spelling]
  nonempty t ht := Nat.lt_add_of_pos_right (byteSize_pos (h.text_ne_nil ht))
  boundaries t ht := by
    obtain ⟨before, after, hs, hst, hsp⟩ := h.exists_around ht
    rw [hs, hst, hsp, ← String.utf8Len_append]
    refine ⟨?_, isValid_utf8Len (before ++ t.text) after⟩
    rw [List.append_assoc]
    exact isValid_utf8Len before (t.text ++ after)
  slice t ht := by
    obtain ⟨before, after, hs, hst, hsp⟩ := h.exists_around ht
    rw [hs, hst, hsp]
    exact String.extract_of_valid before t.text after
  whole := rfl

theorem Partitions.stop_le {s : String} (h : Partitions s ts) {t : Token} (ht : t ∈ ts) : t.stop ≤ s.utf8ByteSize := by
  have hv : String.Pos.Raw.IsValid s ⟨t.stop⟩ := (h.boundaries t ht).2
  exact hv.le_rawEndPos

/-- The tokens of a string are a partition of it. -/
theorem partitions_of_tokenize (s : String) : Partitions s (tokenize s.toList) := by
  have hp := partitions_of_placed (placed_tokenizeFrom true 0 s.toList)
  rwa [spelling_tokenizeFrom, String.ofList_toList] at hp

end Token

end Declass
