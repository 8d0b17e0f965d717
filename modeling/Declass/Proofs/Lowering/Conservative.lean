import Declass.Proofs.Lowering.Plan
import Declass.Proofs.Token.Concat

/-!
# Bodies that are only copied

Without classes and renamed functions, a lowered body is its source but for `true`, `false`, `nullptr`, `this`, qualified names and
the blanks around a lone `=`. `Fragment.copied` says so position by position. Main statement: `Lowering.Bare.lower_eq_copied`.
-/

namespace Declass

open List Token
open Lowering (isSpaceOrTab)
open Text (dropEndWhile)

/-! ## Qualified names -/

namespace Fragment

variable (F : Fragment)

/-- A `::` and a name follow position `k`. -/
def goesOn (k : Nat) : Bool :=
  F.isPunct (k + 1) "::" && F.isIdent (k + 2)

/-- The tokens from `i` to `j` are names with `::` between neighbours. -/
def isPath (i j : Nat) : Bool :=
  i ≤ j && (j - i) % 2 == 0 && F.isIdent i && (range ((j - i) / 2)).all (fun n => F.goesOn (i + 2 * n)) && !F.goesOn j

/-- The tokens from `i` to `j` are a qualified name: `::` and a path, or a path of two names, that is no member of anything. -/
def isQualified (i j : Nat) : Bool :=
  (F.isPunct i "::" && F.isPath (i + 1) j && !(F.prev? i).any fun t => t.isIdent || t.isPunct ">") ||
    (i < j && F.isPath i j && !F.afterMemberAccess i &&
      !(F.tok? i).any fun t => t.isWordOf ["true", "false", "nullptr"])

/-- The gap before position `k` lies within a qualified name. -/
def isWithinName (k : Nat) : Bool :=
  (range k).any fun i => (range F.size).any fun j => k ≤ j && F.isQualified i j

/-! ## What stands for tokens and gaps -/

/-- The token at `k` is an `=` with no operator or `=` right beside it. -/
def isLone (k : Nat) : Bool :=
  F.isPunct k "=" &&
    !((F.gap k).isEmpty && (F.prev? k).any fun t => t.kind == .punct && t.text.all (View.operatorChars.elem ·)) &&
    !((F.gap (k + 1)).isEmpty && F.isPunct (k + 1) "=")

/-- What stands for the token `t` at `k` outside qualified names. -/
def copiedWord (k : Nat) (t : Token) : Text :=
  if t.isWord "true" then "1"
  else if t.isWord "false" then "0"
  else if t.isWord "nullptr" then "NULL"
  else if t.isWord "this" && !F.afterMemberAccess k && !F.isPunct (k + 1) "::" then "self"
  else t.text

/-- What stands for `t` at `k`. Of a qualified name the last token stays. -/
def copiedToken (k : Nat) (t : Token) : Text :=
  if F.isWithinName (k + 1) then []
  else if F.isWithinName k then t.text
  else F.copiedWord k t

/-- What stands for a gap; the flags tell if a lone `=` is beside it. -/
def spaced (after before : Bool) (gap : Text) : Text :=
  let rest := if after then ' ' :: gap.dropWhile isSpaceOrTab else gap
  if before then dropEndWhile isSpaceOrTab rest ++ [' '] else rest

/-- As `spaced`, but with a space for each of two lone `=`. -/
def spacedApart (after before : Bool) (gap : Text) : Text :=
  let rest := if after then gap.dropWhile isSpaceOrTab else gap
  let rest := if before then dropEndWhile isSpaceOrTab rest else rest
  (if after then [' '] else []) ++ rest ++ (if before then [' '] else [])

/-- What stands for the gap before `k`, which becomes `space` outside names. -/
def copiedGap (space : Bool → Bool → Text → Text) (k : Nat) : Text :=
  if F.isWithinName k then [] else space (0 < k && F.isLone (k - 1)) (F.isLone k) (F.gap k)

/-- The fragment copied from position `k` on. -/
def copiedFrom (space : Bool → Bool → Text → Text) (k : Nat) : Text :=
  (range' k (F.size - k)).flatMap (fun i => F.copiedGap space i ++ (F.tok? i).elim [] (F.copiedToken i)) ++
    F.copiedGap space F.size

/-- The fragment copied. -/
def copied (space : Bool → Bool → Text → Text) : Text :=
  F.copiedFrom space 0

end Fragment

namespace Lowering

/-- The program has no classes and renames nothing, and no field is in scope. -/
structure Bare (L : Lowering) : Prop where
  classes : L.program.classes = []
  functions : ∀ s ∈ L.program.functions, ∃ f, s.signatures = [f] ∧ f.cName = s.name
  owner : L.owner = none
  fields : ∀ b ∈ L.scope.bindings, b.2.kind ≠ .field

namespace Bare

variable {L : Lowering} {inner : List Var → Text → Text} {V : View} {k j : Nat} {t : Token}

section

variable (h : L.Bare)

include h

theorem class? (name : Text) : L.program.class? name = none := by
  rw [Program.class?, h.classes]
  rfl

theorem instantiation? : instantiation? L inner V k = none := by
  simp [Lowering.instantiation?, h.class?]

theorem functionCall? : functionCall? L inner V k j = none := by
  unfold Lowering.functionCall?
  cases V.fragment.tok? k with
  | none => rfl
  | some t =>
    cases hset : L.program.function? t.text with
    | none => simp [hset]
    | some s =>
      obtain ⟨f, hf, hn⟩ := h.functions s (mem_of_find?_eq_some hset)
      have hs : s.name = t.text := by simpa using find?_some hset
      simp [hset, OverloadSet.isOverloaded, hf, hn, hs]

theorem objectCall? : objectCall? L inner V k = none := by
  have hrv (name op method : Text) (type : Option Text) : L.receiver? name op method type = none := by
    unfold receiver?
    split
    · rw [h.owner]
      rfl
    · have hno : L.program.class? = fun _ => none := funext h.class?
      simp [hno, Program.classDeclaring?, h.classes]
  simp [Lowering.objectCall?, hrv]

theorem call? : call? L inner V k = none := by
  unfold Lowering.call?
  simp [h.owner, h.functionCall?]

theorem isField (name : Text) : L.scope.isField name = false := by
  unfold Scope.isField Scope.find?
  cases hb : L.scope.bindings.lookup name with
  | none => rfl
  | some b =>
    obtain ⟨bs, cs, heq, -⟩ := lookup_eq_some_iff.1 hb
    simpa using h.fields (name, b) (by simp [heq])

theorem qualified : qualified L inner V k = let last := k + 2 * qualifiedPairs (V.fragment.tokens.drop (k + 1))
      { text := (V.fragment.tok? last).elim [] text, next := last + 1 } := by
  have hbi (name : Option Text) : name.bind L.program.class? = none := by
    cases name <;> simp [h.class?]
  unfold Lowering.qualified
  simp only [hbi, h.functionCall?]
  split
  · rename_i hno
    nomatch hno
  · rfl
  · rfl

theorem identifier (name : Text) : identifier L inner V k name =
      if V.fragment.afterMemberAccess k then { text := name, next := k + 1 }
      else if V.fragment.isPunct (k + 1) "::" then Lowering.qualified L inner V k
      else { text := if name = "this" then "self" else name, next := k + 1 } := by
  unfold Lowering.identifier plainName
  simp only [h.instantiation?, h.objectCall?, h.call?, h.isField, ite_self, Option.getD_none, Bool.false_and,
    Bool.false_eq_true, if_false]
  split
  · rfl
  · split
    · rfl
    · by_cases hthis : name = "this"
      · simp [hthis]
      · simp only [if_neg hthis, ite_self]

end

end Bare

end Lowering

/-! ## Paths -/

namespace Fragment

open Lowering

variable {F : Fragment} {i j k : Nat} {j' : Nat}

theorem isPath_iff : F.isPath i j ↔ ∃ n, j = i + 2 * n ∧ F.isIdent i ∧ (∀ m < n, F.goesOn (i + 2 * m)) ∧ F.goesOn j = false := by
  simp only [isPath, Bool.and_eq_true, decide_eq_true_eq, beq_iff_eq, all_eq_true, mem_range, Bool.not_eq_true']
  constructor
  · rintro ⟨⟨⟨⟨hle, heven⟩, hid⟩, hall⟩, hend⟩
    exact ⟨(j - i) / 2, by omega, hid, hall, hend⟩
  · rintro ⟨n, rfl, hid, hall, hend⟩
    refine ⟨⟨⟨⟨by omega, by omega⟩, hid⟩, ?_⟩, hend⟩
    intro m hm
    exact hall m (by omega)

theorem qualifiedPairs_stop (ts : List Token) :
    ¬(ts[2 * qualifiedPairs ts]?.any (·.isPunct "::") ∧ ts[2 * qualifiedPairs ts + 1]?.any Token.isIdent) := by
  have hz := qualifiedPairs_drop ts
  rw [← Nat.add_zero (2 * qualifiedPairs ts), ← getElem?_drop, ← getElem?_drop]
  generalize ts.drop (2 * qualifiedPairs ts) = us at hz
  rcases us with - | ⟨t, - | ⟨u, us⟩⟩
  · simp
  · simp
  · intro h
    rw [qualifiedPairs, if_pos (by simpa using h)] at hz
    cases hz

/-- A path ends with the last pair of `::` and a name. -/
theorem isPath_iff_qualifiedPairs : F.isPath i j ↔ F.isIdent i ∧ j = i + 2 * qualifiedPairs (F.tokens.drop (i + 1)) := by
  have hgoes (m : Nat) : F.goesOn (i + 2 * m) ↔ (F.tokens.drop (i + 1))[2 * m]?.any (·.isPunct "::") ∧
      (F.tokens.drop (i + 1))[2 * m + 1]?.any Token.isIdent := by
    rw [getElem?_drop, getElem?_drop, goesOn, Bool.and_eq_true, isPunct, isIdent, tok?, tok?,
      show i + 2 * m + 1 = i + 1 + 2 * m by omega, show i + 2 * m + 2 = i + 1 + (2 * m + 1) by omega]
  have hs := mt (hgoes _).1 (qualifiedPairs_stop (F.tokens.drop (i + 1)))
  have hall (m : Nat) (hm : m < qualifiedPairs (F.tokens.drop (i + 1))) : F.goesOn (i + 2 * m) := by
    obtain ⟨⟨colons, hcol, hp⟩, name, hn, hid⟩ := getElem?_of_lt_qualifiedPairs hm
    exact (hgoes m).2 ⟨by rw [hcol]; exact hp, by rw [hn]; exact hid⟩
  rw [isPath_iff]
  constructor
  · rintro ⟨n, rfl, hid, hpa, hend⟩
    rcases Nat.lt_trichotomy n (qualifiedPairs (F.tokens.drop (i + 1))) with hlt | rfl | hgt
    · exact absurd (hall n hlt) (by simp [hend])
    · exact ⟨hid, rfl⟩
    · exact absurd (hpa _ hgt) hs
  · rintro ⟨hid, rfl⟩
    exact ⟨_, rfl, hid, hall, by simpa using hs⟩

theorem isPunct_eq_false_of_isIdent (h : F.isIdent k) (p : Text) : F.isPunct k p = false := by
  obtain ⟨t, ht, hid⟩ := (Option.any_eq_true _ _).1 h
  have hk : t.kind = .ident := by simpa [Token.isIdent] using hid
  simp [isPunct, ht, Token.isPunct, hk]

theorem afterMemberAccess_of_colons (h : F.isPunct k "::") : F.afterMemberAccess (k + 1) := by
  obtain ⟨t, ht, hp⟩ := (Option.any_eq_true _ _).1 h
  rw [afterMemberAccess, prev?, ht]
  exact any_eq_true.2 ⟨"::", by simp, hp⟩

/-- After its first token a path has `::` and names in turn. -/
theorem isPath_inside (h : F.isPath i j) (hik : i < k) (hkj : k ≤ j) :
    (F.isPunct k "::" ∧ F.isIdent (k - 1)) ∨ (F.isIdent k ∧ F.isPunct (k - 1) "::") := by
  obtain ⟨n, rfl, hid, hall, -⟩ := isPath_iff.1 h
  obtain ⟨m, rfl | rfl⟩ : ∃ m, k = i + 2 * m + 1 ∨ k = i + 2 * m + 2 := ⟨(k - i - 1) / 2, by omega⟩
  · have hgoes := hall m (by omega)
    rw [goesOn, Bool.and_eq_true] at hgoes
    refine .inl ⟨hgoes.1, ?_⟩
    cases m with
    | zero => exact hid
    | succ m =>
      have hbef := hall m (by omega)
      rw [goesOn, Bool.and_eq_true] at hbef
      exact hbef.2
  · have hgoes := hall m (by omega)
    rw [goesOn, Bool.and_eq_true] at hgoes
    exact .inr ⟨hgoes.2, hgoes.1⟩

/-! ## Qualified names do not overlap -/

/-- The two kinds of qualified names. -/
theorem isQualified_iff : F.isQualified i j ↔ (F.isPunct i "::" ∧ F.isPath (i + 1) j ∧
        (F.prev? i).any (fun t => t.isIdent || t.isPunct ">") = false) ∨ (i < j ∧ F.isPath i j ∧ F.afterMemberAccess i = false ∧
        (F.tok? i).any (fun t => t.isWordOf ["true", "false", "nullptr"]) = false) := by
  simp only [isQualified, Bool.or_eq_true, Bool.and_eq_true, Bool.not_eq_true', decide_eq_true_eq, and_assoc]

theorem isPath_le (h : F.isPath i j) : i ≤ j := by
  obtain ⟨n, rfl, -⟩ := isPath_iff.1 h
  omega

theorem isIdent_of_isPath (h : F.isPath i j) : F.isIdent j := by
  rcases Nat.eq_or_lt_of_le (isPath_le h) with rfl | hlt
  · exact (isPath_iff_qualifiedPairs.1 h).1
  · obtain ⟨n, rfl, -, hall, -⟩ := isPath_iff.1 h
    obtain ⟨m, rfl⟩ : ∃ m, n = m + 1 := ⟨n - 1, by omega⟩
    have hgoes := hall m (by omega)
    rw [goesOn, Bool.and_eq_true] at hgoes
    exact hgoes.2

section

variable (h : F.isQualified i j)

include h

theorem isQualified_lt : i < j := by
  rcases isQualified_iff.1 h with ⟨-, hp, -⟩ | ⟨hlt, -⟩
  · exact isPath_le hp
  · exact hlt

theorem isIdent_of_isQualified : F.isIdent j := by
  rcases isQualified_iff.1 h with ⟨-, hp, -⟩ | ⟨-, hp, -⟩ <;> exact isIdent_of_isPath hp

theorem isQualified_unique (h' : F.isQualified i j') : j = j' := by
  rcases isQualified_iff.1 h with ⟨hcol, hp, -⟩ | ⟨-, hp, -⟩ <;>
    rcases isQualified_iff.1 h' with ⟨hcol', hp', -⟩ | ⟨-, hp', -⟩
  · rw [(isPath_iff_qualifiedPairs.1 hp).2, (isPath_iff_qualifiedPairs.1 hp').2]
  · exact absurd hcol (by simp [isPunct_eq_false_of_isIdent (isPath_iff_qualifiedPairs.1 hp').1])
  · exact absurd hcol' (by simp [isPunct_eq_false_of_isIdent (isPath_iff_qualifiedPairs.1 hp).1])
  · rw [(isPath_iff_qualifiedPairs.1 hp).2, (isPath_iff_qualifiedPairs.1 hp').2]

/-- In a qualified name `::` and names stand in turn. -/
theorem isQualified_inside (hik : i < k) (hkj : k ≤ j) :
    (F.isPunct k "::" ∧ F.isIdent (k - 1)) ∨ (F.isIdent k ∧ F.isPunct (k - 1) "::") := by
  rcases isQualified_iff.1 h with ⟨hcol, hp, -⟩ | ⟨-, hp, -⟩
  · rcases Nat.eq_or_lt_of_le hik with rfl | hlt
    · exact .inr ⟨(isPath_iff_qualifiedPairs.1 hp).1, hcol⟩
    · exact isPath_inside hp hlt hkj
  · exact isPath_inside hp hik hkj

/-- No qualified name starts within another one. -/
theorem isQualified_apart (hik : i < k) (hkj : k ≤ j) : F.isQualified k j' = false := by
  obtain ⟨k, rfl⟩ : ∃ m, k = m + 1 := ⟨k - 1, by omega⟩
  rw [Bool.eq_false_iff]
  intro h'
  rcases isQualified_inside h hik hkj with ⟨hcol, hn⟩ | ⟨hn, hcol⟩ <;>
    rcases isQualified_iff.1 h' with ⟨hcol', -, hbef⟩ | ⟨-, hp, hmem, -⟩
  · obtain ⟨t, ht, hid⟩ := (Option.any_eq_true _ _).1 hn
    rw [Nat.add_sub_cancel] at ht
    simp [prev?, ht, hid] at hbef
  · exact absurd hcol (by simp [isPunct_eq_false_of_isIdent (isPath_iff_qualifiedPairs.1 hp).1])
  · exact absurd hcol' (by simp [isPunct_eq_false_of_isIdent hn])
  · exact absurd (afterMemberAccess_of_colons hcol) (by simp [hmem])

end

theorem isWithinName_iff : F.isWithinName k ↔ ∃ i j, i < k ∧ k ≤ j ∧ F.isQualified i j := by
  simp only [isWithinName, any_eq_true, mem_range, Bool.and_eq_true, decide_eq_true_eq]
  constructor
  · rintro ⟨i, hi, j, -, hj, h⟩
    exact ⟨i, j, hi, hj, h⟩
  · rintro ⟨i, j, hi, hj, h⟩
    obtain ⟨t, ht, -⟩ := (Option.any_eq_true _ _).1 (isIdent_of_isQualified h)
    exact ⟨i, hi, j, lt_size_of_tok? ht, hj, h⟩

theorem isWithinName_of_isQualified (h : F.isQualified i j) (hik : i < k) (hkj : k ≤ j) : F.isWithinName k :=
  isWithinName_iff.2 ⟨i, j, hik, hkj, h⟩

theorem not_isWithinName_stop (h : F.isQualified i j) : F.isWithinName (j + 1) = false := by
  rw [Bool.eq_false_iff]
  intro hin
  obtain ⟨i', j', hlt, hle, h'⟩ := isWithinName_iff.1 hin
  have hij := isQualified_lt h
  rcases Nat.lt_trichotomy i i' with hlt' | rfl | hgt
  · exact absurd h' (by simp [isQualified_apart h hlt' (by omega)])
  · have := isQualified_unique h h'
    omega
  · exact absurd h (by simp [isQualified_apart h' hgt (by omega)])

theorem not_isWithinName_succ (hin : F.isWithinName k = false) (hst : ∀ j, F.isQualified k j = false) :
    F.isWithinName (k + 1) = false := by
  rw [Bool.eq_false_iff] at hin ⊢
  intro hin'
  obtain ⟨i, j, hlt, hle, h⟩ := isWithinName_iff.1 hin'
  rcases Nat.eq_or_lt_of_le (Nat.le_of_lt_succ hlt) with rfl | hlt
  · exact absurd h (by simp [hst])
  · exact hin (isWithinName_of_isQualified h hlt (by omega))

/-! ## The copy, step by step -/

variable {space : Bool → Bool → Text → Text} {t : Token}

theorem copiedFrom_size : F.copiedFrom space F.size = F.copiedGap space F.size := by
  simp [copiedFrom]

theorem copiedFrom_of_tok? (ht : F.tok? k = some t) :
    F.copiedFrom space k = F.copiedGap space k ++ F.copiedToken k t ++ F.copiedFrom space (k + 1) := by
  have hlt := lt_size_of_tok? ht
  have hrange : range' k (F.size - k) = k :: range' (k + 1) (F.size - (k + 1)) := by
    rw [show F.size - k = F.size - (k + 1) + 1 by omega, range'_succ]
  simp [copiedFrom, hrange, ht]

theorem tok?_of_lt (h : k < F.size) : ∃ t, F.tok? k = some t :=
  ⟨_, getElem?_eq_getElem h⟩

/-- Of a qualified name its last name is copied. -/
theorem copiedFrom_of_isQualified (h : F.isQualified k j) (ht : F.tok? j = some t) :
    F.copiedFrom space k = F.copiedGap space k ++ t.text ++ F.copiedFrom space (j + 1) := by
  have hsz := lt_size_of_tok? ht
  have hlt := isQualified_lt h
  have hr (n : Nat) : ∀ m, k < m → m + n = j → F.copiedFrom space m = t.text ++ F.copiedFrom space (j + 1) := by
    induction n with
    | zero =>
      intro m hkm hmj
      obtain rfl : m = j := hmj
      rw [copiedFrom_of_tok? ht, copiedGap, if_pos (isWithinName_of_isQualified h hkm (Nat.le_refl _)), copiedToken,
        if_neg (by simp [not_isWithinName_stop h]), if_pos (isWithinName_of_isQualified h hkm (Nat.le_refl _))]
      rfl
    | succ n ih =>
      intro m hkm hmj
      obtain ⟨u, hu⟩ := tok?_of_lt (F := F) (k := m) (by omega)
      rw [copiedFrom_of_tok? hu, copiedGap, if_pos (isWithinName_of_isQualified h hkm (by omega)), copiedToken,
        if_pos (isWithinName_of_isQualified h (by omega) (by omega)), ih (m + 1) (by omega) (by omega)]
      rfl
  obtain ⟨u, hu⟩ := tok?_of_lt (F := F) (k := k) (by omega)
  rw [copiedFrom_of_tok? hu, copiedToken, if_pos (isWithinName_of_isQualified h (by omega) (by omega)),
    hr (j - (k + 1)) (k + 1) (by omega) (by omega)]
  simp

end Fragment

/-! ## One token -/

namespace Lowering.Bare

open Fragment

variable {L : Lowering} {inner : List Var → Text → Text} {V : View} {k j : Nat} {t : Token}

theorem qualified_eq (h : L.Bare) (hp : V.fragment.isPath k j) :
    Lowering.qualified L inner V k = { text := (V.fragment.tok? j).elim [] Token.text, next := j + 1 } := by
  obtain ⟨-, rfl⟩ := isPath_iff_qualifiedPairs.1 hp
  exact h.qualified

theorem token_of_isIdent (hid : t.isIdent) : token L inner V k t =
      if t.isWord "true" then { text := "1", next := k + 1 }
      else if t.isWord "false" then { text := "0", next := k + 1 }
      else if t.isWord "nullptr" then { text := "NULL", next := k + 1 } else Lowering.identifier L inner V k t.text := by
  have hcol : ¬t.isPunct "::" := by
    simp only [Token.isIdent, beq_iff_eq] at hid
    simp [Token.isPunct, hid]
  have hw (w : Text) : t.isWord w ↔ t.text = w := by simp [isWord, hid]
  unfold token
  rw [if_neg hcol, if_neg (by simp [hid])]
  simp only [hw]

/-- A qualified name becomes its last name. -/
theorem token_of_isQualified (h : L.Bare) (ht : V.fragment.tok? k = some t) (hq : V.fragment.isQualified k j) :
    token L inner V k t = { text := (V.fragment.tok? j).elim [] text, next := j + 1 } := by
  rcases isQualified_iff.1 hq with ⟨hcol, hp, hbef⟩ | ⟨hlt, hp, hmem, hlit⟩
  · have hid := (isPath_iff_qualifiedPairs.1 hp).1
    rw [Fragment.isPunct, ht, Option.any_some] at hcol
    unfold token
    rw [if_pos hcol]
    simp only [hid, hbef]
    exact h.qualified_eq hp
  · have hid := (isPath_iff_qualifiedPairs.1 hp).1
    have hnx : V.fragment.isPunct (k + 1) "::" := by
      rcases isPath_inside hp (Nat.lt_succ_self k) hlt with ⟨hcol, -⟩ | ⟨-, hcol⟩
      · exact hcol
      · exact absurd hcol (by simp [isPunct_eq_false_of_isIdent hid])
    rw [Fragment.isIdent, ht] at hid
    rw [ht, Option.any_some, isWordOf, any_eq_false] at hlit
    rw [token_of_isIdent hid, if_neg (hlit _ (by simp)), if_neg (hlit _ (by simp)),
      if_neg (hlit _ (by simp)), h.identifier, if_neg (by simp [hmem]), if_pos hnx, h.qualified_eq hp]

/-- Any other token is copied but for literals and `this`. -/
theorem token_eq (h : L.Bare) (ht : V.fragment.tok? k = some t) (hq : ∀ j, V.fragment.isQualified k j = false) :
    token L inner V k t = { text := V.fragment.copiedWord k t, next := k + 1 } := by
  by_cases hid : t.isIdent
  · rw [token_of_isIdent hid, copiedWord]
    split
    · rfl
    split
    · rfl
    split
    · rfl
    rename_i htrue hfalse hnull
    have hlit : (V.fragment.tok? k).any (fun t => t.isWordOf ["true", "false", "nullptr"]) = false := by
      simp only [ht, Option.any_some, isWordOf, any_cons, any_nil, htrue, hfalse, hnull, Bool.or_self]
    rw [h.identifier]
    cases hmem : V.fragment.afterMemberAccess k with
    | true => simp
    | false =>
      cases hnx : V.fragment.isPunct (k + 1) "::" with
      | true =>
        have hp := isPath_iff_qualifiedPairs.2 ⟨show V.fragment.isIdent k by
          rw [Fragment.isIdent, ht]; exact hid, rfl⟩
        have hl : ¬k < k + 2 * qualifiedPairs (V.fragment.tokens.drop (k + 1)) := by
          intro hlt
          exact absurd (isQualified_iff.2 (.inr ⟨hlt, hp, hmem, hlit⟩)) (by simp [hq])
        rw [show k + 2 * qualifiedPairs (V.fragment.tokens.drop (k + 1)) = k by omega] at hp
        simp [h.qualified_eq hp, ht]
      | false => simp [isWord, hid]
  · have hw : V.fragment.copiedWord k t = t.text := by
      simp [copiedWord, isWord, hid]
    rw [hw]
    unfold token
    split
    · rename_i hcol
      refine if_neg ?_
      intro hn
      rw [Bool.and_eq_true, Bool.not_eq_true'] at hn
      have hp := isPath_iff_qualifiedPairs.2 ⟨hn.1, rfl⟩
      have hst : V.fragment.isPunct k "::" := by
        rw [Fragment.isPunct, ht]
        exact hcol
      exact absurd (isQualified_iff.2 (.inl ⟨hst, hp, hn.2⟩)) (by simp [hq])
    · rw [if_pos (by simp [hid])]

end Lowering.Bare

/-! ## Blanks at the end of a token -/

namespace Token

variable {rest : Text} {d : Char}

/-- A literal without an end stops before a line feed. -/
theorem feed_of_quotedLength {q : Char} {t : Text} (h : quotedLength q (t ++ rest) = t.length)
    (he : literalEnds q t = false) (hd : rest.head? = some d) : d = '\n' := by
  rcases run_literal h [] with ⟨hend, -⟩ | ⟨-, hidden, -, rfl | ⟨-, hf⟩⟩
  · cases hend.symm.trans he
  · cases hd
  · exact Option.some.inj (hd.symm.trans hf)

theorem isBlank_of_isSpaceOrTab {c : Char} (h : isSpaceOrTab c) : Text.isBlank c := by
  simp only [isSpaceOrTab, Bool.or_eq_true, beq_iff_eq] at h
  rcases h with rfl | rfl <;> decide

/-- A significant token ends with a space or a tab only before a line feed. -/
theorem Cut.not_isSpaceOrTab_getLast {lineStart : Bool} {t : Token} (h : Cut lineStart rest t.kind t.text)
    (hsig : t.isTrivia = false) (hd : rest.head? = some d) (hf : d ≠ '\n') :
    ∃ y c, t.text = y ++ [c] ∧ isSpaceOrTab c = false := by
  have hmem {text : Text} (hall : ∀ c ∈ text, isSpaceOrTab c = false) (hne : text ≠ []) :
      ∃ y c, text = y ++ [c] ∧ isSpaceOrTab c = false :=
    ⟨text.dropLast, text.getLast hne, (dropLast_append_getLast hne).symm, hall _ (getLast_mem hne)⟩
  have hlit {q : Char} {r : Text} (hq : isSpaceOrTab q = false)
      (hn : quotedLength q (r ++ rest) = r.length) : ∃ y c, q :: r = y ++ [c] ∧ isSpaceOrTab c = false := by
    cases hen : literalEnds q r with
    | true =>
      obtain ⟨y, rfl⟩ := getLast?_eq_some_iff.1 (getLast_literalEnds hen)
      exact ⟨q :: y, q, rfl, hq⟩
    | false => exact absurd (feed_of_quotedLength hn hen hd) hf
  have hbl {c : Char} (hc : Text.isBlank c = false) : isSpaceOrTab c = false :=
    eq_false_of_imp isBlank_of_isSpaceOrTab hc
  generalize hk : t.kind = kind at h
  generalize t.text = text at h
  have hcut := h
  cases h with
  | space | line | block | directive => simp [isTrivia, hk] at hsig
  | string hn => exact hlit (by decide) hn
  | char hn => exact hlit (by decide) hn
  | ident | digit | point => exact hmem (fun c hc => hbl (hcut.not_isBlank_of_mem (by simp) c hc)) (cons_ne_nil _ _)
  | @pair c d h =>
    refine ⟨[c], d, rfl, ?_⟩
    rcases h with ⟨-, rfl⟩ | ⟨-, rfl⟩ <;> decide
  | @single c hsp =>
    refine ⟨[], c, rfl, ?_⟩
    refine eq_false_of_imp (fun hc => ?_) hsp
    simp only [isSpaceOrTab, startsSpace, Bool.or_eq_true] at hc ⊢
    exact .inl (.inl hc)

end Token

/-! ## All positions -/

namespace Lowering

open Fragment

variable {L : Lowering} {inner : List Var → Text → Text} {x : Text} {V : View} {k : Nat} {t : Token}

theorem dropEndWhile_concat {y : Text} {c : Char} (h : isSpaceOrTab c = false) :
    dropEndWhile isSpaceOrTab (y ++ [c]) = y ++ [c] := by
  simp [dropEndWhile, h]

/-- A token with only blanks before the next one does not end with them. -/
theorem exists_concat_of_tok? {u : Token} (ht : (ofText x).tok? k = some t) (hu : (ofText x).tok? (k + 1) = some u)
    (hgap : ((ofText x).gap (k + 1)).all isSpaceOrTab) (hf : u.text.head? ≠ some '\n') :
    ∃ y c, t.text = y ++ [c] ∧ isSpaceOrTab c = false := by
  have htok := ht
  rw [tok?, tokens_ofText] at htok
  obtain ⟨us, vs, hspl, hlen, hsig⟩ := split_at _ htok
  have hlex : Lexed true (us ++ t :: vs) := hspl ▸ lexed_tokenizeFrom true 0 x
  obtain ⟨rest, hx, hr⟩ := exists_before (Nat.succ_le_of_lt (lt_size_of_tok? ht))
  obtain ⟨rest, rfl⟩ := hr u hu
  have hvs : spelling vs = (ofText x).gap (k + 1) ++ (u.text ++ rest) := by
    have hwh : x = (ofText x).before k ++ (t.text ++ spelling vs) := by
      rw [← hlen, before_eq hspl hsig]
      have := congrArg Token.spelling hspl
      rwa [spelling_tokenize, spelling_append] at this
    rw [before_succ ht, append_assoc, append_assoc] at hx
    exact append_cancel_left (append_cancel_left (hwh.symm.trans hx))
  obtain ⟨d, hd⟩ : ∃ d, (u.text ++ rest).head? = some d := by
    rw [head?_append_of_ne_nil _ (text_ne_nil_of_tok? hu)]
    exact ⟨_, head?_eq_some_head (text_ne_nil_of_tok? hu)⟩
  have hcut := hlex.append_right.cut.1
  rw [hvs] at hcut
  cases hg : (ofText x).gap (k + 1) with
  | nil =>
    rw [hg] at hcut
    refine hcut.not_isSpaceOrTab_getLast hsig hd ?_
    rintro rfl
    rw [head?_append_of_ne_nil _ (text_ne_nil_of_tok? hu)] at hd
    exact hf hd
  | cons c gap =>
    rw [hg] at hcut hgap
    refine hcut.not_isSpaceOrTab_getLast hsig rfl ?_
    rintro rfl
    simp [isSpaceOrTab] at hgap

/-- What is written before a position, with a space after a lone `=`, but no gap. -/
structure Copying (F : Fragment) (k : Nat) (gap base out : Text) : Prop where
  gap : gap = if 0 < k && F.isLone (k - 1) then (F.gap k).dropWhile isSpaceOrTab else F.gap k
  out : out = if 0 < k && F.isLone (k - 1) then base ++ [' '] else base
  within : F.isWithinName k = false
  /-- Before a lone `=`, all spaces and tabs that are to go stand in the gap. -/
  blanks : F.isLone k = true → (F.gap k).all isSpaceOrTab = true → dropEndWhile isSpaceOrTab base = base

namespace Copying

variable {F : Fragment} {gap base out : Text} {t : Token}

theorem start (F : Fragment) : Copying F 0 (F.gap 0) [] [] where
  gap := rfl
  out := rfl
  within := by simp [isWithinName]
  blanks _ _ := rfl

section

variable (h : Copying F k gap base out)

include h

/-- The gap as it is copied before anything but a lone `=`. -/
theorem out_append_gap :
    out ++ gap = base ++ if 0 < k && F.isLone (k - 1) then ' ' :: (F.gap k).dropWhile isSpaceOrTab else F.gap k := by
  rw [h.out, h.gap]
  split <;> simp

theorem copiedGap_eq : F.copiedGap spaced k = spaced (0 < k && F.isLone (k - 1)) (F.isLone k) (F.gap k) := by
  rw [copiedGap, if_neg (by simp [h.within])]

theorem append_gap (hlo : F.isLone k = false) : out ++ gap = base ++ F.copiedGap spaced k := by
  rw [h.out_append_gap, h.copiedGap_eq, spaced, hlo]
  simp

/-- A lone `=` leaves one space of those before it. -/
theorem append_assign (hlo : F.isLone k) : dropEndWhile isSpaceOrTab (out ++ gap) ++ [' '] = base ++ F.copiedGap spaced k := by
  rw [h.out_append_gap, h.copiedGap_eq, spaced, hlo, if_pos rfl, Text.dropEndWhile_append]
  generalize hr : (if (0 < k && F.isLone (k - 1)) then ' ' :: (F.gap k).dropWhile isSpaceOrTab else F.gap k) = rest
  split
  · rename_i hall
    have hgap : (F.gap k).all isSpaceOrTab := by
      rw [← hr] at hall
      split at hall
      · rw [all_cons, Bool.and_eq_true] at hall
        rw [← takeWhile_append_dropWhile (l := F.gap k), all_append, hall.2, all_takeWhile]
        rfl
      · exact hall
    have hnil : dropEndWhile isSpaceOrTab rest = [] := by
      rw [dropEndWhile, reverse_eq_nil_iff, dropWhile_eq_nil_iff]
      intro c hc
      exact all_eq_true.1 hall c (mem_reverse.1 hc)
    rw [h.blanks hlo hgap, hnil, nil_append]
  · rw [append_assoc]

end

theorem isPunct_of_isLone (h : F.isLone k) : F.isPunct k "=" := by
  simp only [isLone, Bool.and_eq_true] at h
  exact h.1.1

/-- No qualified name starts with an `=`. -/
theorem isQualified_of_isLone (h : F.isLone k) (j : Nat) : F.isQualified k j = false := by
  rw [Bool.eq_false_iff]
  intro hq
  obtain ⟨t, ht, hp⟩ := (Option.any_eq_true _ _).1 (isPunct_of_isLone h)
  rw [isPunct_iff] at hp
  rcases isQualified_iff.1 hq with ⟨hcol, -⟩ | ⟨-, hpa, -⟩
  · simp [Fragment.isPunct, ht, Token.isPunct, hp] at hcol
  · have hid := (isPath_iff_qualifiedPairs.1 hpa).1
    simp [Fragment.isIdent, ht, Token.isIdent, hp] at hid

theorem text_of_isLone (ht : F.tok? k = some t) (h : F.isLone k) : t.isIdent = false ∧ t.text = ['='] := by
  have hp := isPunct_of_isLone h
  rw [Fragment.isPunct, ht, Option.any_some, Token.isPunct_iff] at hp
  exact ⟨by simp [Token.isIdent, hp.1], hp.2⟩

theorem assign (h : Copying F k gap base out) (hlo : F.isLone k) :
    Copying F (k + 1) ((F.gap (k + 1)).dropWhile isSpaceOrTab) (base ++ F.copiedGap spaced k ++ ['='])
      (emit (out ++ gap) .assign) where
  gap := by simp [hlo]
  out := by
    rw [Nat.add_sub_cancel, hlo, ← h.append_assign hlo]
    simp [emit]
  within := not_isWithinName_succ h.within (isQualified_of_isLone hlo)
  blanks _ _ := dropEndWhile_concat (by decide)

theorem copiedFrom_assign (h : Copying F k gap base out) (ht : F.tok? k = some t) (hlo : F.isLone k) :
    F.copiedFrom spaced k = F.copiedGap spaced k ++ ['='] ++ F.copiedFrom spaced (k + 1) := by
  obtain ⟨hid, htx⟩ := text_of_isLone ht hlo
  have hw : F.copiedWord k t = ['='] := by simp [copiedWord, isWord, htx]
  rw [copiedFrom_of_tok? ht, copiedToken, not_isWithinName_succ h.within (isQualified_of_isLone hlo), h.within, hw]
  simp

/-- After a token that is written as `new` and the gap before it. -/
theorem copy (h : Copying F k gap base out) (hlo : F.isLone k = false) {n : Nat} {new : Text}
    (hnx : F.isLone n = false) (hwi : F.isWithinName (n + 1) = false)
    (hnew : F.isLone (n + 1) → (F.gap (n + 1)).all isSpaceOrTab → ∃ y c, new = y ++ [c] ∧ isSpaceOrTab c = false) :
    Copying F (n + 1) (F.gap (n + 1)) (base ++ F.copiedGap spaced k ++ new) (out ++ gap ++ new) where
  gap := by simp [hnx]
  out := by
    rw [Nat.add_sub_cancel, hnx, h.append_gap hlo]
    simp
  within := hwi
  blanks hlo' hgap := by
    obtain ⟨y, c, rfl, hc⟩ := hnew hlo' hgap
    rw [← append_assoc]
    exact dropEndWhile_concat hc

end Copying

/-- A copied token ends with no blanks before a lone `=`. -/
theorem exists_concat_of_isLone (ht : (ofText x).tok? k = some t) (hlo : (ofText x).isLone (k + 1))
    (hgap : ((ofText x).gap (k + 1)).all isSpaceOrTab) : ∃ y c, t.text = y ++ [c] ∧ isSpaceOrTab c = false := by
  obtain ⟨u, hu, -⟩ := (Option.any_eq_true _ _).1 (Copying.isPunct_of_isLone hlo)
  refine exists_concat_of_tok? ht hu hgap ?_
  rw [(Copying.text_of_isLone hu hlo).2]
  decide

/-- One step copies the tokens up to `n`, and the copy can go on. -/
structure Step (F : Fragment) (k n : Nat) (new : Text) : Prop where
  le : k ≤ n
  lt : n < F.size
  lone : F.isLone n = false
  within : F.isWithinName (n + 1) = false
  blanks : F.isLone (n + 1) = true → (F.gap (n + 1)).all isSpaceOrTab = true → ∃ y c, new = y ++ [c] ∧ isSpaceOrTab c = false
  copied : F.copiedFrom spaced k = F.copiedGap spaced k ++ new ++ F.copiedFrom spaced (n + 1)

theorem step_of_isQualified {j : Nat} (hq : (ofText x).isQualified k j) (ht : (ofText x).tok? j = some t) :
    Step (ofText x) k j t.text where
  le := Nat.le_of_lt (isQualified_lt hq)
  lt := lt_size_of_tok? ht
  lone := by
    exact eq_false_of_imp Copying.isPunct_of_isLone (isPunct_eq_false_of_isIdent (isIdent_of_isQualified hq) "=")
  within := not_isWithinName_stop hq
  blanks := exists_concat_of_isLone ht
  copied := copiedFrom_of_isQualified hq ht

theorem step_of_tok? (ht : (ofText x).tok? k = some t) (hlo : (ofText x).isLone k = false)
    (hin : (ofText x).isWithinName k = false) (hq : ∀ j, (ofText x).isQualified k j = false) :
    Step (ofText x) k k ((ofText x).copiedWord k t) where
  le := Nat.le_refl k
  lt := lt_size_of_tok? ht
  lone := hlo
  within := not_isWithinName_succ hin hq
  blanks := by
    intro hlo' hgap
    unfold copiedWord
    split_ifs
    · exact ⟨[], '1', rfl, by decide⟩
    · exact ⟨[], '0', rfl, by decide⟩
    · exact ⟨['N', 'U', 'L'], 'L', rfl, by decide⟩
    · exact ⟨['s', 'e', 'l'], 'f', rfl, by decide⟩
    · exact exists_concat_of_isLone ht hlo' hgap
  copied := by
    rw [copiedFrom_of_tok? ht, copiedToken, not_isWithinName_succ hin hq, hin]
    rfl

/-- What a token becomes is a step of the copy. -/
theorem Bare.step_token (h : L.Bare) (hV : V.fragment = ofText x) (ht : (ofText x).tok? k = some t)
    (hlo : (ofText x).isLone k = false) (hin : (ofText x).isWithinName k = false) :
    ∃ n new, token L inner V k t = { text := new, next := n + 1 } ∧ Step (ofText x) k n new := by
  by_cases hq : ∃ j, (ofText x).isQualified k j
  · obtain ⟨j, hq⟩ := hq
    obtain ⟨u, hu, -⟩ := (Option.any_eq_true _ _).1 (isIdent_of_isQualified hq)
    refine ⟨j, u.text, ?_, step_of_isQualified hq hu⟩
    rw [← hV] at ht hq hu
    rw [h.token_of_isQualified ht hq, hu]
    rfl
  · have hq' (j : Nat) : (ofText x).isQualified k j = false := by
      rw [Bool.eq_false_iff]
      exact fun hj => hq ⟨j, hj⟩
    refine ⟨k, _, ?_, step_of_tok? ht hlo hin hq'⟩
    rw [← hV] at ht ⊢
    exact h.token_eq ht (by rw [hV]; exact hq')

/-- From each position on, what is written is the copy. -/
theorem Bare.foldl_pieces (h : L.Bare) (hV : V.fragment = ofText x) {gap base out : Text} (hk : k ≤ (ofText x).size)
    (hcopy : Copying (ofText x) k gap base out) :
    (pieces L inner V k gap).foldl emit out = base ++ (ofText x).copiedFrom spaced k := by
  induction k, gap using pieces.induct L inner V generalizing base out with
  | case1 k gap hno =>
    rw [hV] at hno
    obtain rfl : k = (ofText x).size := Nat.le_antisymm hk (getElem?_eq_none_iff.1 hno)
    have hlo : (ofText x).isLone (ofText x).size = false := by
      rw [isLone, Fragment.isPunct, hno]
      rfl
    rw [pieces_of_none (by rw [hV]; exact hno), copiedFrom_size, ← hcopy.append_gap hlo]
    rfl
  | case2 k gap t ht hasg ih =>
    rw [pieces_of_isAssignment ht hasg]
    rw [hV] at ht ih ⊢
    have hlo : (ofText x).isLone k := hV ▸ hasg
    show foldl emit (emit (out ++ gap) .assign) _ = _
    rw [ih (lt_size_of_tok? ht) (hcopy.assign hlo), hcopy.copiedFrom_assign ht hlo]
    simp
  | case3 k gap t ht hasg lowered =>
    rename_i next ih
    have hlo : (ofText x).isLone k = false := by
      rw [Bool.eq_false_iff]
      exact hV ▸ hasg
    obtain ⟨n, new, htoken, hs⟩ : ∃ n new, token L inner V k t = { text := new, next := n + 1 } ∧
        Step (ofText x) k n new := h.step_token hV (by rw [← hV]; exact ht) hlo hcopy.within
    have hmax : max (token L inner V k t).next (k + 1) = n + 1 := by
      rw [htoken]
      exact Nat.max_eq_left (Nat.succ_le_succ hs.le)
    have hnx : next = n + 1 := hmax
    rw [hnx, hV] at ih
    rw [pieces_of_tok? ht hasg hmax, htoken, hV, hs.copied]
    show foldl emit (out ++ gap ++ new) _ = _
    rw [ih hs.lt (hcopy.copy hlo hs.lone hs.within hs.blanks)]
    simp

/-- Without classes and renamed functions a lowered body is a copy of its source, but for literals, `this`, qualified names and
blanks around a lone `=`. -/
theorem Bare.lower_eq_copied (h : L.Bare) (x : Text) : L.lower x = (ofText x).copied spaced := by
  have hfold : L.lower x = [] ++ (ofText x).copiedFrom spaced 0 :=
    h.foldl_pieces rfl (Nat.zero_le _) (Copying.start (ofText x))
  rw [hfold, nil_append]
  rfl

/-- A program with a function that keeps its name. -/
def plainLowering : Lowering :=
  { program := { functions := [{ name := "log", signatures := [{ name := "log", rawType := "void ()", cName := "log" }] }] } }

theorem lower_eq_copied_sample :
    plainLowering.Bare ∧
      let x := "n= std::max (this->a, true) ; /* x=1 */ a = \t= ::b; m<=log ( nullptr==p.this::q)".toList
      plainLowering.lower x = (ofText x).copied spaced ∧
        (ofText x).copied spaced = "n = max (self->a, 1) ; /* x=1 */ a = = b; m<=log ( NULL==p.this::q)".toList := by
  have hbare : plainLowering.Bare := ⟨rfl, by simp [plainLowering], rfl, by simp [plainLowering]⟩
  refine ⟨hbare, hbare.lower_eq_copied _, ?_⟩
  decide +kernel

/-- Two lone `=` in a row share the space between them. -/
theorem lower_ne_copied_spacedApart : ¬∀ (L : Lowering) (x : Text), L.Bare → L.lower x = (ofText x).copied spacedApart := by
  intro h
  have hbare : plainLowering.Bare := ⟨rfl, by simp [plainLowering], rfl, by simp [plainLowering]⟩
  have heq := h plainLowering "a = = b" hbare
  exact absurd heq (by decide +kernel)

end Lowering

end Declass
