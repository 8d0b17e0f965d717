import Declass.Proofs.Outline.Definitions
import Declass.Proofs.Outline.Heads
import Declass.Proofs.Token.Balance

/-!
# Walks across balanced tokens

Where brackets balance kind by kind, no walk of the pass ends within them: the search for the end of an initializer
(`Token.exprLength_cross`), the walk back to a declaration (`Fragment.declarationStart_cross`) and those over dimensions.
-/

namespace Declass

open Declass.Bracket Fragment List

namespace Token

variable {depth : Nat}

/-! ## The levels of the three kinds -/

/-- The number of open groups of all kinds. -/
def total (n : Bracket → Nat) : Nat :=
  n .round + n .curly + n .square

/-- What one token does to the levels. -/
inductive Shifts (t : Token) (n n' : Bracket → Nat) : Prop where
  | opens (b : Bracket) (ht : t.isPunct b.opening = true) (hn : n' = Function.update n b (n b + 1))
  | closes (b : Bracket) (ht : t.isPunct b.closing = true) (hn : n = Function.update n' b (n' b + 1))
  | passes (hopens : ∀ b : Bracket, t.isPunct b.opening = false) (hcloses : ∀ b : Bracket, t.isPunct b.closing = false)
      (hn : n' = n)

variable {t : Token} {ts : List Token} {n : Bracket → Nat}

theorem exists_shifts {m : Bracket → Nat} (h : ∀ b : Bracket, b.level (n b) (t :: ts) = some (m b)) :
    ∃ n', Shifts t n n' ∧ ∀ b : Bracket, b.level (n' b) ts = some (m b) := by
  cases ho : opened? t with
  | some b =>
    refine ⟨_, .opens b (opened?_eq_some_iff.1 ho) rfl, fun b' => ?_⟩
    have hc : closed? t ≠ some b' := by
      intro hc
      simp [opened?_eq_none_of_closed? hc] at ho
    have hlv := h b'
    rw [level, ho, if_neg hc] at hlv
    by_cases hb : b' = b
    · subst hb
      rw [if_pos rfl] at hlv
      rwa [Function.update_self]
    · rw [if_neg (by simpa using Ne.symm hb)] at hlv
      rwa [Function.update_of_ne hb]
  | none =>
    cases hc : closed? t with
    | some b =>
      have hpos : n b ≠ 0 := by
        intro hz
        have hlv := h b
        rw [level, ho, hc, if_pos rfl, if_pos hz] at hlv
        cases hlv
      refine ⟨Function.update n b (n b - 1), .closes b (closed?_eq_some_iff.1 hc) ?_, fun b' => ?_⟩
      · rw [Function.update_self, Function.update_idem, Nat.sub_add_cancel (Nat.pos_of_ne_zero hpos), Function.update_eq_self]
      · have hlv := h b'
        rw [level, ho, hc, if_neg (by simp)] at hlv
        by_cases hb : b' = b
        · subst hb
          rw [if_pos rfl, if_neg hpos] at hlv
          rwa [Function.update_self]
        · rw [if_neg (by simpa using Ne.symm hb)] at hlv
          rwa [Function.update_of_ne hb]
    | none =>
      refine ⟨n, .passes (fun b => ?_) (fun b => ?_) rfl, fun b => ?_⟩
      · rw [← Bool.not_eq_true, ← opened?_eq_some_iff, ho]
        simp
      · rw [← Bool.not_eq_true, ← closed?_eq_some_iff, hc]
        simp
      · have hlv := h b
        rwa [level, ho, hc] at hlv

/-- The number of open parentheses and square brackets. -/
def groups (n : Bracket → Nat) : Nat :=
  n .round + n .square

theorem groups_update {b : Bracket} (hb : b ≠ .curly) : groups (Function.update n b (n b + 1)) = groups n + 1 := by
  cases b with
  | curly => exact absurd rfl hb
  | round => exact Nat.add_right_comm (n .round) 1 (n .square)
  | square => rfl

theorem groups_le_total (n : Bracket → Nat) : groups n ≤ total n := by
  unfold groups total
  omega

theorem total_update (b : Bracket) : total (Function.update n b (n b + 1)) = total n + 1 := by
  cases b <;> simp [total] <;> omega

/-- The tokens outside all parentheses and square brackets. -/
def outer : Nat → List Token → List Token
  | _, [] => []
  | depth, t :: ts =>
    if t.isPunctOf ["(", "["] then outer (depth + 1) ts
    else if t.isPunctOf [")", "]"] then outer (depth - 1) ts
    else if depth = 0 then t :: outer depth ts
    else outer depth ts

theorem eq_of_isPunct {p : Text} (h : t.isPunct p) : ∃ start, t = ⟨.punct, p, start⟩ := by
  obtain ⟨kind, text, start⟩ := t
  rw [isPunct_iff] at h
  obtain ⟨rfl, rfl⟩ := h
  exact ⟨start, rfl⟩

theorem outer_flat (hop : t.isPunctOf ["(", "["] = false) (hcl : t.isPunctOf [")", "]"] = false) :
    outer depth (t :: ts) = if depth = 0 then t :: outer depth ts else outer depth ts := by
  rw [outer, hop, hcl, if_neg Bool.false_ne_true, if_neg Bool.false_ne_true]

theorem outer_subset_cons (hop : t.isPunctOf ["(", "["] = false) (hcl : t.isPunctOf [")", "]"] = false) :
    outer depth ts ⊆ outer depth (t :: ts) := by
  rw [outer_flat hop hcl]
  split
  · exact subset_cons_self t _
  · exact List.Subset.refl _

theorem isPunctOf_openings (h : ∀ b : Bracket, t.isPunct b.opening = false) (bs : List Bracket) :
    t.isPunctOf (bs.map opening) = false := by
  simp [isPunctOf, h]

theorem isPunctOf_closings (h : ∀ b : Bracket, t.isPunct b.closing = false) (bs : List Bracket) :
    t.isPunctOf (bs.map closing) = false := by
  simp [isPunctOf, h]

/-- What stands outside after a token stands outside. -/
theorem Shifts.outer_subset {n' : Bracket → Nat} (h : Shifts t n n') (ts : List Token) :
    outer (groups n') ts ⊆ outer (groups n) (t :: ts) := by
  cases h with
  | opens b ht hn =>
    obtain ⟨start, rfl⟩ := eq_of_isPunct ht
    subst hn
    by_cases hb : b = .curly
    · subst hb
      exact outer_subset_cons rfl rfl
    · have hout : outer (groups n) (⟨.punct, b.opening, start⟩ :: ts) = outer (groups n + 1) ts := by
        cases b <;> first | rfl | exact absurd rfl hb
      rw [hout, groups_update hb]
      exact List.Subset.refl _
  | closes b ht hn =>
    obtain ⟨start, rfl⟩ := eq_of_isPunct ht
    subst hn
    by_cases hb : b = .curly
    · subst hb
      exact outer_subset_cons rfl rfl
    · have hout (depth : Nat) : outer (depth + 1) (⟨.punct, b.closing, start⟩ :: ts) = outer depth ts := by
        cases b <;> first | rfl | exact absurd rfl hb
      rw [groups_update hb, hout]
      exact List.Subset.refl _
  | passes hop hcl hn =>
    subst hn
    exact outer_subset_cons (isPunctOf_openings hop [.round, .square])
      (isPunctOf_closings hcl [.round, .square])

/-- A token outside all parentheses and square brackets, itself none. -/
theorem mem_outer (hop : t.isPunctOf ["(", "["] = false) (hcl : t.isPunctOf [")", "]"] = false) : t ∈ outer 0 (t :: ts) := by
  rw [outer_flat hop hcl]
  exact mem_cons_self

/-- An initializer ends at the first `;` or `,` outside. -/
theorem exprLength_cross {us : List Token} {u : Token} (hlv : ∀ b : Bracket, b.level (n b) ts = some 0)
    (hout : ∀ t ∈ outer (groups n) ts, t.isPunctOf [";", ","] = false) (hu : u.isPunctOf [";", ","]) :
    exprLength (total n) (ts ++ u :: us) = some ts.length := by
  induction ts generalizing n with
  | nil =>
    have htotal : total n = 0 := by
      have hz (b : Bracket) : n b = 0 := Option.some.inj (hlv b)
      simp [total, hz]
    simp only [isPunctOf, any_cons, any_nil, Bool.or_false, Bool.or_eq_true] at hu
    rcases hu with hu | hu <;> obtain ⟨start, rfl⟩ := eq_of_isPunct hu <;> rw [htotal] <;> rfl
  | cons t ts ih =>
    obtain ⟨n', hsh, hlv'⟩ := exists_shifts hlv
    have hr := ih hlv' fun u hu => hout u (hsh.outer_subset ts hu)
    rw [cons_append, exprLength]
    cases hsh with
    | opens b ht hn =>
      have ho : t.isPunctOf ["(", "[", "\x7b"] := by
        obtain ⟨start, rfl⟩ := eq_of_isPunct ht
        cases b <;> rfl
      rw [hn, total_update] at hr
      rw [if_pos ho, hr]
      rfl
    | closes b ht hn =>
      have hcl : t.isPunctOf ["(", "[", "\x7b"] = false ∧ t.isPunctOf [")", "]", "\x7d"] := by
        obtain ⟨start, rfl⟩ := eq_of_isPunct ht
        cases b <;> exact ⟨rfl, rfl⟩
      rw [hcl.1, if_pos hcl.2, hn, total_update, Nat.add_sub_cancel, hr]
      rfl
    | passes hop hclo hn =>
      have ho : t.isPunctOf ["(", "[", "\x7b"] = false := isPunctOf_openings hop [.round, .square, .curly]
      have hcl : t.isPunctOf [")", "]", "\x7d"] = false := isPunctOf_closings hclo [.round, .square, .curly]
      have hins : (decide (total n = 0) && t.isPunctOf [";", ","]) = false := by
        by_cases htotal : total n = 0
        · have hgs : groups n = 0 := Nat.le_zero.1 (htotal ▸ groups_le_total n)
          rw [hgs] at hout
          rw [hout t (mem_outer (isPunctOf_openings hop [.round, .square]) (isPunctOf_closings hclo [.round, .square])),
            Bool.and_false]
        · rw [decide_eq_false htotal, Bool.false_and]
      rw [hn] at hr
      rw [ho, hcl, hins, hr]
      rfl

end Token

namespace Fragment

open Token

variable {F : Fragment} {k i : Nat} {p : Text} {t o c : Token} {ts inside : List Token} {b : Bracket} {n : Nat}

/-! ## Tokens at a position -/

/-- The tokens stand at the position and after it. -/
def Shows (F : Fragment) (k : Nat) (ts : List Token) : Prop :=
  ts <+: F.tokens.drop k

theorem isPunct_eq_false {p' : Text} (h : F.isPunct k p) (hp : p' ≠ p) : F.isPunct k p' = false := by
  obtain ⟨t, ht, hpun⟩ := (Option.any_eq_true _ _).1 h
  obtain ⟨start, rfl⟩ := eq_of_isPunct hpun
  rw [isPunct_of_tok? ht, Token.isPunct, Bool.and_eq_false_imp]
  exact fun _ => beq_eq_false_iff_ne.2 (Ne.symm hp)

theorem not_string_of_isPunct (h : F.isPunct k p) : (F.tok? k).any (·.kind == .string) = false := by
  obtain ⟨t, ht, hp⟩ := (Option.any_eq_true _ _).1 h
  obtain ⟨start, rfl⟩ := eq_of_isPunct hp
  rw [ht]
  rfl

theorem shows_cons : F.Shows k (t :: ts) ↔ F.tok? k = some t ∧ F.Shows (k + 1) ts := by
  constructor
  · rintro ⟨us, hus⟩
    have ht : F.tok? k = some t := by
      have hget : (F.tokens.drop k)[0]? = some t := by rw [← hus]; rfl
      rwa [getElem?_drop] at hget
    rw [drop_of_tok? ht, cons_append, cons.injEq] at hus
    exact ⟨ht, us, hus.2⟩
  · rintro ⟨ht, us, hus⟩
    exact ⟨us, by rw [drop_of_tok? ht, ← hus]; rfl⟩

theorem shows_append {us : List Token} : F.Shows k (ts ++ us) ↔ F.Shows k ts ∧ F.Shows (k + ts.length) us := by
  induction ts generalizing k with
  | nil => simp [Shows]
  | cons t ts ih =>
    rw [cons_append, shows_cons, shows_cons, ih, length_cons, and_assoc, Nat.add_right_comm, Nat.add_assoc]

theorem Shows.exists_tok? (h : F.Shows k ts) (hk : k ≤ i) (hi : i < k + ts.length) : ∃ t ∈ ts, F.tok? i = some t := by
  induction ts generalizing k with
  | nil =>
    rw [length_nil] at hi
    omega
  | cons t ts ih =>
    obtain ⟨ht, hts⟩ := shows_cons.1 h
    rw [length_cons] at hi
    rcases Nat.lt_or_eq_of_le hk with hlt | rfl
    · obtain ⟨u, hu, hui⟩ := ih hts hlt (by omega)
      exact ⟨u, mem_cons_of_mem t hu, hui⟩
    · exact ⟨t, mem_cons_self, ht⟩

theorem Shows.tok? (h : F.Shows k (t :: ts)) : F.tok? k = some t :=
  (shows_cons.1 h).1

/-- The group of a bracket ends where the brackets of its kind balance. -/
theorem Shows.close? (h : F.Shows k (o :: (inside ++ [c]))) (ho : o.isPunct b.opening)
    (hc : c.isPunct b.closing) (hlv : b.level 0 inside = some 0) : F.close? k = some (k + 1 + inside.length) := by
  obtain ⟨hop, us, hus⟩ := shows_cons.1 h
  refine close?_eq_some_iff.2 ⟨b, o, inside.length, hop, opened?_eq_some_iff.2 ho, ?_, Nat.add_comm _ _⟩
  rw [← hus, append_assoc]
  exact closeWithin_of_level hlv (closed?_eq_some_iff.2 hc)

/-! ## Back to the start of a declaration -/

theorem declarationStart_succ (ht : F.tok? k = some t) : F.declarationStart depth (k + 1) =
      if t.isPunctOf [")", "]"] then F.declarationStart (depth + 1) k
      else if t.isPunctOf ["(", "["] then F.declarationStart (depth - 1) k
      else if t.isPunct "\x7d" && (F.isPunct (k + 1) "," || depth > 0) then F.declarationStart (depth + 1) k
      else if t.isPunct "\x7b" && depth > 0 then F.declarationStart (depth - 1) k
      else if depth = 0 && t.isPunctOf [";", "\x7b", "\x7d"] then k + 1 else F.declarationStart depth k := by
  rw [declarationStart, ht]

/-- The walk back goes across tokens but brackets and `;`. -/
theorem declarationStart_plain (h : F.Shows i ts)
    (hpl : ∀ t ∈ ts, t.isPunctOf [";", "(", "[", "\x7b", ")", "]", "\x7d"] = false) :
    F.declarationStart 0 (i + ts.length) = F.declarationStart 0 i := by
  induction ts generalizing i with
  | nil => rfl
  | cons t ts ih =>
    obtain ⟨ht, hts⟩ := shows_cons.1 h
    have hm := hpl t mem_cons_self
    simp only [isPunctOf, any_cons, Bool.or_eq_false_iff] at hm
    rw [length_cons, Nat.add_comm ts.length, ← Nat.add_assoc, ih hts fun u hu => hpl u (mem_cons_of_mem t hu)]
    simp only [declarationStart_succ ht, isPunctOf, any_cons, hm, Bool.or_false, Bool.false_and,
      Bool.and_false, Bool.false_eq_true, if_false]

/-- Back across one token the walk counts as the levels do. -/
theorem declarationStart_shift {n n' : Bracket → Nat} {depth : Nat} (ht : F.tok? i = some t) (hsh : Shifts t n n')
    (hm : t.isPunctOf [";", "\x7d"] → 0 < depth + groups n) :
    F.declarationStart (depth + total n') (i + 1) = F.declarationStart (depth + total n) i := by
  rw [declarationStart_succ ht]
  cases hsh with
  | opens b ho hn =>
    obtain ⟨start, rfl⟩ := eq_of_isPunct ho
    have hpos : decide (depth + total n' > 0) := by
      rw [hn, total_update]
      exact decide_eq_true (Nat.succ_pos _)
    rw [hn, total_update]
    cases b <;> rfl
  | closes b hcl hn =>
    obtain ⟨start, rfl⟩ := eq_of_isPunct hcl
    cases b with
    | curly =>
      have ho := hm rfl
      have hle := groups_le_total n'
      have hs : groups n = groups n' := by
        rw [hn]
        rfl
      have hpos : decide (depth + total n' > 0) := decide_eq_true (by omega)
      rw [hpos, hn, total_update, Bool.or_true]
      rfl
    | round =>
      rw [hn, total_update]
      rfl
    | square =>
      rw [hn]
      rfl
  | passes hop hclo hn =>
    have ho : t.isPunctOf ["(", "["] = false := isPunctOf_openings hop [.round, .square]
    have hcl : t.isPunctOf [")", "]"] = false := isPunctOf_closings hclo [.round, .square]
    have hbr : t.isPunct "\x7b" = false := hop .curly
    have hbr' : t.isPunct "\x7d" = false := hclo .curly
    have he : (decide (depth + total n = 0) && t.isPunctOf [";", "\x7b", "\x7d"]) = false := by
      rw [Bool.and_eq_false_imp, decide_eq_true_iff]
      intro hz
      have hle := groups_le_total n
      have hse : t.isPunctOf [";", "\x7d"] = false := Bool.eq_false_iff.2 fun h => by
        have hpos := hm h
        omega
      simp only [isPunctOf, any_cons, any_nil, hbr', Bool.or_false] at hse
      simp only [isPunctOf, any_cons, any_nil, hse, hbr, hbr', Bool.or_false]
    subst hn
    rw [ho, hcl, hbr, hbr', he]
    rfl

/-- The walk back goes across balanced tokens. -/
theorem declarationStart_cross {n m : Bracket → Nat} (depth : Nat) (h : F.Shows i ts)
    (hlv : ∀ b : Bracket, b.level (n b) ts = some (m b))
    (hins : 0 < depth ∨ ∀ t ∈ outer (groups n) ts, t.isPunctOf [";", "\x7d"] = false) :
    F.declarationStart (depth + total m) (i + ts.length) = F.declarationStart (depth + total n) i := by
  induction ts generalizing i n with
  | nil =>
    have hs : n = m := funext fun b => Option.some.inj (hlv b)
    rw [hs]
    rfl
  | cons t ts ih =>
    obtain ⟨n', hsh, hlv'⟩ := exists_shifts hlv
    obtain ⟨ht, hts⟩ := shows_cons.1 h
    have hr := ih hts hlv' (hins.imp_right fun hout u hu => hout u (hsh.outer_subset ts hu))
    have hm (he : t.isPunctOf [";", "\x7d"]) : 0 < depth + groups n := by
      rcases hins with hdep | hout
      · omega
      · by_contra hz
        have hgs : groups n = 0 := by omega
        obtain ⟨p, hp, hpun⟩ := any_eq_true.1 he
        obtain ⟨start, rfl⟩ := eq_of_isPunct hpun
        have hmem : ⟨.punct, p, start⟩ ∈ outer 0 (⟨.punct, p, start⟩ :: ts) := by
          simp only [mem_cons, not_mem_nil, or_false] at hp
          rcases hp with rfl | rfl
          · exact mem_outer rfl rfl
          · exact mem_outer rfl rfl
        rw [hgs] at hout
        rw [hout _ hmem] at he
        cases he
    rw [length_cons, Nat.add_comm ts.length, ← Nat.add_assoc, hr, declarationStart_shift ht hsh hm]

/-- The walk back goes across a group, or braces before a `,`. -/
theorem declarationStart_group (depth : Nat) (h : F.Shows i (o :: (inside ++ [c]))) (ho : o.isPunct b.opening)
    (hc : c.isPunct b.closing) (hlv : ∀ b' : Bracket, b'.level 0 inside = some 0)
    (hb : b = .curly → F.isPunct (i + 1 + inside.length + 1) ",") :
    F.declarationStart depth (i + 1 + inside.length + 1) = F.declarationStart depth i := by
  obtain ⟨hop, hr⟩ := shows_cons.1 h
  obtain ⟨hins, hcl⟩ := shows_append.1 hr
  have hcr : F.declarationStart (depth + 1) (i + 1 + inside.length) = F.declarationStart (depth + 1) (i + 1) :=
    declarationStart_cross (depth + 1) hins hlv (.inl (Nat.succ_pos depth))
  obtain ⟨start, rfl⟩ := eq_of_isPunct ho
  obtain ⟨start', rfl⟩ := eq_of_isPunct hc
  have hl : F.declarationStart depth (i + 1 + inside.length + 1) = F.declarationStart (depth + 1) (i + 1 + inside.length) := by
    rw [declarationStart_succ hcl.tok?]
    cases b with
    | round => rfl
    | square => rfl
    | curly =>
      rw [hb rfl]
      rfl
  have hfst : F.declarationStart (depth + 1) (i + 1) = F.declarationStart depth i := by
    rw [declarationStart_succ hop]
    cases b <;> rfl
  rw [hl, hcr, hfst]

/-! ## Array dimensions -/

theorem skipDims_group (h : F.Shows k (o :: (inside ++ [c]))) (ho : o.isPunct "[") (hc : c.isPunct "]")
    (hlv : square.level 0 inside = some 0) : F.skipDims k = F.skipDims (k + 1 + inside.length + 1) := by
  have hcl := h.close? (b := .square) ho hc hlv
  rw [skipDims_unfold, isPunct_of_tok? h.tok?, ho, if_pos rfl, hcl, Option.elim_some]

theorem squareOpenBefore?_succ {t : Token} (ht : F.tok? (k + 1) = some t) : F.squareOpenBefore? depth (k + 1) =
      if t.isPunct "[" && depth ≤ 1 then some (k + 1)
      else F.squareOpenBefore? (if t.isPunct "]" then depth + 1 else if t.isPunct "[" then depth - 1 else depth) k := by
  rw [squareOpenBefore?, ht]

/-- The walk back to a bracket goes across balanced square brackets. -/
theorem squareOpenBefore?_cross {m : Nat} (h : F.Shows (i + 1) ts) (hlv : square.level n ts = some m) :
    F.squareOpenBefore? (m + 1) (i + ts.length) = F.squareOpenBefore? (n + 1) i := by
  induction ts generalizing i n with
  | nil =>
    cases hlv
    rfl
  | cons t ts ih =>
    obtain ⟨ht, hts⟩ := shows_cons.1 h
    rw [level] at hlv
    rw [length_cons, Nat.add_comm ts.length, ← Nat.add_assoc]
    split at hlv
    · next ho =>
      obtain ⟨start, rfl⟩ := eq_of_isPunct (opened?_eq_some_iff.1 ho)
      rw [ih hts hlv, squareOpenBefore?_succ ht]
      rfl
    · next ho =>
      split at hlv
      · next hc =>
        obtain ⟨start, rfl⟩ := eq_of_isPunct (closed?_eq_some_iff.1 hc)
        split at hlv
        · cases hlv
        · next hn =>
          rw [ih hts hlv, squareOpenBefore?_succ ht, Nat.sub_add_cancel (Nat.pos_of_ne_zero hn)]
          rfl
      · next hc =>
        have hop : t.isPunct "[" = false := by
          rw [← Bool.not_eq_true]
          exact fun hop => ho (opened?_eq_some_iff.2 hop)
        have hcl : t.isPunct "]" = false := by
          rw [← Bool.not_eq_true]
          exact fun hcl => hc (closed?_eq_some_iff.2 hcl)
        rw [ih hts hlv, squareOpenBefore?_succ ht, hop, hcl]
        rfl

theorem skipDimsBack?_group (h : F.Shows (k + 1) (o :: (inside ++ [c])))
    (ho : o.isPunct "[") (hc : c.isPunct "]") (hlv : square.level 0 inside = some 0) :
    F.skipDimsBack? (k + 1 + inside.length + 1) = F.skipDimsBack? k := by
  obtain ⟨hop, hr⟩ := shows_cons.1 h
  obtain ⟨hins, hcl⟩ := shows_append.1 hr
  obtain ⟨start, rfl⟩ := eq_of_isPunct ho
  obtain ⟨start', rfl⟩ := eq_of_isPunct hc
  have hl : F.tok? (k + 1 + inside.length + 1) = some ⟨.punct, "]", start'⟩ := by
    rw [Nat.add_right_comm (k + 1)]
    exact hcl.tok?
  have hback : F.squareOpenBefore? 0 (k + 1 + inside.length + 1) = some (k + 1) := by
    have hcr : F.squareOpenBefore? 1 (k + 1 + inside.length) = F.squareOpenBefore? 1 (k + 1) :=
      squareOpenBefore?_cross hins hlv
    have hfst : F.squareOpenBefore? 1 (k + 1) = some (k + 1) := squareOpenBefore?_succ hop
    rw [← hfst, ← hcr]
    exact squareOpenBefore?_succ hl
  rw [skipDimsBack?_unfold, isPunct_of_tok? hl, hback]
  rfl

/-! ## Tokens that say nothing -/

/-- A name, or the dimensions after it, can end with this token. -/
def endsName (t : Token) : Bool :=
  t.isIdent || t.isPunctOf ["]", "::"]

/-- Parameters, or qualifiers after them, can end with this token. -/
def endsParams (t : Token) : Bool :=
  t.isWordOf functionQualifiers || t.isWord "throw" || t.isPunctOf [")", "&"]

theorem isPunct_of_endsParams {t : Token} (h : endsParams t) : t.isPunct "]" = false := by
  rw [← Bool.not_eq_true]
  intro hcl
  obtain ⟨start, rfl⟩ := eq_of_isPunct hcl
  cases h

/-- Tokens that start no construct and belong to none. -/
@[mk_iff]
structure Inert (ts : List Token) : Prop where
  plain : ∀ t ∈ ts, t.isWordOf Grammar.structuralWords = false ∧ t.isPunctOf [";", "\x7b", "\x7d"] = false
  apart : ts.IsChain fun s t =>
    (endsName s && t.isPunct "=") = false ∧ (endsParams s && t.isPunctOf [",", ":", "->"]) = false

instance (ts : List Token) : Decidable (Inert ts) :=
  decidable_of_iff _ (inert_iff ts).symm

theorem Inert.drop (h : Inert ts) (n : Nat) : Inert (ts.drop n) :=
  ⟨fun t ht => h.plain t (mem_of_mem_drop ht), h.apart.drop n⟩

/-- Up to the `]` at `e`, the tokens are inert and close what they open. -/
structure InertTo (F : Fragment) (e q : Nat) : Prop where
  closing : F.isPunct e "]" = true
  tokens : ∃ ts, F.Shows q ts ∧ q + ts.length = e ∧ (∀ b : Bracket, ∃ n, b.level n ts = some 0) ∧ Inert ts

/-- A position among inert tokens, right after one of a given form. -/
def InertAfter (F : Fragment) (p : Token → Bool) (e q : Nat) : Prop :=
  ∃ r t, q = r + 1 ∧ F.InertTo e r ∧ r < e ∧ F.tok? r = some t ∧ p t = true

namespace InertTo

variable {p : Token → Bool} {e q q' : Nat} {t : Token}

section

variable (h : InertTo F e q)

include h

theorem le : q ≤ e := by
  obtain ⟨ts, -, hlen, -⟩ := h.tokens
  omega

theorem mono (hq : q ≤ q') (he : q' ≤ e) : InertTo F e q' := by
  obtain ⟨ts, hsh, hlen, hlv, hint⟩ := h.tokens
  have hspl := take_append_drop (q' - q) ts
  have htk : (ts.take (q' - q)).length = q' - q := length_take_of_le (by omega)
  refine ⟨h.closing, ts.drop (q' - q), ?_, ?_, ?_, hint.drop _⟩
  · rw [← hspl] at hsh
    have hd := (shows_append.1 hsh).2
    rwa [htk, Nat.add_sub_cancel' hq] at hd
  · rw [length_drop]
    omega
  · intro b
    obtain ⟨n, hn⟩ := hlv b
    rw [← hspl, level_append] at hn
    obtain ⟨n', -, hn'⟩ := Option.bind_eq_some_iff.1 hn
    exact ⟨n', hn'⟩

theorem lt (ht : F.tok? q = some t) (hne : t.isPunct "]" = false) : q < e := by
  refine Nat.lt_of_le_of_ne h.le ?_
  rintro rfl
  have hcl := h.closing
  rw [isPunct_of_tok? ht, hne] at hcl
  cases hcl

theorem after (ht : F.tok? q = some t) (hne : t.isPunct "]" = false) (hp : p t) : InertAfter F p e (q + 1) :=
  ⟨q, t, rfl, h, h.lt ht hne, ht, hp⟩

theorem exists_tok? (hq : q < e) : ∃ t, F.tok? q = some t ∧ t.isWordOf Grammar.structuralWords = false := by
  obtain ⟨ts, hsh, hlen, -, hint⟩ := h.tokens
  cases ts with
  | nil =>
    rw [length_nil] at hlen
    omega
  | cons t ts => exact ⟨t, hsh.tok?, (hint.plain t mem_cons_self).1⟩

/-- Neither a brace nor a `;` stands there. -/
theorem not_isPunct {w : Text} (hw : w ∈ ([";", "\x7b", "\x7d"] : List Text)) : F.isPunct q w = false := by
  obtain ⟨ts, hsh, hlen, -, hint⟩ := h.tokens
  cases ts with
  | nil =>
    have hne : ∀ w ∈ ([";", "\x7b", "\x7d"] : List Text), w ≠ "]" := by decide
    rw [length_nil, Nat.add_zero] at hlen
    exact isPunct_eq_false (hlen ▸ h.closing) (hne w hw)
  | cons t ts =>
    have hpl := (hint.plain t mem_cons_self).2
    rw [isPunct_of_tok? hsh.tok?]
    rw [isPunctOf, any_eq_false] at hpl
    exact Bool.eq_false_iff.2 (hpl w hw)

/-- What is opened is closed. -/
theorem close? {b : Bracket} (ht : F.isPunct q b.opening) (hb : b.opening ≠ "]") :
    ∃ c, F.close? q = some c ∧ q < c ∧ c < e ∧ F.isPunct c b.closing := by
  have hlt : q < e := by
    refine Nat.lt_of_le_of_ne h.le ?_
    rintro rfl
    rw [isPunct_eq_false h.closing hb] at ht
    cases ht
  obtain ⟨ts, hsh, hlen, hlv, -⟩ := h.tokens
  cases ts with
  | nil =>
    rw [length_nil] at hlen
    omega
  | cons t ts =>
    obtain ⟨htok, us, hus⟩ := shows_cons.1 hsh
    rw [isPunct_of_tok? htok] at ht
    have ho := opened?_eq_some_iff.2 ht
    obtain ⟨n, hn⟩ := hlv b
    rw [level, if_pos ho, Nat.add_comm] at hn
    obtain ⟨j, hj⟩ := exists_closeWithin hn (Nat.zero_le n)
    obtain ⟨-, c, hc, hcb⟩ := level_of_closeWithin hj
    have hjlt := (List.getElem?_eq_some_iff.1 hc).1
    have hctok : F.tok? (j + (q + 1)) = some c := by
      rw [tok?, Nat.add_comm, ← getElem?_drop, ← hus, getElem?_append_left hjlt, hc]
    rw [length_cons] at hlen
    refine ⟨j + (q + 1), close?_eq_some_iff.2 ⟨b, t, j, htok, ho, ?_, rfl⟩, by omega, by omega, ?_⟩
    · rw [← hus]
      exact closeWithin_append hj
    · rw [isPunct_of_tok? hctok]
      exact closed?_eq_some_iff.1 hcb

theorem after_close {b : Bracket} (ht : F.isPunct q b.opening) (hb : b.opening ≠ "]")
    (hp : ∀ start, p ⟨.punct, b.closing, start⟩) : ∃ c, F.close? q = some c ∧ q < c ∧ InertAfter F p e (c + 1) := by
  obtain ⟨c, hcl, hlt, hce, hclo⟩ := h.close? ht hb
  obtain ⟨t, htok, hpun⟩ := (Option.any_eq_true _ _).1 hclo
  obtain ⟨start, rfl⟩ := eq_of_isPunct hpun
  exact ⟨c, hcl, hlt, c, _, rfl, h.mono (Nat.le_of_lt hlt) (Nat.le_of_lt hce), hce, htok, hp start⟩

/-- A segment of a name ends with an identifier. -/
theorem after_segment {name : Text} {n : Nat} (hs : segment? (F.tokens.drop q) = some (name, n)) :
    InertAfter F endsName e (q + n) := by
  have hid {t : Token} (ht : t.isIdent) : t.isPunct "]" = false ∧ endsName t := by
    refine ⟨?_, by rw [endsName, ht, Bool.true_or]⟩
    rw [Token.isPunct, beq_iff_eq.1 ht]
    rfl
  cases hd : F.tokens.drop q with
  | nil =>
    rw [hd] at hs
    cases hs
  | cons t ts =>
    have hsh : F.Shows q (t :: ts) := ⟨[], by rw [hd, append_nil]⟩
    obtain ⟨ht, hr⟩ := shows_cons.1 hsh
    rw [hd, segment?] at hs
    split at hs
    · next hn =>
      cases hs
      exact h.after ht (hid hn).1 (hid hn).2
    · split at hs
      · next htilde =>
        obtain ⟨u, hu, heq⟩ := Option.map_eq_some_iff.1 hs
        cases heq
        obtain ⟨hh, hn⟩ := Option.filter_eq_some_iff.1 hu
        obtain ⟨us, rfl⟩ := head?_eq_some_iff.1 hh
        obtain ⟨start, rfl⟩ := eq_of_isPunct htilde
        exact (h.mono (Nat.le_succ q) (h.lt ht rfl)).after hr.tok? (hid hn).1 (hid hn).2
      · cases hs

end

end InertTo

namespace InertAfter

variable {p : Token → Bool} {e q : Nat}

theorem inert (h : InertAfter F p e q) : InertTo F e q := by
  obtain ⟨r, t, rfl, hint, hlt, -⟩ := h
  exact hint.mono (Nat.le_succ r) hlt

/-- The token there comes after one of that form. -/
theorem apart (h : InertAfter F p e q) : q = e ∨ ∃ s t, p s ∧ F.tok? q = some t ∧ (endsName s && t.isPunct "=") = false ∧
      (endsParams s && t.isPunctOf [",", ":", "->"]) = false := by
  obtain ⟨r, s, rfl, hint, hlt, hs, hp⟩ := h
  obtain ⟨ts, hsh, hlen, -, hts⟩ := hint.tokens
  cases ts with
  | nil =>
    rw [length_nil] at hlen
    omega
  | cons s' ts =>
    obtain ⟨hs', hr⟩ := shows_cons.1 hsh
    cases hs.symm.trans hs'
    cases ts with
    | nil => exact .inl hlen
    | cons t ts =>
      have hap := (isChain_cons_cons.1 hts.apart).1
      exact .inr ⟨s, t, hp, hr.tok?, hap⟩

theorem not_assigned (h : InertAfter F endsName e q) : F.isPunct q "=" = false := by
  rcases h.apart with rfl | ⟨s, t, hs, ht, heq, -⟩
  · exact isPunct_eq_false h.inert.closing (by decide)
  · rwa [hs, ← isPunct_of_tok? ht] at heq

theorem not_continued (h : InertAfter F endsParams e q) {w : Text} (hw : w ∈ ([",", ":", "->"] : List Text)) :
    F.isPunct q w = false := by
  rcases h.apart with rfl | ⟨s, t, hs, ht, -, hmarks⟩
  · have hne : ∀ w ∈ ([",", ":", "->"] : List Text), w ≠ "]" := by decide
    exact isPunct_eq_false h.inert.closing (hne w hw)
  · rw [hs, Bool.true_and, isPunctOf, any_eq_false] at hmarks
    rw [isPunct_of_tok? ht]
    exact Bool.eq_false_iff.2 (hmarks w hw)

theorem skipDims (h : InertAfter F endsName e q) : InertAfter F endsName e (F.skipDims q) := by
  induction hn : e - q using Nat.strongRecOn generalizing q with
  | ind n ih =>
    rw [skipDims_unfold]
    split
    · next ho =>
      obtain ⟨c, hcl, hqc, haft⟩ := h.inert.after_close (b := .square) (p := endsName) ho (by decide)
        (fun start => rfl)
      have hle := haft.inert.le
      rw [hcl]
      exact ih (e - (c + 1)) (by omega) haft rfl
    · exact h

theorem skipQualifiers (h : InertAfter F endsParams e q) : InertAfter F endsParams e (F.skipQualifiers q) := by
  induction hn : e - q using Nat.strongRecOn generalizing q with
  | ind n ih =>
    cases ht : F.tok? q with
    | none =>
      rw [skipQualifiers_of_none ht]
      exact h
    | some t =>
      have harrow : t.isPunct "->" = false := by
        rw [← isPunct_of_tok? ht]
        exact h.not_continued (by decide)
      rw [skipQualifiers_of_tok? ht, harrow]
      split
      · next hqualifier =>
        have he : endsParams t := by
          simp only [endsParams, isPunctOf, any_cons, Bool.or_eq_true] at hqualifier ⊢
          tauto
        have hnx : InertAfter F endsParams e (q + 1) := h.inert.after ht (isPunct_of_endsParams he) he
        have hle := hnx.inert.le
        rw [skipGroup]
        split
        · next ho =>
          obtain ⟨c, hcl, hqc, haft⟩ := hnx.inert.after_close (b := .round) (p := endsParams) ho (by decide)
            (fun start => rfl)
          rw [hcl]
          exact ih (e - (c + 1)) (by omega) haft rfl
        · exact ih (e - (q + 1)) (by omega) hnx rfl
      · exact h

end InertAfter

/-- A name among inert tokens ends among them. -/
theorem InertTo.after_chain {e q : Nat} (h : InertTo F e q) {name : Text}
    (hs : segment? (F.tokens.drop q) = some (name, n)) : InertAfter F endsName e (F.chain q).2 := by
  induction hm : e - q using Nat.strongRecOn generalizing q name n with
  | ind m ih =>
    have hsegment := h.after_segment hs
    rw [chain_of_segment hs]
    split
    · next hcol =>
      obtain ⟨t, ht, hp⟩ := (Option.any_eq_true _ _).1 hcol
      obtain ⟨start, rfl⟩ := eq_of_isPunct hp
      have hnx : InertAfter F endsName e (q + n + 1) := hsegment.inert.after ht rfl rfl
      have hle := hnx.inert.le
      cases hs' : segment? (F.tokens.drop (q + n + 1)) with
      | none =>
        rw [chain_of_segment_none hs']
        exact hnx
      | some seg => exact ih (e - (q + n + 1)) (by omega) hnx.inert hs' rfl
    · exact hsegment

end Fragment

namespace Outline

open Token

variable {F : Fragment} {b : List Enclosing} {e k q : Nat} {t : Token} {b' : List Enclosing} {k' : Nat}
  {found : List OutlineItem}

/-! ## Stretches of the pass -/

/-- The pass goes from one position to another and finds some items. -/
inductive Passes (F : Fragment) : List Enclosing → Nat → List OutlineItem → List Enclosing → Nat → Prop where
  | refl (b : List Enclosing) (k : Nat) : Passes F b k [] b k
  | step {b b' : List Enclosing} {k k' : Nat} {t : Token} {s : Step} {found : List OutlineItem} :
      F.tok? k = some t → step F b k t = some s → Passes F s.blocks (max s.next (k + 1)) found b' k' →
        Passes F b k (s.found.toList ++ found) b' k'

theorem Passes.trans {b'' : List Enclosing} {k'' : Nat} {found' : List OutlineItem} (h : Passes F b k found b' k')
    (h' : Passes F b' k' found' b'' k'') : Passes F b k (found ++ found') b'' k'' := by
  induction h with
  | refl => exact h'
  | step ht hs _ ih =>
    rw [append_assoc]
    exact .step ht hs (ih h')

/-- What the pass finds in a stretch comes before the rest. -/
theorem Passes.scan_eq (h : Passes F b k found b' k') : scan F b k = found ++ scan F b' k' := by
  induction h with
  | refl => rfl
  | step ht hs _ ih => rw [scan_of_step ht hs, ih, append_assoc]

/-- One step that stays in its blocks. -/
theorem Passes.one {next : Nat} {found : Option OutlineItem} (ht : F.tok? k = some t)
    (hs : Outline.step F b k t = some ⟨b, found, next⟩) (hnx : k < next) : Passes F b k found.toList b next := by
  have h := Passes.step ht hs (.refl b (max next (k + 1)))
  rwa [append_nil, Nat.max_eq_left hnx] at h

/-- A token that starts no construct of its own is a name or is passed. -/
theorem step_of_plain (hb : IsSearched b) (hw : t.isWordOf Grammar.structuralWords = false)
    (ho : t.isPunct "\x7b" = false) (hcl : t.isPunct "\x7d" = false)
    (hlink : (t.isIdent && (F.tok? (k + 1)).any (·.kind == .string) && F.isPunct (k + 2) "\x7b") = false) :
    step F b k t = if t.isIdent || t.isPunct "~" then nameStep F b k else some ⟨b, none, k + 1⟩ := by
  have hlinked : (t.isWord "extern" && (F.tok? (k + 1)).any (·.kind == .string) && F.isPunct (k + 2) "\x7b") = false := by
    rw [Bool.and_assoc] at hlink ⊢
    rw [Bool.and_eq_false_imp] at hlink ⊢
    intro hw
    exact hlink (Bool.and_eq_true_iff.1 hw).1
  simp only [isWordOf, Grammar.structuralWords, any_cons, Bool.or_eq_false_iff] at hw
  obtain ⟨hns, htmp, henum, hcls, hstr, hunion, -⟩ := hw
  simp only [step, hcl, if_neg hb, hns, hlinked, htmp, Bool.false_and, henum, isWordOf, any_cons,
    any_nil, hcls, hstr, hunion, Bool.or_false, ho, Bool.false_eq_true, if_false]

/-- A mark that opens or closes no block is passed. -/
theorem passes_mark {p : Text} (hb : IsSearched b) (hk : F.isPunct k p)
    (hp : p ∉ (["\x7b", "\x7d", "~"] : List Text)) : Passes F b k [] b (k + 1) := by
  obtain ⟨t, ht, hpun⟩ := (Option.any_eq_true _ _).1 hk
  obtain ⟨start, rfl⟩ := eq_of_isPunct hpun
  simp only [mem_cons, not_mem_nil, or_false, not_or] at hp
  have hm {p' : Text} (hne : p ≠ p') : Token.isPunct ⟨.punct, p, start⟩ p' = false := by
    simp [Token.isPunct, hne]
  have hs : step F b k ⟨.punct, p, start⟩ = some ⟨b, none, k + 1⟩ := by
    rw [step_of_plain hb rfl (hm hp.1) (hm hp.2.1) rfl, hm hp.2.2]
    rfl
  exact Passes.one ht hs (Nat.lt_succ_self k)

/-! ## The pass over inert tokens -/

theorem callableStep_inert {segments : List Text} {name : Text} {i c : Nat} (h : F.InertAfter endsParams e (c + 1)) :
    callableStep F b k segments name i c = some ⟨b, none, c + 1⟩ := by
  have haft := h.skipQualifiers
  have hcol : F.isPunct (F.skipQualifiers (c + 1)) ":" = false := haft.not_continued (by decide)
  have hbr : F.isPunct (F.skipQualifiers (c + 1)) "\x7b" = false := haft.inert.not_isPunct (by decide)
  have he : F.endsInitializer (c + 1) = false := by
    rw [endsInitializer, h.inert.not_isPunct (by decide), h.not_continued (by decide), Bool.or_false]
  simp only [callableStep, hcol, hbr, he, Bool.and_false, Bool.false_eq_true, if_false, Option.getD_none, Option.map_none]

theorem nameStep_inert (h : F.InertTo e q) (hq : q < e) : ∃ next, nameStep F b q = some ⟨b, none, next⟩ ∧ next ≤ e := by
  cases hs : segment? (F.tokens.drop q) with
  | none =>
    simp only [nameStep, chain_of_segment_none hs]
    exact ⟨q + 1, rfl, hq⟩
  | some seg =>
    have haft := h.after_chain hs
    have heq : F.isPunct (F.skipDims (F.chain q).2) "=" = false := haft.skipDims.not_assigned
    simp only [nameStep, heq, Bool.and_false, Bool.false_eq_true, if_false]
    cases (F.chain q).1.getLast? with
    | none => exact ⟨q + 1, rfl, hq⟩
    | some name =>
      dsimp only
      split
      · exact ⟨_, rfl, haft.inert.le⟩
      · next hc =>
        have hr : F.isPunct (F.chain q).2 "(" := by
          by_contra hr
          exact hc (by rw [Bool.eq_false_iff.2 hr]; rfl)
        obtain ⟨c, hcl, hlt, hend⟩ := haft.inert.after_close (b := .round) (p := endsParams) hr
          (by decide) (fun start => rfl)
        rw [hcl]
        exact ⟨c + 1, callableStep_inert hend, hend.inert.le⟩

theorem step_inert (hb : IsSearched b) (h : F.InertTo e q) (hq : q < e) (ht : F.tok? q = some t)
    (hw : t.isWordOf Grammar.structuralWords = false) : ∃ next, step F b q t = some ⟨b, none, next⟩ ∧ next ≤ e := by
  have ho := h.not_isPunct (w := "\x7b") (by decide)
  have hcl := h.not_isPunct (w := "\x7d") (by decide)
  rw [isPunct_of_tok? ht] at ho hcl
  have hlink : (t.isIdent && (F.tok? (q + 1)).any (·.kind == .string) && F.isPunct (q + 2) "\x7b") = false := by
    rcases Nat.lt_or_eq_of_le hq with hlt | heq
    · have hbr : F.isPunct (q + 2) "\x7b" = false := (h.mono (Nat.le_add_right q 2) hlt).not_isPunct (by decide)
      rw [hbr, Bool.and_false]
    · have hclo := h.closing
      rw [← heq] at hclo
      rw [not_string_of_isPunct hclo, Bool.and_false, Bool.false_and]
  rw [step_of_plain hb hw ho hcl hlink]
  split
  · exact nameStep_inert h hq
  · exact ⟨q + 1, rfl, hq⟩

/-- The pass finds nothing among inert tokens and comes out after them. -/
theorem passes_inert (hb : IsSearched b) (h : F.InertTo e q) : Passes F b q [] b e := by
  induction hn : e - q using Nat.strongRecOn generalizing q with
  | ind n ih =>
    rcases Nat.lt_or_eq_of_le h.le with hlt | rfl
    · obtain ⟨t, ht, hw⟩ := h.exists_tok? hlt
      obtain ⟨next, hs, hnx⟩ := step_inert hb h hlt ht hw
      have hmax : max next (q + 1) ≤ e := by omega
      exact .step ht hs (ih (e - max next (q + 1)) (by omega) (h.mono (by omega) hmax) rfl)
    · exact .refl b q

end Outline

end Declass
