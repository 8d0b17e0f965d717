import Declass.Proofs.Lowering.Plan
import Declass.Proofs.Token.Concat

/-!
# The walk over a text

`walk` lowers a text with a byte cursor: it copies the bytes up to the next token, puts down what the token becomes and goes on
after the tokens that this took. Main statement: no check of a slice fails, and the result is the lowered text
(`walk_eq_lowerWithin`).
-/

namespace Declass

open Fragment List Text Token

variable {x a b c : Text} {k : Nat} {t : Token}

namespace Fragment

section

variable (ht : (ofText x).tok? k = some t)

include ht

/-- A significant token starts after the bytes before it. -/
theorem start_of_tok? : t.start = byteSize ((ofText x).before k) := by
  rw [tok?, tokens_ofText] at ht
  obtain ⟨us, vs, hspl, rfl, hsig⟩ := split_at _ ht
  have hpl : Placed 0 (us ++ t :: vs) := hspl ▸ placed_tokenizeFrom true 0 x
  rw [before_eq hspl hsig, hpl.start_eq, zero_add]

theorem stop_of_tok? : t.stop = byteSize ((ofText x).before k ++ t.text) := by
  rw [stop, start_of_tok? ht, byteSize_append]

/-- No significant token starts with a space or a tab. -/
theorem head?_text_of_tok? : t.text.head?.any Lowering.isSpaceOrTab = false := by
  rw [tok?, tokens_ofText] at ht
  obtain ⟨us, vs, hspl, rfl, hsig⟩ := split_at _ ht
  have hlex : Lexed true (us ++ t :: vs) := hspl ▸ lexed_tokenizeFrom true 0 x
  cases hlex.append_right with
  | cons c r htext hl h =>
    rw [htext, head?_cons, Option.any_some, Bool.eq_false_iff]
    intro hc
    have hspace : startsSpace c := by
      simp only [startsSpace, Lowering.isSpaceOrTab, Bool.or_eq_true] at hc ⊢
      exact .inl (.inl hc)
    have hkind : t.kind = .space := (Prod.ext_iff.1 (hl.eq.symm.trans (Lexeme.space hspace).eq)).1
    simp [isTrivia, hkind] at hsig

/-- The spaces and tabs after a token stand in the gap after it. -/
theorem takeWhile_after : ∃ rest, x = (ofText x).before k ++ t.text ++ rest ∧
      rest.takeWhile Lowering.isSpaceOrTab = ((ofText x).gap (k + 1)).takeWhile Lowering.isSpaceOrTab := by
  obtain ⟨rest, hx, hrest⟩ := exists_before (k := k + 1) (lt_size_of_tok? ht)
  refine ⟨(ofText x).gap (k + 1) ++ rest, ?_, ?_⟩
  · conv_lhs => rw [hx, before_succ ht, append_assoc]
  · refine takeWhile_append_of_stop fun _ d hd => ?_
    cases hn : (ofText x).tok? (k + 1) with
    | some u =>
      obtain ⟨rest', rfl⟩ := hrest u hn
      have hhead := head?_text_of_tok? hn
      rw [head?_append_of_ne_nil _ (text_ne_nil_of_tok? hn)] at hd
      rwa [hd] at hhead
    | none =>
      have hsize : k + 1 = (ofText x).size := le_antisymm (lt_size_of_tok? ht) (getElem?_eq_none_iff.1 hn)
      rw [hsize, before_size] at hx
      rw [self_eq_append_right.1 hx] at hd
      nomatch hd

end

end Fragment

namespace Lowering

variable {L : Lowering} {inner : List Var → Text → Text} {V : View} {outer : List Var} {out gap : Text}

/-- A step of the walk: tokens `first` up to `next`, and the cursor before it. -/
structure Stride where
  first : Nat
  next : Nat
  cursor : Nat

/-- The positions that a step takes. -/
def Stride.positions (s : Stride) : List Nat :=
  range' s.first (s.next - s.first)

/-- The walk from `k` and byte `cursor` on. There is no result if a slice fails or a step takes no token. -/
def walk (L : Lowering) (inner : List Var → Text → Text) (V : View) (x : Text) (k cursor : Nat) (out : Text) :
    Option (List Stride × Text) :=
  match _h : V.fragment.tok? k with
  | none => do
    let tail ← x.slice? cursor (byteSize x)
    return ([], out ++ tail)
  | some t => do
    let gap ← x.slice? cursor t.start
    if V.isAssignment k then
      let rest ← x.slice? t.stop (byteSize x)
      let (steps, y) ← walk L inner V x (k + 1) (t.stop + byteSize (rest.takeWhile isSpaceOrTab))
        (dropEndWhile isSpaceOrTab (out ++ gap) ++ " = ")
      return (⟨k, k + 1, cursor⟩ :: steps, y)
    else
      if _hk : k < (token L inner V k t).next then
        let next := (token L inner V k t).next
        let after := (V.fragment.tok? (next - 1)).elim (byteSize x) stop
        let (steps, y) ← walk L inner V x (token L inner V k t).next after (out ++ gap ++ (token L inner V k t).text)
        return (⟨k, next, cursor⟩ :: steps, y)
      else none
termination_by V.fragment.size - k
decreasing_by
  all_goals
    have := lt_size_of_tok? _h
    omega

/-- A step takes a token, and its cursor is between characters, not past it. -/
def Stride.Sound (x : Text) (s : Stride) : Prop :=
  s.first < s.next ∧ String.Pos.Raw.IsValid (String.ofList x) ⟨s.cursor⟩ ∧
    ∃ t, (ofText x).tok? s.first = some t ∧ s.cursor ≤ t.start

/-- The steps from position `k` on take each token once. -/
def Covers (x : Text) (k : Nat) (steps : List Stride) : Prop :=
  steps.flatMap Stride.positions = range' k ((ofText x).size - k) ∧ ∀ s ∈ steps, s.Sound x

theorem Covers.cons {n cursor : Nat} {steps : List Stride} (h : Covers x n steps) (hkn : k < n) (hn : n ≤ (ofText x).size)
    (hbefore : (ofText x).before k = a ++ gap) (ht : (ofText x).tok? k = some t) (hc : cursor = byteSize a) :
    Covers x k (⟨k, n, cursor⟩ :: steps) := by
  subst hc
  constructor
  · rw [flatMap_cons, h.1, Stride.positions]
    rw [show (ofText x).size - k = (n - k) + ((ofText x).size - n) by omega, ← range'_append_1,
      show k + (n - k) = n by omega]
  · rintro s (_ | ⟨_, hs⟩)
    · obtain ⟨rest, hx, -⟩ := exists_before (le_of_lt (lt_size_of_tok? ht))
      refine ⟨hkn, ?_, t, ht, ?_⟩
      · rw [hx, hbefore, append_assoc]
        exact isValid_byteSize a (gap ++ rest)
      · rw [start_of_tok? ht, hbefore, byteSize_append]
        exact Nat.le_add_right _ _
    · exact h.2 s hs

/-! ## The checks of one step -/

theorem walk_of_none {cursor : Nat} {tail : Text} (hno : V.fragment.tok? k = none)
    (hs : x.slice? cursor (byteSize x) = some tail) : walk L inner V x k cursor out = some ([], out ++ tail) := by
  rw [walk.eq_def]
  split
  next => rw [hs]; rfl
  next t ht => cases hno.symm.trans ht

theorem walk_of_isAssignment {cursor : Nat} {rest y : Text} {steps : List Stride} (ht : V.fragment.tok? k = some t)
    (hasg : V.isAssignment k) (hgap : x.slice? cursor t.start = some gap) (hrest : x.slice? t.stop (byteSize x) = some rest)
    (hw : walk L inner V x (k + 1) (t.stop + byteSize (rest.takeWhile isSpaceOrTab))
      (dropEndWhile isSpaceOrTab (out ++ gap) ++ " = ") = some (steps, y)) :
    walk L inner V x k cursor out = some (⟨k, k + 1, cursor⟩ :: steps, y) := by
  rw [walk.eq_def]
  split
  next hno => cases hno.symm.trans ht
  next t' ht' =>
    cases ht.symm.trans ht'
    simp only [hgap, hrest, hw, if_pos hasg, Option.bind_eq_bind, Option.bind_some]
    rfl

theorem walk_of_tok? {cursor n : Nat} {t' : Token} {y : Text} {steps : List Stride} (ht : V.fragment.tok? k = some t)
    (hasg : ¬V.isAssignment k) (hgap : x.slice? cursor t.start = some gap) (hnext : (token L inner V k t).next = n + 1)
    (hn : k ≤ n) (ht' : V.fragment.tok? n = some t')
    (hw : walk L inner V x (n + 1) t'.stop (out ++ gap ++ (token L inner V k t).text) = some (steps, y)) :
    walk L inner V x k cursor out = some (⟨k, n + 1, cursor⟩ :: steps, y) := by
  rw [walk.eq_def]
  split
  next hno => cases hno.symm.trans ht
  next u hu =>
    cases ht.symm.trans hu
    simp only [hgap, if_neg hasg, hnext, Nat.add_sub_cancel, ht', Option.elim_some, hw, Option.bind_eq_bind, Option.bind_some,
      dif_pos (Nat.lt_succ_of_le hn)]
    rfl

/-- What a token becomes takes it and ends with a token of the text. -/
theorem exists_next (L : Lowering) (ht : V.fragment.tok? k = some t) :
    ∃ n, (token L inner V k t).next = n + 1 ∧ k ≤ n ∧ n < V.fragment.size := by
  obtain ⟨hpos, hfits, -⟩ := plan_fits L ht rfl
  rw [token_eq]
  exact ⟨_, (Nat.sub_add_cancel (le_trans hpos (Nat.le_add_left _ k))).symm, by omega, by omega⟩

theorem slice?_gap (ht : (ofText x).tok? k = some t) (hbefore : (ofText x).before k = a ++ gap) :
    x.slice? (byteSize a) t.start = some gap := by
  obtain ⟨rest, hx, -⟩ := exists_before (le_of_lt (lt_size_of_tok? ht))
  rw [start_of_tok? ht, hbefore]
  rw [hbefore] at hx
  rw [hx]
  exact slice?_append a gap rest

/-- The walk after the text `a` puts down the pieces from there on. -/
theorem walk_eq (hV : V.fragment = ofText x) (hk : k ≤ (ofText x).size) (hbefore : (ofText x).before k = a ++ gap) :
    ∃ steps, walk L inner V x k (byteSize a) out = some (steps, (pieces L inner V k gap).foldl emit out) ∧ Covers x k steps := by
  induction k, gap using pieces.induct L inner V generalizing a out with
  | case1 k gap hno =>
    have hsize : k = (ofText x).size := le_antisymm hk (getElem?_eq_none_iff.1 (hV ▸ hno))
    rw [hsize, before_size] at hbefore
    refine ⟨[], ?_, by rw [hsize, Nat.sub_self]; rfl, by simp⟩
    rw [pieces_of_none hno]
    refine walk_of_none hno ?_
    rw [hbefore]
    exact slice?_byteSize a gap
  | case2 k gap t ht hasg ih =>
    have ht' : (ofText x).tok? k = some t := hV ▸ ht
    obtain ⟨rest, hx, hblank⟩ := takeWhile_after ht'
    have hnext : (ofText x).before (k + 1) = (a ++ gap ++ t.text ++ rest.takeWhile isSpaceOrTab) ++
        (V.fragment.gap (k + 1)).dropWhile isSpaceOrTab := by
      rw [before_succ ht', hbefore, hblank, hV, append_assoc _ (takeWhile _ _), takeWhile_append_dropWhile]
    obtain ⟨steps, hw, hcov⟩ := @ih _ (dropEndWhile isSpaceOrTab (out ++ gap) ++ " = ") (lt_size_of_tok? ht') hnext
    refine ⟨⟨k, k + 1, byteSize a⟩ :: steps, ?_, hcov.cons (Nat.lt_succ_self k) (lt_size_of_tok? ht') hbefore ht' rfl⟩
    have hstop := stop_of_tok? ht'
    rw [hbefore] at hstop hx
    have hrest : x.slice? t.stop (byteSize x) = some rest := by
      rw [hstop, hx]
      exact slice?_byteSize (a ++ gap ++ t.text) rest
    rw [byteSize_append, ← hstop] at hw
    rw [pieces_of_isAssignment ht hasg]
    exact walk_of_isAssignment ht hasg (slice?_gap ht' hbefore) hrest hw
  | case3 k gap t ht hasg =>
    rename_i next ih
    have ht' : (ofText x).tok? k = some t := hV ▸ ht
    obtain ⟨n, hn, hkn, hlt⟩ := @exists_next _ _ inner V L ht
    have hmax : max (token L inner V k t).next (k + 1) = n + 1 := by rw [hn, max_eq_left (Nat.succ_le_succ hkn)]
    have hnx : next = n + 1 := hmax
    rw [hnx] at ih
    rw [hV] at hlt
    obtain ⟨u, hu⟩ : ∃ u, (ofText x).tok? n = some u := ⟨_, getElem?_eq_getElem hlt⟩
    have hnext : (ofText x).before (n + 1) = ((ofText x).before n ++ u.text) ++ V.fragment.gap (n + 1) := by
      rw [before_succ hu, hV]
    obtain ⟨steps, hw, hcov⟩ := @ih _ (out ++ gap ++ (token L inner V k t).text) hlt hnext
    refine ⟨⟨k, n + 1, byteSize a⟩ :: steps, ?_, hcov.cons (Nat.lt_succ_of_le hkn) hlt hbefore ht' rfl⟩
    rw [← stop_of_tok? hu] at hw
    rw [pieces_of_tok? ht hasg hmax]
    exact walk_of_tok? ht hasg (slice?_gap ht' hbefore) hn hkn (hV ▸ hu) hw

/-- Lowering takes each significant token just once. The byte cursor always stands between two characters and never after the
next token, so every slice is one of the text. The arguments that are lowered are texts shorter than the whole. -/
theorem walk_eq_lowerWithin (L : Lowering) (outer : List Var) (x : Text) :
    ∃ steps, walk L L.lowerWithin (View.ofText L.program.typeEnv outer x) x 0 0 [] = some (steps, L.lowerWithin outer x) ∧
      steps.flatMap Stride.positions = range (ofText x).size ∧ (∀ s ∈ steps, s.Sound x) ∧
      ∀ inner, (∀ visible y, y.length < x.length → inner visible y = L.lowerWithin visible y) →
        level L inner outer x = L.lowerWithin outer x := by
  have hstart : (ofText x).before 0 = [] ++ (ofText x).gap 0 := by
    have hlen := Fragment.length_gaps x
    rw [Fragment.before, Fragment.gap, nil_append, take_zero]
    cases hg : (ofText x).gaps with
    | nil => rw [hg] at hlen; cases hlen
    | cons g gs => rfl
  obtain ⟨steps, hw, hcov⟩ :=
    @walk_eq x _ 0 L L.lowerWithin (View.ofText L.program.typeEnv outer x) [] _ rfl (Nat.zero_le _) hstart
  refine ⟨steps, ?_, ?_, hcov.2, fun inner h => ?_⟩
  · rw [lowerWithin_eq]
    exact hw
  · rw [hcov.1, range_eq_range', Nat.sub_zero]
  · rw [lowerWithin_eq]
    exact level_congr h

end Lowering

end Declass
