import Declass.Proofs.Lowering.Boundary

/-!
# Statements one after the other

A body is lowered statement by statement: the lowered text of statements that declare nothing outside their blocks, followed
by more text, is their lowered text followed by that of the rest (`Lowering.lower_append`).
-/

namespace Declass

open Fragment List Lowering Token View

/-! ## Views of texts one after the other -/

/-- `V` is a view of the statements of `V₁` followed by the text of `V₂`. -/
structure View.Follows (V₁ V₂ V : View) : Prop where
  joined : Joined V₁.fragment V₂.fragment V.fragment
  goesOn : GoesOn V₁.fragment ⟨V.fragment.gaps, V₁.fragment.tokens ++ V₂.fragment.tokens⟩
  feed : V₁.fragment.spelling.getLast? = some '\n'
  locals : V.locals = V₁.locals ++ V₂.locals.map (BlockLocal.shift V₁.fragment.size)
  stops : ∀ l ∈ V₁.locals, l.stop < V₁.fragment.size
  outer : V.outer = V₁.outer ∧ V.outer = V₂.outer

namespace View.Follows

variable {V₁ V₂ V : View} {k : Nat}

theorem find?_append_of_none {α : Type} {xs ys : List α} {p : α → Bool} (h : ∀ y ∈ ys, p y = false) :
    (xs ++ ys).reverse.find? p = xs.reverse.find? p := by
  rw [reverse_append, find?_append]
  have hno : ys.reverse.find? p = none := by
    rw [find?_eq_none]
    intro y hy
    rw [h y (mem_reverse.1 hy)]
    nofun
  rw [hno, Option.none_or]

/-- The locals of what follows are not visible yet. -/
theorem not_visible_right (hk : k < V₁.fragment.size) :
    ∀ l ∈ V₂.locals.map (BlockLocal.shift V₁.fragment.size), l.isVisibleAt k = false := by
  intro l hl
  obtain ⟨l, -, rfl⟩ := mem_map.1 hl
  have hfst : ¬V₁.fragment.size + l.first ≤ k := by omega
  simp [BlockLocal.isVisibleAt, BlockLocal.shift, hfst]

/-- The locals of the statements are visible no more. -/
theorem not_visible_left (h : Follows V₁ V₂ V) : ∀ l ∈ V₁.locals, l.isVisibleAt (V₁.fragment.size + k) = false := by
  intro l hl
  have hs : ¬V₁.fragment.size + k < l.stop := by
    have := h.stops l hl
    omega
  simp [BlockLocal.isVisibleAt, hs]

theorem isVisibleAt_shift (n : Nat) (l : BlockLocal) : (l.shift n).isVisibleAt (n + k) = l.isVisibleAt k := by
  simp [BlockLocal.isVisibleAt, BlockLocal.shift]

section

variable (h : Follows V₁ V₂ V)

include h

theorem localType?_left (hk : k < V₁.fragment.size) (name : Text) : V.localType? name k = V₁.localType? name k := by
  unfold localType?
  rw [h.locals, h.outer.1, find?_append_of_none]
  intro l hl
  rw [not_visible_right hk l hl, Bool.and_false]

theorem localType?_right (k : Nat) (name : Text) : V.localType? name (V₁.fragment.size + k) = V₂.localType? name k := by
  have hleft : V₁.locals.reverse.find? (fun l => l.name = name && l.isVisibleAt (V₁.fragment.size + k)) = none := by
    rw [find?_eq_none]
    intro l hl
    rw [h.not_visible_left l (mem_reverse.1 hl), Bool.and_false]
    nofun
  unfold localType?
  rw [h.locals, h.outer.2, reverse_append, find?_append, hleft, Option.or_none, ← map_reverse, find?_map]
  simp only [Function.comp_def, isVisibleAt_shift, Option.map_map]
  rfl

theorem localsAt_left (hk : k < V₁.fragment.size) : V.localsAt k = V₁.localsAt k := by
  have hrt : (V₂.locals.map (BlockLocal.shift V₁.fragment.size)).filter (·.isVisibleAt k) = [] := by
    rw [filter_eq_nil_iff]
    intro l hl
    rw [not_visible_right hk l hl]
    nofun
  rw [localsAt, localsAt, h.locals, h.outer.1, filter_append, hrt, append_nil]

theorem localsAt_right (k : Nat) : V.localsAt (V₁.fragment.size + k) = V₂.localsAt k := by
  have hleft : V₁.locals.filter (·.isVisibleAt (V₁.fragment.size + k)) = [] := by
    rw [filter_eq_nil_iff]
    intro l hl
    rw [h.not_visible_left l hl]
    nofun
  rw [localsAt, h.locals, h.outer.2, filter_append, hleft, nil_append, filter_map, map_map]
  simp only [Function.comp_def, isVisibleAt_shift]
  rfl

theorem indentation_left (hk : k < V₁.fragment.size) : V.indentation k = V₁.indentation k := by
  rw [indentation, indentation, h.joined.before_left hk]

theorem indentation_right (k : Nat) : V.indentation (V₁.fragment.size + k) = V₂.indentation k := by
  have hle : .takeEndWhile (· ≠ '\n') (V₁.fragment.spelling ++ V₂.fragment.before k) =
      Text.takeEndWhile (· ≠ '\n') (V₂.fragment.before k) := by
    obtain ⟨z, hz⟩ := getLast?_eq_some_iff.1 h.feed
    rw [Text.takeEndWhile, Text.takeEndWhile, hz, reverse_append, reverse_concat, takeWhile_append,
      takeWhile_cons_of_neg (by decide), append_nil]
    split
    · rename_i hall
      rw [( takeWhile_prefix _).eq_of_length hall]
    · rfl
  rw [indentation, indentation, h.joined.before_right, hle]

/-- What tells of a token by kind and text finds on the left what it does alone. -/
theorem any_left (hk : k < V₁.fragment.size) (f : Token → Bool) (hf : ∀ t : Token, f t.bare = f t) :
    (V.fragment.tok? k).any f = (V₁.fragment.tok? k).any f :=
  any_of_bare (h.joined.tok?_left hk) f hf

theorem any_right (k : Nat) (f : Token → Bool) (hf : ∀ t : Token, f t.bare = f t) :
    (V.fragment.tok? (V₁.fragment.size + k)).any f = (V₂.fragment.tok? k).any f :=
  any_of_bare (h.joined.tok?_right k) f hf

theorem prev?_left (hk : k < V₁.fragment.size) : (V.fragment.prev? k).map bare = (V₁.fragment.prev? k).map bare := by
  cases k with
  | zero => rfl
  | succ k => exact h.joined.tok?_left (Nat.lt_of_succ_lt hk)

/-- The statements end before what follows. -/
theorem prev?_right : ∃ e, V.fragment.prev? V₁.fragment.size = some e ∧ e.isPunctOf statementEnds := by
  obtain ⟨n, e, hn, hl, hend⟩ := exists_end h.goesOn.last
  have hb := h.joined.tok?_left (k := n) (by omega)
  rw [hl] at hb
  obtain ⟨e', he', heq⟩ := Option.map_eq_some_iff.1 hb
  refine ⟨e', by rw [hn]; exact he', ?_⟩
  rw [eq_of_bare (·.isPunctOf statementEnds) (fun _ => rfl) heq]
  exact hend

theorem isAssignment_left (hk : k < V₁.fragment.size) : V.isAssignment k = V₁.isAssignment k := by
  have hp : V.fragment.isPunct k "=" = V₁.fragment.isPunct k "=" := h.any_left hk (·.isPunct "=") fun _ => rfl
  simp only [isAssignment, hp]
  cases heq : V₁.fragment.isPunct k "=" with
  | false => rfl
  | true =>
    have hlt := h.goesOn.succ_lt_of_isPunct heq (by decide)
    have hpv := any_of_bare (h.prev?_left hk)
      (fun t => t.kind == .punct && t.text.all (operatorChars.elem ·)) fun _ => rfl
    have hnx : V.fragment.isPunct (k + 1) "=" = V₁.fragment.isPunct (k + 1) "=" :=
      h.any_left hlt (·.isPunct "=") fun _ => rfl
    rw [h.joined.gap_left hk, h.joined.gap_left hlt, hpv, hnx]

theorem isAssignment_right (k : Nat) : V.isAssignment (V₁.fragment.size + k) = V₂.isAssignment k := by
  have hpun k : V.fragment.isPunct (V₁.fragment.size + k) "=" = V₂.fragment.isPunct k "=" :=
    h.any_right k (·.isPunct "=") fun _ => rfl
  have hglued : ((V.fragment.gap (V₁.fragment.size + k)).isEmpty && (V.fragment.prev? (V₁.fragment.size + k)).any
        fun t => t.kind == .punct && t.text.all (operatorChars.elem ·)) =
      ((V₂.fragment.gap k).isEmpty && (V₂.fragment.prev? k).any
        fun t => t.kind == .punct && t.text.all (operatorChars.elem ·)) := by
    cases k with
    | zero =>
      obtain ⟨e, he, hend⟩ := h.prev?_right
      obtain ⟨p, hp, hpun⟩ := any_eq_true.1 hend
      have hchars : e.text.all (operatorChars.elem ·) = false := by
        rw [isPunct_iff] at hpun
        obtain ⟨-, htx⟩ := hpun
        rw [htx]
        clear htx
        revert p
        decide
      rw [add_zero, he, Option.any_some, hchars, Bool.and_false, Bool.and_false, prev?, Option.any_none, Bool.and_false]
    | succ k =>
      have hpv := h.any_right k (fun t => t.kind == .punct && t.text.all (operatorChars.elem ·)) fun _ => rfl
      rw [h.joined.gap_right, ← add_assoc, prev?, prev?, hpv]
  simp only [isAssignment, hpun, hglued, add_assoc, h.joined.gap_right]

end

end View.Follows

namespace Lowering

/-- The text ends with an object declared by its class and name, without a `;`. -/
def EndsWithObject (L : Lowering) (F : Fragment) : Prop :=
  ∃ k c j, (F.prev? k).all (·.isPunctOf [";", "\x7b", "\x7d", ":"]) = true ∧ (F.text? k).bind L.program.class? = some c ∧
    F.isIdent (k + 1) = true ∧ F.close? (k + 2) = some j ∧ j + 1 = F.size

variable {L : Lowering} {inner : List Var → Text → Text} {V₁ V₂ V : View} {k : Nat} {t t' : Token} {gap out : Text}
  {y x : Text}

/-- The statements are lowered as they are alone. -/
theorem token_left (h : Follows V₁ V₂ V)
    (hobj : V₂.fragment.isPunct 0 ";" → ¬L.EndsWithObject V₁.fragment) (ht : V.fragment.tok? k = some t)
    (ht' : V₁.fragment.tok? k = some t') : token L inner V k t = token L inner V₁ k t' := by
  have hk := lt_size_of_tok? ht'
  have hb : t.bare = t'.bare := by
    have heq := h.joined.tok?_left hk
    rw [ht, ht'] at heq
    exact Option.some.inj heq
  have htys : (V.localType? · k) = (V₁.localType? · k) := by
    funext name
    exact h.localType?_left hk name
  have hts : (V.fragment.suffix k).tokens.map bare =
      (suffix ⟨V.fragment.gaps, V₁.fragment.tokens ++ V₂.fragment.tokens⟩ k).tokens.map bare := by
    rw [suffix, suffix, map_drop, h.joined.tokens, map_drop]
  have hfst : (V₁.fragment.suffix k).tok? 0 = some t' := by rw [tok?_suffix]; exact ht'
  have hpl : L.plan (V.localType? · k) (V.fragment.prev? k) (V.fragment.suffix k) t =
      L.plan (V₁.localType? · k) (V₁.fragment.prev? k) (V₁.fragment.suffix k) t' := by
    rw [htys, plan_congr_of_bare hts hb (h.prev?_left hk)]
    refine (h.goesOn.suffix hk).plan_eq hfst ?_
    intro hst c j hc hid hcl hj
    have hsz : (V₁.fragment.suffix k).size = V₁.fragment.size - k := length_drop
    have hse : isPunct ⟨V.fragment.gaps, V₁.fragment.tokens ++ V₂.fragment.tokens⟩ (k + (j + 1)) ";" =
        V₂.fragment.isPunct 0 ";" := by
      have hj' : k + (j + 1) = V₁.fragment.tokens.length + 0 := by
        have : V₁.fragment.size = V₁.fragment.tokens.length := rfl
        omega
      rw [Fragment.isPunct, tok?, hj', getElem?_append_right (Nat.le_add_right _ _), Nat.add_sub_cancel_left]
      rfl
    rw [isPunct_suffix, hse, Bool.eq_false_iff]
    intro hsemi₂
    refine hobj hsemi₂ ⟨k, c, k + j, hst, ?_, ?_, ?_, by omega⟩
    · rw [text?_suffix] at hc
      exact hc
    · rw [isIdent_suffix] at hid
      exact hid
    · rw [close?_suffix, hcl]
      rfl
  rw [token_eq, token_eq, hpl]
  generalize hP : L.plan (V₁.localType? · k) (V₁.fragment.prev? k) (V₁.fragment.suffix k) t' = P
  obtain ⟨hpos, hle, hg⟩ := plan_fits L ht' hP
  have htx : (P.lowered L inner V k).text = (P.lowered L inner V₁ k).text := by
    refine lowered_text_eq ?_ hpos (fun i hi => h.localsAt_left (by omega)) (h.indentation_left hk)
    intro i j hij
    obtain ⟨hlt, hj, -⟩ := hg i j hij
    exact ⟨by omega, h.joined.between_left (by omega) (by omega)⟩
  exact congrArg (Lowered.mk · (k + P.size)) htx

/-- What follows is lowered as it is alone. -/
theorem token_right (h : Follows V₁ V₂ V) (ht : V.fragment.tok? (V₁.fragment.size + k) = some t)
    (ht' : V₂.fragment.tok? k = some t') : token L inner V (V₁.fragment.size + k) t =
      { text := (token L inner V₂ k t').text, next := V₁.fragment.size + (token L inner V₂ k t').next } := by
  have hb : t.bare = t'.bare := by
    have heq := h.joined.tok?_right k
    rw [ht, ht'] at heq
    exact Option.some.inj heq
  have htys : (V.localType? · (V₁.fragment.size + k)) = (V₂.localType? · k) := by
    funext name
    exact h.localType?_right k name
  have hpl : L.plan (V.localType? · (V₁.fragment.size + k)) (V.fragment.prev? (V₁.fragment.size + k))
        (V.fragment.suffix (V₁.fragment.size + k)) t =
      L.plan (V₂.localType? · k) (V₂.fragment.prev? k) (V₂.fragment.suffix k) t' := by
    rw [htys]
    cases k with
    | zero =>
      obtain ⟨e, he, hend⟩ := h.prev?_right
      have hall : e.isPunctOf [";", "\x7b", "\x7d", ":"] := isPunctOf_of_end hend (by decide)
      have hacc : e.isPunctOf [".", "->", "::"] = false := not_isPunctOf_of_end hend (by decide)
      refine plan_congr (h.joined.tokens_suffix_right 0) hb ?_ ?_ ?_
      · rw [add_zero, he, Option.any_some, not_isIdent_of_end hend, not_isPunct_of_end hend (by decide)]
        rfl
      · rw [add_zero, he, Option.all_some, hall]
        rfl
      · rw [add_zero, he, Option.any_some, hacc]
        rfl
    | succ k => exact plan_congr_of_bare (h.joined.tokens_suffix_right (k + 1)) hb (h.joined.tok?_right k)
  rw [token_eq, token_eq, hpl]
  generalize hP : L.plan (V₂.localType? · k) (V₂.fragment.prev? k) (V₂.fragment.suffix k) t' = P
  obtain ⟨hpos, -, hg⟩ := plan_fits L ht' hP
  have htx : (P.lowered L inner V (V₁.fragment.size + k)).text = (P.lowered L inner V₂ k).text := by
    refine lowered_text_eq ?_ hpos ?_ (h.indentation_right k)
    · intro i j hij
      obtain ⟨hlt, hj, -⟩ := hg i j hij
      exact ⟨by omega, by rw [add_assoc, add_assoc, h.joined.between_right]⟩
    · intro i _
      rw [add_assoc, h.localsAt_right]
  refine .trans (congrArg (Lowered.mk · (V₁.fragment.size + k + P.size)) htx) ?_
  rw [add_assoc]
  rfl

/-! ## Pieces -/

theorem foldl_pieces_gap (a b : Text) :
    (pieces L inner V k (a ++ b)).foldl emit out = (pieces L inner V k b).foldl emit (out ++ a) := by
  cases ht : V.fragment.tok? k with
  | none => simp [pieces_of_none ht, emit]
  | some t =>
    by_cases hasg : V.isAssignment k
    · simp [pieces_of_isAssignment ht hasg, emit]
    · simp [pieces_of_tok? ht hasg rfl, emit]

theorem next_le_size (ht : V.fragment.tok? k = some t) : (token L inner V k t).next ≤ V.fragment.size := by
  have hfits := plan_fits L ht rfl
  rw [token_eq]
  exact hfits.2.1

/-- Statements are lowered as alone, and what follows after them. -/
theorem foldl_pieces_left (h : Follows V₁ V₂ V)
    (hobj : V₂.fragment.isPunct 0 ";" → ¬L.EndsWithObject V₁.fragment) (hk : k < V₁.fragment.size)
    (inner : List Var → Text → Text) (gap out : Text) : (pieces L inner V k gap).foldl emit out =
        (pieces L inner V V₁.fragment.size (V₂.fragment.gap 0)).foldl emit ((pieces L inner V₁ k gap).foldl emit out) ∧
      ∃ y, (pieces L inner V₁ k gap).foldl emit out = y ++ V₁.fragment.gap V₁.fragment.size := by
  have htok : ∀ {k t'}, V₁.fragment.tok? k = some t' → ∃ t, V.fragment.tok? k = some t := by
    intro k t' ht'
    have hb := h.joined.tok?_left (lt_size_of_tok? ht')
    rw [ht'] at hb
    obtain ⟨t, ht, -⟩ := Option.map_eq_some_iff.1 hb
    exact ⟨t, ht⟩
  induction k, gap using pieces.induct L inner V₁ generalizing out with
  | case1 k gap hno => exact absurd hk (Nat.not_lt_of_le (getElem?_eq_none_iff.1 hno))
  | case2 k gap t' ht' hasg ih =>
    obtain ⟨t, ht⟩ := htok ht'
    have hlt : k + 1 < V₁.fragment.size := by
      refine h.goesOn.succ_lt_of_isPunct (p := "=") ?_ (by decide)
      unfold isAssignment at hasg
      rw [Bool.and_eq_true, Bool.and_eq_true] at hasg
      exact hasg.1.1
    have hasg' : V.isAssignment k := (h.isAssignment_left hk).trans hasg
    rw [pieces_of_isAssignment ht hasg', pieces_of_isAssignment ht' hasg, h.joined.gap_left hlt]
    exact ih hlt _
  | case3 k gap t' ht' hasg lowered =>
    rename_i next ih
    obtain ⟨t, ht⟩ := htok ht'
    have hasg' : ¬V.isAssignment k := by rw [h.isAssignment_left hk]; exact hasg
    have hnx : max (token L inner V₁ k t').next (k + 1) = next := rfl
    have hle : next ≤ V₁.fragment.size := by
      have hnext_le : (token L inner V₁ k t').next ≤ V₁.fragment.size := next_le_size ht'
      omega
    have htoken : token L inner V k t = token L inner V₁ k t' := token_left h hobj ht ht'
    rw [pieces_of_tok? (n := next) ht hasg' (by rw [htoken]), pieces_of_tok? ht' hasg hnx, htoken]
    rcases lt_or_eq_of_le hle with hlt | heq
    · rw [h.joined.gap_left hlt]
      exact ih hlt _
    · have hno : V₁.fragment.tok? next = none := by rw [heq]; exact getElem?_eq_none (le_refl _)
      rw [heq] at hno ⊢
      rw [h.joined.gap_between, pieces_of_none hno]
      simp only [foldl_cons, foldl_pieces_gap]
      exact ⟨rfl, _, rfl⟩

theorem pieces_right (L : Lowering) (inner : List Var → Text → Text) (h : Follows V₁ V₂ V) (k : Nat) (gap : Text) :
    pieces L inner V (V₁.fragment.size + k) gap = pieces L inner V₂ k gap := by
  have htok : ∀ {k t'}, V₂.fragment.tok? k = some t' → ∃ t, V.fragment.tok? (V₁.fragment.size + k) = some t := by
    intro k t' ht'
    have hb := h.joined.tok?_right k
    rw [ht'] at hb
    obtain ⟨t, ht, -⟩ := Option.map_eq_some_iff.1 hb
    exact ⟨t, ht⟩
  induction k, gap using pieces.induct L inner V₂ with
  | case1 k gap hno =>
    have hb := h.joined.tok?_right k
    rw [hno] at hb
    rw [pieces_of_none hno, pieces_of_none (Option.map_eq_none_iff.1 hb)]
  | case2 k gap t' ht' hasg ih =>
    obtain ⟨t, ht⟩ := htok ht'
    have hasg' : V.isAssignment (V₁.fragment.size + k) := (h.isAssignment_right k).trans hasg
    rw [pieces_of_isAssignment ht hasg', pieces_of_isAssignment ht' hasg, add_assoc, h.joined.gap_right, ih]
  | case3 k gap t' ht' hasg lowered =>
    rename_i next ih
    obtain ⟨t, ht⟩ := htok ht'
    have hasg' : ¬V.isAssignment (V₁.fragment.size + k) := by rw [h.isAssignment_right]; exact hasg
    have hnx : max (token L inner V₂ k t').next (k + 1) = next := rfl
    have hgap : V.fragment.gap (V₁.fragment.size + next) = V₂.fragment.gap next := by
      obtain ⟨m, hm⟩ : ∃ m, next = m + 1 := ⟨next - 1, by omega⟩
      rw [hm, h.joined.gap_right]
    have htoken : token L inner V (V₁.fragment.size + k) t = _ := token_right h ht ht'
    rw [pieces_of_tok? (n := V₁.fragment.size + next) ht hasg' (by rw [htoken]; dsimp only; omega),
      pieces_of_tok? ht' hasg hnx, htoken, hgap, ih]

/-! ## Statements -/

/-- Whole statements with a line feed at the end and no outer declarations. -/
structure Statements (env : TypeEnv) (x : Text) : Prop where
  terminated : ∀ t ∈ tokenize x, t.isTerminated = true
  /-- No directive goes on at the end. -/
  complete : ∀ t ∈ (tokenize x).getLast?, t.kind ≠ .directive
  balanced : ∀ b : Bracket, b.level 0 (tokenize x) = some 0
  ends : ∃ t ∈ (ofText x).tokens.getLast?, t.isPunctOf statementEnds = true
  feed : x.getLast? = some '\n'
  /-- A declaration is found only within a block and not after a `(`. -/
  undeclared : ∀ k < (ofText x).size, (k = 0 ∨ ((ofText x).prev? k).any FoundLocal.canFollow = true) →
    (FoundLocal.at? env ((ofText x).tokens.drop k)).isSome = true →
      Bracket.curly.level 0 ((ofText x).tokens.take k) ≠ some 0 ∧
        ((ofText x).prev? k).any (·.isPunct "(") = false

namespace Statements

variable {env : TypeEnv} (h : Statements env x)

include h

theorem level_tokens (b : Bracket) : b.level 0 (ofText x).tokens = some 0 := by
  rw [tokens_ofText, level_filter, h.balanced b]

theorem goesOn (gaps : List Text) (us : List Token) : GoesOn (ofText x) ⟨gaps, (ofText x).tokens ++ us⟩ where
  tokens := ⟨us, rfl⟩
  last := h.ends
  close i hi := by
    have htok : tok? ⟨gaps, (ofText x).tokens ++ us⟩ i = (ofText x).tok? i := by
      rw [tok?, tok?, getElem?_append_left hi]
    obtain ⟨t, ht⟩ : ∃ t, (ofText x).tok? i = some t := ⟨_, getElem?_eq_getElem hi⟩
    cases ho : Bracket.opened? t with
    | none =>
      have hbi : (ofText x).tokens[i]?.bind Bracket.opened? = none := by
        rw [tok?] at ht
        rw [ht]
        exact ho
      have hbi' : ((ofText x).tokens ++ us)[i]?.bind Bracket.opened? = none := by
        rw [getElem?_append_left hi, hbi]
      simp only [close?, matchingClose, hbi, hbi']
    | some b =>
      obtain ⟨j, hj⟩ := exists_close? (h.level_tokens b) ht ho
      rw [hj]
      obtain ⟨b', t', n, ht', ho', hn, hj'⟩ := close?_eq_some_iff.1 hj
      refine close?_eq_some_iff.2 ⟨b', t', n, htok.trans ht', ho', ?_, hj'⟩
      rw [drop_append_of_le_length hi]
      exact closeWithin_append hn

theorem undeclared_of_at? (k : Nat) (d : FoundLocal) (hk : k = 0 ∨ ((ofText x).prev? k).any FoundLocal.canFollow)
    (hd : FoundLocal.at? env ((ofText x).tokens.drop k) = some d) : Bracket.curly.level 0 ((ofText x).tokens.take k) ≠ some 0 ∧
      ((ofText x).prev? k).any (·.isPunct "(") = false := by
  refine h.undeclared k ?_ hk (by rw [hd]; rfl)
  have hlt := (GoesOn.at?_spec hd).2.1
  rw [length_drop] at hlt
  rw [size]
  omega

/-- The line feed at the end of statements stands after their last token. -/
theorem getLast?_gap : ((ofText x).gap (ofText x).size).getLast? = some '\n' := by
  obtain ⟨n, e, hsz, he, hend⟩ := exists_end h.ends
  have hx := before_size x
  rw [hsz, before_succ he] at hx
  have hf := h.feed
  rw [← hx, getLast?_append] at hf
  rw [hsz]
  cases hgap : ((ofText x).gap (n + 1)).getLast? with
  | some c =>
    rw [hgap] at hf
    exact hf
  | none =>
    rw [hgap] at hf
    obtain ⟨p, hp, hpun⟩ := any_eq_true.1 hend
    rw [(isPunct_iff.1 hpun).2] at hf
    simp only [statementEnds, mem_cons, not_mem_nil, or_false] at hp
    rcases hp with rfl | rfl <;> simp at hf

/-- The view of statements and what follows them. -/
theorem follows (hform : y.head? ≠ some '\x0c') (outer : List Var) :
    Follows (ofText env outer x) (ofText env outer y) (ofText env outer (x ++ y)) := by
  have hjoined := joined_ofText h.terminated h.complete h.feed hform
  have hgoes := h.goesOn (ofText (x ++ y)).gaps (ofText y).tokens
  have hts : (ofText (x ++ y)).tokens.map bare =
      (Fragment.mk (ofText (x ++ y)).gaps ((ofText x).tokens ++ (ofText y).tokens)).tokens.map
        bare := hjoined.tokens
  obtain ⟨hloc, hstp⟩ := hgoes.blockLocalsFrom_eq (h.level_tokens .curly) h.undeclared_of_at?
    true [] (Nat.zero_le _) (fun _ => .inl rfl) rfl nofun (fun _ => rfl)
  refine ⟨hjoined, hgoes, ?_, ?_, hstp, rfl, rfl⟩
  · exact (congrArg getLast? (spelling_ofText x)).trans h.feed
  · obtain ⟨n, e, hsz, he, hend⟩ := exists_end h.ends
    refine (blockLocals_congr hts).trans (hloc.trans (congrArg _ ?_))
    have hsuf : (suffix ⟨(ofText (x ++ y)).gaps, (ofText x).tokens ++ (ofText y).tokens⟩
        (ofText x).size).tokens = (ofText y).tokens := by
      rw [suffix, size, drop_left]
    refine blockLocalsFrom_add (k := 0) hsuf ?_ (by omega) ?_ []
    · exact length_append
    · rw [hsz, Nat.add_sub_cancel, hgoes.isPunct (by omega), Fragment.isPunct, he, Option.any_some,
        not_isPunct_of_end hend (by decide)]

end Statements

/-- Statements and what follows are lowered one after the other, unless the `;` of an object that the statements declare last
is the first of what follows. -/
theorem lower_append (L : Lowering) {x y : Text} (h : Statements L.program.typeEnv x) (hform : y.head? ≠ some '\x0c')
    (hobject : (ofText y).isPunct 0 ";" = true → ¬L.EndsWithObject (ofText x)) :
    L.lower (x ++ y) = L.lower x ++ L.lower y := by
  have hfollows := h.follows hform []
  obtain ⟨n, -, hsize, -⟩ := exists_end h.ends
  have hpos : 0 < (ofText x).size := by omega
  obtain ⟨hleft, z, hz⟩ := foldl_pieces_left hfollows hobject hpos L.lowerWithin ((ofText x).gap 0) []
  have hright := pieces_right L L.lowerWithin hfollows 0 ((ofText y).gap 0)
  have hstay : Text.dropEndWhile isSpaceOrTab (L.lower x) = L.lower x := by
    obtain ⟨g, hg⟩ := getLast?_eq_some_iff.1 h.getLast?_gap
    have hx : L.lower x = z ++ (g ++ ['\n']) := by
      rw [lower, lowerWithin_eq, level, ← hg]
      exact hz
    rw [hx, ← append_assoc, Text.dropEndWhile_append]
    rfl
  calc L.lower (x ++ y)
      = (pieces L L.lowerWithin (ofText L.program.typeEnv [] (x ++ y)) 0
          ((ofText (x ++ y)).gap 0)).foldl emit [] := by rw [lower, lowerWithin_eq]; rfl
    _ = (pieces L L.lowerWithin (ofText L.program.typeEnv [] y) 0 ((ofText y).gap 0)).foldl emit
          (L.lower x) := by
        have hgap : (ofText (x ++ y)).gap 0 = (ofText x).gap 0 := hfollows.joined.gap_left hpos
        have hx : L.lower x = (pieces L L.lowerWithin (ofText L.program.typeEnv [] x) 0
            ((ofText x).gap 0)).foldl emit [] := by rw [lower, lowerWithin_eq]; rfl
        rw [hgap, hleft, hx]
        exact congrArg (List.foldl emit _) hright
    _ = L.lower x ++ (pieces L L.lowerWithin (ofText L.program.typeEnv [] y) 0
          ((ofText y).gap 0)).foldl emit [] := by
        rw [← foldl_emit_append hstay, append_nil]
    _ = L.lower x ++ L.lower y := by
        rw [lower, lower, lowerWithin_eq L [] y]
        rfl

/-- A program with a class that has a method and a constructor. -/
def ledLowering : Lowering where
  program :=
    { classes := [
        { name := "Led", keyword := .classWord
          methods := [{ name := "set", rawType := "void (int)", params := [⟨some "v", "int"⟩], cName := "Led_set" }]
          constructors := [{ name := "Led", rawType := "void (int)", params := [⟨some "p", "int"⟩], cName := "Led_init_i" }] }] }

theorem lower_append_sample :
    let x := "if (on) \x7b Led led(1); led.set(2) ; \x7d\nled.set(n= 3); // last\n".toList
    let y := " Led led\x7b4\x7d;\nled.set(n);\n".toList
    Statements ledLowering.program.typeEnv x ∧ ledLowering.lower (x ++ y) = ledLowering.lower x ++ ledLowering.lower y := by
  have hx : Statements ledLowering.program.typeEnv "if (on) \x7b Led led(1); led.set(2) ; \x7d\nled.set(n= 3); // last\n".toList :=
    { terminated := by decide +kernel
      complete := by decide +kernel
      balanced := by
        intro b
        cases b <;> decide +kernel
      ends := by decide +kernel
      feed := by decide +kernel
      undeclared := by decide +kernel }
  refine ⟨hx, ledLowering.lower_append hx (by decide) ?_⟩
  intro hsemi
  exact absurd hsemi (by decide +kernel)

/-- The `;` of an object declared at the end is in what follows. -/
theorem lower_append_ne_object :
    ¬∀ (L : Lowering) (x y : Text), Statements L.program.typeEnv x → y.head? ≠ some '\x0c' →
      L.lower (x ++ y) = L.lower x ++ L.lower y := by
  intro h
  have hx : Statements ledLowering.program.typeEnv "Led int\x7b1\x7d\n".toList :=
    { terminated := by decide +kernel
      complete := by decide +kernel
      balanced := by
        intro b
        cases b <;> decide +kernel
      ends := by decide +kernel
      feed := by decide +kernel
      undeclared := by decide +kernel }
  have heq := h ledLowering "Led int\x7b1\x7d\n".toList ";\n".toList hx (by decide)
  exact absurd heq (by decide +kernel)

end Lowering

end Declass
