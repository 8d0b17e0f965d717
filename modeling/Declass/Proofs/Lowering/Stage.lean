import Declass.Proofs.Lowering.Clean
import Declass.Proofs.Lowering.Enclosed

/-!
# A lowering in progress

`Stage` says that the tokens written so far and those still to be read stand for the tokens of the text. A run that is replaced
leads to the next stage (`Stage.next`); after a lone `=` form feeds may be `Pending`.
-/

namespace Declass

open List Token

/-! ## Gaps -/

namespace Fragment

variable {todo gs : List Token} {x : Text}

theorem gather_of_head (hh : ∀ t, todo.head? = some t → t.isTrivia = false) (lead : Text) :
    (gather lead todo).1[0]? = some lead := by
  cases todo with
  | nil => rfl
  | cons t todo => rw [gather, if_neg (by rw [hh t rfl]; exact Bool.false_ne_true)]; rfl

/-- The gap before the first significant token. -/
theorem gap_zero (h : tokenize x = gs ++ todo) (hgs : ∀ g ∈ gs, g.isTrivia)
    (hh : ∀ t, todo.head? = some t → t.isTrivia = false) : (ofText x).gap 0 = Token.spelling gs := by
  have hg : (ofText x).gaps = (gather [] (tokenize x)).1 := rfl
  rw [gap, hg, h, gather_trivia hgs, gather_of_head hh]
  rfl

/-- The gap after a significant token. -/
theorem gap_succ {us : List Token} {e : Token} (h : tokenize x = us ++ e :: (gs ++ todo)) (he : e.isTrivia = false)
    (hgs : ∀ g ∈ gs, g.isTrivia) (hh : ∀ t, todo.head? = some t → t.isTrivia = false) :
    (ofText x).gap ((us.filter (!·.isTrivia)).length + 1) = Token.spelling gs := by
  have hg : (ofText x).gaps = (gather [] (tokenize x)).1 := rfl
  have hlen : (gather [] us).1.length = (us.filter (!·.isTrivia)).length + 1 := by
    rw [length_gather_gaps, gather_tokens]
  rw [gap, hg, h, gather_append he, ← hlen, getElem?_append_right (Nat.le_refl _), Nat.sub_self, gather_trivia hgs, gather_of_head hh]
  rfl

end Fragment

/-! ## Stages -/

/-- A name or a number. -/
def Token.isWordlike (t : Token) : Bool :=
  t.kind == .ident || t.kind == .number

namespace Lowering

open Fragment

/-- The tokens `ts` are read up to position `k`, between `done` and `todo`. -/
structure Place (ts : List Token) (k : Nat) (done todo : List Token) : Prop where
  split : ts = done ++ todo
  count : (done.filter (!·.isTrivia)).length = k
  head : ∀ t, todo.head? = some t → t.isTrivia = false

/-- The lowering of `ts` has read `done` and has written `us`. -/
structure Stage (lineStart : Bool) (ts : List Token) (k : Nat) (done us todo : List Token) : Prop extends
    Place ts k done todo where
  stands : Stands lineStart ts (us ++ todo)
  /-- What is written ends with a point, name or number where the source does. -/
  joint : ∀ l, us.getLast? = some l → (l.isPunct "." = true → done.getLast?.any (·.isPunct ".") = true) ∧
    (l.isWordlike = true → done.getLast?.any isWordlike = true)

/-- The lowering has written `us` and white space `w` that takes in form feeds. -/
structure Pending (lineStart : Bool) (ts : List Token) (k : Nat) (done us : List Token) (w : Text) (todo : List Token) : Prop
    extends Place ts k done todo where
  stands : Stands lineStart ts (us ++ absorb w todo)

/-- The lowering has written `us`, whose last white space may be pending. -/
def Reached (lineStart : Bool) (ts : List Token) (k : Nat) (done us todo : List Token) : Prop :=
  Stage lineStart ts k done us todo ∨ ∃ vs w, us = vs ++ [ofSpace w] ∧ Pending lineStart ts k done vs w todo

variable {l : Token}

theorem not_joint_of_isTrivia (h : l.isTrivia) : l.isPunct "." = false ∧ l.isWordlike = false := by
  rw [Token.isPunct, isWordlike]
  cases hk : l.kind <;> simp_all [isTrivia]

theorem isTrivia_of_isWordlike (h : l.isWordlike) : l.isTrivia = false :=
  eq_false_of_excludes (fun ht => (not_joint_of_isTrivia ht).2) h

theorem isWordlike_of_isIdent (h : l.isIdent) : l.isWordlike := by
  rw [isWordlike, Bool.or_eq_true]
  exact .inl h

theorem joint_of_isTrivia (h : l.isTrivia) {P Q : Prop} : (l.isPunct "." → P) ∧ (l.isWordlike → Q) := by
  obtain ⟨hpt, hw⟩ := not_joint_of_isTrivia h
  rw [hpt, hw]
  exact ⟨nofun, nofun⟩

variable {lineStart : Bool} {ts : List Token} {x : Text} {k : Nat} {done us todo : List Token} {t : Token}
  {gs todo' : List Token} {e : Token}

namespace Place

section

variable (h : Place (tokenize x) k done todo)

include h

/-- What is still to be read starts with the token at `k`. -/
theorem tok? (i : Nat) : (ofText x).tok? (k + i) = (todo.filter (!·.isTrivia))[i]? := by
  rw [Fragment.tok?, tokens_ofText, h.split, filter_append, ← h.count,
    getElem?_append_right (Nat.le_add_right _ _), Nat.add_sub_cancel_left]

theorem todo_eq (ht : (ofText x).tok? k = some t) : ∃ rest, todo = t :: rest := by
  have htok := h.tok? 0
  rw [Nat.add_zero, ht] at htok
  cases todo with
  | nil => nomatch htok
  | cons u rest =>
    rw [filter_cons_of_pos (by simp [h.head u rfl])] at htok
    cases htok
    exact ⟨rest, rfl⟩

theorem todo_eq_nil (ht : (ofText x).tok? k = none) : todo = [] := by
  have htok := h.tok? 0
  rw [Nat.add_zero, ht] at htok
  cases todo with
  | nil => rfl
  | cons u rest =>
    rw [filter_cons_of_pos (by simp [h.head u rfl])] at htok
    nomatch htok

/-- The token before position `k`, if nothing stands between. -/
theorem prev?_of_getLast? {p : Token} (hp : done.getLast? = some p) (hsig : p.isTrivia = false) :
    (ofText x).prev? k = some p := by
  obtain ⟨ds, rfl⟩ := getLast?_eq_some_iff.1 hp
  have hcnt := h.count
  rw [filter_append, filter_cons_of_pos (by simp [hsig]), length_append] at hcnt
  obtain rfl : k = (ds.filter (!·.isTrivia)).length + 1 := hcnt.symm
  rw [prev?, Fragment.tok?, tokens_ofText, h.split, append_assoc, filter_append,
    getElem?_append_right (Nat.le_refl _), Nat.sub_self, cons_append,
    filter_cons_of_pos (by simp [hsig])]
  rfl

/-- The tokens that make up `n + 1` positions, and the gap after them. -/
theorem exists_run {n : Nat} (he : (ofText x).tok? (k + n) = some e) :
    ∃ run gs todo', todo = run ++ e :: (gs ++ todo') ∧ (run.filter (!·.isTrivia)).length = n ∧ e.isTrivia = false ∧
      (∀ g ∈ gs, g.isTrivia) ∧ (∀ t, todo'.head? = some t → t.isTrivia = false) ∧ (ofText x).gap (k + n + 1) = spelling gs := by
  rw [h.tok?] at he
  obtain ⟨run, rest, htodo, hcnt, hsig⟩ := split_at todo he
  obtain ⟨gs, todo', rfl, hgs, hh⟩ := exists_span isTrivia rest
  refine ⟨run, gs, todo', htodo, hcnt, hsig, hgs, hh, ?_⟩
  have hspl : tokenize x = (done ++ run) ++ e :: (gs ++ todo') := by rw [h.split, htodo, append_assoc]
  have hgap := gap_succ hspl hsig hgs hh
  rw [filter_append, length_append, h.count, hcnt] at hgap
  exact hgap

end

/-- One token that is read is the one at position `k`. -/
theorem eq_of_one {run rest : List Token} (h : Place (tokenize x) k done (run ++ e :: rest)) (ht : (ofText x).tok? k = some t)
    (hcnt : (run.filter (!·.isTrivia)).length = 0) : run = [] ∧ e = t := by
  obtain ⟨rest', htodo⟩ := h.todo_eq ht
  cases run with
  | nil =>
    cases htodo
    exact ⟨rfl, rfl⟩
  | cons r run =>
    rw [filter_cons_of_pos (by simp [h.head r rfl])] at hcnt
    nomatch hcnt

/-- A run of tokens is read. -/
theorem next {r : List Token} (h : Place ts k done (r ++ e :: (gs ++ todo'))) (he : e.isTrivia = false)
    (hgs : ∀ g ∈ gs, g.isTrivia) (hh : ∀ t, todo'.head? = some t → t.isTrivia = false) :
    Place ts (k + (r.filter (!·.isTrivia)).length + 1) (done ++ r ++ e :: gs) todo' where
  split := by rw [h.split]; simp
  count := by
    rw [filter_append, filter_append, filter_cons_of_pos (by simp [he]), filter_eq_nil_of_isTrivia hgs,
      length_append, length_append, h.count]
    rfl
  head := hh

/-- After pending white space stand tokens that do not count. -/
theorem reached (h : Place ts k done todo) {w : Text} (hgs : ∀ g ∈ gs, g.isTrivia)
    (hst : Stands lineStart ts (us ++ absorb w (gs ++ todo))) : ∃ us', Reached lineStart ts k done us' todo ∧
      Token.spelling us' = Token.spelling us ++ w ++ Token.spelling gs ∧ significant us' = significant us := by
  obtain ⟨as, bs, rfl, hgl, hh⟩ := exists_span isGlue gs
  rw [append_assoc, absorb_append hgl] at hst
  cases bs with
  | nil =>
    refine ⟨us ++ [ofSpace (w ++ Token.spelling as)], .inr ⟨us, _, rfl, h, hst⟩, ?_, ?_⟩
    · rw [append_nil]
      simp [Token.spelling, ofSpace]
    · rw [significant_append]
      exact append_nil _
  | cons b bs =>
    have hab : absorb (w ++ Token.spelling as) (b :: (bs ++ todo)) = _ := absorb_of_head hh
    rw [cons_append, hab] at hst
    refine ⟨us ++ ofSpace (w ++ Token.spelling as) :: b :: bs, .inl ⟨h, by simpa using hst, fun l hl => ?_⟩, ?_, ?_⟩
    · refine joint_of_isTrivia ?_
      rw [getLast?_append_of_ne_nil _ (cons_ne_nil _ _)] at hl
      exact hgs l (mem_append_right as (mem_of_getLast? hl))
    · simp [Token.spelling, ofSpace]
    · rw [significant_append, significant_cons_of_isTrivia rfl,
        significant_eq_nil_iff.2 fun t ht => hgs t (mem_append_right as ht), append_nil]

end Place

namespace Stage

theorem start (hspl : ts = gs ++ todo) (hgs : ∀ g ∈ gs, g.isTrivia)
    (hh : ∀ t, todo.head? = some t → t.isTrivia = false) (hlex : Lexed lineStart ts) : Stage lineStart ts 0 gs gs todo where
  split := hspl
  count := by
    rw [filter_eq_nil_of_isTrivia hgs]
    rfl
  head := hh
  stands := by
    rw [← hspl]
    exact .refl hlex
  joint l hl := joint_of_isTrivia (hgs l (mem_of_getLast? hl))

/-- A run of tokens is read, and others are written for it. -/
theorem next {r n : List Token} {e' : Token} (h : Stage lineStart ts k done us (r ++ e :: (gs ++ todo')))
    (he : e.isTrivia = false) (hgs : ∀ g ∈ gs, g.isTrivia) (hh : ∀ t, todo'.head? = some t → t.isTrivia = false)
    (hst : Stands lineStart ts (us ++ (n ++ e' :: (gs ++ todo')))) (hpt : e'.isPunct "." → e.isPunct ".")
    (hw : e'.isWordlike → e.isWordlike) :
    Stage lineStart ts (k + (r.filter (!·.isTrivia)).length + 1) (done ++ r ++ e :: gs) (us ++ (n ++ [e']) ++ gs) todo' where
  toPlace := h.toPlace.next he hgs hh
  stands := by simpa using hst
  joint := by
    intro l hl
    rcases eq_nil_or_concat' gs with rfl | ⟨gs, g, rfl⟩
    · rw [append_nil, ← append_assoc, getLast?_concat, Option.some.injEq] at hl
      subst hl
      rw [getLast?_concat]
      exact ⟨hpt, hw⟩
    · rw [← append_assoc, getLast?_concat, Option.some.injEq] at hl
      subst hl
      exact joint_of_isTrivia (hgs g (by simp))

/-- A lone `=` is read, and written with its spaces. -/
theorem assign (h : Stage lineStart ts k done us (t :: (gs ++ todo'))) (hwh : ∀ u ∈ ts, u.isWhole)
    (ht : t.isPunct "=") (hgs : ∀ g ∈ gs, g.isTrivia) (hh : ∀ t, todo'.head? = some t → t.isTrivia = false) :
    ∃ us', Reached lineStart ts (k + 1) (done ++ t :: gs) us' todo' ∧
      Token.spelling us' = Text.dropEndWhile isSpaceOrTab (Token.spelling us) ++ " = " ++
        (Token.spelling gs).dropWhile isSpaceOrTab ∧ significant us' = significant us ++ [t.bare] := by
  obtain ⟨vs, ss, rfl, hss, hvs⟩ := Stands.exists_space_end h.stands.lexed.append_left
  obtain ⟨hki, htx⟩ := Token.isPunct_iff.1 ht
  have hnext := h.toPlace.next (r := []) (by rw [isTrivia, hki]) hgs hh
  obtain ⟨ss', gs', rfl, hgl, hnot⟩ := exists_span isGlue gs
  have hst := h.stands
  rw [append_assoc, append_assoc] at hst
  have hold : Copied ts vs := fun u hu => hst.copied u (mem_append_left _ hu)
  have hbef := Stands.dropEndWhile_spelling hst.lexed (hold.whole hwh) hvs htx
  have haft : (Token.spelling (ss' ++ gs')).dropWhile isSpaceOrTab =
      (Token.spelling ss').dropWhile isSpaceOrTab ++ Token.spelling gs' := by
    have hlex := hst.lexed.append_right.append_right.cut.2
    rw [← append_assoc] at hlex
    exact Stands.dropWhile_spelling hlex.append_left hnot
  have hnew := Stands.supplants_assign hst hwh ht hss hvs hgl
  generalize hw : Text.dropEndWhile isSpaceOrTab (Token.spelling ss) ++ [' '] = w at hnew
  generalize hw' : ' ' :: (Token.spelling ss').dropWhile isSpaceOrTab = w' at hnew
  have hsta : Stands lineStart ts ((vs ++ [ofSpace w, ofMark ['=']]) ++ absorb w' (gs' ++ todo')) := by
    have hall : Stands lineStart ts (vs ++ ((ss ++ t :: (ss' ++ (gs' ++ todo').takeWhile isGlue)) ++
        (gs' ++ todo').dropWhile isGlue)) := by
      have heq := takeWhile_append_dropWhile (p := isGlue) (l := gs' ++ todo')
      rw [append_assoc, cons_append, append_assoc, heq]
      exact hst
    have hrep := hall.replace hwh hnew
    rw [append_assoc]
    exact hrep
  obtain ⟨us', hreach, hspells, hsig⟩ := hnext.reached (fun g hg => hgs g (mem_append_right ss' hg)) hsta
  refine ⟨us', by simpa using hreach, ?_, ?_⟩
  · rw [hspells, hbef, haft, ← hw, ← hw']
    simp [Token.spelling, ofSpace, ofMark]
  · have hnil : significant ss = [] := by
      rcases hss with rfl | ⟨s, rfl, hk⟩
      · rfl
      · exact significant_cons_of_isTrivia (by rw [isTrivia, hk]) []
    have hb : (ofMark ['=']).bare = t.bare := by
      rw [bare, bare, hki, htx]
      rfl
    rw [hsig, significant_append, significant_append, hnil, significant_cons_of_isTrivia rfl,
      significant_cons rfl, hb, append_nil]
    rfl

end Stage

/-! ## White space that is pending -/

namespace Reached

/-- Before anything but a form feed the white space is a token. -/
theorem stage (h : Reached lineStart ts k done us (t :: todo)) (ht : t.isGlue = false) :
    Stage lineStart ts k done us (t :: todo) := by
  rcases h with h | ⟨vs, w, rfl, h⟩
  · exact h
  · have hst := h.stands
    rw [absorb_of_head (by intro u hu; cases hu; exact ht), append_cons] at hst
    refine ⟨h.toPlace, hst, fun l hl => joint_of_isTrivia ?_⟩
    rw [getLast?_concat, Option.some.injEq] at hl
    exact hl ▸ rfl

theorem place (h : Reached lineStart ts k done us todo) : Place ts k done todo := by
  rcases h with h | ⟨vs, w, rfl, h⟩
  · exact h.toPlace
  · exact h.toPlace

theorem stands (h : Reached lineStart ts k done us []) : Stands lineStart ts us := by
  rcases h with h | ⟨vs, w, rfl, h⟩
  · simpa using h.stands
  · have hst := h.stands
    rw [absorb_of_head (by rintro _ ⟨⟩)] at hst
    exact hst

/-- A form feed is read, and is written as it is. -/
theorem feed (h : Reached lineStart ts k done us (t :: (gs ++ todo'))) (ht : t.isGlue) (hsig : t.isTrivia = false)
    (hgs : ∀ g ∈ gs, g.isTrivia) (hh : ∀ t, todo'.head? = some t → t.isTrivia = false) :
    ∃ us', Reached lineStart ts (k + 1) (done ++ t :: gs) us' todo' ∧
      Token.spelling us' = Token.spelling us ++ t.text ++ Token.spelling gs := by
  rcases h with h | ⟨vs, w, rfl, h⟩
  · refine ⟨us ++ ([] ++ [t]) ++ gs, .inl ?_, by simp [Token.spelling]⟩
    simpa using h.next (r := []) (n := []) hsig hgs hh h.stands id id
  · have hst := h.stands
    rw [← singleton_append, absorb_append (by simpa using ht)] at hst
    obtain ⟨us', hreach, hspl, -⟩ := (h.toPlace.next (r := []) hsig hgs hh).reached hgs hst
    refine ⟨us', by simpa using hreach, ?_⟩
    rw [hspl]
    simp [Token.spelling, ofSpace]

end Reached

end Lowering

end Declass
