import Declass.Proofs.Lowering.Names
import Declass.Proofs.Lowering.Taken

/-!
# What a plan writes

For each plan, the tokens that are written for the tokens it takes. In a steady text they can be put in the place of these
tokens, and in a clean one their significant tokens are those that `Plan.tokens` says (`Reads.exists_written`).
-/

namespace Declass

open List
open Text (allBlank takeEndWhile)

namespace Token

open Scan

variable {d : Char} {t : Token} {rest : Text}

/-! ## Characters after a token -/

theorem continuesIdent_of_starts {P : Prop} (h : startsIdent d ∨ d.isDigit ∧ P) : continuesIdent d :=
  h.elim continuesIdent_of_startsIdent fun hd => continuesIdent_of_isDigit hd.1

theorem continuesIdent_of_numberLength {hex : Bool} {prev : Char} {t : Text}
    (h : numberLength hex prev (t ++ d :: rest) = t.length) : continuesIdent d = false := by
  induction t generalizing prev with
  | nil =>
    rw [Bool.eq_false_iff]
    intro hd
    have hq : (d != '\'') := bne_iff_ne.2 (ne_of_holds hd rfl)
    rw [nil_append, numberLength_cons, continuesNumber_of_continuesIdent hd, hq, Bool.true_or] at h
    cases h
  | cons c t ih =>
    rw [cons_append, numberLength_cons, length_cons] at h
    split at h
    · exact ih (add_right_cancel h)
    · omega

/-- No character that a name goes on with follows a name or number. -/
theorem Cut.continuesIdent_eq_false {lineStart : Bool} (h : Cut lineStart rest t.kind t.text) (hw : t.isWordlike)
    (hd : rest.head? = some d) : continuesIdent d = false := by
  obtain ⟨rest, rfl⟩ := head?_eq_some_iff.1 hd
  generalize hk : t.kind = kind at h
  generalize t.text = text at h
  rw [isWordlike, hk] at hw
  cases h with
  | ident _ hn => exact (takeWhile_stop hn).2 d rfl
  | digit _ hn => exact continuesIdent_of_numberLength hn
  | point _ hn => exact continuesIdent_of_numberLength hn
  | space | line | block | directive | string | char | pair | single => cases hw

/-- A token that is no name or number takes up no letter, and rarely a digit. -/
theorem takesUp_of_continuesIdent (hw : t.isWordlike = false) (hd : continuesIdent d)
    (hpt : t.isPunct "." → d.isDigit = false) : t.takesUp d = false := by
  have hne c hc : (d == c) = false := beq_eq_false_iff_ne.2 (ne_of_holds hd hc)
  rw [isWordlike, Bool.or_eq_false_iff] at hw
  rw [takesUp]
  cases hk : t.kind with
  | space => exact isSpace_eq_false_of_continuesIdent hd
  | ident => rw [hk] at hw; cases hw.1
  | number => rw [hk] at hw; cases hw.2
  | punct =>
    have hdig : (t.text == ['.'] && d.isDigit) = false := by
      rw [Bool.and_eq_false_imp]
      intro htx
      refine hpt ?_
      rw [isPunct, hk]
      exact htx
    simp only [hne '/' rfl, hne '*' rfl, hne ':' rfl, hne '>' rfl, hdig,
      Bool.and_false, Bool.or_self]
  | string | char | comment | directive => rfl

/-- A number, wherever it stands. -/
def ofNumber (w : Text) : Token :=
  ⟨.number, w, 0⟩

theorem Lexed.digit_cons {c : Char} {ts : List Token} (hc : c.isDigit) (h : Lexed false ts)
    (hs : ∀ d, (spelling ts).head? = some d → continuesNumber false d = false) (lineStart : Bool) :
    Lexed lineStart (ofNumber [c] :: ts) := by
  refine .cons c [] rfl ?_ h
  have hz : numberLength (c == '0' && (spelling ts).head? == some 'x') c (spelling ts) = 0 := by
    cases hts : spelling ts with
    | nil => rfl
    | cons d rest =>
      have hd := hs d (by rw [hts]; rfl)
      rw [numberLength_cons, isExponent_of_isDigit hc, Bool.false_and, hd, Bool.false_and, if_neg (by decide)]
  have hlex : Lexeme lineStart c (spelling ts) .number
      (numberLength (c == '0' && (spelling ts).head? == some 'x') c (spelling ts)) := .digit hc
  rw [hz] at hlex
  exact hlex

/-- A token is cut as itself. -/
theorem Lexed.self {b : Bool} {ts : List Token} (h : Lexed b (t :: ts)) (hsnd : t.isSound) (hsig : t.isTrivia = false) :
    Lexed true [t] := by
  have hrun : Lexed b ([t] ++ ts) := h
  refine hrun.append_left.anywhere ?_ ?_ true
  · intro u hu
    cases mem_singleton.1 hu
    exact (isSound_iff.1 hsnd).2.1
  · intro u hu
    cases mem_singleton.1 hu
    exact (kind_ne_of_not_isTrivia hsig).2

end Token

open Token Scan

namespace Lowering

open Fragment

/-! ## The tokens that are taken -/

namespace Place

variable {x : Text} {k i j : Nat} {done as ms bs run rest : List Token} {e : Token}

/-- Of two lists that start a list, one is part of the other. -/
theorem exists_append {as bs cs ds : List Token} (h : as ++ bs = cs ++ ds)
    (hcnt : (as.filter (!·.isTrivia)).length ≤ (cs.filter (!·.isTrivia)).length)
    (hsig : (∀ t, as.getLast? = some t → t.isTrivia = false) ∨ ∀ t, ds.head? = some t → t.isTrivia = false) :
    ∃ ms, cs = as ++ ms ∧ bs = ms ++ ds := by
  rcases append_eq_append_iff.1 h with ⟨ms, hcs, hbs⟩ | ⟨ms, rfl, rfl⟩
  · exact ⟨ms, hcs, hbs⟩
  · have hnone : (ms.filter (!·.isTrivia)).length = 0 := by
      rw [filter_append, length_append] at hcnt
      omega
    have htr : ∀ t ∈ ms, t.isTrivia := by simpa using filter_eq_nil_iff.1 (eq_nil_of_length_eq_zero hnone)
    obtain rfl : ms = [] := by
      by_contra hne
      rcases hsig with hl | hh
      · have hlast := htr _ (getLast_mem hne)
        rw [hl _ (by rw [getLast?_append_of_ne_nil _ hne, getLast?_eq_some_getLast hne])] at hlast
        cases hlast
      · have hhead := htr _ (head_mem hne)
        rw [hh _ (by rw [head?_append_of_ne_nil _ hne, head?_eq_some_head hne])] at hhead
        cases hhead
    exact ⟨[], by simp, rfl⟩

/-- Tokens are neutral if those that count are. -/
theorem isNeutral_of_tok? (h : Place (tokenize x) k done (as ++ (ms ++ bs)))
    (hpl : ∀ a u, (as.filter (!·.isTrivia)).length ≤ a → a < ((as ++ ms).filter (!·.isTrivia)).length →
      (ofText x).tok? (k + a) = some u → u.isNeutral) : ∀ u ∈ ms, u.isNeutral := by
  intro u hu
  cases htr : u.isTrivia with
  | true => exact isNeutral_of_isTrivia htr
  | false =>
    obtain ⟨a, ha⟩ := mem_iff_getElem?.1 (mem_filter.2 ⟨hu, by rw [htr]; rfl⟩ : u ∈ ms.filter (!·.isTrivia))
    have hlt : a < (ms.filter (!·.isTrivia)).length := (List.getElem?_eq_some_iff.1 ha).1
    refine hpl ((as.filter (!·.isTrivia)).length + a) u (Nat.le_add_right _ _) ?_ ?_
    · rw [filter_append, length_append]
      omega
    · rw [h.tok?, filter_append, getElem?_append_right (Nat.le_add_right _ _), Nat.add_sub_cancel_left, filter_append,
        getElem?_append_left hlt, ha]

/-- The tokens taken hold those of a group, and neutral ones around. -/
theorem holds (h : Place (tokenize x) k done (run ++ e :: rest)) (he : e.isTrivia = false) (g : Bracketed x (k + i) (k + j))
    (hj : j ≤ (run.filter (!·.isTrivia)).length) (hpl : ∀ a u, a < i ∨ j < a → a ≤ (run.filter (!·.isTrivia)).length →
      (ofText x).tok? (k + a) = some u → u.isNeutral) : Holds (run ++ [e]) g.inside := by
  have hcnt := h.count
  have hfirst := g.first
  have hlast := g.last
  obtain ⟨mid, hbef, htodo⟩ := exists_append (h.split.symm.trans g.split) (by omega) (.inr fun t ht => by
    cases ht
    exact g.significant.1)
  have hmid : (mid.filter (!·.isTrivia)).length = i := by
    rw [hbef, filter_append, length_append] at hfirst
    omega
  have hlen : ((mid ++ g.opener :: (g.inside ++ [g.closer])).filter (!·.isTrivia)).length = j + 1 := by
    simp [g.significant.1, g.significant.2]
    omega
  have hsplit : (mid ++ g.opener :: (g.inside ++ [g.closer])) ++ g.after = (run ++ [e]) ++ rest := by
    simpa using htodo.symm
  obtain ⟨tail, hrun, hafter⟩ := exists_append hsplit (by rw [hlen]; simp [he]; omega) (.inl fun t ht => by
    rw [append_cons, ← append_assoc, getLast?_concat, Option.some.injEq] at ht
    exact ht ▸ g.significant.2)
  have hrun' : run ++ [e] = mid ++ g.opener :: (g.inside ++ g.closer :: tail) := by simpa using hrun
  have htaken : ((run ++ [e]).filter (!·.isTrivia)).length = (run.filter (!·.isTrivia)).length + 1 := by simp [he]
  rw [hrun']
  refine .group g.opened g.closed g.level fun u hu => ?_
  rcases mem_append.1 hu with hu | hu
  · have hplace : Place (tokenize x) k done ([] ++ (mid ++ (g.opener :: (g.inside ++ g.closer :: g.after)))) := htodo ▸ h
    refine hplace.isNeutral_of_tok? (fun a u _ ha => hpl a u (.inl ?_) ?_) u hu
    · rw [nil_append] at ha
      omega
    · rw [nil_append] at ha
      omega
  · have hplace : Place (tokenize x) k done ((mid ++ g.opener :: (g.inside ++ [g.closer])) ++ (tail ++ rest)) := by
      rw [← append_assoc, ← hrun, append_assoc]
      exact h
    refine hplace.isNeutral_of_tok? (fun a u hle ha => hpl a u (.inr ?_) ?_) u hu
    · omega
    · rw [← hrun] at ha
      omega

end Place

namespace Stage

variable {p : Program} {owner : Option Class} {lineStart : Bool} {x : Text} {k : Nat} {done us run rest new : List Token}
  {t e : Token} {l : Token}

/-! ## The token before a name -/

theorem startsIdent_or_colon (h : Lexed lineStart (t :: rest)) {prev : Option Token} (hstarts : StartsName prev t) :
    ∃ c, t.text.head? = some c ∧ (t.isIdent ∧ startsIdent c ∨ t.isPunct "::" ∧ c = ':') := by
  rcases hstarts with hid | ⟨hcol, -⟩
  · have hcut := h.cut.1
    rw [Token.isIdent, beq_iff_eq] at hid
    rw [hid] at hcut
    generalize t.text = text at hcut
    cases hcut with
    | @ident c _ hc _ => exact ⟨c, rfl, .inl ⟨by rw [Token.isIdent, hid]; rfl, hc⟩⟩
  · have htx : t.text = [':', ':'] := (isPunct_iff.1 hcol).2
    exact ⟨':', by rw [htx]; rfl, .inr ⟨hcol, rfl⟩⟩

section

variable (h : Stage lineStart (tokenize x) k done us (t :: rest)) (hstd : Steady p owner (tokenize x))

include h hstd

theorem keepsApart_last (hl : done.getLast? = some l) : keepsApart l t := by
  obtain ⟨ds, rfl⟩ := getLast?_eq_some_iff.1 hl
  have hch := hstd.apart
  rw [h.split, append_assoc] at hch
  exact (isChain_cons_cons.1 hch.right_of_append).1

/-- No name or number is written right before a name that is read. -/
theorem isWordlike_last (hstarts : StartsName ((ofText x).prev? k) t) (hl : us.getLast? = some l) : l.isWordlike = false := by
  rw [Bool.eq_false_iff]
  intro hw
  obtain ⟨vs, rfl⟩ := getLast?_eq_some_iff.1 hl
  have hlex : Lexed lineStart (vs ++ l :: (t :: rest)) := by simpa using h.stands.lexed
  obtain ⟨c, hc, hst⟩ := startsIdent_or_colon hlex.append_right.cut.2 hstarts
  rcases hst with ⟨-, hid⟩ | ⟨hcol, -⟩
  · have hh := hlex.append_right.cut.2.head_spelling
    rw [hc] at hh
    have hs := hlex.append_right.cut.1.continuesIdent_eq_false hw hh
    rw [continuesIdent_of_startsIdent hid] at hs
    cases hs
  · obtain ⟨q, hq, hqWord⟩ := Option.any_eq_true _ _ |>.1 ((h.joint l hl).2 hw)
    have hnotIdent : q.isIdent = false := by
      rcases hstarts with hid | ⟨-, haft⟩
      · rw [Token.isIdent, beq_iff_eq] at hid
        rw [Token.isPunct, hid] at hcol
        cases hcol
      · rw [h.prev?_of_getLast? hq (isTrivia_of_isWordlike hqWord), Option.any_some, Bool.or_eq_false_iff] at haft
        exact haft.1
    have hnum : q.kind = .number := by
      rw [Token.isIdent] at hnotIdent
      rw [isWordlike, hnotIdent, Bool.false_or, beq_iff_eq] at hqWord
      exact hqWord
    have hap := (keepsApart_iff.1 (h.keepsApart_last hstd hq)).2.1 hnum
    rw [hcol] at hap
    cases hap

/-- The token before a name takes up nothing that a name or literal starts with. -/
theorem takesUp (hstarts : StartsName ((ofText x).prev? k) t) (hl : us.getLast? = some l) :
    l.isTerminated ∧ l.endsLine = false ∧ ∀ d, startsIdent d ∨
      d.isDigit ∧ t.isWordOf ["true", "false"] → l.takesUp d = false := by
  have hw := h.isWordlike_last hstd hstarts hl
  obtain ⟨vs, rfl⟩ := getLast?_eq_some_iff.1 hl
  have hlex : Lexed lineStart (vs ++ l :: ([] ++ t :: rest)) := by simpa using h.stands.lexed
  refine ⟨(isWhole_iff.1 (h.stands.copied.whole hstd.whole l (by simp))).1, ?_, ?_⟩
  · obtain ⟨c, hc, hst⟩ := startsIdent_or_colon hlex.append_right.cut.2 hstarts
    refine (Stands.endsLine_eq_false_before hlex.append_right ?_ nofun).1
    rw [hc]
    rintro ⟨⟩
    rcases hst with ⟨-, hid⟩ | ⟨-, hcol⟩
    · exact absurd hid (by decide)
    · exact absurd hcol (by decide)
  · intro d hd
    refine takesUp_of_continuesIdent hw (continuesIdent_of_starts hd) fun hpt => ?_
    rcases hd with hd | ⟨-, hlit⟩
    · exact eq_false_of_excludes startsIdent_eq_false_of_isDigit hd
    · obtain ⟨q, hq, hqPoint⟩ := Option.any_eq_true _ _ |>.1 ((h.joint l hl).1 hpt)
      have hap := (keepsApart_iff.1 (h.keepsApart_last hstd hq)).2.2 hqPoint
      rw [hlit] at hap
      nomatch hap

end

section

variable (h : Stage lineStart (tokenize x) k done us (run ++ e :: rest))

include h

/-- Tokens that start as a name or literal can replace a name. -/
theorem stands_of_new (hstd : Steady p owner (tokenize x)) (ht : (ofText x).tok? k = some t)
    (hstarts : StartsName ((ofText x).prev? k) t) {e' : Token} (hlex : ∀ b, Lexed b (new ++ e' :: rest))
    (hh : ∀ d, (spelling (new ++ [e'])).head? = some d → startsIdent d ∨
      d.isDigit ∧ t.isWordOf ["true", "false"]) (hcop : Copied (tokenize x) (new ++ [e']))
    (hkept : Kept (run ++ [e]) (new ++ [e'])) (he' : e'.isTrivia = false ∧ e'.isBlank = false)
    (hnum : e'.kind = .number → ∀ u, rest.head? = some u → u.text.head? ≠ some '\'') :
    Stands lineStart (tokenize x) (us ++ (new ++ e' :: rest)) := by
  have hold : Stands lineStart (tokenize x) (us ++ ((run ++ [e]) ++ rest)) := by simpa using h.stands
  have hall : ∀ b, Lexed b ((new ++ [e']) ++ rest) := fun b => by simpa using hlex b
  suffices hsup : Supplants lineStart (tokenize x) us (run ++ [e]) rest (new ++ [e']) by
    simpa using hold.replace hstd.whole hsup
  obtain ⟨f, fs, hf⟩ : ∃ f fs, new ++ [e'] = f :: fs := exists_cons_of_ne_nil (by simp)
  have hfirst := hall false
  rw [hf] at hfirst
  obtain ⟨d, r, htx⟩ := exists_cons_of_ne_nil hfirst.text_ne_nil
  have hd := hh d (by rw [hf, Token.spelling, flatMap_cons, htx]; rfl)
  have hco := continuesIdent_of_starts hd
  refine ⟨hall _, fun l hl => ?_, hcop, hkept, ?_, fun u hu hq => ?_, fun l hl => ?_, new, e', [], rfl, he'.1, he'.2, by simp⟩
  · obtain ⟨rest', htodo⟩ := h.toPlace.todo_eq ht
    obtain ⟨htm, he, htk⟩ := (htodo ▸ h).takesUp hstd hstarts hl
    refine yields_of_takesUp htm he (fun d' hd' => htk d' ?_) _
    rw [hf, cons_append, Token.spelling, flatMap_cons, htx] at hd'
    cases hd'
    exact hd
  · have hbl : f.isBlank = false := by
      simp [isBlank, htx, allBlank, isBlank_eq_false_of_continuesIdent hco]
    rw [startsWell, hf, find?_cons_of_pos (by rw [hbl]; rfl), Option.all_some, bne_iff_ne]
    intro hk
    have hcut := hfirst.cut.1
    rw [hk, htx] at hcut
    cases hcut
    exact absurd hco (by decide)
  · rw [hf] at hu
    cases hu
    rw [htx] at hq
    cases hq
    exact absurd hco (by decide)
  · rw [getLast?_concat, Option.some.injEq] at hl
    exact hl ▸ hnum

/-- What follows a significant token starts no line. -/
theorem lexed_rest (he : e.isTrivia = false) : Lexed false rest := by
  have hcut := h.stands.lexed.append_right.append_right.cut.2
  rw [lineStartAfter, beq_eq_false_iff_ne.2 (kind_ne_of_not_isTrivia he).1] at hcut
  exact hcut

theorem continuesIdent_rest (he : e.isIdent) : ∀ d, (spelling rest).head? = some d → continuesIdent d = false := fun _ hd =>
  h.stands.lexed.append_right.append_right.cut.1.continuesIdent_eq_false (isWordlike_of_isIdent he) hd

theorem tok?_last (he : e.isTrivia = false) : (ofText x).tok? (k + (run.filter (!·.isTrivia)).length) = some e := by
  rw [h.toPlace.tok?, filter_append, getElem?_append_right (le_refl _), Nat.sub_self, filter_cons_of_pos (by simp [he])]
  rfl

end

end Stage

/-- In the place of tokens up to `e`, before `rest`, `new` and `e'` are written: they spell `text`, and their code is `tokens`. -/
structure Written (L : Lowering) (lineStart : Bool) (x : Text) (us : List Token) (e : Token) (rest : List Token) (text : Text)
    (tokens new : List Token) (e' : Token) : Prop where
  spells : spelling (new ++ [e']) = text
  significant : Clean L.program L.owner (tokenize x) → significant (new ++ [e']) = tokens
  stands : Stands lineStart (tokenize x) (us ++ (new ++ e' :: rest))
  point : e'.isPunct "." = true → e.isPunct "." = true
  word : e'.isWordlike = true → e.isWordlike = true

/-- A steady text, a view of it, and a lowering of the arguments in it. -/
structure Reads (L : Lowering) (inner : List Var → Text → Text) (tokens : List Var → List Token → List Token) (x : Text)
    (V : View) : Prop where
  steady : Steady L.program L.owner (tokenize x)
  fragment : V.fragment = ofText x
  names : HasNames L.program
  owner : ∀ c, L.owner = some c → c ∈ L.program.classes
  arguments : LowersTokens L inner tokens

namespace Reads

variable {L : Lowering} {inner : List Var → Text → Text} {tokens : List Var → List Token → List Token} {lineStart : Bool}
  {x : Text} {V : View} {k i j : Nat} {done us run rest : List Token} {t e : Token} {n : Nat} {w f name : Text} {d : Char}
  {ts ms bs : List Token} {c : Class} {p : Program} {u : Token} {set : OverloadSet}

theorem isName_of_tok? (ht : (ofText x).tok? n = some t) (hid : t.isIdent) : isName t.text :=
  isName_of_isIdent (mem_tokenize_of_tok? ht) hid

/-! ## Names and calls -/

theorem isTrivia_of_isIdent (h : t.isIdent) : t.isTrivia = false :=
  isTrivia_of_isWordlike (isWordlike_of_isIdent h)

theorem head_of_isName (hw : isName w) (hd : w.head? = some d) : startsIdent d := by
  rw [isName, Bool.and_eq_true, hd] at hw
  exact hw.1

theorem head_ofName (hw : isName w) (hd : (spelling (ofName w :: ts)).head? = some d) : startsIdent d := by
  cases w with
  | nil => nomatch hw
  | cons c w => exact head_of_isName hw hd

theorem trimsGroup_filter {owner : Option Class} (b : Bracket) :
    p.trimsGroup owner (us.filter (!·.isTrivia)) b = p.trimsGroup owner us b := by
  unfold Program.trimsGroup
  rw [filter_filter]
  simp only [Bool.and_self]

/-- The group that a bracket at position `i` opens. -/
theorem exists_bracketed {b : Bracket} (ho : (ofText x).isPunct i b.opening) (hcl : (ofText x).close? i = some j) :
    ∃ g : Bracketed x i j, g.bracket = b := by
  obtain ⟨g⟩ := bracketed_of_close? hcl
  refine ⟨g, ?_⟩
  rw [Fragment.isPunct, g.tok?_first] at ho
  have hop : Bracket.opened? g.opener = some b := opened?_eq_some_iff.2 ho
  rw [g.opened] at hop
  exact Option.some.inj hop

/-- The arguments of a call. -/
theorem exists_bracketed_of_called {prev : Option Token} {last : Nat} (h : Called prev ((ofText x).suffix k) t u last j) :
    (ofText x).tok? (k + last) = some u ∧ ∃ g : Bracketed x (k + (last + 1)) (k + j), g.bracket = .round := by
  have ho := h.opened
  rw [isPunct_suffix] at ho
  have hcl : (ofText x).close? (k + (last + 1)) = some (k + j) := by
    rw [close?_suffix, h.closed]
    rfl
  exact ⟨tok?_suffix ▸ h.name, exists_bracketed ho hcl⟩

theorem renames_of_function (hu : (ofText x).tok? n = some u) (hid : u.isIdent)
    (hset : p.function? u.text = some set) (hren : (set.isOverloaded || set.signatures.any (·.cName ≠ u.text)))
    (g : Bracketed x (n + 1) j) (hr : g.bracket = .round) : p.renamesGroup g.before g.bracket := by
  have hl : ((ofText x).tokens.take (n + 1)).getLast? = some u := by
    rw [getLast?_take, Nat.add_sub_cancel]
    rw [tok?] at hu
    rw [hu]
    rfl
  rw [Program.renamesGroup, ← g.take_before, hl, Option.any_some, hid, hset, Option.any_some, hren, hr]
  rfl

theorem isNeat (h : Reads L inner tokens x V) (g : Bracketed x i j)
    (htrm : L.program.trimsGroup L.owner ((ofText x).tokens.take i) g.bracket) : isNeat g.inside := by
  rw [g.take_before, trimsGroup_filter] at htrm
  exact h.steady.neat _ _ _ _ _ _ g.split g.opened g.closed g.level htrm

theorem isArguments (hcln : Clean L.program L.owner (tokenize x)) (g : Bracketed x i j)
    (htk : (L.program.trimsGroup L.owner ((ofText x).tokens.take i) g.bracket || L.program.renamesGroup g.before g.bracket)) :
    isArguments g.inside := by
  rw [g.take_before, trimsGroup_filter] at htk
  exact (hcln.canTake g.split g.opened g.closed g.level).1 htk

/-- The tokens of a name, linked by `.`, `->` and `::`. -/
theorem isNeutral_of_links {last : Nat} (ht : (ofText x).tok? k = some t) {prev : Option Token} (hst : StartsName prev t)
    (hlk : ∀ i, 0 < i → i ≤ last → ((ofText x).suffix k).IsLink i) (a : Nat) (ha : a ≤ last)
    (hu : (ofText x).tok? (k + a) = some u) : u.isNeutral := by
  rcases eq_zero_or_pos a with rfl | hpos
  · cases ht.symm.trans hu
    rcases hst with hid | ⟨hcol, -⟩
    · exact isNeutral_of_isIdent hid
    · exact isNeutral_of_isPunct hcol (by decide)
  · rcases hlk a hpos ha with ⟨hid, -⟩ | ⟨hmk, -⟩
    · rw [isIdent_suffix, Fragment.isIdent, hu] at hid
      exact isNeutral_of_isIdent hid
    · rw [Fragment.isMark, tok?_suffix, hu] at hmk
      exact isNeutral_of_isPunctOf hmk (by decide)

section

variable (h : Reads L inner tokens x V) (hstage : Stage lineStart (tokenize x) k done us (run ++ e :: rest))
  (ht : (ofText x).tok? k = some t) (hstarts : StartsName ((ofText x).prev? k) t)

include h hstage ht hstarts

section

variable (hrun : ∀ u ∈ run ++ [e], u.isNeutral)

include hrun

/-- A text that is cut into its own tokens before the rest. -/
theorem written_text (new : List Token) (e' : Token) (hspl : spelling (new ++ [e']) = w) (hlex : ∀ b, Lexed b (new ++ e' :: rest))
    (hh : ∀ d, w.head? = some d → startsIdent d ∨ d.isDigit ∧ t.isWordOf ["true", "false"])
    (hnew : ∀ u ∈ new ++ [e'], u.isMade ∧ u.isNeutral) (hch : (new ++ [e']).IsChain fun t u => quoteApart t u)
    (hnum : e'.kind = .number → ∀ u, rest.head? = some u → u.text.head? ≠ some '\'') (hw : e'.isWordlike)
    (heWord : e.isWordlike) : Written L lineStart x us e rest w (significant (tokenize w)) new e' := by
  subst hspl
  have hall : Lexed true ((new ++ [e']) ++ rest) := by simpa using hlex true
  have hsig := isTrivia_of_isWordlike hw
  have hbl := (isSound_iff.1 (isMade_iff.1 (hnew e' (by simp)).1).1).2.2 hsig
  refine ⟨rfl, fun _ => (significant_tokenize hall.append_left).symm, ?_, ?_, fun _ => heWord⟩
  · exact hstage.stands_of_new h.steady ht hstarts hlex hh (fun u hu => .inl (hnew u hu).1)
      (.of_neutral hrun (fun u hu => (hnew u hu).2) hch) ⟨hsig, hbl⟩ hnum
  · intro hpt
    rw [isPunct_iff] at hpt
    rw [isWordlike, hpt.1] at hw
    cases hw

theorem written_name (he : e.isIdent) (hw : isName w) :
    ∃ new e', Written L lineStart x us e rest w (significant (tokenize w)) new e' := by
  have hin := isInert_iff.1 (isInert_ofName hw)
  exact ⟨_, _, h.written_text hstage ht hstarts hrun [] (ofName w) (by simp [Token.spelling, ofName])
    (fun b => .name_cons hw (hstage.lexed_rest (isTrivia_of_isIdent he)) (hstage.continuesIdent_rest he) b)
    (fun d hd => .inl (head_of_isName hw hd)) (by simpa using ⟨hin.1, hin.2.1⟩) (.singleton _) nofun rfl
    (isWordlike_of_isIdent he)⟩

theorem written_member (he : e.isIdent) (hw : isName w) :
    ∃ new e', Written L lineStart x us e rest ("self->" ++ w) (significant (tokenize ("self->" ++ w))) new e' := by
  have hl := Lexed.name_cons hw (hstage.lexed_rest (isTrivia_of_isIdent he)) (hstage.continuesIdent_rest he) false
  have hin : ∀ u ∈ [ofName "self", ofMark "->"] ++ [ofName w], u.isInert := by
    simpa [isInert_ofName hw] using by decide
  exact ⟨_, _, h.written_text hstage ht hstarts hrun [ofName "self", ofMark "->"] (ofName w)
    (by simp [Token.spelling, ofName, ofMark])
    (fun b => .name_cons rfl hl.arrow_cons (by intro d hd; cases hd; rfl) b)
    (fun d hd => by cases hd; exact .inl rfl) (fun u hu => ⟨(isInert_iff.1 (hin u hu)).1, (isInert_iff.1 (hin u hu)).2.1⟩)
    (isChain_quoteApart fun u hu => (isInert_iff.1 (hin u hu)).2.2) nofun rfl (isWordlike_of_isIdent he)⟩

end

theorem written_call (he : e.isTrivia = false) (hf : isName f) (hms : ms ⊆ tokenize x)
    (hholds : Holds (run ++ [e]) ms) (hbs : Token.Fills ms bs) {expected : List Token}
    (hexpected : Clean L.program L.owner (tokenize x) →
      significant (ofName f :: ofMark ['('] :: (bs ++ [ofMark [')']])) = expected) :
    ∃ new e', Written L lineStart x us e rest (f ++ "(" ++ spelling bs ++ ")") expected new e' := by
  refine ⟨ofName f :: ofMark ['('] :: bs, ofMark [')'], ?_, hexpected, ?_, (absurd · (by decide)), (absurd · (by decide))⟩
  · simp [Token.spelling, ofName, ofMark]
  · have hin := isInert_iff.1 (isInert_ofName hf)
    refine hstage.stands_of_new h.steady ht hstarts (fun b => lexed_call hf hbs.toEnclosed (hstage.lexed_rest he) b)
      (fun d hd => .inl (head_ofName hf hd))
      (.call (.cons hin.1 (forall_mem_nil _)) ((Copied.of_subset hms).trans hbs.copied) (forall_mem_nil _))
      (.call hholds hbs.kept (p := [ofName f]) (by simpa using hin.2)) ⟨rfl, rfl⟩ (by simp [ofMark])

theorem written_method (he : e.isTrivia = false) {f : Callable} (hf : isName f.cName) {receiver : Text}
    (hrv : IsReceiver t receiver) (g : Bracketed x i j) (hholds : Holds (run ++ [e]) g.inside)
    (htrm : L.program.trimsGroup L.owner ((ofText x).tokens.take i) g.bracket) :
    ∃ new e', Written L lineStart x us e rest (methodCall inner V f receiver i j).text
      (callTokens f.cName (if f.isStatic then none else some receiver)
        (tokens (V.localsAt i) (V.fragment.inside i j))) new e' := by
  obtain ⟨zs, hspl, hzs, hsig⟩ := exists_trimmed_args h.arguments h.steady g (h.isNeat g htrm)
  have htgt : ∀ r, (if f.isStatic then none else some receiver) = some r →
      ∃ rs, Token.spelling rs = r ∧ Enclosed rs ∧ ∀ t ∈ rs, t.isInert := by
    intro r hr
    split at hr
    · nomatch hr
    · cases hr
      exact exists_receiver hrv fun hid => isName_of_tok? ht hid
  obtain ⟨bs, hbs, hb, hc⟩ := exists_body _ htgt hzs
  have htx : (methodCall inner V f receiver i j).text = f.cName ++ "(" ++ spelling bs ++ ")" := by
    rw [methodCall, callText_eq_bodyText, hb, hspl, h.fragment]
  rw [htx, h.fragment]
  refine h.written_call hstage ht hstarts he hf (inside_subset g) hholds hbs fun hcln => ?_
  obtain ⟨htokens, hco⟩ := hsig hcln (isArguments hcln g (by rw [htrm, Bool.true_or]))
  rw [hc (hzs.copied.sound (clean_inside hcln g).sound) fun _ => hco, htokens]

theorem written_function (he : e.isTrivia = false) (hset : set ∈ L.program.functions) (hn : isName name)
    (g : Bracketed x i j) (hholds : Holds (run ++ [e]) g.inside) (hren : L.program.renamesGroup g.before g.bracket)
    (visible : List Var) : ∃ new e', Written L lineStart x us e rest
      ((((L.argContext visible).choose? set.signatures (splitArgs (V.fragment.between i j))).map Callable.cName).getD name ++
        "(" ++ inner visible (V.fragment.between i j) ++ ")")
      (callTokens (L.chosenName set.signatures visible name (V.fragment.inside i j)) none
        (tokens visible (V.fragment.inside i j))) new e' := by
  obtain ⟨zs, hspl, -, hzs, hsig⟩ := exists_args h.arguments h.steady g
  rw [h.fragment]
  obtain ⟨bs, hbs, hb, hc⟩ := exists_body none (by simp) hzs
  rw [bodyText] at hb
  rw [← hspl, ← hb]
  refine h.written_call hstage ht hstarts he ?_ (inside_subset g) hholds hbs fun hcln => ?_
  · cases hch : (L.argContext visible).choose? set.signatures (splitArgs ((ofText x).between i j)) with
    | none => exact hn
    | some f => exact h.names.functions set hset f (mem_of_choose? hch)
  · have ha := isArguments hcln g (by rw [hren, Bool.or_true])
    have hcho : (L.argContext visible).choose? set.signatures (splitArgs ((ofText x).between i j)) =
        ArgContext.select? set.signatures ((splitTokens ((ofText x).inside i j)).map (L.argContext visible).tokensTag?) := by
      rw [g.between, inside_eq g]
      exact choose?_spelling g.lexed_inside.append_left (clean_inside hcln g).sound ha _ _
    rw [hcho, ← chosenName, hc (hzs.copied.sound (clean_inside hcln g).sound) (by simp), hsig hcln ha]

end

/-! ## Literals and tokens that stay -/

theorem written_digit (h : Reads L inner tokens x V) (hstage : Stage lineStart (tokenize x) k done us ([] ++ t :: rest))
    (ht : (ofText x).tok? k = some t) (hid : t.isIdent) (hw : t.isWordOf ["true", "false"]) {c : Char}
    (hc : c.isDigit) : ∃ new e', Written L lineStart x us t rest [c] (significant (tokenize [c])) new e' := by
  have hsig := isTrivia_of_isIdent hid
  have hnext : ∀ u, rest.head? = some u → u.text.head? ≠ some '\'' ∧ u.text.head? ≠ some '.' := by
    intro u hu
    obtain ⟨rest, rfl⟩ := head?_eq_some_iff.1 hu
    have hch := h.steady.apart
    rw [hstage.split] at hch
    exact (keepsApart_iff.1 (isChain_cons_cons.1 hch.right_of_append).1).1 hw
  have hs : ∀ d, (spelling rest).head? = some d → continuesNumber false d = false := by
    intro d hd
    have hco := hstage.continuesIdent_rest hid d hd
    cases rest with
    | nil => nomatch hd
    | cons u rest =>
      rw [(hstage.lexed_rest hsig).head_spelling] at hd
      obtain ⟨hq, hpt⟩ := hnext u rfl
      rw [hd] at hq hpt
      rw [continuesIdent, Bool.or_eq_false_iff] at hco
      simp only [continuesNumber, hco.1, hco.2, Bool.false_and, Bool.or_false, Bool.false_or,
        Bool.or_eq_false_iff, beq_eq_false_iff_ne]
      exact ⟨fun h => hpt (by rw [h]), fun h => hq (by rw [h])⟩
  have hmade : (ofNumber [c]).isMade := by
    refine isMade_iff.2 ⟨isSound_iff.2 ⟨rfl, rfl, fun _ => ?_⟩, .inr (.inr (.inl rfl))⟩
    have hnot := isBlank_eq_false_of_continuesIdent (continuesIdent_of_isDigit hc)
    simp [isBlank, ofNumber, allBlank, hnot]
  have hpl : ∀ u ∈ [] ++ [t], u.isNeutral := by simpa using isNeutral_of_isIdent hid
  exact ⟨_, _, h.written_text hstage ht (.inl hid) hpl [] (ofNumber [c]) rfl
    (fun b => .digit_cons hc (hstage.lexed_rest hsig) hs b) (fun d hd => by cases hd; exact .inr ⟨hc, hw⟩)
    (by simpa using ⟨hmade, isNeutral_of_kind (by simp [ofNumber])⟩) (.singleton _) (fun _ u hu => (hnext u hu).1) rfl
    (isWordlike_of_isIdent hid)⟩

theorem written_kept (hstage : Stage lineStart (tokenize x) k done us ([] ++ t :: rest)) :
    ∃ new e', Written L lineStart x us t rest t.text (significant (tokenize t.text)) new e' := by
  have hsig : t.isTrivia = false := hstage.head t rfl
  have hspl : spelling [t] = t.text := by simp [Token.spelling]
  refine ⟨[], t, hspl, fun hcln => ?_, hstage.stands, id, id⟩
  have hsnd := hcln.sound t (by rw [hstage.split]; simp)
  rw [← hspl, significant_tokenize (hstage.stands.lexed.append_right.self hsnd hsig)]
  rfl

/-! ## Objects -/

/-- The constructor call on a target with argument tokens `ts`. -/
theorem exists_construct (h : Reads L inner tokens x V) (visible : List Var) (args : Text) (sig : List Token) (clean : Prop)
    (hc : c ∈ L.program.classes) (hn : isName name) {zs : List Token} (htrim : spelling ms = Text.trim args) (hms : Token.Fills ts ms)
    (hzs : Token.Fills ts zs) (hne : ms ≠ [] → zs ≠ [] ∧ spelling zs = inner visible (spelling ms))
    (hcln : clean → (∀ z ∈ zs, z.isSound) ∧ (sig = [] → ms = []) ∧ (sig ≠ [] → ms ≠ [] ∧
      significant zs = tokens visible sig ∧ significant zs ≠ [] ∧
      (L.argContext visible).choose? c.constructors (splitArgs (spelling ms)) =
        ArgContext.select? c.constructors ((splitTokens sig).map (L.argContext visible).tokensTag?))) :
    ∃ f bs, isName f ∧ Token.Fills ts bs ∧ construct L inner c ('&' :: name) args visible = f ++ "(" ++ spelling bs ++ ")" ∧
      (clean → significant (ofName f :: ofMark ['('] :: (bs ++ [ofMark [')']])) =
        if sig.isEmpty then callTokens c.initName (some ('&' :: name)) []
        else callTokens (L.chosenName c.constructors visible c.initName sig) (some ('&' :: name)) (tokens visible sig)) := by
  have htgt : ∀ r, some ('&' :: name) = some r → ∃ rs, Token.spelling rs = r ∧ Enclosed rs ∧ ∀ t ∈ rs, t.isInert := by
    intro r hr
    cases hr
    have hin : ∀ t ∈ [ofMark ['&'], ofName name], t.isInert := by simpa [isInert_ofName hn] using by decide
    have hlex := (Lexed.name_cons hn (.nil _) (fun _ h => by cases h) false).mark_cons (c := '&') rfl false
    exact ⟨_, by simp [Token.spelling, ofMark, ofName], .of_isInert hlex hin, hin⟩
  have hinit := isName_initName h.names hc
  unfold construct
  dsimp only
  rw [← htrim]
  by_cases hnil : ms = []
  · subst hnil
    obtain ⟨bs, hbs, hb, hca⟩ := exists_body _ htgt hms
    refine ⟨c.initName, bs, hinit, hbs, by rw [hb]; rfl, fun hcl => ?_⟩
    obtain ⟨-, -, hsome⟩ := hcln hcl
    obtain rfl : sig = [] := by
      by_contra hsig
      exact (hsome hsig).1 rfl
    exact hca (by simp) fun _ _ => rfl
  · obtain ⟨hzsne, hspl⟩ := hne hnil
    have hemp : (spelling zs).isEmpty = false := by
      rw [isEmpty_eq_false_iff]
      exact fun hno => hzsne ((spelling_eq_nil_iff hzs.lexed).1 hno)
    have hargs : ¬(spelling ms).isEmpty := by
      rw [List.isEmpty_iff, spelling_eq_nil_iff hms.lexed]
      exact hnil
    generalize hf : (((L.argContext visible).choose? c.constructors (splitArgs (spelling ms))).map Callable.cName).getD
      c.initName = f
    obtain ⟨bs, hbs, hb, hca⟩ := exists_body _ htgt hzs
    refine ⟨f, bs, ?_, hbs, ?_, fun hcl => ?_⟩
    · rw [← hf]
      cases hch : (L.argContext visible).choose? c.constructors (splitArgs (spelling ms)) with
      | none => exact hinit
      | some f => exact h.names.constructors c hc f (mem_of_choose? hch)
    · rw [if_neg hargs, hb, bodyText, hemp, ← hspl]
      simp
    · obtain ⟨hsnd, hnone, hsome⟩ := hcln hcl
      have hsig : sig ≠ [] := fun hno => hnil (hnone hno)
      obtain ⟨-, htokens, hco, hcho⟩ := hsome hsig
      rw [hca hsnd fun _ hno => absurd hno hco, htokens, if_neg (by simpa using hsig), ← hf, hcho]
      rfl

theorem takeEndWhile_append (p : Char → Bool) (a b : Text) :
    takeEndWhile p (a ++ b) = if b.all p then takeEndWhile p a ++ b else takeEndWhile p b := by
  unfold takeEndWhile
  rw [reverse_append]
  split
  · rename_i hall
    rw [takeWhile_append_of_pos (by simpa using hall), reverse_append, reverse_reverse]
  · rename_i hnot
    rw [takeWhile_append, if_neg]
    intro hlen
    have heq := ( takeWhile_prefix p).eq_of_length hlen
    exact hnot (by simpa using heq)

/-- The blanks at the end of the last line are spaces and blank tokens. -/
theorem exists_indentation (hlex : Lexed lineStart (done ++ t :: rest)) (hwh : ∀ u ∈ done, u.isWhole)
    (ht : t.text.head? ≠ some '\n') (hbl : allBlank (takeEndWhile (· ≠ '\n') (spelling done))) :
    ∃ b ws, takeEndWhile (· ≠ '\n') (Token.spelling done) = b ++ Token.spelling ws ∧ b.all isSpace ∧
      ws <:+ done ∧ ∀ u ∈ ws, u.isBlank := by
  induction done using reverseRecOn generalizing t rest with
  | nil => exact ⟨[], [], rfl, rfl, suffix_refl _, by simp⟩
  | append_singleton ds l ih =>
    rw [append_assoc] at hlex
    have hspl : spelling (ds ++ [l]) = spelling ds ++ l.text := by simp [Token.spelling]
    rw [hspl, takeEndWhile_append] at hbl ⊢
    split
    · rename_i hall
      rw [if_pos hall, allBlank, all_append, Bool.and_eq_true] at hbl
      have hh : l.text.head? ≠ some '\n' := fun hf => absurd (all_eq_true.1 hall '\n' (mem_of_head? hf)) (by decide)
      obtain ⟨b, ws, heq, hb, hws, hblank⟩ := ih hlex (fun u hu => hwh u (mem_append_left _ hu)) hh hbl.1
      refine ⟨b, ws ++ [l], by rw [heq]; simp [Token.spelling], hb, ?_, ?_⟩
      · obtain ⟨pre, rfl⟩ := hws
        exact ⟨pre, by simp⟩
      · exact fun u hu => (mem_append.1 hu).elim (hblank u) fun hl => mem_singleton.1 hl ▸ hbl.2
    · rename_i hnot
      rw [if_neg hnot] at hbl
      refine ⟨takeEndWhile (· ≠ '\n') l.text, [], by simp [Token.spelling], ?_, nil_suffix, by simp⟩
      by_cases hk : l.kind = .space
      · refine Stands.all_isSpace_of_sublist (hlex.append_right.space_spec hk).2.1 fun c hc => ?_
        rw [takeEndWhile, mem_reverse] at hc
        exact mem_reverse.1 ((takeWhile_sublist _).subset hc)
      · have hlb : l.isBlank = false := by
          rw [Bool.eq_false_iff]
          intro hlb
          rcases hlex.append_right.kind_of_isBlank mem_cons_self hlb with hsp | ⟨-, hf⟩
          · exact hk hsp
          · refine hnot (all_eq_true.2 fun c hc => ?_)
            simpa using ne_of_mem_of_not_mem hc hf
        have hl : Lexed _ (l :: ([] ++ t :: rest)) := hlex.append_right
        obtain ⟨c, hc, hnb⟩ := hl.cut.1.not_isBlank_getLast (isWhole_iff.1 (hwh l (by simp))).1 hlb
          (Stands.endsLine_eq_false_before hl ht not_mem_nil).1
        obtain ⟨r, hr⟩ := getLast?_eq_some_iff.1 hc
        have hf : [c].all (· ≠ '\n') := by simpa using fun hc : c = '\n' => absurd (hc ▸ hnb) (by decide)
        rw [hr, takeEndWhile_append, if_pos hf] at hbl
        rw [all_eq_true.1 hbl c (by simp)] at hnb
        cases hnb

/-- The line feed and blanks before a constructor call. -/
theorem exists_blanks (h : Reads L inner tokens x V) (hstage : Stage lineStart (tokenize x) k done us (t :: rest))
    (hid : t.isIdent) : ∃ ws, Token.spelling ws = '\n' :: V.indentation k ∧ Lexed false ws ∧
      (∀ u ∈ ws, u.isBlank) ∧ Copied (tokenize x) ws := by
  have hlex : Lexed true (done ++ t :: rest) := hstage.split ▸ lexed_tokenizeFrom true 0 x
  have hsub : done ⊆ tokenize x := hstage.split ▸ subset_append_left _ _
  have hh : t.text.head? ≠ some '\n' := by
    intro hf
    have hn := isName_of_isIdent (hstage.split ▸ mem_append_right _ mem_cons_self) hid
    rw [isName, hf] at hn
    cases (Bool.and_eq_true_iff.1 hn).1
  have hbef : V.fragment.before k = spelling done := by
    rw [h.fragment, ← hstage.count]
    exact before_eq hstage.split (hstage.head t rfl)
  obtain ⟨b, ws, hind, hb, ⟨ds, hds⟩, hblank⟩ : ∃ b ws, V.indentation k = b ++ Token.spelling ws ∧ b.all isSpace ∧
      ws <:+ done ∧ ∀ u ∈ ws, u.isBlank := by
    rw [View.indentation, hbef]
    split
    · rename_i hbl
      exact exists_indentation hlex (fun u hu => h.steady.whole u (hsub hu)) hh hbl
    · exact ⟨[], [], rfl, rfl, nil_suffix, by simp⟩
  have hws : ws ⊆ tokenize x := fun u hu => hsub (hds ▸ mem_append_right ds hu)
  have hall : ('\n' :: b).all isSpace := by
    rw [all_cons, hb]
    rfl
  rw [← hds, append_assoc] at hlex
  refine ⟨absorb ('\n' :: b) ws, by rw [spelling_absorb, hind]; rfl, ?_, fun u hu => ?_, fun u hu => ?_⟩
  · exact hlex.append_right.append_left.absorb (fun u hu => (isWhole_iff.1 (h.steady.whole u (hws hu))).2) rfl hall fun _ => rfl
  · rcases mem_cons.1 hu with rfl | hu
    · have hsp : allBlank ('\n' :: b) := all_eq_true.2 fun c hc => isBlank_of_isSpace (all_eq_true.1 hall c hc)
      have htake := allBlank_spelling fun v hv => hblank v ((takeWhile_sublist isGlue).subset hv)
      rw [isBlank, ofSpace, Text.allBlank_append, hsp, htake]
      rfl
    · exact hblank u ((dropWhile_sublist _).subset hu)
  · rcases mem_cons.1 hu with rfl | hu
    · exact .inl rfl
    · exact Copied.of_subset hws u ((dropWhile_sublist _).subset hu)

/-- A name is cut off after blanks. -/
theorem lexed_blanks {ws : List Token} (hlex : Lexed false ws) (hblank : ∀ u ∈ ws, u.isBlank)
    (hwh : ∀ u ∈ ws, u.isWhole) (hf : isName f) (h : ∀ b, Lexed b (ofName f :: ts)) : Lexed false (ws ++ ofName f :: ts) := by
  have hall : Lexed false (ws ++ []) := by rwa [append_nil]
  refine hall.replace (fun u hu => (isWhole_iff.1 (hwh u hu)).1) (h _) fun l hl => ?_
  have hmem := mem_of_getLast? hl
  have hkind : l.kind = .space ∨ l.kind = .punct := (hlex.kind_of_isBlank hmem (hblank l hmem)).imp_right And.left
  refine yields_of_takesUp (isWhole_iff.1 (hwh l hmem)).1 ?_ (fun d hd => ?_) _
  · rcases hkind with hk | hk <;> simp [endsLine, hk]
  · have hst := head_ofName hf hd
    refine takesUp_of_continuesIdent ?_ (continuesIdent_of_startsIdent hst) fun _ => ?_
    · rcases hkind with hk | hk <;> simp [isWordlike, hk]
    · exact eq_false_of_excludes startsIdent_eq_false_of_isDigit hst

section

variable (h : Reads L inner tokens x V) (hstage : Stage lineStart (tokenize x) k done us (run ++ e :: rest))
    (ht : (ofText x).tok? k = some t)

include h hstage ht

/-- The declaration of an object and the call that constructs it. -/
theorem written_declaration (hid : t.isIdent) (he : e.isTrivia = false) {type : Text} (hty : isName type) (hn : isName name)
    (hf : isName f) (hms : ms ⊆ tokenize x) (hholds : Holds (run ++ [e]) ms) (hbs : Token.Fills ms bs) {call : List Token}
    (hc : Clean L.program L.owner (tokenize x) → significant (ofName f :: ofMark ['('] :: (bs ++ [ofMark [')']])) = call) :
    ∃ new e', Written L lineStart x us e rest
      (type ++ " " ++ name ++ ";\n" ++ V.indentation k ++ (f ++ "(" ++ spelling bs ++ ")") ++ ";")
      ([ofName type, ofName name, ofMark ";"] ++ call ++ [ofMark ";"]) new e' := by
  obtain ⟨rest', htodo⟩ := hstage.toPlace.todo_eq ht
  obtain ⟨ws, hws, hlex, hblank, hcop⟩ := h.exists_blanks (htodo ▸ hstage) hid
  have hpre : ∀ u ∈ [ofName type, ofSpace [' '], ofName name, ofMark [';']] ++ (ws ++ [ofName f]),
      (u.isMade ∨ u ∈ ws) ∧ u.isNeutral ∧ u.kind ≠ .number := by
    intro u hu
    simp only [mem_append, mem_cons, not_mem_nil, or_false] at hu
    rcases hu with (rfl | rfl | rfl | rfl) | hu | rfl
    · exact (isInert_iff.1 (isInert_ofName hty)).imp_left .inl
    · exact (isInert_iff.1 isInert_ofSpace).imp_left .inl
    · exact (isInert_iff.1 (isInert_ofName hn)).imp_left .inl
    · exact ⟨.inl rfl, rfl, by decide⟩
    · refine ⟨.inr hu, hlex.isNeutral_of_isBlank hu (hblank u hu), fun hk => ?_⟩
      rcases hlex.kind_of_isBlank hu (hblank u hu) with hsp | ⟨hp, -⟩
      · rw [hk] at hsp
        cases hsp
      · rw [hk] at hp
        cases hp
    · exact (isInert_iff.1 (isInert_ofName hf)).imp_left .inl
  refine ⟨[ofName type, ofSpace [' '], ofName name, ofMark [';']] ++ (ws ++ ofName f :: ofMark ['('] :: (bs ++ [ofMark [')']])),
    ofMark [';'], ?_, fun hcln => ?_, ?_, (absurd · (by decide)), (absurd · (by decide))⟩
  · have hspl : spelling ([ofName type, ofSpace [' '], ofName name, ofMark [';']] ++
        (ws ++ ofName f :: ofMark ['('] :: (bs ++ [ofMark [')']])) ++ [ofMark [';']]) =
        type ++ (' ' :: (name ++ (';' :: (spelling ws ++ (f ++ ('(' :: (spelling bs ++ [')', ';']))))))) := by
      simp [Token.spelling, ofName, ofMark, ofSpace]
    rw [hspl, hws]
    simp
  · rw [significant_append, significant_append, significant_append, hc hcln,
      significant_eq_nil_of_isBlank (hcop.sound hcln.sound) hblank]
    rfl
  · have hcall := lexed_call hf hbs.toEnclosed ((hstage.lexed_rest he).mark_cons (c := ';') rfl false)
    have hblanks := lexed_blanks hlex hblank (hcop.whole h.steady.whole) hf hcall
    have hname := Lexed.name_cons hn (hblanks.mark_cons (c := ';') rfl false) (by intro d hd; cases hd; rfl)
    have hspace : Lexed false (ofSpace [' '] :: _) := .space_cons (hname false) rfl rfl fun d hd =>
      isSpace_eq_false_of_continuesIdent (continuesIdent_of_startsIdent (head_ofName hn hd))
    have hpost : ∀ u ∈ [ofMark [';']], u.isMade ∧ u.isNeutral ∧ u.kind ≠ .number := by decide
    have hcopied := Copied.call (fun u hu => (hpre u hu).1.elim .inl fun hu => hcop u hu)
      ((Copied.of_subset hms).trans hbs.copied) fun u hu => .inl (hpost u hu).1
    have hkept := Kept.call hholds hbs.kept fun u hu => (mem_append.1 hu).elim (fun hu => (hpre u hu).2) fun hu => (hpost u hu).2
    refine hstage.stands_of_new h.steady ht (.inl hid) (fun b => ?_) (fun d hd => .inl (head_ofName hty hd))
      (by simpa using hcopied) (by simpa using hkept) ⟨rfl, rfl⟩ (by simp [ofMark])
    simpa using .name_cons hty hspace (by intro d hd; cases hd; rfl) b

/-- The declaration of an object, with the arguments from `k + 2` to `j` or none. -/
theorem written_object (hid : t.isIdent) (he : e.isTrivia = false) (hc : c ∈ L.program.classes)
    (hn : isName name) {close : Option Nat} (hnone : close = none → Holds (run ++ [e]) [])
    (hsome : ∀ j, close = some j → ∃ g : Bracketed x (k + 2) (k + j), Holds (run ++ [e]) g.inside ∧
      L.program.trimsGroup L.owner ((ofText x).tokens.take (k + 2)) g.bracket) :
    ∃ new e', Written L lineStart x us e rest ((Plan.object c name close).lowered L inner V k).text
      ((Plan.object c name close).tokens L tokens V k) new e' := by
  have hty := h.names.classes c hc
  cases close with
  | none =>
    have hnil : Token.Fills [] [] := ⟨.nil, nofun, .refl []⟩
    obtain ⟨f, bs, hf, hbs, hspl, hca⟩ := h.exists_construct (V.localsAt k) [] [] (Clean L.program L.owner (tokenize x))
      hc hn rfl hnil hnil (absurd rfl)
      fun _ => ⟨nofun, fun _ => rfl, fun hne => absurd rfl hne⟩
    have hwr := h.written_declaration hstage ht hid he hty hn hf (nil_subset _) (hnone rfl) hbs hca
    rw [← hspl] at hwr
    exact hwr
  | some j =>
    obtain ⟨g, hholds, htrm⟩ := hsome j rfl
    obtain ⟨ms, zs, htrim, hms, hspl, hzs, hne, hcln⟩ := exists_args_of_trimmed h.arguments h.steady g (h.isNeat g htrm)
    rw [← h.fragment] at htrim
    obtain ⟨f, bs, hf, hbs, heq, hca⟩ := h.exists_construct _ _ (V.fragment.inside (k + 2) (k + j))
      (Clean L.program L.owner (tokenize x)) hc hn htrim hms hzs (fun hms => ⟨hne hms, hspl⟩) fun hcl => by
        rw [h.fragment]
        obtain ⟨hnil, hsig⟩ := hcln hcl (isArguments hcl g (by rw [htrm, Bool.true_or]))
        refine ⟨hzs.copied.sound (clean_inside hcl g).sound, hnil, fun hsg => ?_⟩
        obtain ⟨hms, htokens, hco, hcho⟩ := hsig hsg
        exact ⟨hms, htokens, hco, hcho _ _⟩
    have hwr := h.written_declaration hstage ht hid he hty hn hf (inside_subset g) hholds hbs hca
    rw [← heq] at hwr
    exact hwr

/-! ## Every plan -/

/-- What a plan takes can be replaced by what it writes. -/
theorem exists_written (he : e.isTrivia = false) {P : Plan}
    (hP : Planned L ((ofText x).prev? k) ((ofText x).suffix k) t P) (hsz : (run.filter (!·.isTrivia)).length + 1 = P.size) :
    ∃ new e', Written L lineStart x us e rest (P.lowered L inner V k).text (P.tokens L tokens V k) new e' := by
  have hl := hstage.tok?_last he
  have hcall {u : Token} {last j : Nat} (hca : Called ((ofText x).prev? k) ((ofText x).suffix k) t u last j)
      (hj : (run.filter (!·.isTrivia)).length + 1 = j + 1) (g : Bracketed x (k + (last + 1)) (k + j)) :
      Holds (run ++ [e]) g.inside := by
    refine hstage.toPlace.holds he g (by omega) fun a v hout hle hv => ?_
    exact isNeutral_of_links ht hca.starts hca.links a (by omega) hv
  cases hP with
  | kept =>
    obtain ⟨rfl, rfl⟩ := hstage.toPlace.eq_of_one ht (Nat.succ.inj hsz)
    exact written_kept hstage
  | digit hw hid htx =>
    obtain ⟨rfl, rfl⟩ := hstage.toPlace.eq_of_one ht (Nat.succ.inj hsz)
    have hwd : e.isWordOf ["true", "false"] := isWordOf_iff.2 ⟨hid, by simpa using htx⟩
    rcases hw with rfl | rfl
    · exact h.written_digit hstage ht hid hwd rfl
    · exact h.written_digit hstage ht hid hwd rfl
  | word hw hid =>
    obtain ⟨rfl, rfl⟩ := hstage.toPlace.eq_of_one ht (Nat.succ.inj hsz)
    have hrun : ∀ u ∈ [] ++ [e], u.isNeutral := by simpa using isNeutral_of_isIdent hid
    rcases hw with rfl | rfl | rfl
    · exact h.written_name hstage ht (.inl hid) hrun hid (w := "NULL") rfl
    · exact h.written_name hstage ht (.inl hid) hrun hid (w := "self") rfl
    · exact h.written_member hstage ht (.inl hid) hrun hid (isName_of_tok? ht hid)
  | @name u last hstarts hlk hu hid _ =>
    have hlast : (run.filter (!·.isTrivia)).length = last := Nat.succ.inj hsz
    have hplace : Place (tokenize x) k done ([] ++ ((run ++ [e]) ++ rest)) := by simpa using hstage.toPlace
    have hrun := hplace.isNeutral_of_tok? fun a v _ ha hv => isNeutral_of_links ht hstarts hlk a (by simp [he] at ha; omega) hv
    rw [tok?_suffix, ← hlast, hl] at hu
    cases hu
    exact h.written_name hstage ht hstarts hrun hid (isName_of_tok? hl hid)
  | @method f receiver u last j hca c hc hf hrv =>
    obtain ⟨hu, g, hr⟩ := exists_bracketed_of_called hca
    have hmem : c ∈ L.program.classes := hc.elim (h.owner c) And.left
    have htrm : L.program.trimsGroup L.owner ((ofText x).tokens.take (k + (last + 1))) g.bracket := by
      rw [hr]
      rcases hc with hown | ⟨-, hpos⟩
      · exact trims_of_owner hu hca.ident hown hf
      · exact trims_of_access hu hca.ident (hca.afterMemberAccess hpos) hmem hf
    exact h.written_method hstage ht hca.starts he (h.names.methods c hmem f (mem_of_find?_eq_some hf)) hrv g (hcall hca hsz g)
      htrm
  | @function set u last j hca hset hren =>
    obtain ⟨hu, g, hr⟩ := exists_bracketed_of_called hca
    exact h.written_function hstage ht hca.starts he (mem_of_find?_eq_some hset) (isName_of_tok? hu hca.ident) g
      (hcall hca hsz g) (renames_of_function hu hca.ident hset hren g hr) _
  | @object c u close _ hid hc hu huIdent hend =>
    rw [tok?_suffix] at hu
    have hnames {a : Nat} {v : Token} (ha : a < 2) (hv : (ofText x).tok? (k + a) = some v) : v.isNeutral := by
      obtain rfl | rfl : a = 0 ∨ a = 1 := by omega
      · cases ht.symm.trans hv
        exact isNeutral_of_isIdent hid
      · cases hu.symm.trans hv
        exact isNeutral_of_isIdent huIdent
    have hsemi {a : Nat} {v : Token} (hp : ((ofText x).suffix k).isPunct a ";") (hv : (ofText x).tok? (k + a) = some v) :
        v.isNeutral := by
      rw [isPunct_suffix, Fragment.isPunct, hv] at hp
      exact isNeutral_of_isPunct hp (by decide)
    refine h.written_object hstage ht hid he (mem_of_find?_eq_some hc) (isName_of_tok? hu huIdent) ?_ ?_
    · rintro rfl
      rcases hend with ⟨hp, -⟩ | ⟨-, j, -, -, hno⟩
      · have hsize : (run.filter (!·.isTrivia)).length + 1 = 3 := hsz
        have hplace : Place (tokenize x) k done ([] ++ ((run ++ [e]) ++ rest)) := by simpa using hstage.toPlace
        refine .of_neutral (hplace.isNeutral_of_tok? fun a v _ ha hv => ?_)
        rcases lt_or_ge a 2 with hlt | hge
        · exact hnames hlt hv
        · obtain rfl : a = 2 := by simp [he] at ha; omega
          exact hsemi hp hv
      · cases hno
    · rintro j rfl
      rcases hend with ⟨-, hno⟩ | ⟨ho, j, hcl, hp, hso⟩
      · cases hno
      · cases hso
        have hcl' : (ofText x).close? (k + 2) = some (k + j) := by
          rw [close?_suffix, hcl]
          rfl
        rw [isPunct_suffix, isPunct_suffix] at ho
        obtain ⟨b, hb, ho⟩ := exists_opening ho
        obtain ⟨g, rfl⟩ := exists_bracketed ho hcl'
        have hsize : (run.filter (!·.isTrivia)).length + 1 = j + 2 := hsz
        refine ⟨g, hstage.toPlace.holds he g (by omega) fun a v hout hle hv => ?_, trims_of_class hu huIdent ht hid hc hb⟩
        rcases hout with hlt | hgt
        · exact hnames hlt hv
        · obtain rfl : a = j + 1 := by omega
          exact hsemi hp hv

end

end Reads

end Lowering

end Declass
