import Declass.Proofs.Lowering.Conservative
import Declass.Proofs.Lowering.Kept

/-!
# Tokens that stand for others

`Stands` says that what is written so far and what is still to be read is cut from its spelling as it is and keeps what matters of
the source. It is kept when a run of tokens is replaced (`Stands.replace`).
-/

namespace Declass

open List Lowering
open Text (dropEndWhile)

namespace Token

/-! ## The ends of a list -/

/-- The first token that is not blank is no directive. -/
def startsWell (ts : List Token) : Bool :=
  (ts.find? (!·.isBlank)).all (·.kind != .directive)

/-- The last token that satisfies `q` does not go on to its line's end. -/
def endsWell (q : Token → Bool) (ts : List Token) : Bool :=
  (ts.reverse.find? q).all (!·.endsLine)

variable {q : Token → Bool} {us vs us' : List Token} {t : Token}

theorem startsWell_of_forall (h : ∀ t ∈ us, t.kind ≠ .directive) : startsWell us := by
  rw [startsWell]
  cases hf : us.find? (!·.isBlank) with
  | none => rfl
  | some t => simpa using h t (mem_of_find?_eq_some hf)

/-- A list that starts well, in the place of another after `us`. -/
theorem startsWell_append (hvs : startsWell vs) (h : startsWell (us ++ us')) : startsWell (us ++ vs) := by
  rw [startsWell, find?_append] at h ⊢
  cases hus : us.find? (!·.isBlank) with
  | some t =>
    rw [hus] at h
    exact h
  | none => exact hvs

theorem endsWell_append (h : endsWell q (us ++ vs)) (hus' : endsWell q us') : endsWell q (us' ++ vs) := by
  rw [endsWell, reverse_append, find?_append] at h ⊢
  cases hvs : vs.reverse.find? q with
  | some t =>
    rw [hvs] at h
    exact h
  | none => exact hus'

/-- Only comments and directives go on to the end of their line. -/
theorem endsLine_eq_false_of_not_isTrivia (h : t.isTrivia = false) : t.endsLine = false := by
  rw [endsLine]
  cases hk : t.kind <;> simp_all [isTrivia]

/-- A list with nothing after a token that goes on to its line's end. -/
theorem endsWell_of_split (hq : q t) (ht : t.endsLine = false) (hvs : ∀ v ∈ vs, v.endsLine = false) :
    endsWell q (us ++ t :: vs) := by
  rw [endsWell, reverse_append, reverse_cons, append_assoc, find?_append]
  cases hf : vs.reverse.find? q with
  | some v =>
    have hmem := mem_reverse.1 (mem_of_find?_eq_some hf)
    simp [hvs v hmem]
  | none => simp [hq, ht]

theorem find?_bare (hq : ∀ t : Token, q t.bare = q t) : (us.map bare).find? q = (us.find? q).map bare := by
  have hcomp : q ∘ bare = q := funext hq
  rw [find?_map, hcomp]

theorem startsWell_bare : startsWell (us.map bare) = startsWell us := by
  rw [startsWell, startsWell, find?_bare fun _ => rfl]
  cases us.find? (!·.isBlank) <;> rfl

theorem endsWell_bare (hq : ∀ t : Token, q t.bare = q t) : endsWell q (us.map bare) = endsWell q us := by
  rw [endsWell, endsWell, ← map_reverse, find?_bare hq]
  cases us.reverse.find? q <;> rfl

end Token

open Token

/-- The tokens `zs` can stand for the tokens `ts`. -/
structure Stands (lineStart : Bool) (ts zs : List Token) : Prop where
  lexed : Lexed lineStart zs
  copied : Copied ts zs
  kept : Kept ts zs
  starts : startsWell ts = true → startsWell zs = true
  ends : ∀ q : Token → Bool, (∀ t : Token, q t.bare = q t) →
    (∀ t : Token, t.isTrivia = false → t.isBlank = false → q t = true) → endsWell q ts = true → endsWell q zs = true
  /-- There is code, or nothing is changed. -/
  code : (∃ t ∈ zs, t.isTrivia = false) ∨ zs.map bare = ts.map bare

/-- The tokens `new` can replace `run` between `us` and `rest`. -/
structure Supplants (lineStart : Bool) (ts us run rest new : List Token) : Prop where
  lexed : Lexed (lineStartAfterAll lineStart us) (new ++ rest)
  yields : ∀ l, us.getLast? = some l → l.Yields (spelling (run ++ rest)) (spelling (new ++ rest))
  copied : Copied ts new
  kept : Kept run new
  starts : startsWell new = true
  head : ∀ t, new.head? = some t → t.text.head? ≠ some '\''
  last : ∀ l, new.getLast? = some l → l.kind = .number → ∀ t, rest.head? = some t → t.text.head? ≠ some '\''
  /-- After the last significant token none goes on to its line's end. -/
  code : ∃ vs e es, new = vs ++ e :: es ∧ e.isTrivia = false ∧ e.isBlank = false ∧ ∀ t ∈ es, t.endsLine = false

namespace Stands

variable {lineStart : Bool} {ts us run rest new : List Token} {c : Char} {s t l : Token} {ss vs : List Token} {a w : Text}
  {p : Char → Bool}

theorem refl (h : Lexed lineStart ts) : Stands lineStart ts ts where
  lexed := h
  copied := .of_subset (.refl ts)
  kept := .refl ts
  starts h := h
  ends _ _ _ h := h
  code := .inr rfl

/-- What stands for tokens stands for them in another place. -/
theorem of_bare {ts' zs : List Token} (h : Stands lineStart ts zs) (heq : ts.map bare = ts'.map bare) :
    Stands lineStart ts' zs where
  lexed := h.lexed
  copied := h.copied.of_bare heq
  kept := h.kept.of_bare heq
  starts hst := h.starts (by rw [← startsWell_bare, heq, startsWell_bare]; exact hst)
  ends q hb hq he := h.ends q hb hq (by rw [← endsWell_bare hb, heq, endsWell_bare hb]; exact he)
  code := h.code.imp_right fun hc => hc.trans heq

/-- A run of tokens is replaced. -/
theorem replace (h : Stands lineStart ts (us ++ (run ++ rest))) (hwh : ∀ t ∈ ts, t.isWhole)
    (hnew : Supplants lineStart ts us run rest new) : Stands lineStart ts (us ++ (new ++ rest)) := by
  obtain ⟨vs, e, es, hspl, he, hbl, hes⟩ := hnew.code
  have hmem : e ∈ new := by simp [hspl]
  have hne : new ≠ [] := ne_nil_of_mem hmem
  have hold : Copied ts us := fun t ht => h.copied t (mem_append_left _ ht)
  have hrest : Copied ts rest := fun t ht => h.copied t (mem_append_right _ (mem_append_right _ ht))
  have hfound : (new.find? (!·.isBlank)).isSome := find?_isSome.2 ⟨e, hmem, by rw [hbl]; rfl⟩
  refine ⟨?_, hold.append (hnew.copied.append hrest), ?_, fun hst => ?_, fun q hb hq hen => ?_, ?_⟩
  · refine h.lexed.replace (fun t ht => ?_) hnew.lexed hnew.yields
    exact (isWhole_iff.1 (hold.whole hwh t ht)).1
  · exact h.kept.trans (hnew.kept.replace hne hnew.head hnew.last us)
  · refine startsWell_append ?_ (h.starts hst)
    rw [startsWell, find?_append, Option.or_of_isSome hfound]
    exact hnew.starts
  · have hen' := h.ends q hb hq hen
    rw [← append_assoc] at hen' ⊢
    refine endsWell_append hen' ?_
    rw [hspl, ← append_assoc]
    exact endsWell_of_split (hq e he hbl) (endsLine_eq_false_of_not_isTrivia he) hes
  · exact .inl ⟨e, mem_append_right _ (mem_append_left _ hmem), he⟩

/-! ## A lone `=` -/

/-- White space after white space would be one token with it. -/
theorem kind_ne_space_after {u : Token} (h : Lexed lineStart (s :: u :: rest)) (hk : s.kind = .space) : u.kind ≠ .space := by
  intro hsp
  obtain ⟨-, -, hs⟩ := h.space_spec hk
  obtain ⟨hst, -⟩ := h.cut.2.space_spec hsp
  obtain ⟨c, hc, hst⟩ := Option.any_eq_true _ _ |>.1 hst
  have hh : (spelling (u :: rest)).head? = some c := by rw [h.cut.2.head_spelling, hc]
  exact absurd (hs c hh) (by simp [isSpace_of_startsSpace hst])

/-- The white space at the end of a list is at most one token. -/
theorem exists_space_end (h : Lexed lineStart us) :
    ∃ vs ss, us = vs ++ ss ∧ (ss = [] ∨ ∃ s, ss = [s] ∧ s.kind = .space) ∧ ∀ l, vs.getLast? = some l → l.kind ≠ .space := by
  rcases eq_nil_or_concat' us with rfl | ⟨vs, s, rfl⟩
  · exact ⟨[], [], rfl, .inl rfl, nofun⟩
  · by_cases hk : s.kind = .space
    · refine ⟨vs, [s], rfl, .inr ⟨s, rfl, hk⟩, ?_⟩
      intro l hl hsp
      obtain ⟨vs, rfl⟩ := getLast?_eq_some_iff.1 hl
      have hlex : Lexed lineStart (vs ++ l :: s :: []) := by simpa using h
      exact kind_ne_space_after hlex.append_right hsp hk
    · refine ⟨vs ++ [s], [], by simp, .inl rfl, ?_⟩
      intro l hl
      rw [getLast?_concat, Option.some.injEq] at hl
      exact hl ▸ hk

/-- A token does not go on to its line's end if another follows there. -/
theorem endsLine_eq_false_before (h : Lexed lineStart (l :: (ss ++ t :: rest))) (ht : t.text.head? ≠ some '\n')
    (hss : '\n' ∉ spelling ss) : l.endsLine = false ∧ ∃ d, (spelling (ss ++ t :: rest)).head? = some d ∧ d ≠ '\n' := by
  have hne : spelling (ss ++ t :: rest) ≠ [] := by
    have htx := h.cut.2.append_right.text_ne_nil
    simp [spelling, htx]
  obtain ⟨d, r, hspl⟩ := exists_cons_of_ne_nil hne
  have hd : d ≠ '\n' := by
    rintro rfl
    rw [spelling_append] at hspl
    cases hs : spelling ss with
    | nil =>
      rw [hs, nil_append] at hspl
      have hh := h.cut.2.append_right.head_spelling
      rw [hspl] at hh
      exact ht hh.symm
    | cons c w =>
      rw [hs] at hspl
      cases hspl
      exact hss (by rw [hs]; exact mem_cons_self)
  exact ⟨h.cut.1.endsLine_eq_false (by rw [hspl]; rfl) hd, d, by rw [hspl]; rfl, hd⟩

/-- A token but white space ends with no blank if another follows. -/
theorem exists_end (h : Lexed lineStart (l :: (ss ++ t :: rest))) (htm : l.isTerminated) (hk : l.kind ≠ .space)
    (ht : t.text.head? ≠ some '\n') (hss : '\n' ∉ spelling ss) : ∃ r c, l.text = r ++ [c] ∧ isSpaceOrTab c = false := by
  obtain ⟨he, d, hd, hf⟩ := endsLine_eq_false_before h ht hss
  cases htr : l.isTrivia with
  | false => exact h.cut.1.not_isSpaceOrTab_getLast htr hd hf
  | true =>
    obtain ⟨c, hc, hbl⟩ := h.cut.1.not_isBlank_getLast htm (h.isBlank_eq_false_of_isTrivia htr hk) he
    obtain ⟨r, hr⟩ := getLast?_eq_some_iff.1 hc
    exact ⟨r, c, hr, eq_false_of_imp isBlank_of_isSpaceOrTab hbl⟩

theorem isSpace_of_isSpaceOrTab (h : isSpaceOrTab c) : isSpace c := by
  rw [isSpaceOrTab, Bool.or_eq_true] at h
  simp only [isSpace, Bool.or_eq_true]
  exact .inl (.inl (.inl h))

theorem all_isSpace_of_sublist (ha : a.all isSpace) (hw : ∀ c ∈ w, c ∈ a) : w.all isSpace := by
  rw [all_eq_true] at ha ⊢
  exact fun c hc => ha c (hw c hc)

theorem mem_of_mem_dropEndWhile (h : c ∈ dropEndWhile p a) : c ∈ a := by
  rw [dropEndWhile, mem_reverse] at h
  exact mem_reverse.1 (dropWhile_subset p h)

theorem head?_dropEndWhile (h : dropEndWhile p a ≠ []) : (dropEndWhile p a).head? = a.head? := by
  have hprefix : dropEndWhile p a <+: a := by
    rw [← reverse_suffix, dropEndWhile, reverse_reverse]
    exact dropWhile_suffix p
  obtain ⟨b, hb⟩ := hprefix
  conv_rhs => rw [← hb, head?_append_of_ne_nil _ h]

theorem any_feed_dropWhile : (a.dropWhile isSpaceOrTab).any (· == '\n') = a.any (· == '\n') := by
  induction a with
  | nil => rfl
  | cons c a ih =>
    rw [dropWhile_cons]
    split
    · rename_i hc
      have hne : (c == '\n') = false := by
        rw [beq_eq_false_iff_ne]
        rintro rfl
        exact absurd hc (by decide)
      rw [ih, any_cons, hne, Bool.false_or]
    · rfl

/-- The text before a lone `=` without its last blanks is that of its tokens. -/
theorem dropEndWhile_spelling (h : Lexed lineStart (vs ++ (ss ++ t :: rest))) (hwh : ∀ u ∈ vs, u.isWhole)
    (hvs : ∀ l, vs.getLast? = some l → l.kind ≠ .space) (ht : t.text = ['=']) :
    dropEndWhile isSpaceOrTab (spelling (vs ++ ss)) = spelling vs ++ dropEndWhile isSpaceOrTab (spelling ss) := by
  rw [spelling_append, Text.dropEndWhile_append]
  split
  · rename_i hall
    have hnil : dropEndWhile isSpaceOrTab (spelling ss) = [] := by
      rw [dropEndWhile, reverse_eq_nil_iff, dropWhile_eq_nil_iff]
      exact fun c hc => all_eq_true.1 hall c (mem_reverse.1 hc)
    rw [hnil, append_nil]
    rcases eq_nil_or_concat' vs with rfl | ⟨vs, l, rfl⟩
    · rfl
    · have hlex : Lexed lineStart (vs ++ l :: (ss ++ t :: rest)) := by simpa using h
      obtain ⟨r, c, hr, hc⟩ := exists_end hlex.append_right (isWhole_iff.1 (hwh l (by simp))).1 (hvs l getLast?_concat)
        (by rw [ht]; decide) fun hf => absurd (all_eq_true.1 hall '\n' hf) (by decide)
      have hspl : spelling (vs ++ [l]) = (spelling vs ++ r) ++ [c] := by simp [spelling, hr]
      rw [hspl, dropEndWhile_concat hc]
  · rfl

/-- The text after a lone `=` without its first spaces and tabs. -/
theorem dropWhile_spelling (h : Lexed lineStart (ss ++ vs)) (hvs : ∀ t, vs.head? = some t → t.isGlue = false) :
    (spelling (ss ++ vs)).dropWhile isSpaceOrTab = (spelling ss).dropWhile isSpaceOrTab ++ spelling vs := by
  have hs : (spelling vs).dropWhile isSpaceOrTab = spelling vs := by
    cases vs with
    | nil => rfl
    | cons t vs =>
      have hlex := h.append_right
      obtain ⟨c, r, htx⟩ := exists_cons_of_ne_nil hlex.text_ne_nil
      have hnot : ¬isSpaceOrTab c := by
        intro hsp
        have hgl := (hlex.isGlue_iff (by rw [htx]; rfl)).2 (isSpace_of_isSpaceOrTab hsp)
        rw [hvs t rfl] at hgl
        cases hgl
      rw [spelling, flatMap_cons, htx, cons_append, dropWhile_cons_of_neg hnot]
  rw [spelling_append, dropWhile_append]
  split
  · rename_i hemp
    rw [isEmpty_iff.1 hemp, hs]
    rfl
  · rfl

/-- At most one token of white space is made of spaces. -/
theorem spelling_space (hss : ss = [] ∨ ∃ s, ss = [s] ∧ s.kind = .space) (h : Lexed lineStart (ss ++ rest)) :
    (spelling ss).all isSpace ∧ (spelling ss).head?.all startsSpace := by
  rcases hss with rfl | ⟨s, rfl, hk⟩
  · exact ⟨rfl, rfl⟩
  · obtain ⟨hst, hall, -⟩ := h.space_spec hk
    have hspl : spelling [s] = s.text := by simp [spelling]
    obtain ⟨c, hc, hst⟩ := Option.any_eq_true _ _ |>.1 hst
    rw [hspl, hc]
    exact ⟨hall, hst⟩

/-- White space before a lone `=` starts as before, or with a space. -/
theorem lead_spec (hall : a.all isSpace) (hst : a.head?.all startsSpace)
    (hw : dropEndWhile isSpaceOrTab a ++ [' '] = w) : w.head?.any startsSpace ∧ w.all isSpace ∧
      (w.head? = a.head? ∨ a.all isSpaceOrTab ∧ w.head? = some ' ') := by
  have hwall : w.all isSpace := by
    rw [← hw, all_append, all_isSpace_of_sublist hall fun c hc => mem_of_mem_dropEndWhile hc]
    rfl
  by_cases hnil : dropEndWhile isSpaceOrTab a = []
  · rw [hnil] at hw
    subst hw
    refine ⟨rfl, hwall, .inr ⟨?_, rfl⟩⟩
    rw [dropEndWhile, reverse_eq_nil_iff, dropWhile_eq_nil_iff] at hnil
    exact all_eq_true.2 fun c hc => hnil c (mem_reverse.2 hc)
  · have hh : w.head? = a.head? := by rw [← hw, head?_append_of_ne_nil _ hnil, head?_dropEndWhile hnil]
    obtain ⟨c, r, hc⟩ := exists_cons_of_ne_nil hnil
    have hwhead : w.head? = some c := by rw [← hw, hc]; rfl
    rw [← hh, hwhead] at hst
    exact ⟨by rw [hwhead]; exact hst, hwall, .inl hh⟩

/-- The token before white space ends where it did when that is written anew. -/
theorem yields_lead (htm : l.isTerminated) (hk : l.kind ≠ .space) (hst : w.head?.any startsSpace)
    (hh : w.head? = a.head? ∨ a.all isSpaceOrTab ∧ w.head? = some ' ')
    (he : a.all isSpaceOrTab → l.endsLine = false) (y y' : Text) : l.Yields (a ++ y) (w ++ y') := by
  obtain ⟨c, hc, hsp⟩ := Option.any_eq_true _ _ |>.1 hst
  obtain ⟨r, rfl⟩ := head?_eq_some_iff.1 hc
  rcases hh with heq | ⟨hall, heq⟩
  · obtain ⟨r', rfl⟩ := head?_eq_some_iff.1 heq.symm
    have hq : [c] ≠ ['\''] := by
      rintro ⟨⟩
      exact absurd hsp (by decide)
    exact yields_of_start (by simp) hq (r' ++ y) (r ++ y')
  · cases heq
    refine yields_of_takesUp htm (he hall) ?_ _
    intro d hd
    cases hd
    exact takesUp_space hk

/-- A lone `=` between two spaces, the second with the white space after it. -/
theorem supplants_assign {ss' : List Token} (h : Stands lineStart ts (vs ++ (ss ++ t :: (ss' ++ rest))))
    (hwh : ∀ u ∈ ts, u.isWhole) (ht : t.isPunct "=") (hss : ss = [] ∨ ∃ s, ss = [s] ∧ s.kind = .space)
    (hvs : ∀ l, vs.getLast? = some l → l.kind ≠ .space) (hss' : ∀ s ∈ ss', s.isGlue) :
    Supplants lineStart ts vs (ss ++ t :: (ss' ++ rest.takeWhile isGlue)) (rest.dropWhile isGlue)
      (ofSpace (dropEndWhile isSpaceOrTab (spelling ss) ++ [' ']) :: ofMark ['='] ::
        [ofSpace ((' ' :: (spelling ss').dropWhile isSpaceOrTab) ++ spelling (rest.takeWhile isGlue))]) := by
  rw [isPunct_iff] at ht
  have hbef := h.lexed.append_right
  have haft : Lexed false (ss' ++ rest) := by
    have hcut := hbef.append_right.cut.2
    rw [lineStartAfter, ht.1] at hcut
    exact hcut
  have hglue : rest.takeWhile isGlue ++ rest.dropWhile isGlue = rest := takeWhile_append_dropWhile
  have htl : Lexed false (absorb (' ' :: (spelling ss').dropWhile isSpaceOrTab) rest) := by
    refine haft.append_right.absorb (fun u hu => ?_) rfl ?_ fun hl => ?_
    · exact (isWhole_iff.1 (h.copied.whole hwh u (by simp [hu]))).2
    · rw [all_cons, all_isSpace_of_sublist (all_isSpace_of_isGlue haft.append_left hss') fun c hc => dropWhile_subset _ hc]
      rfl
    · rcases feed_of_lineStartAfterAll hl with hl | hf
      · cases hl
      · rw [any_cons, any_feed_dropWhile, hf]
        rfl
  obtain ⟨hall, hst⟩ := spelling_space hss hbef
  rw [absorb] at htl
  generalize hw : dropEndWhile isSpaceOrTab (spelling ss) ++ [' '] = w
  generalize (' ' :: (spelling ss').dropWhile isSpaceOrTab) ++ spelling (rest.takeWhile isGlue) = w' at htl
  obtain ⟨hwstart, hwall, hwhead⟩ := lead_spec hall hst hw
  have hinert : ∀ u ∈ [ofSpace w, ofMark ['='], ofSpace w'], u.isInert := by
    intro u hu
    simp only [mem_cons, not_mem_nil, or_false] at hu
    rcases hu with rfl | rfl | rfl
    · exact isInert_ofSpace
    · decide
    · exact isInert_ofSpace
  have hneutral : ∀ u ∈ ss ++ t :: (ss' ++ rest.takeWhile isGlue), u.isNeutral := by
    have hlex : Lexed lineStart (vs ++ (ss ++ t :: (ss' ++ (rest.takeWhile isGlue ++ rest.dropWhile isGlue)))) := by
      rw [hglue]
      exact h.lexed
    have hgl {u : Token} (hm : u ∈ ss ++ (ss' ++ rest.takeWhile isGlue)) (hg : u.isGlue) : u.isNeutral := by
      have hmem : u ∈ vs ++ (ss ++ t :: (ss' ++ (rest.takeWhile isGlue ++ rest.dropWhile isGlue))) := by
        simp only [mem_append, mem_cons] at hm ⊢
        rcases hm with hm | hm | hm <;> simp [hm]
      exact hlex.isNeutral_of_isBlank hmem (hlex.isBlank_of_isGlue hmem hg)
    intro u hu
    simp only [mem_append, mem_cons] at hu
    rcases hu with hu | rfl | hu | hu
    · refine hgl (by simp [hu]) ?_
      rcases hss with rfl | ⟨s, rfl, hk⟩
      · cases hu
      · cases mem_singleton.1 hu
        rw [isGlue, hk]
        rfl
    · exact isNeutral_of_isPunct (isPunct_iff.2 ht) (by decide)
    · exact hgl (by simp [hu]) (hss' u hu)
    · exact hgl (by simp [hu]) (mem_takeWhile_imp hu)
  refine ⟨?_, ?_, fun u hu => .inl (isInert_iff.1 (hinert u hu)).1, ?_, ?_, ?_, ?_, [ofSpace w], ofMark ['='], [ofSpace w'],
    rfl, rfl, rfl, ?_⟩
  · have hm := htl.mark_cons (c := '=') rfl (lineStartAfterAll lineStart vs || w.any (· == '\n'))
    exact hm.space_cons hwstart hwall fun d hd => by cases hd; decide
  · intro l hl
    obtain ⟨vs, rfl⟩ := getLast?_eq_some_iff.1 hl
    have hlex : Lexed lineStart (vs ++ l :: (ss ++ t :: (ss' ++ rest))) := by simpa using h.lexed
    have hnew : spelling ([ofSpace w, ofMark ['='], ofSpace w'] ++ rest.dropWhile isGlue) =
        w ++ ('=' :: (w' ++ spelling (rest.dropWhile isGlue))) := by
      simp [spelling, ofSpace, ofMark]
    have hold : spelling (ss ++ t :: (ss' ++ rest.takeWhile isGlue) ++ rest.dropWhile isGlue) =
        spelling ss ++ ('=' :: spelling (ss' ++ rest)) := by
      simp [spelling, ht.2]
    rw [hold]
    have htm := (isWhole_iff.1 (h.copied.whole hwh l (by simp))).1
    refine yields_lead htm (hvs l hl) hwstart hwhead (fun hall => ?_) _ _
    refine (endsLine_eq_false_before hlex.append_right (by rw [ht.2]; decide) fun hf => ?_).1
    exact absurd (all_eq_true.1 hall '\n' hf) (by decide)
  · exact .of_neutral hneutral (fun u hu => (isInert_iff.1 (hinert u hu)).2.1)
      (isChain_quoteApart fun u hu => (isInert_iff.1 (hinert u hu)).2.2)
  · exact startsWell_of_forall fun u hu hd => absurd (isInert_iff.1 (hinert u hu)).1 (by simp [isMade_iff, hd])
  · intro u hu
    cases hu
    obtain ⟨c, hc, hsp⟩ := Option.any_eq_true _ _ |>.1 hwstart
    rw [ofSpace, hc]
    rintro ⟨⟩
    exact absurd hsp (by decide)
  · intro l hl
    cases hl
    simp [ofSpace]
  · intro u hu
    cases mem_singleton.1 hu
    rfl

end Stands

end Declass
