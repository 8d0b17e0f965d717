import Declass.Proofs.Token.Concat
import Declass.Proofs.Token.Nesting

/-!
# Tokens in the place of others

When some tokens of a text are replaced, the tokens before them are still cut off where they were, if the last of them
ends before the new text as it did before the old one (`Lexed.replace`).
-/

namespace Declass

open List

namespace Token

open Scan

/-- Where the token ends before `y`, it ends before `y'` as well. -/
def Yields (t : Token) (y y' : Text) : Prop :=
  ∀ lineStart c r, t.text = c :: r → Lexeme lineStart c (r ++ y) t.kind r.length →
    Lexeme lineStart c (r ++ y') t.kind r.length

variable {t : Token} {lineStart : Bool} {w : Text} {ts : List Token} {c : Char}

/-- What a token ends before is told by the start of what follows. -/
theorem yields_of_start {p : Text} (hp : p ≠ []) (hq : p ≠ ['\'']) (z z' : Text) : t.Yields (p ++ z) (p ++ z') := by
  intro lineStart c r ht hl
  rw [← append_assoc] at hl
  exact (hl.of_append (by simp)).append ht (fun hnil => absurd hnil hp) hq

/-- Tokens that are put in the place of others. -/
theorem Lexed.replace {us ms ms' : List Token} (h : Lexed lineStart (us ++ ms)) (htm : ∀ t ∈ us, t.isTerminated)
    (hms' : Lexed (lineStartAfterAll lineStart us) ms')
    (hla : ∀ t, us.getLast? = some t → t.Yields (spelling ms) (spelling ms')) : Lexed lineStart (us ++ ms') := by
  induction us generalizing lineStart with
  | nil => exact hms'
  | cons u us ih =>
    cases h with
    | cons c r ht hl h =>
      refine .cons c r ht ?_ (ih h (fun t ht => htm t (mem_cons_of_mem u ht)) hms' ?_)
      · change Lexeme lineStart c (r ++ spelling (us ++ ms)) u.kind r.length at hl
        change Lexeme lineStart c (r ++ spelling (us ++ ms')) u.kind r.length
        rw [spelling_append] at hl ⊢
        cases us with
        | nil => exact hla u rfl lineStart c r ht hl
        | cons v us =>
          have hne : spelling (v :: us) ≠ [] := by
            have hv := h.text_ne_nil
            simp [spelling, hv]
          have hq : spelling (v :: us) ≠ ['\''] :=
            h.append_left.spelling_ne_quote fun t ht =>
              htm t (mem_cons_of_mem u (mem_of_getLast? ht))
          exact yields_of_start hne hq _ _ lineStart c r ht hl
      · intro t ht
        refine hla t ?_
        cases us with
        | nil => cases ht
        | cons v us => rw [getLast?_cons_cons, ht]

/-- A complete token ends before a text that it takes nothing of. -/
theorem yields_of_takesUp (htm : t.isTerminated) (hln : t.endsLine = false) {y' : Text}
    (hy' : ∀ d, y'.head? = some d → t.takesUp d = false) (y : Text) : t.Yields y y' := by
  intro lineStart c r ht hl
  have hown : Lexeme lineStart c (r ++ []) t.kind r.length := by
    rw [append_nil]
    exact hl.of_append (Nat.le_refl _)
  exact hown.append ht (fun _ => ⟨htm, hln, hy'⟩) nofun

theorem takesUp_space (h : t.kind ≠ .space) : t.takesUp ' ' = false := by
  rw [takesUp]
  cases hk : t.kind with
  | space => exact absurd hk h
  | punct => simp
  | ident | number | string | char | comment | directive => rfl

/-- A token that only a line feed ends is followed by one. -/
theorem Cut.endsLine_eq_false {rest : Text} (h : Cut lineStart rest t.kind t.text) {d : Char} (hd : rest.head? = some d)
    (hf : d ≠ '\n') : t.endsLine = false := by
  obtain ⟨rest, rfl⟩ := head?_eq_some_iff.1 hd
  generalize hk : t.kind = kind at h
  generalize ht : t.text = text at h
  rw [endsLine, hk, ht]
  cases h with
  | line hn =>
    have hs := (takeWhile_stop hn).2 d rfl
    exact absurd hs (by simpa using hf)
  | @directive r _ hn =>
    have hlt : directiveLength ('#' :: r ++ d :: rest) < ('#' :: r ++ d :: rest).length := by
      rw [hn]
      simp
    have hh := head_drop_directiveLength hlt
    rw [hn, ← length_cons, drop_left] at hh
    exact absurd (Option.some.inj hh) hf
  | block | space | string | char | ident | digit | point | pair | single => rfl

/-! ## Tokens put before others -/

/-- A name, wherever it stands. -/
def ofName (w : Text) : Token :=
  ⟨.ident, w, 0⟩

/-- A mark of punctuation, wherever it stands. -/
def ofMark (p : Text) : Token :=
  ⟨.punct, p, 0⟩

/-- White space, wherever it stands. -/
def ofSpace (w : Text) : Token :=
  ⟨.space, w, 0⟩

theorem Lexed.name_cons (hw : isName w) (h : Lexed false ts)
    (hsp : ∀ d, (spelling ts).head? = some d → continuesIdent d = false) (lineStart : Bool) :
    Lexed lineStart (ofName w :: ts) := by
  cases w with
  | nil => nomatch hw
  | cons c r => exact .cons c r rfl (.of_isName hw hsp) h

/-- A character that is a mark of its own whatever follows it. -/
def isLoneMark (c : Char) : Bool :=
  c == '(' || c == ')' || c == ',' || c == ';' || c == '&' || c == '='

theorem Lexed.mark_cons (hc : isLoneMark c) (h : Lexed false ts) (lineStart : Bool) : Lexed lineStart (ofMark [c] :: ts) := by
  refine .cons c [] rfl ?_ h
  simp only [isLoneMark, Bool.or_eq_true, beq_iff_eq, or_assoc] at hc
  rcases hc with rfl | rfl | rfl | rfl | rfl | rfl <;>
    exact .single (by decide) (by decide) (by decide) (by decide) (by simp) (by simp) (by simp) (by simp)

theorem Lexed.arrow_cons (h : Lexed false ts) : Lexed lineStart (ofMark "->" :: ts) :=
  .cons '-' ['>'] rfl (.pair (.inr ⟨rfl, rfl⟩)) h

/-- White space is cut off before what is none. -/
theorem Lexed.space_cons (h : Lexed (lineStart || w.any (· == '\n')) ts) (hst : w.head?.any startsSpace)
    (hw : w.all isSpace) (hstop : ∀ d, (spelling ts).head? = some d → isSpace d = false) : Lexed lineStart (ofSpace w :: ts) := by
  obtain ⟨c, r, rfl⟩ : ∃ c r, w = c :: r := by
    cases w with
    | nil => nomatch hst
    | cons c r => exact ⟨c, r, rfl⟩
  have hs : r.takeWhile isSpace = r := takeWhile_eq_self_iff.2 (all_eq_true.1 (Bool.and_eq_true_iff.1 hw).2)
  refine .cons c r rfl ?_ h
  have hlen : ((r ++ spelling ts).takeWhile isSpace).length = r.length := by
    rw [takeWhile_append_of_stop fun _ => hstop, hs]
  rw [← hlen]
  exact .space hst

/-! ## The start of a line -/

theorem Lexeme.anywhere_of_not_isStray {lineStart' : Bool} {r y : Text} (h : Lexeme lineStart c (r ++ y) t.kind r.length)
    (ht : t.text = c :: r) (hstr : t.isStray = false) (hdir : t.kind = .directive → lineStart → lineStart') :
    Lexeme lineStart' c (r ++ y) t.kind r.length := by
  refine h.anywhere hdir fun hc hk hn => ?_
  cases eq_nil_of_length_eq_zero hn
  exact absurd hc (ne_hash_of_not_isStray hk ht hstr)

theorem Lexed.anywhere (h : Lexed lineStart ts) (hstr : ∀ t ∈ ts, t.isStray = false)
    (hdir : ∀ t ∈ ts, t.kind ≠ .directive) (lineStart' : Bool) : Lexed lineStart' ts := by
  induction h generalizing lineStart' with
  | nil => exact .nil _
  | @cons lineStart t ts c r ht hl h ih =>
    refine .cons c r ht ?_ (ih (fun u hu => hstr u (mem_cons_of_mem t hu))
      (fun u hu => hdir u (mem_cons_of_mem t hu)) _)
    exact hl.anywhere_of_not_isStray ht (hstr t mem_cons_self) fun hk => absurd hk (hdir t mem_cons_self)

/-- A token but white space that starts with no `#` can start any list. -/
theorem Lexed.inline (h : Lexed lineStart (t :: ts)) (hstr : t.isStray = false) (hdir : t.kind ≠ .directive)
    (hsp : t.kind ≠ .space) (lineStart' : Bool) : Lexed lineStart' (t :: ts) := by
  cases h with
  | cons c r ht hl h =>
    refine .cons c r ht (hl.anywhere_of_not_isStray ht hstr fun hk => absurd hk hdir) ?_
    rw [lineStartAfter, beq_eq_false_iff_ne.2 hsp] at h ⊢
    exact h

theorem Lexed.mono {lineStart' : Bool} (h : Lexed lineStart ts) (hstr : ∀ t ∈ ts, t.isStray = false)
    (hln : lineStart → lineStart') : Lexed lineStart' ts := by
  cases lineStart with
  | true => rwa [hln rfl]
  | false =>
    cases lineStart' with
    | true => exact h.lineStart hstr
    | false => exact h

/-! ## White space that goes on -/

/-- White space is made of spaces, and nothing after it is one. -/
theorem Lexed.space_spec {s : Token} {rest : List Token} (h : Lexed lineStart (s :: rest)) (hk : s.kind = .space) :
    s.text.head?.any startsSpace ∧ s.text.all isSpace ∧ ∀ d, (spelling rest).head? = some d → isSpace d = false := by
  have hcut := h.cut.1
  rw [hk] at hcut
  generalize s.text = x at hcut
  cases hcut with
  | space hc hn =>
    obtain ⟨hall, hs⟩ := takeWhile_stop hn
    exact ⟨hc, by rw [all_cons, isSpace_of_startsSpace hc, hall]; rfl, hs⟩

/-- What white space before it takes in: white space, a form feed. -/
def isGlue (t : Token) : Bool :=
  t.kind == .space || t.text == ['\x0c']

/-- The tokens up to the first one that `p` does not hold of. -/
theorem exists_span (p : Token → Bool) (ts : List Token) :
    ∃ gs zs, ts = gs ++ zs ∧ (∀ g ∈ gs, p g) ∧ ∀ z, zs.head? = some z → p z = false := by
  refine ⟨ts.takeWhile p, ts.dropWhile p, takeWhile_append_dropWhile.symm, fun g hg => mem_takeWhile_imp hg, ?_⟩
  intro z hz
  have hnot := head?_dropWhile_not p ts
  rw [hz] at hnot
  simpa using hnot

/-- White space before tokens, as one with theirs. -/
def absorb (w : Text) (ts : List Token) : List Token :=
  ofSpace (w ++ spelling (ts.takeWhile isGlue)) :: ts.dropWhile isGlue

theorem spelling_absorb (w : Text) (ts : List Token) : spelling (absorb w ts) = w ++ spelling ts := by
  conv_rhs => rw [← takeWhile_append_dropWhile (p := isGlue) (l := ts), spelling_append, ← append_assoc]
  rfl

theorem absorb_append {gs : List Token} (hgs : ∀ t ∈ gs, t.isGlue) : absorb w (gs ++ ts) = absorb (w ++ spelling gs) ts := by
  rw [absorb, absorb, takeWhile_append_of_pos hgs, dropWhile_append_of_pos hgs, spelling_append, append_assoc]

theorem absorb_of_head (h : ∀ t, ts.head? = some t → t.isGlue = false) : absorb w ts = ofSpace w :: ts := by
  cases ts with
  | nil => rw [absorb, takeWhile_nil, spelling, flatMap_nil, append_nil]; rfl
  | cons t ts =>
    have ht : ¬t.isGlue := by simp [h t rfl]
    rw [absorb, takeWhile_cons_of_neg ht, dropWhile_cons_of_neg ht, spelling, flatMap_nil, append_nil]

/-- Only white space and a form feed start with a space. -/
theorem Lexed.isGlue_iff (h : Lexed lineStart (t :: ts)) {d : Char} (hd : t.text.head? = some d) : t.isGlue ↔ isSpace d := by
  have hcut := h.cut.1
  rw [isGlue, Bool.or_eq_true, beq_iff_eq, beq_iff_eq]
  constructor
  · rintro (hk | htx)
    · obtain ⟨hst, hall, -⟩ := h.space_spec hk
      exact all_eq_true.1 hall d (mem_of_head? hd)
    · rw [htx] at hd
      cases hd
      decide
  · intro hsp
    have hne {c : Char} (hc : isSpace c = false) : d ≠ c := ne_of_holds hsp hc
    have hco : continuesIdent d = false := continuesIdent_eq_false_of_isBlank (isBlank_of_isSpace hsp)
    generalize t.kind = kind at hcut ⊢
    generalize t.text = text at hcut hd ⊢
    cases hcut with
    | space => exact .inl rfl
    | line | block | directive | string | char | point => exact absurd (Option.some.inj hd).symm (hne (by decide))
    | ident h => exact absurd (continuesIdent_of_startsIdent (Option.some.inj hd ▸ h)) (by rw [hco]; decide)
    | digit h => exact absurd (continuesIdent_of_isDigit (Option.some.inj hd ▸ h)) (by rw [hco]; decide)
    | pair h =>
      cases hd
      rcases h with ⟨rfl, -⟩ | ⟨rfl, -⟩ <;> exact absurd rfl (hne (by decide))
    | single hs =>
      simp only [isSpace, startsSpace] at hsp hs
      simp_all

theorem all_isSpace_of_isGlue (h : Lexed lineStart ts) (hgl : ∀ t ∈ ts, t.isGlue) : (spelling ts).all isSpace := by
  induction ts generalizing lineStart with
  | nil => rfl
  | cons t ts ih =>
    have hall : t.text.all isSpace := by
      have hg := hgl t mem_cons_self
      rw [isGlue, Bool.or_eq_true, beq_iff_eq, beq_iff_eq] at hg
      rcases hg with hk | htx
      · exact (h.space_spec hk).2.1
      · rw [htx]
        rfl
    rw [spelling, flatMap_cons, all_append, hall]
    exact ih h.cut.2 fun u hu => hgl u (mem_cons_of_mem t hu)

theorem feed_of_lineStartAfterAll (h : lineStartAfterAll lineStart ts) : lineStart ∨ (spelling ts).any (· == '\n') := by
  induction ts generalizing lineStart with
  | nil => exact .inl h
  | cons t ts ih =>
    rw [spelling, flatMap_cons, any_append, Bool.or_eq_true]
    rcases ih h with hst | hf
    · rw [lineStartAfter, Bool.and_eq_true, Bool.or_eq_true] at hst
      exact hst.2.imp_right .inl
    · exact .inr (.inr hf)

/-- White space is cut off with the form feeds after it. -/
theorem Lexed.absorb {lineStart' : Bool} (h : Lexed lineStart ts) (hstr : ∀ t ∈ ts, t.isStray = false)
    (hst : w.head?.any startsSpace) (hw : w.all isSpace)
    (hln : lineStart → (lineStart' || w.any (· == '\n'))) : Lexed lineStart' (absorb w ts) := by
  obtain ⟨gs, zs, rfl, hgl, hh⟩ := exists_span isGlue ts
  rw [absorb_append hgl, absorb_of_head hh]
  refine Lexed.space_cons (h.append_right.mono (fun t ht => hstr t (mem_append_right gs ht)) fun haft => ?_) ?_ ?_ ?_
  · rw [any_append]
    rcases feed_of_lineStartAfterAll haft with hl | hf
    · rw [← Bool.or_assoc, hln hl]
      rfl
    · rw [hf, Bool.or_true, Bool.or_true]
  · obtain ⟨c, hc, hst⟩ := Option.any_eq_true _ _ |>.1 hst
    rw [head?_append, hc]
    exact hst
  · rw [all_append, all_isSpace_of_isGlue h.append_left hgl, hw]
    rfl
  · cases zs with
    | nil => exact nofun
    | cons z zs =>
      intro d hd
      rw [h.append_right.head_spelling] at hd
      exact eq_false_of_imp (h.append_right.isGlue_iff hd).2 (hh z rfl)

end Token

end Declass
