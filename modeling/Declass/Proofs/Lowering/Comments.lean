import Declass.Proofs.Lowering.Body
import Declass.Proofs.Lowering.Clean
import Declass.Proofs.Lowering.Enclosed

/-!
# Comments around the code

A clean text with a space for each comment is clean and has the same significant tokens (`Clean.uncommented`), so it is lowered to the
same code (`significant_lower_uncommented`).
-/

namespace Declass

open List

namespace Token

open Scan

/-- The text with one space in the place of each comment. -/
def uncommented (x : Text) : Text :=
  (tokenize x).flatMap fun t => if t.kind = .comment then [' '] else t.text

/-- The tokens with one space for each comment, joined to the white space around. -/
def uncomment : List Token → List Token
  | [] => []
  | t :: ts =>
    if t.kind = .comment then absorb [' '] (uncomment ts)
    else if t.kind = .space then absorb t.text (uncomment ts)
    else t :: uncomment ts

variable {t : Token} {ts : List Token} {u v o : Token} {lineStart lineStart' : Bool} {w : Text} {zs us vs : List Token}

theorem uncomment_of_comment (h : t.kind = .comment) : uncomment (t :: ts) = absorb [' '] (uncomment ts) := by
  rw [uncomment, if_pos h]

theorem uncomment_of_space (h : t.kind = .space) : uncomment (t :: ts) = absorb t.text (uncomment ts) := by
  rw [uncomment, if_neg (by simp [h]), if_pos h]

theorem uncomment_of_ne (hcom : t.kind ≠ .comment) (hsp : t.kind ≠ .space) : uncomment (t :: ts) = t :: uncomment ts := by
  rw [uncomment, if_neg hcom, if_neg hsp]

theorem spelling_uncomment : spelling (uncomment ts) = ts.flatMap fun t => if t.kind = .comment then [' '] else t.text := by
  induction ts with
  | nil => rfl
  | cons t ts ih =>
    rw [flatMap_cons, ← ih]
    by_cases hcom : t.kind = .comment
    · rw [uncomment_of_comment hcom, spelling_absorb, if_pos hcom]
    · rw [if_neg hcom]
      by_cases hsp : t.kind = .space
      · rw [uncomment_of_space hsp, spelling_absorb]
      · rw [uncomment_of_ne hcom hsp]
        rfl

theorem mem_uncomment (h : u ∈ uncomment ts) : u.kind = .space ∨ u.kind ≠ .comment ∧ u ∈ ts := by
  induction ts with
  | nil => nomatch h
  | cons t ts ih =>
    have hih (h : u ∈ uncomment ts) : u.kind = .space ∨ u.kind ≠ .comment ∧ u ∈ t :: ts :=
      (ih h).imp_right fun ⟨hk, hmem⟩ => ⟨hk, mem_cons_of_mem t hmem⟩
    have habsorb {w : Text} (h : u ∈ absorb w (uncomment ts)) : u.kind = .space ∨ u.kind ≠ .comment ∧ u ∈ t :: ts := by
      rcases mem_cons.1 h with rfl | h
      · exact .inl rfl
      · exact hih ((dropWhile_sublist _).subset h)
    by_cases hcom : t.kind = .comment
    · exact habsorb (uncomment_of_comment hcom ▸ h)
    by_cases hsp : t.kind = .space
    · exact habsorb (uncomment_of_space hsp ▸ h)
    · rw [uncomment_of_ne hcom hsp] at h
      rcases mem_cons.1 h with rfl | h
      · exact .inr ⟨hcom, mem_cons_self⟩
      · exact hih h

theorem isSound_uncomment (hsnd : ∀ t ∈ ts, t.isSound) (h : u ∈ uncomment ts) : u.isSound := by
  rcases mem_uncomment h with hk | ⟨-, hmem⟩
  · exact isSound_iff.2 ⟨by rw [isTerminated, hk], by rw [isStray, isPunct, hk]; rfl, fun htr => by simp [isTrivia, hk] at htr⟩
  · exact hsnd u hmem

theorem filter_uncomment (hsnd : ∀ t ∈ ts, t.isSound) : (uncomment ts).filter (!·.isTrivia) = ts.filter (!·.isTrivia) := by
  induction ts with
  | nil => rfl
  | cons t ts ih =>
    have hsnd' : ∀ u ∈ ts, u.isSound := fun u hu => hsnd u (mem_cons_of_mem t hu)
    have habsorb (w : Text) := filter_absorb (fun u hu => isSound_uncomment hsnd' hu) w
    by_cases hcom : t.kind = .comment
    · rw [uncomment_of_comment hcom, habsorb, ih hsnd', filter_cons_of_neg (by simp [isTrivia, hcom])]
    by_cases hsp : t.kind = .space
    · rw [uncomment_of_space hsp, habsorb, ih hsnd', filter_cons_of_neg (by simp [isTrivia, hsp])]
    · rw [uncomment_of_ne hcom hsp, filter_cons, filter_cons, ih hsnd']

/-! ## The same cuts -/

/-- A token ends before a comment as it ends before a space. -/
theorem yields_uncomment (h : Lexed lineStart (t :: ts)) (hsnd : ∀ u ∈ t :: ts, u.isSound) (hk : t.kind ≠ .space) :
    t.Yields (spelling ts) (spelling (uncomment ts)) := by
  cases ts with
  | nil => exact fun _ _ _ _ hl => hl
  | cons u us =>
    have hrt := h.cut.2
    by_cases hcom : u.kind = .comment
    · rw [uncomment_of_comment hcom]
      have he : t.endsLine = false := by
        obtain ⟨c, hc, hsl⟩ : ∃ c, u.text.head? = some c ∧ c = '/' := by
          have hcut := hrt.cut.1
          rw [hcom] at hcut
          generalize u.text = text at hcut
          cases hcut <;> exact ⟨_, rfl, rfl⟩
        refine h.cut.1.endsLine_eq_false (d := c) ?_ (by rw [hsl]; decide)
        rw [hrt.head_spelling, hc]
      refine yields_of_takesUp (isSound_iff.1 (hsnd t mem_cons_self)).1 he ?_ _
      intro d hd
      cases hd
      exact takesUp_space hk
    · have hspl : spelling (uncomment (u :: us)) = u.text ++ spelling (uncomment us) := by
        rw [spelling_uncomment, flatMap_cons, if_neg hcom, spelling_uncomment]
      have hs : Lexed _ ([u] ++ us) := hrt
      have hq : u.text ≠ ['\''] := by
        have hne := hs.append_left.spelling_ne_quote fun v hv => by
          cases hv
          exact (isSound_iff.1 (hsnd u (by simp))).1
        simpa [spelling] using hne
      rw [hspl]
      exact yields_of_start hrt.text_ne_nil hq _ _

/-- The first token is white space, or it is the first one with its comments. -/
theorem head_uncomment (hlex : Lexed lineStart ts) (h : (uncomment ts).head? = some v) :
    v.kind = .space ∧ v.text.head?.any startsSpace ∨ v.kind ≠ .space ∧ ts.head? = some v := by
  cases ts with
  | nil => nomatch h
  | cons t ts =>
    by_cases hcom : t.kind = .comment
    · rw [uncomment_of_comment hcom] at h
      cases h
      exact .inl ⟨rfl, rfl⟩
    by_cases hsp : t.kind = .space
    · rw [uncomment_of_space hsp] at h
      cases h
      refine .inl ⟨rfl, ?_⟩
      rw [ofSpace, head?_append_of_ne_nil _ hlex.text_ne_nil]
      exact (hlex.space_spec hsp).1
    · rw [uncomment_of_ne hcom hsp] at h
      cases h
      exact .inr ⟨hsp, rfl⟩

/-- Tokens without comments are cut off as before; a line can start there. -/
theorem lexed_uncomment (h : Lexed lineStart ts) (hsnd : ∀ t ∈ ts, t.isSound)
    (hln : lineStart → lineStart') : Lexed lineStart' (uncomment ts) := by
  induction h generalizing lineStart' with
  | nil => exact .nil _
  | @cons lineStart t ts c r ht hl h ih =>
    have hwh : Lexed lineStart (t :: ts) := .cons c r ht hl h
    have hsnd' : ∀ u ∈ ts, u.isSound := fun u hu => hsnd u (mem_cons_of_mem t hu)
    have hstr : ∀ u ∈ uncomment ts, u.isStray = false := fun u hu => (isSound_iff.1 (isSound_uncomment hsnd' hu)).2.1
    by_cases hcom : t.kind = .comment
    · rw [uncomment_of_comment hcom]
      refine (@ih false hsnd' ?_).absorb hstr rfl rfl nofun
      intro haft
      rw [lineStartAfter, hcom] at haft
      nomatch haft
    by_cases hsp : t.kind = .space
    · rw [uncomment_of_space hsp]
      obtain ⟨hst, hall, -⟩ := hwh.space_spec hsp
      refine (@ih (lineStart' || t.text.any (· == '\n')) hsnd' ?_).absorb hstr hst hall id
      intro haft
      rw [lineStartAfter, hsp, beq_self_eq_true, Bool.true_and, Bool.or_eq_true] at haft
      rw [Bool.or_eq_true]
      exact haft.imp_left hln
    · rw [uncomment_of_ne hcom hsp]
      refine .cons c r ht ?_ (ih hsnd' ?_)
      · have hstr := (isSound_iff.1 (hsnd t mem_cons_self)).2.1
        exact Lexeme.anywhere_of_not_isStray (yields_uncomment hwh hsnd hsp _ _ _ ht hl) ht hstr fun _ => hln
      · intro haft
        rw [lineStartAfter, beq_eq_false_iff_ne.2 hsp] at haft
        nomatch haft

/-! ## The same groups -/

theorem standsApart_of_space (h : t.kind = .space) : standsApart t u := by
  simp [standsApart_iff, isNumeral, isWordOf_iff, isIdent, isPunct, h]

theorem standsApart_space (h : u.kind = .space) (hst : u.text.head?.any startsSpace) : standsApart t u := by
  have hne (c : Char) (hc : startsSpace c = false) : u.text.head? ≠ some c := by
    intro heq
    rw [heq, Option.any_some, hc] at hst
    nomatch hst
  refine standsApart_iff.2 ⟨fun _ => ⟨hne _ (by decide), hne _ (by decide)⟩, fun _ => ?_, fun _ => ?_⟩
  · rw [isPunct, h]
    rfl
  · simp [isWordOf, isWord, isIdent, h]

theorem isChain_absorb (h : zs.IsChain fun t u => standsApart t u) : (absorb w zs).IsChain fun t u => standsApart t u := by
  rw [← takeWhile_append_dropWhile (l := zs)] at h
  exact h.right_of_append.cons fun _ _ => standsApart_of_space rfl

theorem isChain_uncomment (hlex : Lexed lineStart ts) (h : ts.IsChain fun t u => standsApart t u) :
    (uncomment ts).IsChain fun t u => standsApart t u := by
  induction ts generalizing lineStart with
  | nil => exact .nil
  | cons t ts ih =>
    have htl := ih hlex.cut.2 h.tail
    by_cases hcom : t.kind = .comment
    · rw [uncomment_of_comment hcom]
      exact isChain_absorb htl
    by_cases hsp : t.kind = .space
    · rw [uncomment_of_space hsp]
      exact isChain_absorb htl
    · rw [uncomment_of_ne hcom hsp]
      refine htl.cons fun v hv => ?_
      rcases head_uncomment hlex.cut.2 hv with ⟨hk, hst⟩ | ⟨-, hh⟩
      · exact standsApart_space hk hst
      · obtain ⟨us, rfl⟩ := head?_eq_some_iff.1 hh
        exact (isChain_cons_cons.1 h).1

theorem split_absorb (ho : o.kind ≠ .space) (h : absorb w zs = us ++ o :: vs) :
    ∃ us', zs = us' ++ o :: vs ∧ us = absorb w us' := by
  obtain ⟨gs, zs, rfl, hgl, hno⟩ := exists_span isGlue zs
  rw [absorb_append hgl, absorb_of_head hno] at h
  cases us with
  | nil =>
    cases h
    exact absurd rfl ho
  | cons u us =>
    rw [cons_append, List.cons.injEq] at h
    obtain ⟨rfl, hr⟩ := h
    refine ⟨gs ++ us, by rw [append_assoc, ← hr], ?_⟩
    rw [absorb_append hgl, absorb_of_head]
    intro t ht
    exact hno t (by rw [hr, head?_append, ht]; rfl)

/-- A token of the code splits the tokens alike. -/
theorem split_uncomment (ho : o.kind ≠ .space) (h : uncomment ts = us ++ o :: vs) :
    ∃ us' vs', ts = us' ++ o :: vs' ∧ us = uncomment us' ∧ vs = uncomment vs' := by
  induction ts generalizing us with
  | nil => simp [uncomment] at h
  | cons t ts ih =>
    by_cases hcom : t.kind = .comment
    · rw [uncomment_of_comment hcom] at h
      obtain ⟨ws, hws, rfl⟩ := split_absorb ho h
      obtain ⟨us', vs', rfl, rfl, rfl⟩ := ih hws
      exact ⟨t :: us', vs', rfl, (uncomment_of_comment hcom).symm, rfl⟩
    by_cases hsp : t.kind = .space
    · rw [uncomment_of_space hsp] at h
      obtain ⟨ws, hws, rfl⟩ := split_absorb ho h
      obtain ⟨us', vs', rfl, rfl, rfl⟩ := ih hws
      exact ⟨t :: us', vs', rfl, (uncomment_of_space hsp).symm, rfl⟩
    · rw [uncomment_of_ne hcom hsp] at h
      cases us with
      | nil =>
        cases h
        exact ⟨[], ts, rfl, rfl, rfl⟩
      | cons u us =>
        rw [cons_append, List.cons.injEq] at h
        obtain ⟨rfl, hr⟩ := h
        obtain ⟨us', vs', rfl, rfl, rfl⟩ := ih hr
        exact ⟨t :: us', vs', rfl, (uncomment_of_ne hcom hsp).symm, rfl⟩

/-- Arguments without their comments are arguments that can be trimmed. -/
theorem isArguments_uncomment (h : isArguments ts) : isArguments (uncomment ts) ∧ isNeat (uncomment ts) := by
  have hdirective := (isArguments_iff.1 h).1
  have hkinds : ∀ u ∈ uncomment ts, u.kind ≠ .directive ∧ u.kind ≠ .comment := by
    intro u hu
    rcases mem_uncomment hu with hk | ⟨hk, hmem⟩
    · rw [hk]
      exact ⟨nofun, nofun⟩
    · exact ⟨hdirective u hmem, hk⟩
  refine ⟨isArguments_iff.2 ⟨fun u hu => (hkinds u hu).1, .inl fun u hu => (hkinds u hu).2⟩, ?_⟩
  rw [isNeat, Bool.and_eq_true, Option.all_eq_true, Option.all_eq_true]
  constructor
  · intro u hu
    exact bne_iff_ne.2 (hkinds u (mem_of_find?_eq_some hu)).1
  · intro u hu
    obtain ⟨hdir, hcom⟩ := hkinds u (mem_reverse.1 (mem_of_find?_eq_some hu))
    simp [endsLine, hdir, hcom]

end Token

open Token

variable {p : Program} {owner : Option Class}

theorem Clean.uncomment {lineStart : Bool} {ts : List Token} (h : Clean p owner ts) (hlex : Lexed lineStart ts) :
    Clean p owner (uncomment ts) := by
  refine .of_groups (fun u hu => isSound_uncomment h.sound hu) (isChain_uncomment hlex h.apart) ?_
  intro us o ms c vs b hspl ho hc hlv
  have hoSpace : o.kind ≠ .space := fun hk => by simp [Bracket.opened?, isPunct, hk] at ho
  have hcSpace : c.kind ≠ .space := fun hk => by simp [Bracket.closed?, isPunct, hk] at hc
  obtain ⟨us, rest, hts, rfl, hr⟩ := split_uncomment hoSpace hspl
  obtain ⟨ms, vs, rfl, rfl, rfl⟩ := split_uncomment hcSpace hr.symm
  have hus : (Token.uncomment us).filter (!·.isTrivia) = us.filter (!·.isTrivia) :=
    filter_uncomment fun t ht => h.sound t (hts ▸ mem_append_left _ ht)
  rw [← level_filter, filter_uncomment fun t ht => h.sound t (by simp [hts, ht]), level_filter] at hlv
  obtain ⟨ha, -⟩ := h.canTake hts ho hc hlv
  have htrm : p.trimsGroup owner (Token.uncomment us) b = p.trimsGroup owner us b := by
    unfold Program.trimsGroup
    rw [hus]
  have hren : p.renamesGroup (Token.uncomment us) b = p.renamesGroup us b := by
    rw [Program.renamesGroup, Program.renamesGroup, hus]
  rw [Program.CanTake, htrm, hren]
  refine ⟨fun htaken => (isArguments_uncomment (ha htaken)).1, fun htaken => ?_⟩
  exact (isArguments_uncomment (ha (by rw [htaken, Bool.true_or]))).2

/-- A clean text without its comments is clean, and has the same significant tokens. -/
theorem Clean.uncommented {x : Text} (h : Clean p owner (tokenize x)) :
    Clean p owner (tokenize (uncommented x)) ∧ significant (tokenize (uncommented x)) = significant (tokenize x) := by
  have hlex : Lexed true (Token.uncomment (tokenize x)) := lexed_uncomment (lexed_tokenizeFrom true 0 x) h.sound id
  have hspl : spelling (Token.uncomment (tokenize x)) = Token.uncommented x := spelling_uncomment
  rw [← hspl]
  refine ⟨(h.uncomment (lexed_tokenizeFrom true 0 x)).tokenize_spelling hlex, ?_⟩
  rw [significant_tokenize hlex, significant, significant, filter_uncomment h.sound]

open Token Scan
open Token (significant)

namespace Lowering

open Fragment

variable {L : Lowering} {x : Text}

/-- The significant tokens of a lowered text are what the text's become. -/
theorem significant_toDepth (hcln : Clean L.program L.owner (tokenize x)) (hns : HasNames L.program)
    (hown : ∀ c, L.owner = some c → c ∈ L.program.classes) (depth : Nat) (outer : List Var) :
    significant (tokenize (toDepth L depth outer x)) = tokensToDepth L depth outer (significant (tokenize x)) := by
  obtain ⟨zs, hspl, hst, hsig⟩ := exists_toDepth hcln.steady (lexed_tokenizeFrom true 0 x) hns hown depth outer
  rw [← hspl, significant_tokenize hst.lexed, hsig hcln]

/-- Clean texts with the same significant tokens are lowered to the same ones. -/
theorem significant_lower_congr {y : Text} (hx : Clean L.program L.owner (tokenize x))
    (hy : Clean L.program L.owner (tokenize y)) (hns : HasNames L.program) (hown : ∀ c, L.owner = some c → c ∈ L.program.classes)
    (hs : significant (tokenize x) = significant (tokenize y)) :
    significant (tokenize (L.lower x)) = significant (tokenize (L.lower y)) := by
  have hdep z d hd : L.lower z = toDepth L d [] z :=
    toDepth_eq_of_lt (Nat.lt_succ_self _) hd
  let d := max x.length y.length + 1
  rw [hdep x d (by omega), hdep y d (by omega), significant_toDepth hx hns hown, significant_toDepth hy hns hown, hs]

/-- A clean text without its comments is lowered to the same code. -/
theorem significant_lower_uncommented (hclean : Clean L.program L.owner (tokenize x)) (hnames : HasNames L.program)
    (howner : ∀ c, L.owner = some c → c ∈ L.program.classes) :
    significant (tokenize (L.lower x)) = tokensToDepth L (x.length + 1) [] (significant (tokenize x)) ∧
      significant (tokenize (L.lower (uncommented x))) = significant (tokenize (L.lower x)) := by
  obtain ⟨hclean', hsame⟩ := hclean.uncommented
  exact ⟨significant_toDepth hclean hnames howner _ [], significant_lower_congr hclean' hclean hnames howner hsame⟩

/-- A program with a class and an overloaded function, in a method. -/
def logLowering : Lowering :=
  let led : Class :=
    { name := "Led", keyword := .classWord
      methods := [{ name := "set", rawType := "void (int)", params := [⟨some "v", "int"⟩], cName := "Led_set" }]
      constructors := [{ name := "Led", rawType := "void (int)", params := [⟨some "p", "int"⟩], cName := "Led_init_i" }] }
  { program :=
      { classes := [led]
        functions := [
          { name := "log"
            signatures := [
              { name := "log", rawType := "void ()", cName := "log_void" },
              { name := "log", rawType := "void (int)", params := [⟨some "v", "int"⟩], cName := "log_i" }] }] }
    owner := some led }

/-- A text with comments around the tokens of calls. -/
def logText : Text :=
  "Led /* the */ a(/* pin */ 1); // first\na.set(log(2 /* two */)); log( );\n/* last */ set(n= true);\n"

theorem significant_lower_uncommented_sample :
    Clean logLowering.program logLowering.owner (tokenize logText) ∧
      significant (tokenize (logLowering.lower logText)) =
        tokensToDepth logLowering (logText.length + 1) [] (significant (tokenize logText)) ∧
      significant (tokenize (logLowering.lower (uncommented logText))) =
        significant (tokenize (logLowering.lower logText)) := by
  have hclean : Clean logLowering.program logLowering.owner (tokenize logText) :=
    { sound := by decide +kernel
      apart := by decide +kernel
      arguments := by decide +kernel }
  have hnames : HasNames logLowering.program :=
    { classes := by decide
      methods := by decide
      constructors := by decide
      functions := by decide }
  have howner : ∀ c, logLowering.owner = some c → c ∈ logLowering.program.classes := by
    intro c hc
    cases hc
    exact List.mem_cons_self
  exact ⟨hclean, significant_lower_uncommented hclean hnames howner⟩

/-- A comment alone between parentheses counts as an argument. -/
theorem significant_lower_ne_lone_comment :
    ¬∀ (L : Lowering) (x : Text), (∀ t ∈ tokenize x, t.isTerminated = true) →
      significant (tokenize (L.lower (uncommented x))) = significant (tokenize (L.lower x)) := by
  intro h
  have heq := h logLowering "log(/* none */);".toList (by decide +kernel)
  exact absurd heq (by decide +kernel)

end Lowering

end Declass
