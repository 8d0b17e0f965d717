import Declass.Proofs.Lowering.Arguments
import Declass.Proofs.Lowering.Plan

/-!
# What lowering keeps of tokens

`Kept` says what lowered tokens have in common with the tokens they are made of: the same literals in order, brackets that fit, and
no other token than those of the source and those that lowering makes.
-/

namespace Declass

open Declass.Bracket List
open Option (bind_eq_some_iff bind_some)

namespace Token

/-- A string or a character. -/
def isLiteral (t : Token) : Bool :=
  t.kind == .string || t.kind == .char

/-- The token is no literal, and opens and closes no group. -/
def isNeutral (t : Token) : Bool :=
  !t.isLiteral && (opened? t).isNone && (closed? t).isNone

/-- The token is of a kind that lowering writes. -/
def isMade (t : Token) : Bool :=
  t.isSound && (t.kind == .space || t.kind == .ident || t.kind == .number || t.kind == .punct)

/-- The token is written beside the arguments of a call. -/
def isInert (t : Token) : Bool :=
  t.isMade && t.isNeutral && t.kind != .number

variable {t : Token} {ts us : List Token} {w : Text}

/-- A neutral token is no literal and no bracket. -/
theorem isNeutral_iff : t.isNeutral ↔ t.isLiteral = false ∧ opened? t = none ∧ closed? t = none := by
  rw [isNeutral, Bool.and_eq_true, Bool.and_eq_true, Bool.not_eq_true', Option.isNone_iff_eq_none, Option.isNone_iff_eq_none,
    and_assoc]

theorem isMade_iff : t.isMade ↔ t.isSound ∧ (t.kind = .space ∨ t.kind = .ident ∨ t.kind = .number ∨ t.kind = .punct) := by
  simp only [isMade, Bool.and_eq_true, Bool.or_eq_true, beq_iff_eq, or_assoc]

theorem isWhole_of_isMade (h : t.isMade) : t.isWhole := by
  obtain ⟨htm, hstr, -⟩ := isSound_iff.1 (isMade_iff.1 h).1
  exact isWhole_iff.2 ⟨htm, hstr⟩

theorem isInert_iff : t.isInert ↔ t.isMade ∧ t.isNeutral ∧ t.kind ≠ .number := by
  rw [isInert, Bool.and_eq_true, Bool.and_eq_true, bne_iff_ne, and_assoc]

theorem isNeutral_of_kind (h : t.kind = .space ∨ t.kind = .comment ∨ t.kind = .directive ∨ t.kind = .ident ∨ t.kind = .number) :
    t.isNeutral := by
  rcases h with hk | hk | hk | hk | hk <;> simp [isNeutral, isLiteral, opened?, closed?, isPunct, hk]

theorem isNeutral_of_isIdent (h : t.isIdent) : t.isNeutral := by
  rw [isIdent, beq_iff_eq] at h
  exact isNeutral_of_kind (by simp [h])

theorem isNeutral_of_isTrivia (h : t.isTrivia) : t.isNeutral := by
  rw [isTrivia] at h
  cases hk : t.kind <;> simp_all [isNeutral_of_kind]

theorem isNeutral_of_isPunctOf {ps : List Text} (h : t.isPunctOf ps)
    (hps : ∀ b ∈ [round, .curly, .square], b.opening ∉ ps ∧ b.closing ∉ ps) : t.isNeutral := by
  obtain ⟨p, -, hp⟩ := any_eq_true.1 h
  exact isNeutral_iff.2 ⟨by rw [isLiteral, (isPunct_iff.1 hp).1]; rfl, Lowering.plain_of_isPunctOf h hps⟩

theorem isNeutral_of_isPunct {p : Text} (h : t.isPunct p)
    (hp : ∀ b ∈ [round, .curly, .square], b.opening ∉ [p] ∧ b.closing ∉ [p]) : t.isNeutral :=
  isNeutral_of_isPunctOf (any_eq_true.2 ⟨_, mem_singleton_self _, h⟩) hp

theorem isInert_ofSpace : (ofSpace w).isInert :=
  rfl

/-- A name that is written is inert. -/
theorem isInert_ofName (hw : Scan.isName w) : (ofName w).isInert := by
  rw [isInert, isMade, isSound_ofName hw]
  rfl

/-- Neutral tokens leave the open groups as they are. -/
theorem passAll_neutral (h : ∀ t ∈ ts, t.isNeutral) (s : List Bracket) : passAll s ts = some s := by
  induction ts with
  | nil => rfl
  | cons t ts ih =>
    obtain ⟨-, ho, hc⟩ := isNeutral_iff.1 (h t mem_cons_self)
    rw [passAll, pass_of_none ho hc]
    exact ih fun u hu => h u (mem_cons_of_mem t hu)

/-- No neutral token is a literal. -/
theorem filter_neutral (h : ∀ t ∈ ts, t.isNeutral) : ts.filter isLiteral = [] := by
  rw [filter_eq_nil_iff]
  intro t ht
  rw [(isNeutral_iff.1 (h t ht)).1]
  exact Bool.false_ne_true

theorem quoteApart_of_ne_number (hk : t.kind ≠ .number) (u : Token) : quoteApart t u := by
  rw [quoteApart, beq_eq_false_iff_ne.2 hk]
  rfl

theorem quoteApart_of_head (hq : t.text.head? ≠ some '\'') (u : Token) : quoteApart u t := by
  rw [quoteApart, beq_eq_false_iff_ne.2 hq, Bool.and_false]
  rfl

/-- Quotes stay apart from tokens that are no numbers. -/
theorem isChain_quoteApart_append (hus : ∀ u ∈ us, u.kind ≠ .number) (h : ts.IsChain fun t u => quoteApart t u) :
    (us ++ ts).IsChain fun t u => quoteApart t u := by
  induction us with
  | nil => exact h
  | cons u us ih =>
    exact (ih fun v hv => hus v (mem_cons_of_mem u hv)).cons fun v _ => quoteApart_of_ne_number (hus u mem_cons_self) v

theorem isChain_quoteApart (hus : ∀ u ∈ us, u.kind ≠ .number) : us.IsChain fun t u => quoteApart t u := by
  have hch := isChain_quoteApart_append hus .nil
  rwa [append_nil] at hch

/-- A blank token is white space, or a mark of one character. -/
theorem Lexed.kind_of_isBlank {lineStart : Bool} (h : Lexed lineStart ts) (ht : t ∈ ts) (hbl : t.isBlank) :
    t.kind = .space ∨ t.kind = .punct ∧ '\n' ∉ t.text := by
  obtain ⟨lineStart', rest, hcut, hne⟩ := h.cut_of_mem ht
  rw [isBlank] at hbl
  generalize t.kind = kind at hcut ⊢
  generalize t.text = text at hcut hbl ⊢
  have hword (hk : kind = .ident ∨ kind = .number) (hne : text ≠ []) : False := by
    have hno := hcut.not_isBlank_of_mem hk _ (head_mem hne)
    rw [all_eq_true.1 hbl _ (head_mem hne)] at hno
    cases hno
  cases hcut with
  | space => exact .inl rfl
  | line | block | directive | string | char => cases hbl
  | ident | digit | point => exact (hword (by simp) (cons_ne_nil _ _)).elim
  | pair h => exact .inr ⟨rfl, by rcases h with ⟨rfl, rfl⟩ | ⟨rfl, rfl⟩ <;> decide⟩
  | single hs =>
    refine .inr ⟨rfl, fun hf => ?_⟩
    cases mem_singleton.1 hf
    cases hs

/-- A blank token is no literal and no bracket. -/
theorem Lexed.isNeutral_of_isBlank {lineStart : Bool} (h : Lexed lineStart ts) (ht : t ∈ ts) (hbl : t.isBlank) : t.isNeutral := by
  rcases h.kind_of_isBlank ht hbl with hk | ⟨hk, -⟩
  · exact isNeutral_of_kind (.inl hk)
  have hno {w : Text} (hw : Text.allBlank w = false) : t.text ≠ w := by
    rintro rfl
    rw [isBlank, hw] at hbl
    cases hbl
  refine isNeutral_iff.2 ⟨by rw [isLiteral, hk]; rfl, Option.eq_none_iff_forall_ne_some.2 fun b ho => ?_,
    Option.eq_none_iff_forall_ne_some.2 fun b hc => ?_⟩
  · exact hno (by cases b <;> rfl) (isPunct_iff.1 (opened?_eq_some_iff.1 ho)).2
  · exact hno (by cases b <;> rfl) (isPunct_iff.1 (closed?_eq_some_iff.1 hc)).2

theorem Lexed.isBlank_of_isGlue {lineStart : Bool} (h : Lexed lineStart ts) (ht : t ∈ ts) (hgl : t.isGlue) : t.isBlank := by
  obtain ⟨us, vs, rfl⟩ := append_of_mem ht
  have hlex := h.append_right
  obtain ⟨c, r, htx⟩ := exists_cons_of_ne_nil hlex.text_ne_nil
  have hsp := (hlex.isGlue_iff (by rw [htx]; rfl)).1 hgl
  have hcut := hlex.cut.1
  rw [htx] at hcut
  rw [isBlank, htx]
  exact hcut.allBlank (isBlank_of_isSpace hsp)

/-- Comments and directives are not blank. -/
theorem Lexed.isBlank_eq_false_of_isTrivia {lineStart : Bool} (h : Lexed lineStart (t :: ts)) (htr : t.isTrivia)
    (hk : t.kind ≠ .space) : t.isBlank = false := by
  have hcut := h.cut.1
  rw [isTrivia] at htr
  rw [isBlank]
  generalize t.kind = kind at hcut htr hk
  generalize t.text = text at hcut
  cases hcut with
  | space => exact absurd rfl hk
  | line | block | directive => rfl
  | string | char | ident | digit | point | pair | single => cases htr

end Token

open Token

/-- Each of `zs` is one of `ts`, or of a kind that lowering writes. -/
def Copied (ts zs : List Token) : Prop :=
  ∀ z ∈ zs, z.isMade = true ∨ z.bare ∈ ts.map bare

/-- The tokens `zs` keep the literals of `ts`, and what their brackets enclose. -/
structure Kept (ts zs : List Token) : Prop where
  passes : ∀ s s', passAll s ts = some s' → passAll s zs = some s'
  literals : (zs.filter isLiteral).map bare = (ts.filter isLiteral).map bare
  apart : (ts.IsChain fun t u => quoteApart t u = true) → zs.IsChain fun t u => quoteApart t u = true

/-- The tokens `run` are those of `ms` in a group, among neutral ones. -/
structure Holds (run ms : List Token) : Prop where
  passes : ∀ s s', passAll s run = some s' → s' = s ∧ Nested ms
  literals : run.filter isLiteral = ms.filter isLiteral
  apart : (run.IsChain fun t u => quoteApart t u = true) → ms.IsChain fun t u => quoteApart t u = true

variable {ts zs us run new rest ms bs : List Token}

namespace Copied

theorem of_subset (h : zs ⊆ ts) : Copied ts zs :=
  fun _ hz => .inr (mem_map_of_mem (h hz))

/-- What holds of the source's tokens and of those that are written. -/
theorem forall_mem (h : Copied ts zs) {P : Token → Prop} (hP : ∀ t : Token, P t.bare ↔ P t)
    (hmade : ∀ t : Token, t.isMade → P t) (hts : ∀ t ∈ ts, P t) : ∀ z ∈ zs, P z := by
  intro z hz
  rcases h z hz with hm | hm
  · exact hmade z hm
  · obtain ⟨t, ht, hb⟩ := mem_map.1 hm
    rw [← hP, ← hb, hP]
    exact hts t ht

/-- A copy of a copy is a copy. -/
theorem trans (h : Copied ts us) (h' : Copied us zs) : Copied ts zs := by
  refine h'.forall_mem (fun _ => .rfl) (fun _ => .inl) h

theorem of_bare {ts' : List Token} (h : Copied ts zs) (heq : ts.map bare = ts'.map bare) : Copied ts' zs :=
  fun z hz => (h z hz).imp_right fun hm => heq ▸ hm

theorem append (h : Copied ts us) (h' : Copied ts zs) : Copied ts (us ++ zs) :=
  fun z hz => (mem_append.1 hz).elim (h z) (h' z)

theorem cons {z : Token} (hz : z.isMade) (h : Copied ts zs) : Copied ts (z :: zs) :=
  forall_mem_cons.2 ⟨.inl hz, h⟩

theorem call {p q : List Token} (hpre : Copied ts p) (hbs : Copied ts bs) (hpost : Copied ts q) :
    Copied ts (p ++ ofMark ['('] :: (bs ++ ofMark [')'] :: q)) :=
  hpre.append (.cons rfl (hbs.append (.cons rfl hpost)))

/-- Copies of whole tokens are whole. -/
theorem whole (h : Copied ts zs) (hts : ∀ t ∈ ts, t.isWhole) : ∀ z ∈ zs, z.isWhole :=
  h.forall_mem (fun _ => .rfl) (fun _ => isWhole_of_isMade) hts

/-- Copies of sound tokens are sound. -/
theorem sound (h : Copied ts zs) (hts : ∀ t ∈ ts, t.isSound) : ∀ z ∈ zs, z.isSound :=
  h.forall_mem (fun _ => .rfl) (fun _ hm => (isMade_iff.1 hm).1) hts

end Copied

namespace Holds

/-- Neutral tokens hold nothing. -/
theorem of_neutral (h : ∀ t ∈ run, t.isNeutral) : Holds run [] where
  passes s s' hs := by
    rw [passAll_neutral h s] at hs
    exact ⟨(Option.some.inj hs).symm, rfl⟩
  literals := filter_neutral h
  apart _ := .nil

/-- A group holds what is in its brackets. -/
theorem group {mid tail : List Token} {o c : Token} {b : Bracket} (ho : opened? o = some b) (hc : closed? c = some b)
    (hlv : b.level 0 ms = some 0) (hpl : ∀ t ∈ mid ++ tail, t.isNeutral) : Holds (mid ++ o :: (ms ++ c :: tail)) ms where
  passes s s' hs := by
    rw [passAll_append, passAll_neutral (fun t ht => hpl t (mem_append_left tail ht))] at hs
    obtain ⟨hns, htl⟩ := passAll_group hs ho hc (closeWithin_of_level hlv hc)
    rw [passAll_neutral (fun t ht => hpl t (mem_append_right mid ht))] at htl
    exact ⟨(Option.some.inj htl).symm, hns⟩
  literals := by
    have hlit {t : Token} {p : Text} (h : t.isPunct p) : ¬t.isLiteral := by
      rw [isLiteral, (isPunct_iff.1 h).1]
      exact Bool.false_ne_true
    rw [filter_append, filter_neutral (fun t ht => hpl t (mem_append_left tail ht)), nil_append,
      filter_cons_of_neg (hlit (opened?_eq_some_iff.1 ho)), filter_append, filter_cons_of_neg (hlit (closed?_eq_some_iff.1 hc)),
      filter_neutral (fun t ht => hpl t (mem_append_right mid ht)), append_nil]
  apart h := by
    rw [append_cons] at h
    exact h.right_of_append.left_of_append

end Holds

namespace Kept

theorem refl (ts : List Token) : Kept ts ts where
  passes _ _ h := h
  literals := rfl
  apart h := h

/-- What keeps what is kept keeps the first. -/
theorem trans (h : Kept ts us) (h' : Kept us zs) : Kept ts zs where
  passes s s' hs := h'.passes s s' (h.passes s s' hs)
  literals := h'.literals.trans h.literals
  apart hch := h'.apart (h.apart hch)

/-- What keeps tokens keeps the same tokens in another place. -/
theorem of_bare {ts' : List Token} (h : Kept ts zs) (heq : ts.map bare = ts'.map bare) : Kept ts' zs where
  passes s s' hs := by
    refine h.passes s s' ?_
    rw [← Tidy.passAll_bare, heq, Tidy.passAll_bare]
    exact hs
  literals := by
    rw [h.literals, ← Tidy.filter_bare _ fun _ => rfl, heq, Tidy.filter_bare _ fun _ => rfl]
  apart hch := by
    refine h.apart ?_
    have hts : (ts'.map bare).IsChain fun t u => quoteApart t u := (isChain_map bare).2 hch
    rw [← heq] at hts
    exact (isChain_map bare).1 hts

/-- A run is replaced, with no quote after a number. -/
theorem replace (h : Kept run new) (hne : new ≠ []) (hh : ∀ t, new.head? = some t → t.text.head? ≠ some '\'')
    (hl : ∀ l, new.getLast? = some l → l.kind = .number → ∀ t, rest.head? = some t → t.text.head? ≠ some '\'')
    (us : List Token) : Kept (us ++ (run ++ rest)) (us ++ (new ++ rest)) where
  passes s s' hs := by
    rw [passAll_append] at hs ⊢
    obtain ⟨s₁, hs₁, hr⟩ := bind_eq_some_iff.1 hs
    rw [passAll_append] at hr
    obtain ⟨s₂, hs₂, hr⟩ := bind_eq_some_iff.1 hr
    rw [hs₁, bind_some, passAll_append, h.passes s₁ s₂ hs₂]
    exact hr
  literals := by
    simp only [filter_append, map_append, h.literals]
  apart hch := by
    have hrr := hch.right_of_append
    refine isChain_append.2 ⟨hch.left_of_append, isChain_append.2 ⟨h.apart hrr.left_of_append, hrr.right_of_append, ?_⟩, ?_⟩
    · intro l hlast t ht
      by_cases hk : l.kind = .number
      · exact quoteApart_of_head (hl l hlast hk t ht) l
      · exact quoteApart_of_ne_number hk t
    · intro l _ t ht
      rw [head?_append_of_ne_nil _ hne] at ht
      exact quoteApart_of_head (hh t ht) l

/-- Neutral tokens can replace each other. -/
theorem of_neutral (hrun : ∀ t ∈ run, t.isNeutral) (hnew : ∀ t ∈ new, t.isNeutral)
    (hch : new.IsChain fun t u => quoteApart t u) : Kept run new where
  passes s s' hs := by
    rw [passAll_neutral hrun] at hs
    rw [passAll_neutral hnew]
    exact hs
  literals := by rw [filter_neutral hrun, filter_neutral hnew]
  apart _ := hch

/-- Tokens that are written before the arguments of a call. -/
theorem lead (h : Kept ms zs) (hbs : ∀ t ∈ bs, t.isNeutral ∧ t.kind ≠ .number) : Kept ms (bs ++ zs) where
  passes s s' hs := by
    rw [passAll_append, passAll_neutral fun t ht => (hbs t ht).1]
    exact h.passes s s' hs
  literals := by
    rw [filter_append, filter_neutral fun t ht => (hbs t ht).1, nil_append, h.literals]
  apart hch := isChain_quoteApart_append (fun t ht => (hbs t ht).2) (h.apart hch)

/-- The tokens of a group become the arguments of a call. -/
theorem call (h : Holds run ms) (hbs : Kept ms bs) {p q : List Token} (hin : ∀ t ∈ p ++ q, t.isNeutral ∧ t.kind ≠ .number) :
    Kept run (p ++ ofMark ['('] :: (bs ++ ofMark [')'] :: q)) where
  passes s s' hs := by
    obtain ⟨rfl, hns⟩ := h.passes s s' hs
    have hb := passAll_around (hbs.passes [] [] hns) (.round :: s')
    rw [nil_append] at hb
    have ho : pass s' (ofMark ['(']) = some (.round :: s') := rfl
    have hc : pass (.round :: s') (ofMark [')']) = some s' := rfl
    rw [passAll_append, passAll_neutral fun t ht => (hin t (mem_append_left q ht)).1, bind_some,
      passAll, ho, bind_some, passAll_append, hb, bind_some, passAll]
    exact passAll_neutral (fun t ht => (hin t (mem_append_right p ht)).1) s'
  literals := by
    rw [h.literals, ← hbs.literals, filter_append, filter_neutral fun t ht => (hin t (mem_append_left q ht)).1,
      nil_append, filter_cons_of_neg (by decide), filter_append, filter_cons_of_neg (by decide),
      filter_neutral fun t ht => (hin t (mem_append_right p ht)).1, append_nil]
  apart hch := by
    refine isChain_quoteApart_append (fun t ht => (hin t (mem_append_left q ht)).2) ?_
    refine .cons (isChain_append.2 ⟨hbs.apart (h.apart hch), isChain_quoteApart ?_, ?_⟩) fun u _ =>
      quoteApart_of_ne_number (by decide) u
    · exact forall_mem_cons.2 ⟨by decide, fun t ht => (hin t (mem_append_right p ht)).2⟩
    · intro l _ t ht
      cases ht
      exact quoteApart_of_head (by decide) l

/-! ## Blanks -/

variable {lineStart : Bool} {es : List Token}

/-- Blanks at both ends are left out. -/
theorem middle (h : Kept ts (bs ++ zs ++ es)) (hlex : Lexed lineStart (bs ++ zs ++ es))
    (hbl : ∀ t ∈ bs ++ es, t.isBlank) : Kept ts zs := by
  have hbs : ∀ t ∈ bs, t.isNeutral := fun t ht =>
    hlex.isNeutral_of_isBlank (by simp [ht]) (hbl t (mem_append_left es ht))
  have hes : ∀ t ∈ es, t.isNeutral := fun t ht =>
    hlex.isNeutral_of_isBlank (by simp [ht]) (hbl t (mem_append_right bs ht))
  refine ⟨fun s s' hs => ?_, ?_, fun hch => ?_⟩
  · have hp := h.passes s s' hs
    rw [passAll_append, passAll_append, passAll_neutral hbs] at hp
    obtain ⟨s₁, hs₁, hp⟩ := bind_eq_some_iff.1 hp
    rw [passAll_neutral hes] at hp
    exact Option.some.inj hp ▸ hs₁
  · rw [← h.literals, filter_append, filter_append, filter_neutral hbs, filter_neutral hes, nil_append, append_nil]
  · exact (h.apart hch).left_of_append.right_of_append

/-- White space taken in changes nothing that is kept. -/
theorem absorb (h : Kept ts zs) (hlex : Lexed lineStart zs) (w : Text) : Kept ts (absorb w zs) := by
  have hspl : zs.takeWhile isGlue ++ zs.dropWhile isGlue ++ [] = zs := by rw [append_nil, takeWhile_append_dropWhile]
  rw [← hspl] at h hlex
  have hspace y : ∀ t ∈ [ofSpace y], t.isNeutral ∧ t.kind ≠ .number := fun t ht => mem_singleton.1 ht ▸ ⟨rfl, nofun⟩
  refine (h.middle hlex fun t ht => ?_).lead (hspace _)
  rw [append_nil] at ht
  exact hlex.isBlank_of_isGlue (mem_append_left [] (mem_append_left _ ht)) (mem_takeWhile_imp ht)

end Kept

end Declass
