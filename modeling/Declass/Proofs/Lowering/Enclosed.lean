import Declass.Proofs.Lowering.Stands
import Declass.Proofs.Lowering.Tokens

/-!
# Calls as tokens

The texts of calls, token by token: a name, brackets, and between them a receiver and arguments (`Token.Enclosed`). Such a call is
cut into the tokens of `Lowering.callTokens`, with white space and comments among them (`Lowering.exists_call`).
-/

namespace Declass

open List

namespace Token

open Scan

/-- The tokens are cut off as before a comma or closing bracket. -/
structure Enclosed (zs : List Token) : Prop where
  lexed : Lexed false zs
  whole : ∀ t ∈ zs, t.isWhole = true
  ends : ∀ t, zs.getLast? = some t → t.endsLine = false

namespace Enclosed

variable {rs zs : List Token} {t : Token}

theorem lexed_mark (h : Enclosed zs) {c : Char} (hc : c = ',' ∨ c = ')') {rest : List Token} (hr : Lexed false rest) :
    Lexed false (zs ++ ofMark [c] :: rest) := by
  refine h.lexed.append ?_ (hr.mark_cons (by rcases hc with rfl | rfl <;> rfl) _)
  intro t ht
  refine ⟨(isWhole_iff.1 (h.whole t (mem_of_getLast? ht))).1, h.ends t ht, ?_⟩
  intro d hd
  right
  cases hd
  rcases hc with rfl | rfl <;> rfl

theorem nil : Enclosed [] :=
  ⟨.nil _, nofun, nofun⟩

/-- Tokens that lowering writes are complete and end no line. -/
theorem of_isInert (h : Lexed false zs) (hin : ∀ t ∈ zs, t.isInert) : Enclosed zs where
  lexed := h
  whole t ht := isWhole_of_isMade (isInert_iff.1 (hin t ht)).1
  ends t ht := by
    have hk := (isMade_iff.1 (isInert_iff.1 (hin t (mem_of_getLast? ht))).1).2
    rw [endsLine]
    rcases hk with hk | hk | hk | hk <;> simp [hk]

/-- Two lists with a comma and a space between them. -/
theorem comma (hrs : Enclosed rs) (hzs : Enclosed zs) : Enclosed (rs ++ ofMark [','] :: absorb [' '] zs) where
  lexed := by
    refine hrs.lexed_mark (.inl rfl) (hzs.lexed.absorb (fun t ht => ?_) rfl rfl nofun)
    exact (isWhole_iff.1 (hzs.whole t ht)).2
  whole t ht := by
    rw [absorb, mem_append, mem_cons, mem_cons] at ht
    rcases ht with ht | rfl | rfl | ht
    · exact hrs.whole t ht
    · decide
    · rfl
    · exact hzs.whole t ((dropWhile_sublist _).subset ht)
  ends t ht := by
    rw [append_cons, absorb, getLast?_append_of_ne_nil _ (cons_ne_nil _ _), getLast?_cons, Option.some.injEq] at ht
    cases hl : (zs.dropWhile isGlue).getLast? with
    | none =>
      rw [hl] at ht
      exact ht ▸ rfl
    | some u =>
      rw [hl] at ht
      refine hzs.ends t ?_
      rw [← takeWhile_append_dropWhile (l := zs), getLast?_append, hl]
      exact congrArg some ht

end Enclosed

/-- The tokens `zs` can replace `ms` between brackets. -/
structure Fills (ms zs : List Token) : Prop extends Enclosed zs where
  copied : Copied ms zs
  kept : Kept ms zs

variable {zs : List Token} {w : Text}

theorem significant_absorb (hsnd : ∀ t ∈ zs, t.isSound) : significant (absorb w zs) = significant zs := by
  rw [significant, filter_absorb hsnd]
  rfl

end Token

open Token Scan

namespace Lowering

/-! ## Receivers -/

/-- A receiver is a name, or a member of `self`, maybe after a `&`. -/
theorem exists_receiver {t : Token} {receiver : Text} (h : IsReceiver t receiver) (hn : t.isIdent → isName t.text) :
    ∃ rs, spelling rs = receiver ∧ Enclosed rs ∧ ∀ t ∈ rs, t.isInert := by
  have hname {w : Text} hw : Lexed false [ofName w] := .name_cons hw (.nil _) nofun false
  obtain ⟨rs, hspl, hlex, hin⟩ : ∃ rs, spelling rs = receiver ∧ Lexed false rs ∧ ∀ t ∈ rs, t.isInert := by
    rcases h with rfl | ⟨hid, expr, hexpr, hrv⟩
    · exact ⟨[ofName "self"], rfl, hname rfl, by decide⟩
    · have hw := hn hid
      have hinert := isInert_ofName hw
      obtain ⟨rs, rfl, hrs, hin⟩ : ∃ rs, spelling rs = expr ∧ Lexed false rs ∧ ∀ t ∈ rs, t.isInert := by
        rcases hexpr with rfl | rfl
        · exact ⟨[ofName t.text], by simp [spelling, ofName], hname hw, by simpa using hinert⟩
        · refine ⟨[ofName "self", ofMark "->", ofName t.text], by simp [spelling, ofName, ofMark], ?_, ?_⟩
          · exact .name_cons rfl ((hname hw).arrow_cons) (fun d hd => by cases hd; rfl) false
          · simpa [hinert] using by decide
      rcases hrv with rfl | rfl
      · exact ⟨rs, rfl, hrs, hin⟩
      · exact ⟨ofMark ['&'] :: rs, rfl, hrs.mark_cons rfl false, forall_mem_cons.2 ⟨rfl, hin⟩⟩
  exact ⟨rs, hspl, .of_isInert hlex hin, hin⟩

/-! ## Calls -/

/-- The text between the brackets of a call. -/
def bodyText (receiver : Option Text) (args : Text) : Text :=
  match receiver with
  | none => args
  | some r => if args.isEmpty then r else r ++ ", " ++ args

theorem callText_eq_bodyText (cName : Text) (receiver : Option Text) (args : Text) :
    callText cName receiver args = cName ++ "(" ++ bodyText receiver (Text.trim args) ++ ")" := by
  cases receiver with
  | none => rfl
  | some r =>
    rw [callText, bodyText]
    split <;> simp

variable {ms rs zs : List Token} {f : Text}

theorem spelling_eq_nil_iff (h : Lexed false zs) : spelling zs = [] ↔ zs = [] := by
  constructor
  · intro hnil
    cases zs with
    | nil => rfl
    | cons z zs =>
      rw [spelling, flatMap_cons, append_eq_nil_iff] at hnil
      exact absurd hnil.1 h.text_ne_nil
  · rintro rfl
    rfl

/-- The tokens between the brackets of a call: a receiver, and the arguments. -/
theorem exists_body (receiver : Option Text)
    (hrv : ∀ r, receiver = some r → ∃ rs, spelling rs = r ∧ Enclosed rs ∧ ∀ t ∈ rs, t.isInert) (hzs : Token.Fills ms zs) :
    ∃ bs, Token.Fills ms bs ∧ spelling bs = bodyText receiver (spelling zs) ∧
      ((∀ t ∈ zs, t.isSound) → (receiver.isSome → significant zs = [] → zs = []) →
        significant (ofName f :: ofMark ['('] :: (bs ++ [ofMark [')']])) = callTokens f receiver (significant zs)) := by
  have hc bs :
      significant (ofName f :: ofMark ['('] :: (bs ++ [ofMark [')']])) =
        ofName f :: ofMark ['('] :: (significant bs ++ [ofMark [')']]) := by
    rw [significant_cons rfl, significant_cons rfl, significant_append]
    rfl
  cases receiver with
  | none =>
    refine ⟨zs, hzs, rfl, fun _ _ => ?_⟩
    rw [hc, callTokens]
    simp
  | some r =>
    obtain ⟨rs, rfl, hrs, hin⟩ := hrv r rfl
    have hmade : Copied ms rs := fun t ht => .inl (isInert_iff.1 (hin t ht)).1
    have hsig : significant (tokenize (spelling rs)) = significant rs := by
      refine significant_tokenize (hrs.lexed.anywhere (fun t ht => (isWhole_iff.1 (hrs.whole t ht)).2) (fun t ht hd => ?_) true)
      exact absurd (isInert_iff.1 (hin t ht)).1 (by simp [isMade_iff, hd])
    by_cases hnil : zs = []
    · subst hnil
      refine ⟨rs, ⟨hrs, hmade, by simpa using hzs.kept.lead fun t ht => (isInert_iff.1 (hin t ht)).2⟩, by simp [bodyText, spelling],
        fun _ _ => ?_⟩
      rw [hc, callTokens, Option.elim_some, hsig]
      simp [significant]
    · have hcomma : ∀ t ∈ rs ++ [ofMark [',']], t.isInert :=
        fun t ht => (mem_append.1 ht).elim (hin t) fun h => mem_singleton.1 h ▸ rfl
      refine ⟨rs ++ ofMark [','] :: absorb [' '] zs, ⟨hrs.comma hzs.toEnclosed, ?_, ?_⟩, ?_, fun hsnd hco => ?_⟩
      · intro t ht
        rw [absorb, mem_append, mem_cons, mem_cons] at ht
        rcases ht with ht | rfl | rfl | ht
        · exact hmade t ht
        · exact .inl rfl
        · exact .inl rfl
        · exact hzs.copied t ((dropWhile_sublist _).subset ht)
      · rw [append_cons]
        exact (hzs.kept.absorb hzs.lexed [' ']).lead fun t ht => (isInert_iff.1 (hcomma t ht)).2
      · have hne : (spelling zs).isEmpty = false := by
          rw [isEmpty_eq_false_iff]
          exact fun h => hnil ((spelling_eq_nil_iff hzs.lexed).1 h)
        have hsp := spelling_absorb [' '] zs
        rw [bodyText, hne, spelling_append, spelling, spelling, flatMap_cons]
        rw [spelling] at hsp
        rw [hsp]
        simp [ofMark]
      · have hne : (significant zs).isEmpty = false := by
          rw [isEmpty_eq_false_iff]
          exact fun h => hnil (hco rfl h)
        rw [hc, callTokens, Option.elim_some, hsig, hne, significant_append, significant_cons rfl,
          significant_absorb hsnd]
        simp only [append_assoc]
        rfl

/-- A call is cut into its tokens before anything. -/
theorem lexed_call (hf : isName f) {bs rest : List Token} (hbs : Enclosed bs) (hr : Lexed false rest)
    (lineStart : Bool) : Lexed lineStart (ofName f :: ofMark ['('] :: (bs ++ ofMark [')'] :: rest)) := by
  refine .name_cons hf ((hbs.lexed_mark (.inr rfl) hr).mark_cons rfl _) ?_ lineStart
  intro d hd
  cases hd
  rfl

end Lowering

end Declass
