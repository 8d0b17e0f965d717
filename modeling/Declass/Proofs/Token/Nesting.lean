import Declass.Proofs.Token.Reading
import Mathlib.Data.List.Chain

/-!
# Nested brackets

Brackets are nested when each that closes a group closes the one opened last. A text that the scanner reads has nested tokens
(`Token.nested_tokenize`), and there `closeWithin` finds the true partner (`Token.passAll_closeWithin`).
-/

namespace Declass

open Declass.Bracket List

namespace Bracket

/-- The open groups, innermost first, after more tokens. -/
def passAll : List Bracket → List Token → Option (List Bracket)
  | s, [] => some s
  | s, t :: ts => (pass s t).bind fun s => passAll s ts

theorem passAll_append (s : List Bracket) (ts us : List Token) :
    passAll s (ts ++ us) = (passAll s ts).bind fun s => passAll s us := by
  induction ts generalizing s with
  | nil => rfl
  | cons t ts ih =>
    rw [cons_append, passAll, passAll]
    cases pass s t with
    | none => rfl
    | some s' => exact ih s'

variable {s s' : List Bracket}

theorem pass_around {t : Token} (h : pass s t = some s') (around : List Bracket) :
    pass (s ++ around) t = some (s' ++ around) := by
  unfold pass at h ⊢
  split at h
  · cases h
    rfl
  · exact close_append h
  · cases h
    rfl

/-- Groups around do not matter. -/
theorem passAll_around {ts : List Token} (h : passAll s ts = some s') (around : List Bracket) :
    passAll (s ++ around) ts = some (s' ++ around) := by
  induction ts generalizing s with
  | nil =>
    cases h
    rfl
  | cons t ts ih =>
    obtain ⟨s₁, hp, hr⟩ := Option.bind_eq_some_iff.1 h
    rw [passAll, pass_around hp around]
    exact ih hr

end Bracket

namespace Token

open Scan

/-- Every group is closed by its bracket, before the groups around it. -/
def Nested (ts : List Token) : Prop :=
  passAll [] ts = some []

instance (ts : List Token) : Decidable (Nested ts) :=
  inferInstanceAs (Decidable (passAll [] ts = some []))

/-! ## The scanner and the tokens -/

/-- The first character of the text, if any, starts a token. -/
def Ready (lineStart : Bool) (x : Text) (m : Mode) : Prop :=
  ∀ c, x.head? = some c → ∃ inSpace, m.fresh? c = some (lineStart, inSpace) ∧ (c = '\x0c' → inSpace = false)

theorem ready_code (lineStart : Bool) (x : Text) : Ready lineStart x (.code lineStart false) :=
  fun _ _ => ⟨false, rfl, fun _ => rfl⟩

/-- No quote follows a number. -/
def quoteApart (t u : Token) : Bool :=
  !(t.kind == .number && u.text.head? == some '\'')

variable {lineStart : Bool} {t : Token} {ts : List Token} {m : Mode} {s s' : List Bracket} {b : Bracket}

theorem Lexed.text_ne_nil (h : Lexed lineStart (t :: ts)) : t.text ≠ [] := by
  cases h with
  | cons c r ht hl h =>
    rw [ht]
    exact cons_ne_nil c r

theorem Lexed.head_spelling (h : Lexed lineStart (t :: ts)) : (spelling (t :: ts)).head? = t.text.head? := by
  have hne := h.text_ne_nil
  cases ht : t.text with
  | nil => exact absurd ht hne
  | cons c r => simp [spelling, ht]

theorem Lexed.cut (h : Lexed lineStart (t :: ts)) :
    Cut lineStart (spelling ts) t.kind t.text ∧ Lexed (lineStartAfter lineStart t) ts := by
  cases h with
  | cons c r ht hl h => exact ⟨ht ▸ hl.cut, h⟩

theorem Lexed.head_ne_quote (h : Lexed lineStart ts) (hap : (t :: ts).IsChain fun t u => quoteApart t u)
    (hk : t.kind = .number) : (spelling ts).head? ≠ some '\'' := by
  cases ts with
  | nil => simp [spelling]
  | cons u us =>
    have htu := (isChain_cons_cons.1 hap).1
    rw [h.head_spelling]
    simpa [quoteApart, hk] using htu

/-- The first character of a token starts it. -/
theorem Lexed.exists_fresh (h : Lexed lineStart (t :: ts)) (hrd : Ready lineStart (spelling (t :: ts)) m) :
    ∃ c r inSpace, t.text = c :: r ∧ m.fresh? c = some (lineStart, inSpace) ∧ (t.text.head? = some '\x0c' → inSpace = false) := by
  obtain ⟨c, r, htx⟩ := exists_cons_of_ne_nil h.text_ne_nil
  rw [Ready, h.head_spelling, htx] at hrd
  obtain ⟨inSpace, hf, hfd⟩ := hrd c rfl
  refine ⟨c, r, inSpace, htx, hf, fun heq => hfd ?_⟩
  rw [htx] at heq
  exact Option.some.inj heq

/-- The scanner reads tokens that can be moved, up to a token's start. -/
theorem Lexed.run_append {us : List Token} (h : Lexed lineStart (ts ++ us)) (hmov : ∀ t ∈ ts, t.isMovable)
    (hap : (ts ++ us).IsChain fun t u => quoteApart t u) (hps : passAll s ts = some s')
    (hrd : Ready lineStart (spelling (ts ++ us)) m) :
    ∃ m', Scan.run (m, s) (spelling ts) = some (m', s') ∧ Ready (lineStartAfterAll lineStart ts) (spelling us) m' ∧
      (m.settles → m'.settles) ∧ ((ts = [] → m.isCode) → (∀ t, ts.getLast? = some t → t.endsLine = false) → m'.isCode) ∧
      ∀ t, ts.getLast? = some t → t.endsIn m' := by
  induction ts generalizing lineStart m s with
  | nil =>
    cases hps
    exact ⟨m, rfl, hrd, id, fun hm _ => hm rfl, nofun⟩
  | cons t ts ih =>
    obtain ⟨s₁, hp, hps'⟩ := Option.bind_eq_some_iff.1 hps
    obtain ⟨hcut, hrs⟩ := h.cut
    obtain ⟨c, r, inSpace, htx, hf, hfd⟩ := h.exists_fresh hrd
    obtain ⟨m₁, hr, haft⟩ := run_cut hcut hfd (hmov t mem_cons_self)
      (hrs.head_ne_quote hap) hp
    have hr' : Scan.run (m, s) t.text = some (m₁, s₁) := by
      rw [htx, run_of_fresh hf, ← htx, hr]
    obtain ⟨m', hrun, hrd', hset, hc, he⟩ := ih hrs (fun u hu => hmov u (mem_cons_of_mem t hu))
      (List.IsChain.tail hap) hps' haft.fresh
    refine ⟨m', ?_, hrd', fun _ => hset haft.settles, ?_, ?_⟩
    · have hspl : spelling (t :: ts) = t.text ++ spelling ts := rfl
      rw [hspl, run_append_of_eq hr', hrun]
    · intro _ hl
      cases ts with
      | nil =>
        cases hrun
        exact haft.isCode (hl t rfl)
      | cons u ts =>
        refine hc nofun ?_
        intro v hv
        exact hl v (by rw [getLast?_cons_cons]; exact hv)
    · intro v hv
      cases ts with
      | nil =>
        cases hrun
        cases hv
        exact haft.ends
      | cons u ts =>
        exact he v hv

/-- What is read to the end has tokens that can be moved and fitting brackets. -/
theorem Lexed.passAll_of_run {m' : Mode} (h : Lexed lineStart ts) (hrd : Ready lineStart (spelling ts) m)
    (hr : Scan.run (m, s) (spelling ts) = some (m', s')) (hm : m'.isCode) : passAll s ts = some s' := by
  induction ts generalizing lineStart m s with
  | nil =>
    cases hr
    rfl
  | cons t ts ih =>
    obtain ⟨hcut, hrs⟩ := h.cut
    obtain ⟨c, r, inSpace, htx, hf, hfd⟩ := h.exists_fresh hrd
    have hspl : spelling (t :: ts) = t.text ++ spelling ts := rfl
    have hfr : Scan.run (m, s) (t.text ++ spelling ts) = Scan.run (.code lineStart inSpace, s) (t.text ++ spelling ts) := by
      rw [htx]
      exact run_of_fresh hf
    rw [hspl, hfr] at hr
    obtain ⟨hmov, hq, s₁, hp⟩ := isMovable_of_run hcut hfd hr hm
    obtain ⟨m₁, hr₁, haft⟩ := run_cut hcut hfd hmov hq hp
    rw [run_append_of_eq hr₁] at hr
    rw [passAll, hp]
    exact ih hrs haft.fresh hr

/-- A text that the scanner reads to the end has nested brackets. -/
theorem nested_tokenize {x : Text} (hr : run (.code true false, []) x = some (m, [])) (hm : m.isCode) : Nested (tokenize x) := by
  have hspl := spelling_tokenize x
  refine (lexed_tokenizeFrom true 0 x).passAll_of_run (ready_code true _) ?_ hm
  rw [← tokenize, hspl]
  exact hr

/-! ## Partners -/

theorem isPunct_iff {p : Text} : t.isPunct p ↔ t.kind = .punct ∧ t.text = p := by
  rw [isPunct, Bool.and_eq_true, beq_iff_eq, beq_iff_eq]

theorem opened?_eq_some_iff : opened? t = some b ↔ t.isPunct b.opening := by
  refine ⟨fun h => find?_some (p := fun b : Bracket => t.isPunct b.opening) h, ?_⟩
  intro h
  rw [isPunct_iff] at h
  cases b <;> simp [opened?, isPunct, h.1, h.2, opening]

theorem closed?_eq_some_iff : closed? t = some b ↔ t.isPunct b.closing := by
  refine ⟨fun h => find?_some (p := fun b : Bracket => t.isPunct b.closing) h, ?_⟩
  intro h
  rw [isPunct_iff] at h
  cases b <;> simp [closed?, isPunct, h.1, h.2, closing]

/-- No token opens one group and closes another. -/
theorem opened?_eq_none_of_closed? (h : closed? t = some b) : opened? t = none := by
  cases ho : opened? t with
  | none => rfl
  | some b' =>
    rw [closed?_eq_some_iff, isPunct_iff] at h
    rw [opened?_eq_some_iff, isPunct_iff, h.2] at ho
    cases b <;> cases b' <;> exact absurd ho.2 (by decide)

theorem pass_of_opened? (h : opened? t = some b) : pass s t = some (b :: s) := by
  simp [Bracket.pass, h]

theorem pass_of_closed? (h : closed? t = some b) : pass s t = close b s := by
  simp [Bracket.pass, h, opened?_eq_none_of_closed? h]

theorem pass_of_none (ho : opened? t = none) (hc : closed? t = none) : pass s t = some s := by
  simp [Bracket.pass, ho, hc]

/-- One step of the search for a closing token, by what a token does. -/
theorem closeWithin_cons (b : Bracket) (depth : Nat) (t : Token) (ts : List Token) : closeWithin b depth (t :: ts) =
      if opened? t = some b then (closeWithin b (depth + 1) ts).map (· + 1) else if closed? t = some b then
        if depth = 0 then some 0 else (closeWithin b (depth - 1) ts).map (· + 1) else (closeWithin b depth ts).map (· + 1) := by
  simp only [opened?_eq_some_iff, closed?_eq_some_iff]
  cases depth <;> rfl

/-- In an open group that fits, `closeWithin` finds what closes it. -/
theorem passAll_closeWithin {n : Nat} {u : List Bracket} (h : closeWithin b (u.count b) ts = some n)
    (hs : passAll (u ++ b :: s) ts = some s') : passAll u (ts.take n) = some [] ∧ ∃ t, ts[n]? = some t ∧ closed? t = some b := by
  induction ts generalizing u n with
  | nil => cases h
  | cons t ts ih =>
    rw [closeWithin_cons] at h
    obtain ⟨s₁, hp, hs'⟩ := Option.bind_eq_some_iff.1 hs
    have hst {u' : List Bracket} (hu : pass u t = some u')
        (hn : (closeWithin b (u'.count b) ts).map (· + 1) = some n) :
        passAll u ((t :: ts).take n) = some [] ∧ ∃ t', (t :: ts)[n]? = some t' ∧ closed? t' = some b := by
      obtain ⟨n', hn', rfl⟩ := Option.map_eq_some_iff.1 hn
      rw [pass_around hu] at hp
      cases hp
      obtain ⟨hall, hfd⟩ := ih hn' hs'
      refine ⟨?_, by simpa using hfd⟩
      rw [take_succ_cons, passAll, hu]
      exact hall
    cases ho : opened? t with
    | some b' =>
      refine hst (pass_of_opened? ho) ?_
      by_cases hb : b' = b
      · rw [ho, hb, if_pos rfl] at h
        rw [hb, count_cons_self]
        exact h
      · have hc : closed? t ≠ some b := by
          intro hc
          rw [opened?_eq_none_of_closed? hc] at ho
          cases ho
        rw [ho, if_neg (by simpa using hb), if_neg hc] at h
        rw [count_cons_of_ne (by simpa using hb)]
        exact h
    | none =>
      cases hc : closed? t with
      | none =>
        refine hst (pass_of_none ho hc) ?_
        rw [ho, hc] at h
        exact h
      | some b' =>
        rw [pass_of_closed? hc] at hp
        cases u with
        | nil =>
          have hb : b' = b := by
            rw [nil_append, close] at hp
            split at hp
            · assumption
            · cases hp
          subst hb
          rw [ho, hc, if_pos rfl] at h
          cases h
          exact ⟨rfl, t, rfl, hc⟩
        | cons b'' u =>
          have hb : b' = b'' := by
            rw [cons_append, close] at hp
            split at hp
            · assumption
            · cases hp
          subst hb
          have hps : pass (b' :: u) t = some u := by rw [pass_of_closed? hc, close, if_pos rfl]
          refine hst hps ?_
          by_cases hb : b' = b
          · rw [ho, hc, hb, if_pos rfl, count_cons_self] at h
            exact h
          · rw [ho, hc, if_neg (by simp), if_neg (by simpa using hb), count_cons_of_ne (by simpa using hb)] at h
            exact h

/-- A group closed where its kind says is nested inside. -/
theorem passAll_group {o c : Token} {ms vs : List Token} (h : passAll s (o :: (ms ++ c :: vs)) = some s')
    (ho : opened? o = some b)
    (hc : closed? c = some b) (hcl : closeWithin b 0 (ms ++ c :: vs) = some ms.length) : Nested ms ∧ passAll s vs = some s' := by
  rw [passAll, pass_of_opened? ho, Option.bind_some] at h
  obtain ⟨hns, -⟩ := passAll_closeWithin (u := []) hcl h
  rw [take_left] at hns
  refine ⟨hns, ?_⟩
  have hin := passAll_around hns (b :: s)
  rw [nil_append] at hin
  rw [passAll_append, hin, Option.bind_some, passAll, pass_of_closed? hc, close, if_pos rfl] at h
  exact h

end Token

/-! ## Brackets of one kind -/

/-- How many groups of kind `b` are open after the tokens, from `n` before. -/
def Bracket.level (b : Bracket) : Nat → List Token → Option Nat
  | n, [] => some n
  | n, t :: ts =>
    if opened? t = some b then level b (n + 1) ts
    else if closed? t = some b then if n = 0 then none else level b (n - 1) ts
    else level b n ts

namespace Token

theorem level_append (b : Bracket) (n : Nat) (ts us : List Token) :
    b.level n (ts ++ us) = (b.level n ts).bind fun n => b.level n us := by
  induction ts generalizing n with
  | nil => rfl
  | cons t ts ih =>
    rw [cons_append, level, level]
    split
    · exact ih _
    · split
      · split
        · rfl
        · exact ih _
      · exact ih _

variable {b : Bracket} {ts : List Token}

/-- The search goes on after tokens that leave the group open. -/
theorem closeWithin_append_of_level {n m : Nat} (h : b.level n ts = some m) (us : List Token) :
    closeWithin b n (ts ++ us) = (closeWithin b m us).map (· + ts.length) := by
  induction ts generalizing n with
  | nil =>
    cases h
    exact Option.map_id'.symm
  | cons t ts ih =>
    have hs (o : Option Nat) : (o.map (· + ts.length)).map (· + 1) = o.map (· + (t :: ts).length) := by
      rw [Option.map_map]
      rfl
    rw [level] at h
    rw [cons_append, closeWithin_cons]
    split at h
    next ho => rw [if_pos ho, ih h, hs]
    next ho =>
      rw [if_neg ho]
      split at h
      next hc =>
        rw [if_pos hc]
        split at h
        · cases h
        next hn => rw [if_neg hn, ih h, hs]
      next hc => rw [if_neg hc, ih h, hs]

/-- Where a kind is closed, the next token that closes one closes the one around. -/
theorem closeWithin_of_level {n : Nat} {us : List Token} {t : Token} (h : b.level n ts = some 0)
    (ht : closed? t = some b) : closeWithin b n (ts ++ t :: us) = some ts.length := by
  rw [closeWithin_append_of_level h, closeWithin_cons, if_neg (by simp [opened?_eq_none_of_closed? ht]), if_pos ht, if_pos rfl,
    Option.map_some, Nat.zero_add]

/-- Nested brackets are nested kind by kind. -/
theorem level_of_passAll {s s' : List Bracket} (h : passAll s ts = some s') : b.level (s.count b) ts = some (s'.count b) := by
  induction ts generalizing s with
  | nil =>
    cases h
    rfl
  | cons t ts ih =>
    obtain ⟨s₁, hp, hs⟩ := Option.bind_eq_some_iff.1 h
    have hlv := ih hs
    rw [level]
    cases ho : opened? t with
    | some b' =>
      rw [pass_of_opened? ho] at hp
      cases hp
      have hc : closed? t ≠ some b := fun hc => by simp [opened?_eq_none_of_closed? hc] at ho
      by_cases hb : b' = b
      · rw [hb, if_pos rfl, ← hlv, hb, count_cons_self]
      · rw [if_neg (by simpa using hb), if_neg hc, ← hlv, count_cons_of_ne (by simpa using hb)]
    | none =>
      rw [if_neg nofun]
      cases hc : closed? t with
      | none =>
        rw [pass_of_none ho hc] at hp
        cases hp
        rw [if_neg nofun, hlv]
      | some b' =>
        rw [pass_of_closed? hc] at hp
        cases s with
        | nil => nomatch hp
        | cons b'' s =>
          rw [close] at hp
          split at hp
          next heq =>
            cases hp
            subst heq
            by_cases hb : b' = b
            · subst hb
              rw [if_pos rfl, count_cons_self, if_neg (Nat.succ_ne_zero _), Nat.add_sub_cancel, hlv]
            · rw [if_neg (by simpa using hb), count_cons_of_ne (by simpa using hb), hlv]
          · cases hp

end Token

end Declass
