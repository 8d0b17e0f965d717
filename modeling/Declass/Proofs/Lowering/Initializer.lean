import Declass.Proofs.Lowering.Body

/-!
# Texts of a program

What the texts that a program copies have to keep to (`Writable`), and what then holds of constructor calls and of the statements
for a member initializer list.
-/

namespace Declass

open Fragment List Scan Text Token

namespace Scan

/-! ## Texts of calls -/

theorem closes_member {name : Text} (h : isName name) : Closes ("self->" ++ name) :=
  .append_of_code rfl (closes_name h)

variable {x y : Text}

theorem closes_address (h : Closes x) : Closes ('&' :: x) :=
  .append_of_code (x := ['&']) rfl h

theorem closes_comma (hx : Closes x) (hy : Closes y) : Closes (x ++ ", " ++ y) :=
  hx.sep hy rfl rfl

theorem closes_semicolon (h : Closes x) : Closes (x ++ ";") := by
  refine h.append ⟨.code false false, rfl, rfl⟩ ?_
  intro c hc
  cases hc
  decide

theorem closes_call (hx : Closes x) (hy : Closes y) : Closes (x ++ "(" ++ y ++ ")") := by
  have hg : Closes ('(' :: y ++ [')']) := hy.group rfl rfl
  have hspl : x ++ "(" ++ y ++ ")" = x ++ ('(' :: y ++ [')']) := by simp
  rw [hspl]
  refine hx.append hg ?_
  intro c hc
  cases hc
  decide

end Scan

/-! ## Tokens that the scanner reads -/

/-- The scanner reads the tokens, and their brackets are nested. -/
structure Scannable (ts : List Token) : Prop where
  movable : ∀ t ∈ ts, t.isMovable = true
  apart : ts.IsChain fun t u => quoteApart t u = true
  nested : Nested ts

namespace Scannable

variable {ts zs : List Token}

/-- What keeps scannable tokens is scannable. -/
theorem of_kept (h : Scannable ts) (hc : Copied ts zs) (hk : Kept ts zs) : Scannable zs where
  movable := by
    refine hc.forall_mem (fun _ => .rfl) (fun t ht => ?_) h.movable
    obtain ⟨hsnd, hkind⟩ := isMade_iff.1 ht
    obtain ⟨htm, hstr, -⟩ := isSound_iff.1 hsnd
    rw [isMovable, htm, hstr, isFirm]
    rcases hkind with hk | hk | hk | hk <;> rw [hk] <;> rfl
  apart := hk.apart h.apart
  nested := hk.passes [] [] h.nested

theorem run (h : Scannable ts) (hlex : Lexed false ts) : ∃ m, Scan.run (.code false false, []) (spelling ts) = some (m, []) ∧
      m.settles ∧ ((∀ t, ts.getLast? = some t → t.endsLine = false) → m.isCode) := by
  have hall : Lexed false (ts ++ []) := by rwa [append_nil]
  obtain ⟨m, hr, -, hset, hcode, -⟩ := hall.run_append h.movable (by rw [append_nil]; exact h.apart) h.nested (ready_code false _)
  exact ⟨m, hr, hset rfl, hcode fun _ => rfl⟩

theorem closes (h : Scannable ts) (he : Enclosed ts) : Closes (spelling ts) := by
  obtain ⟨m, hr, -, hcode⟩ := h.run he.lexed
  exact ⟨m, hr, hcode he.ends⟩

end Scannable

/-- A list ends no line if its last token that is not blank does not. -/
theorem endsLine_of_endsWell {ts : List Token} {lineStart : Bool} (hlex : Lexed lineStart ts)
    (h : endsWell (!·.isBlank) ts) : ∀ t, ts.getLast? = some t → t.endsLine = false := by
  intro t ht
  obtain ⟨us, rfl⟩ := getLast?_eq_some_iff.1 ht
  cases hbl : t.isBlank with
  | true =>
    rcases hlex.kind_of_isBlank (by simp) hbl with hk | ⟨hk, -⟩ <;> simp [endsLine, hk]
  | false =>
    rw [endsWell, reverse_append, reverse_singleton, singleton_append, find?_cons_of_pos (by rw [hbl]; rfl)] at h
    simpa using h

/-- A text that can be copied into a member of `owner`, or elsewhere: lowerable, nested, no directive at once. -/
structure Writable (p : Program) (owner : Option Class) (x : Text) : Prop where
  tidy : Tidy p owner (tokenize x)
  nested : Nested (tokenize x)
  inline : tokenizeFrom false 0 x = tokenize x

/-- A text that can be lowered and stand in the place of a scannable one. -/
def Argument (p : Program) (owner : Option Class) (x : Text) : Prop :=
  ∃ ts ms, Token.spelling ms = x ∧ Scannable ts ∧ Token.Fills ts ms ∧ Steady p owner ms

variable {p : Program} {owner : Option Class} {x : Text}

/-- Neat tokens, trimmed. -/
theorem argument_of_isNeat {ts : List Token} (hlex : Lexed false ts) (h : Scannable ts) (hstd : Steady p owner ts)
    (hne : isNeat ts) : Argument p owner (trim (Token.spelling ts)) := by
  obtain ⟨bs, ms, es, rfl, -, htrim, -, hfills⟩ := Lowering.exists_trimmed (.refl hlex) hstd.whole hne
  exact ⟨_, ms, htrim, h, hfills, hstd.run⟩

namespace Writable

section

variable (h : Writable p owner x)

include h

theorem lexed : Lexed false (tokenize x) := by
  have := lexed_tokenizeFrom false 0 x
  rwa [h.inline] at this

theorem scannable : Scannable (tokenize x) :=
  ⟨h.tidy.movable, h.tidy.quoteApart, h.nested⟩

theorem steady : Steady p owner (tokenize x) :=
  h.tidy.steady h.nested

theorem argument (hne : isNeat (tokenize x)) : Argument p owner x := by
  rw [isNeat, Bool.and_eq_true] at hne
  refine ⟨_, _, spelling_tokenize x, h.scannable, ?_, h.steady⟩
  exact Lowering.fills_of_stands (.refl h.lexed) h.steady.whole (endsLine_of_endsWell h.lexed hne.2)

theorem argument_trim (hne : isNeat (tokenize x)) : Argument p owner (trim x) := by
  have ha := argument_of_isNeat h.lexed h.scannable h.steady hne
  rwa [spelling_tokenize] at ha

end

end Writable

namespace Lowering

variable {L : Lowering} {c : Class} {x args : Text}

section

variable (hns : HasNames L.program) (hown : ∀ c, L.owner = some c → c ∈ L.program.classes)

include hns hown

/-- A lowered argument closes what it opens. -/
theorem closes_lowerWithin (h : Argument L.program L.owner x) (visible : List Var) : Closes (L.lowerWithin visible x) := by
  obtain ⟨ts, ms, rfl, hscan, hms, hstd⟩ := h
  obtain ⟨zs, hspl, hst, -⟩ := lowersTokens_toDepth hns hown ((spelling ms).length + 1) visible ms hstd hms.lexed
  have hzs := fills_of_stands hst hms.whole hms.ends
  rw [lowerWithin, ← hspl]
  exact ((hscan.of_kept hms.copied hms.kept).of_kept hzs.copied hzs.kept).closes hzs.toEnclosed

/-- The scanner reads a lowered body up to a line feed after it. -/
theorem run_lower (h : Writable L.program L.owner x) :
    ∃ m, Scan.run (.code false false, []) (L.lower x) = some (m, []) ∧ m.settles := by
  obtain ⟨zs, hspl, hst, -⟩ := exists_toDepth h.steady h.lexed hns hown (x.length + 1) []
  obtain ⟨m, hr, hset, -⟩ := (h.scannable.of_kept hst.copied hst.kept).run hst.lexed
  rw [hspl] at hr
  exact ⟨m, hr, hset⟩

/-- A constructor call closes what it opens. -/
theorem closes_constructorCall (hc : c ∈ L.program.classes) {target : Text} (htgt : Closes target)
    (ha : Argument L.program L.owner (trim args)) : Closes (L.constructorCall c target args) := by
  have hinit := isName_initName hns hc
  unfold constructorCall construct
  dsimp only
  split
  · exact closes_call (closes_name hinit) htgt
  · have hb := closes_comma htgt (closes_lowerWithin hns hown ha [])
    have hf : isName ((((L.argContext []).choose? c.constructors (splitArgs (trim args))).map Callable.cName).getD c.initName) =
        true := by
      cases hcho : (L.argContext []).choose? c.constructors (splitArgs (trim args)) with
      | none => exact hinit
      | some f => exact hns.constructors c hc f (mem_of_choose? hcho)
    simpa using closes_call (closes_name hf) hb

/-- The statement for a member initializer closes what it opens. -/
theorem closes_memberInit? {name line : Text} (hn : isName name) (ha : Argument L.program L.owner args)
    (htr : trim args = args) (h : L.memberInit? c name args = some line) : Closes line := by
  simp only [memberInit?, Option.bind_eq_bind, Option.bind_eq_some_iff] at h
  obtain ⟨field, -, h⟩ := h
  split at h
  · rename_i member hmbr
    cases h
    have hmem : member ∈ L.program.classes := by
      split at hmbr
      · nomatch hmbr
      · obtain ⟨className, -, hcls⟩ := Option.bind_eq_some_iff.1 hmbr
        exact mem_of_find?_eq_some hcls
    have htgt : Closes ("&self->" ++ name) := closes_address (closes_member hn)
    exact closes_semicolon (closes_constructorCall hns hown hmem htgt (by rw [htr]; exact ha))
  · split at h
    · nomatch h
    · cases h
      exact closes_semicolon ((closes_member hn).sep (closes_lowerWithin hns hown ha []) rfl rfl)

end

end Lowering

/-- A member initializer list of the class `c` that can be lowered. -/
structure WritableInits (p : Program) (c : Class) (x : Text) : Prop extends Writable p (some c) x where
  /-- The value of a field is trimmed. -/
  neat : ∀ us o ms e vs b name, tokenize x = us ++ o :: (ms ++ e :: vs) → Bracket.opened? o = some b →
    Bracket.closed? e = some b → b ≠ .square → Nested ms → (us.filter (!·.isTrivia)).getLast? = some name →
    name.isIdent = true → (c.field? name.text).isSome = true → isNeat ms = true

namespace Lowering

variable {L : Lowering}

theorem memberInitsFrom_of_tok? {c : Class} {F : Fragment} {k : Nat} {t : Token} (ht : F.tok? k = some t) :
    memberInitsFrom L c F k = if t.isIdent && (F.isPunct (k + 1) "(" || F.isPunct (k + 1) "\x7b") then match F.close? (k + 1) with
        | none => [] | some j => (L.memberInit? c t.text (trim (F.between (k + 1) j))).toList ++ memberInitsFrom L c F (j + 1)
      else memberInitsFrom L c F (k + 1) := by
  rw [memberInitsFrom.eq_def]
  split
  · rename_i hno
    cases hno.symm.trans ht
  · rename_i t' ht'
    cases ht.symm.trans ht'
    split
    · cases F.close? (k + 1) <;> rfl
    · rfl

/-- The statement for the value of a field closes what it opens. -/
theorem closes_memberInit?_of_tok? (hns : HasNames L.program)
    (hown : ∀ c, L.owner = some c → c ∈ L.program.classes) {c : Class} {x : Text} {k j : Nat} {t : Token}
    (hc : L.owner = some c) (hx : WritableInits L.program c x) (ht : (ofText x).tok? k = some t)
    (hn : (t.isIdent && ((ofText x).isPunct (k + 1) "(" || (ofText x).isPunct (k + 1) "\x7b")))
    (hcl : (ofText x).close? (k + 1) = some j) {line : Text}
    (hln : L.memberInit? c t.text (trim ((ofText x).between (k + 1) j)) = some line) : Closes line := by
  rw [Bool.and_eq_true, Bool.or_eq_true] at hn
  obtain ⟨hid, ho⟩ := hn
  obtain ⟨b, hb, ho⟩ := exists_opening ho
  obtain ⟨g, rfl⟩ := Reads.exists_bracketed ho hcl
  have hfld : (c.field? t.text).isSome := by
    simp only [memberInit?, Option.bind_eq_bind, Option.bind_eq_some_iff] at hln
    obtain ⟨field, hfld, -⟩ := hln
    rw [hfld]
    rfl
  have hl : (g.before.filter (!·.isTrivia)).getLast? = some t := by
    rw [← g.take_before, take_add_one, ← tok?, ht]
    simp
  have hnested : Nested g.inside := by
    have hps := hx.nested
    rw [Nested, g.split, Bracket.passAll_append] at hps
    obtain ⟨s, -, hps⟩ := Option.bind_eq_some_iff.1 hps
    exact (passAll_group hps g.opened g.closed (closeWithin_of_level g.level g.closed)).1
  have hstd : Steady L.program L.owner (tokenize x) := hc ▸ hx.steady
  have hch := hx.tidy.quoteApart
  rw [g.split, append_cons] at hch
  have hscan : Scannable g.inside :=
    ⟨fun u hu => hx.tidy.movable u (inside_subset g hu), hch.right_of_append.left_of_append, hnested⟩
  have hne := hx.neat _ _ _ _ _ _ t g.split g.opened g.closed hb hnested hl hid hfld
  refine closes_memberInit? hns hown (isName_of_isIdent (mem_tokenize_of_tok? ht) hid) ?_ trim_trim hln
  rw [g.between]
  exact argument_of_isNeat g.lexed_inside.append_left hscan (steady_inside hstd g) hne

/-- The statements for a member initializer list close what they open. -/
theorem closes_memberInits (hns : HasNames L.program) {c : Class} (hc : L.owner = some c)
    (hmem : c ∈ L.program.classes) {x : Text} (hx : WritableInits L.program c x) {line : Text}
    (hl : line ∈ L.memberInits c x) : Closes line := by
  have hown : ∀ c', L.owner = some c' → c' ∈ L.program.classes := by
    intro c' hc'
    cases hc.symm.trans hc'
    exact hmem
  unfold memberInits at hl
  generalize hk : 0 = k at hl
  clear hk
  induction k using memberInitsFrom.induct (ofText x) with
  | case1 k hno =>
    rw [memberInitsFrom.eq_def] at hl
    split at hl
    · nomatch hl
    · rename_i t ht
      nomatch hno.symm.trans ht
  | case2 k t ht hn hno =>
    rw [memberInitsFrom_of_tok? ht, if_pos hn] at hl
    split at hl
    · nomatch hl
    · rename_i j hcl
      nomatch hno.symm.trans hcl
  | case3 k t ht hn j hcl ih =>
    rw [memberInitsFrom_of_tok? ht, if_pos hn] at hl
    split at hl
    · nomatch hl
    · rename_i j' hcl'
      cases hcl.symm.trans hcl'
      rw [mem_append] at hl
      rcases hl with hl | hl
      · exact closes_memberInit?_of_tok? hns hown hc hx ht hn hcl (by simpa using hl)
      · exact ih hl
  | case4 k t ht hn ih =>
    rw [memberInitsFrom_of_tok? ht, if_neg hn] at hl
    exact ih hl

end Lowering

end Declass
