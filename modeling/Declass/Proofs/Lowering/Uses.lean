import Declass.Proofs.Lowering.Tokens
import Declass.Proofs.Scope.Precedence

/-!
# What the use of a variable becomes

A field keeps its name in the scope of a method (`Scope.isField_ofCallable`): only the block locals at a position hide it. So a use
becomes the local where one is visible and the member where none is (`Lowering.Uses.reads`).
`Lowering.Visits` are the positions that a lowering comes to, at all depths.
-/

namespace Declass

open Fragment List Token
open FoundLocal (scan)

/-- A field stays one despite a local of its name, if no parameter has it. -/
theorem Scope.isField_ofCallable {x : Text} {p : Program} {c : Class} {f : Callable} {b : Body} (hb : f.body = some b)
    (hfld : ∃ v ∈ c.fields, v.name = x) (hpar : ∀ v ∈ paramVars f, v.name ≠ x)
    (hscan : ∃ v ∈ scanLocals p.typeEnv b.text, v.name = x) : (ofCallable p (some c) f).isField x := by
  have hfound : ∃ w ∈ foundLocals p f, w.name = x := by rwa [foundLocals, hb]
  have hsome : (c.fields.find? (·.name = x)).isSome := find?_isSome.2 (by simpa using hfld)
  obtain ⟨v, hv⟩ := Option.isSome_iff_exists.1 hsome
  exact (find?_ofCallable_field hv).1.2 ⟨hpar, fun _ _ _ => hfound⟩

theorem Fragment.map_var_blockLocalsFrom (F : Fragment) (env : TypeEnv) (start : Bool) (ends : List Nat) (k : Nat)
    (ts : List Token) : (F.blockLocalsFrom env start ends k ts).map (fun l => (⟨l.name, l.type⟩ : Var)) =
      (scan env start ts).map fun d => ⟨d.name, d.type⟩ := by
  induction start, ends, k, ts using blockLocalsFrom.induct F env with
  | case1 start ends k => rw [blockLocalsFrom, scan, map_nil, map_nil]
  | case2 start ends k t ts d hd ih =>
    rw [dite_eq_ite] at hd
    rw [blockLocalsFrom_of_some hd, scan.eq_def]
    simp only [hd, map_cons, ih]
  | case3 start ends k t ts hno ih =>
    rw [dite_eq_ite] at hno
    rw [blockLocalsFrom_of_none hno, scan.eq_def]
    simp only [hno, ih]

/-- The scan of a body finds the locals of its blocks, in order. -/
theorem scanLocals_eq_locals (env : TypeEnv) (outer : List Var) (body : Text) :
    scanLocals env body = (View.ofText env outer body).locals.map fun l => ⟨l.name, l.type⟩ :=
  (Fragment.map_var_blockLocalsFrom ..).symm

/-! ## What the use of a variable becomes -/

/-- The token becomes the expression `e`, or a method call on it. -/
inductive Plan.Reads (e : Text) : Plan → Prop
  | name : Reads e (.text e 1)
  | object (f : Callable) (i j : Nat) : Reads e (.method f e i j)
  | address (f : Callable) (i j : Nat) : Reads e (.method f ('&' :: e) i j)

namespace Lowering

/-- Identifiers that are no variables. -/
def literals : List Text :=
  ["true", "false", "nullptr", "this"]

/-- The token `t` at `k` uses `x`: it is no member, qualifier or type. -/
structure Uses (V : View) (k : Nat) (t : Token) (x : Text) : Prop where
  token : V.fragment.tok? k = some t
  word : t.isWord x = true
  isNoMember : V.fragment.afterMemberAccess k = false
  isNoQualifier : V.fragment.isPunct (k + 1) "::" = false
  isNoType : V.fragment.isIdent (k + 1) = false

variable {L : Lowering} {V : View} {k : Nat} {t : Token} {x : Text} {localType : Option Text}
  {types : Text → Option Text} {F : Fragment}

/-- What `x` becomes where `localType` is the type of its block local. -/
def variableText (L : Lowering) (x : Text) (localType : Option Text) : Text :=
  if L.scope.isField x && localType.isNone then "self->" ++ x else x

theorem variableText_of_isSome (h : localType.isSome) : L.variableText x localType = x := by
  rw [variableText, Option.isNone_eq_false_iff.2 h, Bool.and_false, if_neg Bool.false_ne_true]

theorem variableText_of_isField (h : L.scope.isField x) : L.variableText x none = "self->" ++ x := by
  rw [variableText, h]
  rfl

theorem variableOf_snd : (L.variableOf x localType).2 = L.variableText x localType := by
  unfold variableOf variableText Scope.isField
  cases localType with
  | some type =>
    rw [Option.isNone_some, Bool.and_false]
    rfl
  | none =>
    cases L.scope.find? x with
    | none => rfl
    | some b =>
      by_cases hb : b.kind = .field <;> simp [hb]

theorem receiver?_snd {op method : Text} {c : Class} {receiver : Text} (hx : x ≠ "this")
    (h : L.receiver? x op method localType = some (c, receiver)) :
    receiver = L.variableText x localType ∨ receiver = '&' :: L.variableText x localType := by
  rw [← variableOf_snd]
  unfold receiver? at h
  rw [if_neg hx] at h
  generalize L.variableOf x localType = found at h ⊢
  obtain ⟨c', -, heq⟩ := Option.map_eq_some_iff.1 h
  rw [← (Prod.mk.inj heq).2]
  split
  · exact .inl rfl
  · exact .inr rfl

theorem objectCallPlan?_reads {P : Plan} (hx : x ≠ "this") (htx : F.text? 0 = some x)
    (h : L.objectCallPlan? types F = some P) : P.Reads (L.variableText x (types x)) := by
  simp only [objectCallPlan?, htx, Option.bind_eq_bind, Option.bind_some, Option.bind_eq_some_iff] at h
  obtain ⟨op, -, method, -, _, -, close, -, ⟨c, receiver⟩, hrv, f, -, hP⟩ := h
  cases hP
  rcases receiver?_snd hx hrv with rfl | rfl
  · exact .object f 3 close
  · exact .address f 3 close

theorem objectPlan?_eq_none (h : F.isIdent 1 = false) : L.objectPlan? F = none := by
  have hid : F.ident? 1 = none := by
    rw [ident?, Option.map_eq_none_iff, Option.filter_eq_none_iff]
    intro u hu hid
    rw [Fragment.isIdent, hu, Option.any_some, hid] at h
    cases h
  simp only [objectPlan?, hid]
  cases F.text? 0 with
  | none => rfl
  | some name => cases L.program.class? name <;> simp

/-- A block local is not called. -/
theorem callPlan?_eq_none (htx : F.text? 0 = some x) (h : (types x).isSome) : L.callPlan? types F = none := by
  obtain ⟨type, hty⟩ := Option.isSome_iff_exists.1 h
  rw [callPlan?, htx, Option.bind_eq_bind, Option.bind_some, hty, Option.isNone_some, Bool.and_false]
  rfl

theorem planAt_of_isIdent (hid : t.isIdent) (htx : t.text ∉ literals) :
    L.planAt V k t = L.identifierPlan (V.localType? · k) (V.atStatementStart k) (V.fragment.afterMemberAccess k)
      (V.fragment.suffix k) t.text := by
  simp only [literals, mem_cons, not_or] at htx
  have hp : t.isPunct "::" = false := by
    have hk : t.kind = .ident := eq_of_beq hid
    simp [Token.isPunct, hk]
  rw [planAt, plan, hp, hid, if_neg htx.1, if_neg htx.2.1, if_neg htx.2.2.1]
  rfl

/-- What a name becomes that is no literal, member, qualifier or object. -/
theorem planAt_of_isWord (hw : t.isWord x) (hx : x ∉ literals)
    (hobj : L.objectPlan? (V.fragment.suffix k) = none) (hacc : V.fragment.afterMemberAccess k = false)
    (hqual : V.fragment.isPunct (k + 1) "::" = false) : L.planAt V k t =
      (if V.fragment.isPunct (k + 1) "." || V.fragment.isPunct (k + 1) "->" then
        L.objectCallPlan? (V.localType? · k) (V.fragment.suffix k) else none).getD
        (if V.fragment.isPunct (k + 1) "(" then (L.callPlan? (V.localType? · k) (V.fragment.suffix k)).getD (.text x 1)
          else .text (L.variableText x (V.localType? x k)) 1) := by
  have hw := Bool.and_eq_true _ _ ▸ hw
  obtain rfl : t.text = x := eq_of_beq hw.2
  rw [planAt_of_isIdent hw.1 hx, identifierPlan, hobj, hacc]
  simp only [literals, mem_cons, not_or] at hx
  simp only [ite_self, Option.getD_none, Bool.false_eq_true, if_false, isPunct_suffix, hqual, ne_eq, hx.2.2.2,
    not_false_eq_true, decide_true, Bool.true_and, variableText]

/-- A use of a variable becomes the variable or the member. -/
theorem Uses.reads (h : Uses V k t x) (hx : x ∉ literals)
    (hc : (V.localType? x k).isSome ∨ V.fragment.isPunct (k + 1) "(" = false) :
    (L.planAt V k t).Reads (L.variableText x (V.localType? x k)) := by
  have htx : (V.fragment.suffix k).text? 0 = some x := by
    have hx : t.text = x := eq_of_beq (Bool.and_eq_true _ _ ▸ h.word).2
    rw [text?_suffix, text?, add_zero, h.token, ← hx]
    rfl
  have hobj : L.objectPlan? (V.fragment.suffix k) = none :=
    objectPlan?_eq_none (by rw [isIdent_suffix]; exact h.isNoType)
  rw [planAt_of_isWord h.word hx hobj h.isNoMember h.isNoQualifier]
  cases hcalled : (if V.fragment.isPunct (k + 1) "." || V.fragment.isPunct (k + 1) "->" then
      L.objectCallPlan? (V.localType? · k) (V.fragment.suffix k) else none) with
  | some P =>
    refine objectCallPlan?_reads ?_ htx (Option.ite_none_right_eq_some.1 hcalled).2
    rintro rfl
    exact hx (by decide)
  | none =>
    split
    next ho =>
      have hso : (V.localType? x k).isSome := by
        refine hc.resolve_right ?_
        rw [ho]
        exact Bool.noConfusion
      rw [callPlan?_eq_none htx hso, variableText_of_isSome hso]
      exact .name
    next => exact .name

end Lowering

open List Token

/-- What the plan takes as arguments at `k`, and where their locals are seen. -/
def Plan.arguments? (V : View) (k : Nat) : Plan → Option (Nat × Text)
  | .text _ _ => none
  | .method _ _ i j => some (k + i, V.fragment.between (k + i) (k + j))
  | .function _ _ i j => some (k + i, V.fragment.between (k + (i + 1)) (k + j))
  | .object _ _ close => close.map fun j => (k, Text.trim (V.fragment.between (k + 2) (k + j)))

namespace Lowering

/-- The lowering of `x` comes to position `k` of the view `V`. The views around are those whose arguments it is in, innermost
first. -/
inductive Visits (L : Lowering) (x : Text) : List (View × Nat) → View → Nat → Prop
  | start : Visits L x [] (View.ofText L.program.typeEnv [] x) 0
  | next {around : List (View × Nat)} {V : View} {k : Nat} {t : Token} (h : Visits L x around V k)
      (ht : V.fragment.tok? k = some t) : Visits L x around V (k + (L.planAt V k t).size)
  | nested {around : List (View × Nat)} {V : View} {k n : Nat} {t : Token} {y : Text} (h : Visits L x around V k)
      (ht : V.fragment.tok? k = some t) (hargs : (L.planAt V k t).arguments? V k = some (n, y)) :
      Visits L x ((V, n) :: around) (View.ofText L.program.typeEnv (V.localsAt n) y) 0

variable {L : Lowering} {x name : Text} {around : List (View × Nat)} {V : View} {k : Nat} {t : Token}

/-- Where the lowering of `x` comes to the token, the lowered text holds what it becomes, up to spaces and tabs at the end. -/
def IsWritten (L : Lowering) (x : Text) (V : View) (k : Nat) (t : Token) : Prop :=
  ∀ around, L.Visits x around V k → ∃ outer y, V = View.ofText L.program.typeEnv outer y ∧
    (around = [] → outer = [] ∧ y = x) ∧
    Text.dropEndWhile isSpaceOrTab ((L.planAt V k t).lowered L L.lowerWithin V k).text <:+: L.lowerWithin outer y

namespace Visits

section

variable (h : L.Visits x around V k)

include h

theorem step {n : Nat} (hn : (V.fragment.tok? k).map (fun t => k + (L.planAt V k t).size) = some n) : L.Visits x around V n := by
  obtain ⟨t, ht, rfl⟩ := Option.map_eq_some_iff.1 hn
  exact h.next ht

theorem view_eq : ∃ outer y, V = View.ofText L.program.typeEnv outer y := by
  induction h with
  | start => exact ⟨_, _, rfl⟩
  | next _ _ ih => exact ih
  | nested => exact ⟨_, _, rfl⟩

/-- The arguments are taken at a position of the text around them. -/
theorem mem_around : ∀ e ∈ around, (∃ outer y, e.1 = View.ofText L.program.typeEnv outer y) ∧ e.2 < e.1.fragment.size := by
  induction h with
  | start => exact nofun
  | next _ _ ih => exact ih
  | @nested around V k n t y h ht ha ih =>
    rintro e (_ | ⟨_, he⟩)
    · obtain ⟨hpos, hfits, hg⟩ := plan_fits L ht (P := L.planAt V k t) rfl
      refine ⟨h.view_eq, lt_of_lt_of_le ?_ hfits⟩
      generalize L.planAt V k t = P at ha hpos hg
      cases P with
      | text => cases ha
      | method f receiver i j =>
        cases ha
        have := hg i j rfl
        omega
      | function set name i j =>
        cases ha
        have := hg (i + 1) j rfl
        omega
      | object c name close =>
        cases close with
        | none => cases ha
        | some j =>
          cases ha
          omega
    · exact ih e he

/-- What is lowered from a visited position on follows what is written. -/
theorem exists_pieces : ∃ outer y out gap, V = View.ofText L.program.typeEnv outer y ∧ (around = [] → outer = [] ∧ y = x) ∧
    L.lowerWithin outer y = (pieces L L.lowerWithin V k gap).foldl emit out := by
  induction h with
  | start => exact ⟨[], x, [], _, rfl, fun _ => ⟨rfl, rfl⟩, lowerWithin_eq L [] x⟩
  | @next around V k t h ht ih =>
    obtain ⟨outer, y, out, gap, hV, htop, hlower⟩ := ih
    by_cases hasg : V.isAssignment k
    · have hp : t.isPunct "=" := by
        simp only [View.isAssignment, Fragment.isPunct, ht, Bool.and_eq_true] at hasg
        exact hasg.1.1
      obtain ⟨hkind, htext⟩ := isPunct_iff.1 hp
      rw [pieces_of_isAssignment ht hasg] at hlower
      rw [planAt_of_kind hkind (by rw [htext]; decide)]
      exact ⟨outer, y, _, _, hV, htop, hlower⟩
    · have hnext : max (token L L.lowerWithin V k t).next (k + 1) = k + (L.planAt V k t).size := by
        rw [token_eq]
        exact Nat.max_eq_left (Nat.add_le_add_left (plan_fits L ht rfl).1 k)
      rw [pieces_of_tok? ht hasg hnext] at hlower
      exact ⟨outer, y, _, _, hV, htop, hlower⟩
  | nested => exact ⟨_, _, [], _, rfl, fun h => absurd h (cons_ne_nil _ _), lowerWithin_eq L _ _⟩

/-- The locals around a text are those visible at its arguments. -/
theorem mem_outer_iff : (∃ v ∈ V.outer, v.name = name) ↔ ∃ e ∈ around, ∃ l ∈ e.1.locals, l.name = name ∧ l.isVisibleAt e.2 := by
  induction h with
  | start => simp [View.ofText]
  | next _ _ ih => exact ih
  | nested h ht ha ih =>
    simp only [View.ofText, View.localsAt, mem_append, mem_map, mem_filter, mem_cons, exists_eq_or_imp, ← ih]
    constructor
    · rintro ⟨v, hv | ⟨l, ⟨hl, hvis⟩, rfl⟩, hn⟩
      · exact .inr ⟨v, hv, hn⟩
      · exact .inl ⟨l, hl, hn, hvis⟩
    · rintro (⟨l, hl, hn, hvis⟩ | ⟨v, hv, hn⟩)
      · exact ⟨_, .inr ⟨l, ⟨hl, hvis⟩, rfl⟩, hn⟩
      · exact ⟨v, .inl hv, hn⟩

/-- A name is a local's just if one is visible, here or around the arguments. -/
theorem isSome_localType?_iff : (V.localType? name k).isSome ↔
      ∃ e ∈ (V, k) :: around, ∃ l ∈ e.1.locals, l.name = name ∧ l.isVisibleAt e.2 := by
  rw [View.localType?, Option.isSome_or, Option.isSome_map, Option.isSome_map, Bool.or_eq_true, find?_isSome, find?_isSome]
  simp only [mem_reverse, Bool.and_eq_true, decide_eq_true_eq, mem_cons, exists_eq_or_imp, h.mem_outer_iff]

end

end Visits

/-- What a name becomes stands in the lowered text. -/
theorem isWritten_of_isIdent (x : Text) (ht : V.fragment.tok? k = some t) (hid : t.isIdent) : L.IsWritten x V k t := by
  intro around h
  obtain ⟨outer, y, out, gap, hV, htop, hlower⟩ := h.exists_pieces
  have hasg : ¬V.isAssignment k := by
    intro hasg
    simp only [View.isAssignment, Fragment.isPunct, ht, Bool.and_eq_true, Option.any_some, isPunct_iff] at hasg
    simp [Token.isIdent, hasg.1.1.1] at hid
  refine ⟨outer, y, hV, htop, ?_⟩
  rw [hlower, pieces_of_tok? ht hasg rfl, token_eq]
  exact infix_foldl_emit (out ++ gap) _ _

theorem Uses.isWritten (h : Uses V k t name) (x : Text) : L.IsWritten x V k t :=
  isWritten_of_isIdent x h.token (Bool.and_eq_true _ _ ▸ h.word).1

end Lowering

end Declass
