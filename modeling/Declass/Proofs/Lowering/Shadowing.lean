import Declass.Lowering.Body
import Declass.Proofs.Lowering.Control
import Declass.Proofs.Lowering.Uses

/-!
# Names in nested arguments, and locals that hide fields

A name means the same in nested arguments if and only if its outermost and innermost local have one type
(`View.nested_localType?_eq_iff`). A local that a head declares hides the field of its name to the end of the first block or to the
first `;` after the head (`HeadStatement.local_hides_field`).
-/

namespace Declass

open View (ofText)

namespace View

/-- `W` is the view of arguments at `k` of `V`, or of arguments in it, all `ok`. -/
inductive Within (ok : View → Prop) (V : View) (k : Nat) : View → Prop
  | args {W : View} (outer : W.outer = V.localsAt k) (isOk : ok W) : Within ok V k W
  | deeper {W X : View} {j : Nat} (within : Within ok V k W) (outer : X.outer = W.localsAt j) (isOk : ok X) :
    Within ok V k X

/-- The view declares no local of this name. -/
def DeclaresNo (name : Text) (W : View) : Prop :=
  ∀ l ∈ W.locals, l.name ≠ name

variable {V W : View} {k : Nat} {name : Text}

/-- The text's own locals of a name that are visible at `k`, outermost first. -/
def ownAt (V : View) (name : Text) (k : Nat) : List BlockLocal :=
  V.locals.filter fun l => l.name = name && l.isVisibleAt k

/-- The innermost local of the text is taken, else the first around it. -/
theorem localType?_eq (V : View) (name : Text) (k : Nat) : V.localType? name k =
      ((V.ownAt name k).getLast?.map BlockLocal.type).or ((V.outer.find? (·.name = name)).map Var.type) := by
  rw [localType?, ownAt, List.getLast?_filter]

/-- The first visible local of a name is one around the text, else the outermost. -/
theorem find?_localsAt : ((V.localsAt k).find? (·.name = name)).map Var.type =
      ((V.outer.find? (·.name = name)).map Var.type).or ((V.ownAt name k).head?.map BlockLocal.type) := by
  have hboth : ((V.locals.filter (·.isVisibleAt k)).map fun l => ({ name := l.name, type := l.type } : Var)).find?
      (·.name = name) = (V.ownAt name k).head?.map fun l => { name := l.name, type := l.type } := by
    rw [List.find?_map, List.find?_filter, ownAt]
    simp [and_comm]
  rw [localsAt, List.find?_append, hboth]
  cases V.outer.find? (·.name = name) <;> cases (V.ownAt name k).head? <;> rfl

theorem DeclaresNo.ownAt_eq_nil (h : W.DeclaresNo name) (j : Nat) : W.ownAt name j = [] := by
  rw [ownAt, List.filter_eq_nil_iff]
  intro l hl hn
  exact h l hl (of_decide_eq_true (Bool.and_eq_true _ _ ▸ hn).1)

/-- Nested arguments see the first of the locals around the outermost call. -/
theorem Within.find?_outer (h : V.Within (DeclaresNo name) k W) :
    (W.outer.find? (·.name = name)).map Var.type = ((V.localsAt k).find? (·.name = name)).map Var.type := by
  induction h with
  | args outer isOk => rw [outer]
  | @deeper W X j within outer isOk ih =>
    have hW : W.DeclaresNo name := by cases within <;> assumption
    rw [outer, find?_localsAt, hW.ownAt_eq_nil j, ih]
    exact Option.or_none

theorem Within.localType?_eq (h : V.Within (DeclaresNo name) k W) (j : Nat) :
    W.localType? name j = ((V.localsAt k).find? (·.name = name)).map Var.type := by
  have hW : W.DeclaresNo name := by cases h <;> assumption
  rw [View.localType?_eq, hW.ownAt_eq_nil j, h.find?_outer]
  rfl

/-- No visible local is the text's, or the innermost has the outermost's type. -/
def Unshadowed (V : View) (name : Text) (k : Nat) : Prop :=
  V.ownAt name k = [] ∨
    ((V.localsAt k).find? (·.name = name)).map Var.type = (V.ownAt name k).getLast?.map BlockLocal.type

instance (V : View) (name : Text) (k : Nat) : Decidable (V.Unshadowed name k) :=
  inferInstanceAs (Decidable (_ ∨ _))

/-- The first visible local has the name's type just if none hides another type. -/
theorem find?_localsAt_eq_iff (V : View) (name : Text) (k : Nat) :
    ((V.localsAt k).find? (·.name = name)).map Var.type = V.localType? name k ↔ V.Unshadowed name k := by
  rw [Unshadowed, localType?_eq]
  cases hown : V.ownAt name k with
  | nil =>
    rw [find?_localsAt, hown]
    simp
  | cons l ls =>
    obtain ⟨m, hm⟩ : ∃ m, (l :: ls).getLast? = some m := ⟨_, List.getLast?_eq_some_getLast (List.cons_ne_nil l ls)⟩
    simp [hm]

/-- In nested arguments a name has the type of its outermost local. This is the type at the call just if no local hides one of
another type, and then a method is looked for in the same class, with the same receiver. -/
theorem nested_localType?_eq_iff (env : TypeEnv) (outer : List Var) (t : Text) (k : Nat) (name : Text) (W : View)
    (h : (ofText env outer t).Within (DeclaresNo name) k W) (j : Nat) :
    let V := ofText env outer t
    W.localType? name j = ((V.localsAt k).find? (·.name = name)).map Var.type ∧
      (W.localType? name j = V.localType? name k ↔ V.Unshadowed name k) ∧
      (V.Unshadowed name k → ∀ (L : Lowering) (op method : Text),
        L.receiver? name op method (W.localType? name j) = L.receiver? name op method (V.localType? name k)) := by
  intro V
  have hfirst := h.localType?_eq j
  have hiff : W.localType? name j = V.localType? name k ↔ V.Unshadowed name k := by
    rw [hfirst]
    exact V.find?_localsAt_eq_iff name k
  refine ⟨hfirst, hiff, ?_⟩
  intro hunshadowed L op method
  rw [hiff.mpr hunshadowed]

/-- Two classes with a method of one name. -/
def pinLowering : Lowering where
  program :=
    { classes := [
        { name := "Led", keyword := .classWord
          methods := [{ name := "get", rawType := "int ()", params := [], cName := "Led_get" }] },
        { name := "Pin", keyword := .classWord
          methods := [
            { name := "get", rawType := "int ()", params := [], cName := "Pin_get" },
            { name := "set", rawType := "void (int)", params := [⟨some "n", "int"⟩], cName := "Pin_set" }] }] }

/-- A local that hides one of its own type, two calls deep. -/
theorem nested_localType?_eq_iff_pin :
    let env := pinLowering.program.typeEnv
    let V := ofText env [] "Pin *v = a; \x7b Pin *v = b; v->set(v->set(v->get())); \x7d"
    let W := ofText env (V.localsAt 16) "v->set(v->get())"
    let X := ofText env (W.localsAt 3) "v->get()"
    V.Unshadowed "v" 16 ∧ X.localType? "v" 0 = V.localType? "v" 16 ∧
      pinLowering.receiver? "v" "->" "get" (X.localType? "v" 0) =
        pinLowering.receiver? "v" "->" "get" (V.localType? "v" 16) := by
  intro env V W X
  have hX : V.Within (DeclaresNo "v") 16 X :=
    .deeper (.args (W := W) rfl (by unfold DeclaresNo; decide +kernel)) rfl (by unfold DeclaresNo; decide +kernel)
  have hunshadowed : V.Unshadowed "v" 16 := by decide +kernel
  obtain ⟨-, hiff, hreceiver⟩ := nested_localType?_eq_iff env [] _ 16 "v" X hX 0
  exact ⟨hunshadowed, hiff.mpr hunshadowed, hreceiver hunshadowed pinLowering "->" "get"⟩

/-- A local hides one of another class, to which the call goes. -/
theorem nested_localType?_ne_hidden :
    (¬∀ (env : TypeEnv) (outer : List Var) (t : Text) (k : Nat) (name : Text) (W : View) (j : Nat),
        W.outer = (ofText env outer t).localsAt k → W.DeclaresNo name →
          W.localType? name j = (ofText env outer t).localType? name k) ∧
      pinLowering.lower "Led *v = a; \x7b Pin *v = b; v->set(v->get()); \x7d" =
        "Led *v = a; \x7b Pin *v = b; Pin_set(v, Led_get(v)); \x7d" := by
  refine ⟨?_, by decide +kernel⟩
  intro h
  let env := pinLowering.program.typeEnv
  let V := ofText env [] "Led *v = a; \x7b Pin *v = b; v->set(v->get()); \x7d"
  let W := ofText env (V.localsAt 16) "v->get()"
  have heq := h env [] "Led *v = a; \x7b Pin *v = b; v->set(v->get()); \x7d" 16 "v" W 0 rfl (by unfold DeclaresNo; decide +kernel)
  exact absurd heq (by decide +kernel)

end View

open List Token

namespace View

variable {V W : View} {k j : Nat} {x : Text} {ok : View → Prop}

/-- Position `j` of `W` is `k` of `V`, or in nested arguments that see its locals. -/
inductive Sees (ok : View → Prop) (V : View) (k : Nat) : View → Nat → Prop
  | here : Sees ok V k V k
  | nested {W : View} (within : V.Within ok k W) (j : Nat) : Sees ok V k W j

/-- Nested arguments see each local around them. -/
theorem Within.exists_outer (h : V.Within ok k W) (hk : ∃ v ∈ V.localsAt k, v.name = x) : ∃ v ∈ W.outer, v.name = x := by
  induction h with
  | args outer isOk =>
    rw [outer]
    exact hk
  | deeper within outer isOk ih =>
    obtain ⟨v, hv, hn⟩ := ih
    exact ⟨v, by rw [outer]; exact mem_append_left _ hv, hn⟩

/-- A local is known wherever the position at which it is visible is seen. -/
theorem Sees.isSome_localType? {l : BlockLocal} (h : V.Sees ok k W j) (hl : l ∈ V.locals) (hn : l.name = x)
    (hk : l.isVisibleAt k) : (W.localType? x j).isSome := by
  rw [localType?, Option.isSome_or, Option.isSome_map, Option.isSome_map, Bool.or_eq_true, find?_isSome, find?_isSome]
  cases h with
  | here => exact .inl ⟨l, mem_reverse.2 hl, by simp [hn, hk]⟩
  | nested within =>
    obtain ⟨v, hv, hvname⟩ := within.exists_outer ⟨⟨l.name, l.type⟩, mem_append_right _ (mem_map.2 ⟨l,
      mem_filter.2 ⟨hl, hk⟩, rfl⟩), hn⟩
    exact .inr ⟨v, hv, decide_eq_true hvname⟩

/-- A name that is no local, and that no arguments declare, is none where seen. -/
theorem Sees.localType?_eq_none (h : V.Sees (DeclaresNo x) k W j) (hout : V.outer = []) (hfree : V.ownAt x k = []) :
    W.localType? x j = none := by
  cases h with
  | here =>
    rw [localType?_eq, hfree, hout]
    rfl
  | nested within =>
    rw [within.localType?_eq, find?_localsAt, hfree, hout]
    rfl

end View

namespace HeadStatement

/-- A local that the head of a statement declares under the name of a field. From its name to where it goes, each use in the
text and in nested arguments stays the local. From there each plain use is the member, unless another local has the name. It
does not go before the end of the statement exactly if this is a block without an `else`, or has no `;` but one at its end, or
none; and it goes with the statement exactly in the first two cases, where a block or a `;` stands after the head. -/
theorem local_hides_field (p : Program) (c : Class) (f : Callable) (b : Body) (S : HeadStatement p.typeEnv)
    (before after : List Token) (hbody : f.body = some b)
    (htokens : (Fragment.ofText b.text).tokens.map Token.bare = before ++ S.tokens ++ after)
    (hfield : ∃ v ∈ c.fields, v.name = S.declared.name) (hparam : ∀ v ∈ Scope.paramVars f, v.name ≠ S.declared.name)
    (hname : S.declared.name ∉ Lowering.literals) :
    let L := Lowering.ofCallable p (some c) f
    let V := View.ofText p.typeEnv [] b.text
    let x := S.declared.name
    ∃ l ∈ V.locals, l.name = x ∧ l.first = before.length + S.nameAt ∧ S.Reaches before after l.stop ∧
      (∀ k W j t, l.first ≤ k → k < l.stop → V.Sees (fun _ => True) k W j → Lowering.Uses W j t x →
        (L.planAt W j t).Reads x ∧ L.IsWritten b.text W j t) ∧
      ∀ k W j t, l.stop ≤ k → (∀ l' ∈ V.locals, l' ≠ l → l'.name = x → l'.isVisibleAt k = false) →
        V.Sees (View.DeclaresNo x) k W j → Lowering.Uses W j t x → W.fragment.isPunct (j + 1) "(" = false →
        (L.planAt W j t).Reads ("self->" ++ x) ∧ L.IsWritten b.text W j t := by
  intro L V x
  obtain ⟨l, hl, hlname, hfirst, hreaches⟩ := S.exists_local htokens
  refine ⟨l, hl, hlname, hfirst, hreaches, ?_, ?_⟩
  · intro k W j t hfirst hk hsees huse
    have hsome : (W.localType? x j).isSome = true :=
      hsees.isSome_localType? hl hlname (Bool.and_eq_true _ _ ▸ ⟨decide_eq_true hfirst, decide_eq_true hk⟩)
    have hreads := huse.reads (L := L) hname (.inl hsome)
    rw [Lowering.variableText_of_isSome hsome] at hreads
    exact ⟨hreads, huse.isWritten b.text⟩
  · intro k W j t hk hfree hsees huse hcall
    have hfield : L.scope.isField x = true := by
      refine Scope.isField_ofCallable hbody hfield hparam ⟨⟨l.name, l.type⟩, ?_, hlname⟩
      rw [scanLocals, ← Fragment.map_var_blockLocalsFrom (Fragment.ofText b.text) p.typeEnv true [] 0]
      exact mem_map.2 ⟨l, hl, rfl⟩
    have hnone : W.localType? x j = none := by
      refine hsees.localType?_eq_none rfl ?_
      rw [View.ownAt, filter_eq_nil_iff]
      intro l' hl' hvisible
      rw [Bool.and_eq_true, decide_eq_true_eq] at hvisible
      by_cases hsame : l' = l
      · subst hsame
        have hgone := (Bool.and_eq_true _ _ ▸ hvisible.2).2
        rw [decide_eq_true_eq] at hgone
        omega
      · rw [hfree l' hl' hsame hvisible.1] at hvisible
        cases hvisible.2
    have hreads := huse.reads (L := L) hname (.inr hcall)
    rw [hnone, Lowering.variableText_of_isField hfield] at hreads
    exact ⟨hreads, huse.isWritten b.text⟩

/-- A class with a field that the method `run` hides by a local. -/
def fieldLed : Class where
  name := "Led"
  keyword := .classWord
  fields := [⟨"x", "int"⟩]
  methods := [{ name := "set", rawType := "void (int)", params := [⟨some "v", "int"⟩], cName := "Led_set" }]

def fieldProgram : Program where
  classes := [fieldLed]

def runBody (text : Text) : Body where
  text := text
  file := "led.cpp"

def runMethod (text : Text) : Callable where
  name := "run"
  rawType := "void ()"
  body := some (runBody text)

/-- `for (int x = 0; x < 2; x++) { set(x); }` -/
def countLoop : HeadStatement fieldProgram.typeEnv where
  word := "for"
  declared :=
    { words := []
      first := ofName "int"
      more := []
      name := "x"
      isWord := by decide
      isPart := by decide
      isFirst := by decide
      isKnown := by decide +kernel
      isName := by decide +kernel }
  rest := significant (tokenize "0; x < 2; x++")
  nested := by decide +kernel
  body := .block (significant (tokenize "set(x);")) (by decide +kernel)
  otherwise := none

theorem local_hides_field_countLoop :
    let text : Text := " for (int x = 0; x < 2; x++) \x7b set(x); \x7d x = 1; "
    let L := Lowering.ofCallable fieldProgram (some fieldLed) (runMethod text)
    let V := View.ofText fieldProgram.typeEnv [] text
    let W := View.ofText fieldProgram.typeEnv (V.localsAt 17) "x"
    countLoop.isExact = true ∧ (L.planAt V 7 ⟨.ident, "x", 17⟩).Reads "x" ∧ (L.planAt W 0 ⟨.ident, "x", 0⟩).Reads "x" ∧
      (L.planAt V 22 ⟨.ident, "x", 41⟩).Reads "self->x" := by
  intro text L V W
  have hexact : countLoop.isExact = true := by decide +kernel
  have hone : ∀ l ∈ V.locals, l = ⟨"x", "int", 3, 22⟩ := by decide +kernel
  obtain ⟨l, hl, -, hfirst, hreaches, hinside, hafter⟩ := local_hides_field fieldProgram fieldLed (runMethod text) (runBody text)
    countLoop [] (significant (tokenize "x = 1;")) rfl (by decide +kernel) (by decide) (by decide) (by decide)
  obtain rfl := hone l hl
  refine ⟨hexact, ?_, ?_, ?_⟩
  · exact (hinside 7 V 7 _ (by decide) (by decide) .here
      ⟨by decide +kernel, by decide, by decide +kernel, by decide +kernel, by decide +kernel⟩).1
  · exact (hinside 17 W 0 _ (by decide) (by decide) (.nested (.args rfl trivial) 0)
      ⟨by decide +kernel, by decide, by decide +kernel, by decide +kernel, by decide +kernel⟩).1
  · refine (hafter 22 V 22 _ (by decide) ?_ .here
      ⟨by decide +kernel, by decide, by decide +kernel, by decide +kernel, by decide +kernel⟩ (by decide +kernel)).1
    exact fun l' hl' hne => absurd (hone l' hl') hne

/-- An `else` and a `;` of a nested block end the local before its statement; without a `;` it goes on behind. -/
theorem head_local_ends_elsewhere :
    let lowered := fun text : Text => (Lowering.ofCallable fieldProgram (some fieldLed) (runMethod text)).lower text
    lowered " if (int x = 1) \x7b x = 2; \x7d else \x7b x = 3; \x7d x = 4; " =
        " if (int x = 1) \x7b x = 2; \x7d else \x7b self->x = 3; \x7d self->x = 4; " ∧
      lowered " if (int x = 1) while (a) \x7b b(); x = 2; \x7d " = " if (int x = 1) while (a) \x7b b(); self->x = 2; \x7d " ∧
      lowered " if (int x = 1) while (a) \x7b \x7d x = 2; x = 3; " =
        " if (int x = 1) while (a) \x7b \x7d x = 2; self->x = 3; " := by
  refine ⟨?_, ?_, ?_⟩ <;> decide +kernel

end HeadStatement

end Declass
