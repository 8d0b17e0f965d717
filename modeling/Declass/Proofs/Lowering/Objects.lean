import Declass.Proofs.Lowering.Control
import Declass.Proofs.Lowering.Names
import Declass.Proofs.Lowering.Scopes

/-!
# Objects that are constructed where they are declared

A local of a class is constructed by its declaration, once, where nothing but the name of the class stands before its own, and `;`
or arguments in brackets and `;` after it (`Lowering.constructed_once`).
-/

namespace Declass

open List Token
open FoundLocal (at?)

/-- A declaration has a type and a name, and the name is its last token. -/
theorem FoundLocal.name_of_at? {env : TypeEnv} {ts : List Token} {d : FoundLocal} (h : at? env ts = some d) :
    2 ≤ d.size ∧ ∃ u, ts[d.size - 1]? = some u ∧ u.isIdent ∧ u.text = d.name := by
  unfold at? at h
  simp only [Option.bind_eq_bind, Option.bind_eq_some_iff, Option.guard_eq_some', Bool.and_eq_true] at h
  obtain ⟨name, hn, next, -, _, ⟨-, hid⟩, first, hfst, _, -, _, -, hd⟩ := h
  cases hd
  generalize hps : (ts.drop (ts.takeWhile (·.isWordOf declWords)).length).takeWhile isPart = ps at *
  have htwo : 0 < ps.dropLast.length := by
    obtain ⟨rest, hr⟩ := head?_eq_some_iff.1 hfst
    simp [hr]
  rw [length_dropLast] at htwo
  refine ⟨by dsimp only; omega, name, ?_, hid, rfl⟩
  rw [getLast?_eq_getElem?] at hn
  obtain ⟨rest, hr⟩ := takeWhile_prefix (l := ts.drop (ts.takeWhile (·.isWordOf declWords)).length) isPart
  have hmem : (ts.drop (ts.takeWhile (·.isWordOf declWords)).length)[ps.length - 1]? = some name := by
    rw [← hr, hps, getElem?_append_left (by omega), hn]
  rw [getElem?_drop] at hmem
  rwa [Nat.add_sub_assoc (by omega)]

namespace Lowering

variable {L : Lowering} {F : Fragment} {V : View} {k n i : Nat} {t : Token} {c : Class} {d : FoundLocal} {type name : Text}
  {close : Option Nat} {env : TypeEnv} {inner : List Var → Text → Text}

/-- A declared object is constructed at position `n`. -/
def Constructs (L : Lowering) (V : View) (n : Nat) : Prop :=
  ∃ t c name close, V.fragment.tok? n = some t ∧ L.planAt V n t = .object c name close

theorem objectPlan?_of_endsObject (hty : F.text? 0 = some type) (hc : L.program.class? type = some c)
    (hn : F.ident? 1 = some name) (hend : F.EndsObject close) : L.objectPlan? F = some (.object c name close) := by
  simp only [objectPlan?, hty, hc, hn, Option.bind_eq_bind, Option.bind_some]
  rcases hend with ⟨hse, rfl⟩ | ⟨ho, j, hcl, hse, rfl⟩
  · rw [if_pos hse]
  · have hno : F.isPunct 2 ";" = false := by
      rw [Bool.eq_false_iff]
      intro h
      simp only [Fragment.isPunct, Option.any_eq_true, isPunct_iff] at h ho
      obtain ⟨u, hu, -, htx⟩ := h
      simp [hu, htx] at ho
    rw [hno, if_neg Bool.false_ne_true, if_pos (by simpa using ho), hcl]
    exact if_pos hse

/-- An object is constructed at the start of a statement only. -/
theorem Constructs.start_and_end (h : L.Constructs V k) :
    V.atStatementStart k ∧ ∃ close, (V.fragment.suffix k).EndsObject close := by
  obtain ⟨t, c, name, close, ht, hpl⟩ := h
  have hplanned := planned_planAt (L := L) ht
  rw [hpl] at hplanned
  cases hplanned with
  | object hpv hid hc hu huIdent hend => exact ⟨hpv, close, hend⟩

/-- A declaration ends before a token that a declaration can follow. -/
theorem size_le_of_tok? (hd : at? env (F.tokens.drop k) = some d) (ht : F.tok? (k + i) = some t)
    (hfol : FoundLocal.canFollow t) : d.size ≤ i := by
  rw [← take_append_drop i (F.tokens.drop k), drop_drop, Fragment.drop_of_tok? ht] at hd
  have hle := Fragment.size_le_of_canFollow hfol hd
  rw [length_take] at hle
  omega

/-- A declaration constructs its object at its first token if at all. -/
theorem Constructs.eq_of_at? (h : L.Constructs V n) (hd : at? env (V.fragment.tokens.drop k) = some d) (hk : k ≤ n)
    (hn : n < k + d.size) : n = k ∧ d.size = 2 ∧ ∃ close, (V.fragment.suffix k).EndsObject close := by
  obtain ⟨hst, close, hend⟩ := h.start_and_end
  obtain ⟨m, rfl⟩ := Nat.exists_eq_add_of_le hk
  cases m with
  | zero =>
    refine ⟨rfl, le_antisymm ?_ (FoundLocal.name_of_at? hd).1, close, hend⟩
    obtain ⟨p, hp, hpun⟩ : ∃ p ∈ [";".toList, "\x7b", "\x7d", "(", ":"],
        (V.fragment.suffix k).isPunct 2 p := by
      rcases hend with ⟨hse, -⟩ | ⟨ho | ho, -⟩
      · exact ⟨_, by simp, hse⟩
      · exact ⟨_, by simp, ho⟩
      · exact ⟨_, by simp, ho⟩
    rw [Fragment.isPunct_suffix] at hpun
    obtain ⟨u, hu, hpun⟩ := Option.any_eq_true _ _ |>.1 hpun
    exact size_le_of_tok? hd hu (any_eq_true.2 ⟨p, hp, hpun⟩)
  | succ m =>
    obtain ⟨u, hu⟩ : ∃ u, V.fragment.tok? (k + m) = some u := by
      have hlt := (GoesOn.at?_spec hd).2.1
      rw [length_drop] at hlt
      exact ⟨_, getElem?_eq_getElem (by omega)⟩
    have hpv : V.fragment.prev? (k + (m + 1)) = some u := hu
    rw [View.atStatementStart, hpv] at hst
    obtain ⟨p, hp, hpun⟩ := any_eq_true.1 hst
    have hle := size_le_of_tok? hd hu (any_eq_true.2 ⟨p, by simp only [mem_cons] at hp ⊢; tauto, hpun⟩)
    omega

/-- The text is the variable and the call of a constructor on its address. -/
def BuildsObject (inner : List Var → Text → Text) (V : View) (k : Nat) (c : Class) (name text : Text) : Prop :=
  ∃ f args, text = c.name ++ " " ++ name ++ ";\n" ++ V.indentation k ++ f ++ "(&" ++ name ++ args ++ ");" ∧
    (f = c.initName ∨ ∃ g ∈ c.constructors, f = g.cName) ∧ (args = [] ∨ ∃ y, args = ", " ++ inner (V.localsAt k) y)

theorem buildsObject_lowered : BuildsObject inner V k c name ((Plan.object c name close).lowered L inner V k).text := by
  simp only [Plan.lowered, construct]
  generalize Text.trim (close.elim [] fun j => V.fragment.between (k + 2) (k + j)) = args
  split
  · exact ⟨c.initName, [], by simp, .inl rfl, .inl rfl⟩
  · refine ⟨_, ", " ++ inner (V.localsAt k) args, by simp; rfl, ?_, .inr ⟨_, rfl⟩⟩
    cases hcho : (L.argContext (V.localsAt k)).choose? c.constructors (splitArgs args) with
    | none => exact .inl rfl
    | some g => exact .inr ⟨g, mem_of_choose? hcho, rfl⟩

/-- A local of a class that is declared at the start of a statement, with `;` or arguments in brackets and `;`, becomes the
variable and one constructor call on its address. Any other declaration constructs nothing. -/
theorem constructed_once (L : Lowering) (inner : List Var → Text → Text) (V : View) (k : Nat) (t u : Token) (c : Class)
    (d : FoundLocal) (ht : V.fragment.tok? k = some t) (hstart : V.atStatementStart k = true)
    (hd : at? L.program.typeEnv (V.fragment.tokens.drop k) = some d)
    (hu : V.fragment.tok? (k + (d.size - 2)) = some u) (hident : u.isIdent = true) (hc : L.program.class? u.text = some c)
    (hname : u.text ∉ literals) :
    let written := d.size = 2 ∧ ∃ close, (V.fragment.suffix k).EndsObject close
    (written → BuildsObject inner V k c d.name ((L.planAt V k t).lowered L inner V k).text ∧
      (∀ x around, L.Visits x around V k → ∃ outer y text, V = View.ofText L.program.typeEnv outer y ∧
        (around = [] → outer = [] ∧ y = x) ∧ text <:+: L.lowerWithin outer y ∧ BuildsObject L.lowerWithin V k c d.name text) ∧
      ∀ n, k ≤ n → n < k + d.size → (L.Constructs V n ↔ n = k)) ∧
    (¬written → ∀ n, k ≤ n → n < k + d.size → ¬L.Constructs V n) := by
  intro written
  refine ⟨?_, fun hnot n hk hn hconstructs => hnot (hconstructs.eq_of_at? hd hk hn).2⟩
  rintro ⟨hsize, close, hend⟩
  obtain ⟨-, v, hv, hvIdent, hvText⟩ := FoundLocal.name_of_at? hd
  rw [hsize, getElem?_drop] at hv
  rw [hsize, Nat.sub_self, Nat.add_zero, ht] at hu
  cases hu
  have hplan : L.planAt V k t = .object c d.name close := by
    rw [planAt_of_isIdent hident hname, identifierPlan, hstart, if_pos rfl, objectPlan?_of_endsObject ?_ hc ?_ hend,
      Option.getD_some]
    · rw [Fragment.text?_suffix, Fragment.text?, Nat.add_zero, ht]
      rfl
    · have hv : V.fragment.tok? (k + 1) = some v := hv
      rw [Fragment.ident?_suffix, Fragment.ident?, hv, Option.filter_some, if_pos hvIdent, Option.map_some, hvText]
  refine ⟨hplan ▸ buildsObject_lowered, fun x around h => ?_, fun n hk hn => ⟨fun h => (h.eq_of_at? hd hk hn).1, ?_⟩⟩
  · obtain ⟨outer, y, hV, htop, hinfix⟩ := isWritten_of_isIdent x ht hident around h
    obtain ⟨f, args, htext, hcall⟩ : BuildsObject L.lowerWithin V k c d.name _ := buildsObject_lowered
    rw [hplan, htext, Text.dropEndWhile_append, if_neg (by decide)] at hinfix
    exact ⟨outer, y, _, hV, htop, hinfix, f, args, rfl, hcall⟩
  · rintro rfl
    exact ⟨t, c, d.name, close, ht, hplan⟩

/-- The form with arguments, and the one with a qualified class. -/
theorem constructed_once_sample :
    let V := View.ofText fieldLowering.program.typeEnv [] "Led a(1); hw::Led b;"
    (∀ n, 0 ≤ n → n < 2 → (fieldLowering.Constructs V n ↔ n = 0)) ∧
      ∀ n, 6 ≤ n → n < 10 → ¬fieldLowering.Constructs V n := by
  intro V
  obtain ⟨hwritten, -⟩ := constructed_once fieldLowering (fun _ y => y) V 0 ⟨.ident, "Led", 0⟩ ⟨.ident, "Led", 0⟩
    builtLed ⟨"a", "Led", 2⟩ (by decide +kernel) (by decide +kernel) (by decide +kernel) (by decide +kernel) (by decide)
    (by decide +kernel) (by decide)
  obtain ⟨-, hother⟩ := constructed_once fieldLowering (fun _ y => y) V 6 ⟨.ident, "hw", 10⟩ ⟨.ident, "Led", 14⟩
    builtLed ⟨"b", "hw::Led", 4⟩ (by decide +kernel) (by decide +kernel) (by decide +kernel) (by decide +kernel) (by decide)
    (by decide +kernel) (by decide)
  exact ⟨(hwritten ⟨rfl, some 4, .inr ⟨.inl (by decide +kernel), 4, by decide +kernel⟩⟩).2.2, hother nofun⟩

/-- A qualified class loses its qualifier, but its object is not constructed. -/
theorem qualified_object_not_constructed :
    fieldLowering.lower "Led led(1);" = "Led led;\nLed_init_i(&led, 1);" ∧ fieldLowering.lower "hw::Led led(1);" = "Led led(1);" ∧
      fieldLowering.lower "static Led led;" = "static Led led;" ∧ fieldLowering.lower "Led a, b;" = "Led a, b;" := by
  decide +kernel

end Lowering

end Declass
