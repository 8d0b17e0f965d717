import Declass.Proofs.Lowering.Boundary
import Declass.Proofs.Lowering.Uses

/-!
# Block scopes

Where no `}` comes without its `{` and no declaration stands right after a `(`, a local is visible as long as no more blocks are
closed than opened since its name (`Fragment.isVisibleAt_iff`).
-/

namespace Declass

open List Token
open Option (bind_some getD_some isNone_map isSome_none map_some)
open FoundLocal (at?)
open Declass.Bracket (curly)

namespace Token

variable {b : Bracket} {n : Nat} {ts : List Token}

/-- Brackets close no more than is open exactly if the search for one that does fails. -/
theorem isSome_level : (b.level n ts).isSome = (closeWithin b n ts).isNone := by
  induction ts generalizing n with
  | nil => rfl
  | cons t ts ih =>
    rw [Bracket.level, closeWithin_cons]
    split
    · rw [ih, isNone_map]
    · split
      · split
        · rfl
        · rw [ih, isNone_map]
      · rw [ih, isNone_map]

/-- More open groups are closed no sooner. -/
theorem isSome_level_mono {m : Nat} (h : (b.level n ts).isSome) (hle : n ≤ m) : (b.level m ts).isSome := by
  induction ts generalizing n m with
  | nil => rfl
  | cons t ts ih =>
    rw [Bracket.level] at h ⊢
    split at h
    next ho =>
      rw [if_pos ho]
      exact ih h (by omega)
    next ho =>
      rw [if_neg ho]
      split at h
      next hc =>
        split at h
        · cases h
        · rw [if_pos hc, if_neg (by omega)]
          exact ih h (by omega)
      next hc =>
        rw [if_neg hc]
        exact ih h hle

/-- While brackets close no more than is open, one that does comes later. -/
theorem isSome_level_take_iff {m : Nat} (hm : m ≤ ts.length) :
    (b.level n (ts.take m)).isSome ↔ m ≤ (closeWithin b n ts).getD ts.length := by
  have hspl := take_append_drop m ts
  have hlen : (ts.take m).length = m := length_take_of_le hm
  cases hlv : b.level n (ts.take m) with
  | some r =>
    rw [← hspl, closeWithin_append_of_level hlv]
    cases closeWithin b r (ts.drop m) <;> simp [hm]
  | none =>
    have hcl : _ = (closeWithin b n (ts.take m)).isNone := isSome_level
    rw [hlv, isSome_none, eq_comm, Option.isNone_eq_false_iff] at hcl
    obtain ⟨i, hi⟩ := Option.isSome_iff_exists.1 hcl
    obtain ⟨-, t, ht, -⟩ := level_of_closeWithin hi
    have hlt := (List.getElem?_eq_some_iff.1 ht).1
    rw [← hspl, closeWithin_append hi]
    simp only [isSome_none, getD_some, Bool.false_eq_true, false_iff]
    omega

end Token

namespace Fragment

variable {F : Fragment} {env : TypeEnv} {ends : List Nat} {i k : Nat} {t : Token} {l : BlockLocal}

/-- Every `}` closes a `{`, and no declaration stands right after a `(`. -/
structure BlockScoped (env : TypeEnv) (F : Fragment) : Prop where
  closes : (curly.level 0 F.tokens).isSome = true
  heads : ∀ k < F.size, F.isPunct k "(" = true → at? env (F.tokens.drop (k + 1)) = none

/-- The end of the block that is the innermost but `i` around `k`. -/
def blockEnd (F : Fragment) (i k : Nat) : Nat :=
  ((closeWithin curly i (F.tokens.drop k)).map (k + ·)).getD F.size

/-- The stack holds the ends of the blocks around `k`, innermost first. -/
def Encloses (F : Fragment) (ends : List Nat) (k : Nat) : Prop :=
  ∀ i, ends[i]?.getD F.size = F.blockEnd i k

theorem encloses_nil (h : (curly.level 0 F.tokens).isSome) : F.Encloses [] 0 := by
  intro i
  have hno := isSome_level_mono h (Nat.zero_le i)
  rw [isSome_level, Option.isNone_iff_eq_none] at hno
  rw [blockEnd, drop_zero, hno]
  rfl

/-- The stack after one more token. -/
theorem Encloses.blockEnds (h : F.Encloses ends k) (ht : F.tok? k = some t) : F.Encloses (F.blockEnds ends k t) (k + 1) := by
  have hop : Bracket.opened? t = some curly ↔ t.isPunct "\x7b" := opened?_eq_some_iff
  have hclo : Bracket.closed? t = some curly ↔ t.isPunct "\x7d" := closed?_eq_some_iff
  have hsh (o : Option Nat) : ((o.map (· + 1)).map (k + ·)).getD F.size = (o.map (k + 1 + ·)).getD F.size := by
    cases o with
    | none => rfl
    | some n => simp only [map_some, getD_some]; omega
  intro i
  have he := fun i => h i
  simp only [blockEnd, drop_of_tok? ht, closeWithin_cons, hop, hclo] at he
  unfold Fragment.blockEnds
  split
  next ho =>
    simp only [ho, if_true, hsh] at he
    cases i with
    | zero =>
      have hcl : F.close? k = (closeWithin curly 0 (F.tokens.drop (k + 1))).map (k + 1 + ·) := by
        have hget : F.tokens[k]? = some t := ht
        rw [close?, matchingClose, hget, bind_some, hop.2 ho]
        simp only [Nat.add_comm]
      rw [hcl]
      rfl
    | succ i => exact he i
  next ho =>
    split
    next hc =>
      have hnx := he (i + 1)
      rw [if_neg ho, if_pos hc, if_neg (Nat.succ_ne_zero i), hsh] at hnx
      rw [getElem?_tail]
      exact hnx
    next hc =>
      have hnx := he i
      rw [if_neg ho, if_neg hc, hsh] at hnx
      exact hnx

/-- A declaration opens and closes no block. -/
theorem blockEnd_at? {d : FoundLocal} (h : at? env (F.tokens.drop k) = some d) : F.blockEnd i (k + d.size) = F.blockEnd i k := by
  have hlv := Lowering.GoesOn.level_at? h curly i
  have hlen : ((F.tokens.drop k).take d.size).length = d.size :=
    length_take_of_le (Nat.le_of_lt (Lowering.GoesOn.at?_spec h).2.1)
  have hcl := closeWithin_append_of_level hlv ((F.tokens.drop k).drop d.size)
  rw [take_append_drop, drop_drop] at hcl
  rw [blockEnd, blockEnd, hcl, Option.map_map]
  congr 2
  funext n
  simp only [Function.comp_apply]
  omega

/-- Each local goes where its block ends. -/
theorem stop_of_mem (hheads : ∀ k < F.size, F.isPunct k "(" → at? env (F.tokens.drop (k + 1)) = none)
    {start : Bool} {ts : List Token} (hts : F.tokens.drop k = ts) (he : F.Encloses ends k)
    (hl : l ∈ F.blockLocalsFrom env start ends k ts) : l.stop = F.blockEnd 0 (l.first + 1) := by
  induction start, ends, k, ts using blockLocalsFrom.induct F env with
  | case1 => 
    rw [blockLocalsFrom] at hl
    cases hl
  | case2 start ends k t ts d hd ih =>
    rw [blockLocalsFrom_of_some hd] at hl
    have hat : at? env (F.tokens.drop k) = some d := by
      rw [hts]
      exact (Option.ite_none_right_eq_some.1 hd).2
    have hsz := (Lowering.GoesOn.at?_spec hat).1
    have henc : F.Encloses ends (k + d.size) := fun i => (he i).trans (blockEnd_at? hat).symm
    rcases mem_cons.1 hl with rfl | hl
    · have hpar : ¬(decide (0 < k) && F.isPunct (k - 1) "(") := by
        intro hp
        rw [Bool.and_eq_true, decide_eq_true_eq] at hp
        have hno := hheads (k - 1) (lt_size_of_isPunct hp.2) hp.2
        rw [Nat.sub_add_cancel hp.1, hat] at hno
        cases hno
      rw [localStop, if_neg hpar, Nat.sub_add_cancel (by omega), ← henc 0, head?_eq_getElem?]
    · refine ih ?_ henc hl
      rw [← drop_drop, hts, Lowering.GoesOn.drop_size (hts ▸ hat)]
  | case3 start ends k t ts hno ih =>
    rw [blockLocalsFrom_of_none hno] at hl
    have ht : F.tok? k = some t := (Lowering.GoesOn.tok?_of_drop hts).2
    refine ih ?_ (he.blockEnds ht) hl
    rw [drop_of_tok? ht] at hts
    exact (cons.inj hts).2

/-- A local is visible from its name on so long as its block is open. -/
theorem isVisibleAt_iff (h : F.BlockScoped env) (hl : l ∈ F.blockLocals env) (hk : k < F.size) : l.isVisibleAt k ↔
      l.first ≤ k ∧ (curly.level 0 ((F.tokens.drop (l.first + 1)).take (k - l.first))).isSome := by
  have hs := stop_of_mem h.heads rfl (encloses_nil h.closes) hl
  rw [BlockLocal.isVisibleAt, Bool.and_eq_true, decide_eq_true_eq, decide_eq_true_eq, hs, blockEnd]
  have hlen : (F.tokens.drop (l.first + 1)).length = F.size - (l.first + 1) := length_drop
  rw [isSome_level_take_iff (by omega)]
  cases closeWithin curly 0 (F.tokens.drop (l.first + 1)) with
  | none => simp only [Option.map_none, Option.getD_none]; omega
  | some n => simp only [map_some, getD_some]; omega

end Fragment

/-- A declaration of `name` is before `k`, and its block is still open there. -/
def View.Declares (V : View) (name : Text) (k : Nat) : Prop :=
  ∃ l ∈ V.locals, l.name = name ∧ l.first ≤ k ∧
    (curly.level 0 ((V.fragment.tokens.drop (l.first + 1)).take (k - l.first))).isSome = true

namespace Lowering

variable {L : Lowering} {x name : Text} {around : List (View × Nat)} {V : View} {k : Nat} {t : Token}

/-- The token at `k` is a variable's name, not called, without a member. -/
structure PlainUse (V : View) (k : Nat) (t : Token) (name : Text) : Prop where
  token : V.fragment.tok? k = some t
  word : t.isWord name = true
  isNoMember : V.fragment.afterMemberAccess k = false
  next : (V.fragment.tok? (k + 1)).any (·.isPunctOf ["(", "::", ".", "->"]) = false

/-- A plain use of a name that is no class becomes variable or member. -/
theorem PlainUse.planAt_eq (h : PlainUse V k t name) (hn : name ∉ literals) (hcls : L.program.class? name = none) :
    L.planAt V k t = .text (L.variableText name (V.localType? name k)) 1 := by
  have hnx : ∀ p ∈ ["(".toList, "::", ".", "->"], V.fragment.isPunct (k + 1) p = false := by
    intro p hp
    rw [Bool.eq_false_iff]
    intro hpun
    obtain ⟨u, hu, hpun⟩ := Option.any_eq_true _ _ |>.1 hpun
    have hany := h.next
    rw [hu, Option.any_some, isPunctOf, any_eq_false] at hany
    exact hany p hp hpun
  have hobj : L.objectPlan? (V.fragment.suffix k) = none := by
    have htx : t.text = name := eq_of_beq (Bool.and_eq_true _ _ ▸ h.word).2
    have htok : (V.fragment.suffix k).text? 0 = some name := by
      rw [Fragment.text?_suffix, Fragment.text?, Nat.add_zero, h.token, ← htx]
      rfl
    rw [objectPlan?, htok, Option.bind_eq_bind, bind_some, hcls]
    rfl
  rw [planAt_of_isWord h.word hn hobj h.isNoMember (hnx _ (by simp)), hnx "." (by simp), hnx "->" (by simp), hnx "(" (by simp)]
  rfl

/-- Wherever a lowering comes to, a plain use of a field's name becomes the local if one is declared before it, in its text or
before the arguments around it, in a block still open; otherwise the member. The arguments of an object do not see its own
name. -/
theorem field_unless_declared (L : Lowering) (x : Text) (around : List (View × Nat)) (V : View) (k : Nat) (t : Token) (name : Text)
    (h : L.Visits x around V k) (huse : PlainUse V k t name) (hfield : L.scope.isField name = true) (hname : name ∉ literals)
    (hclass : L.program.class? name = none)
    (hscoped : ∀ e ∈ (V, k) :: around, e.1.fragment.BlockScoped L.program.typeEnv) :
    let hidden := ∃ e ∈ (V, k) :: around, e.1.Declares name e.2
    (hidden → L.planAt V k t = .text name 1) ∧ (¬hidden → L.planAt V k t = .text ("self->" ++ name) 1) := by
  intro hidden
  have hiff : (V.localType? name k).isSome = true ↔ hidden := by
    have hvisible : ∀ e ∈ (V, k) :: around, ∀ l ∈ e.1.locals, l.isVisibleAt e.2 = true ↔ l.first ≤ e.2 ∧
        (curly.level 0 ((e.1.fragment.tokens.drop (l.first + 1)).take (e.2 - l.first))).isSome = true := by
      intro e he l hl
      obtain ⟨⟨outer, y, heq⟩, hlt⟩ : (∃ outer y, e.1 = View.ofText L.program.typeEnv outer y) ∧ e.2 < e.1.fragment.size := by
        rcases mem_cons.1 he with rfl | he
        · exact ⟨h.view_eq, Fragment.lt_size_of_tok? huse.token⟩
        · exact h.mem_around e he
      refine Fragment.isVisibleAt_iff (hscoped e he) ?_ hlt
      rw [heq] at hl ⊢
      exact hl
    rw [h.isSome_localType?_iff]
    exact exists_congr fun e => and_congr_right fun he => exists_congr fun l => and_congr_right fun hl =>
      and_congr_right fun _ => hvisible e he l hl
  rw [huse.planAt_eq hname hclass]
  constructor
  · intro hhidden
    rw [variableText_of_isSome (hiff.2 hhidden)]
  · intro hhidden
    have hnone : V.localType? name k = none := by simpa using mt hiff.1 hhidden
    rw [hnone, variableText_of_isField hfield]

/-- A class with a method and a constructor. -/
def builtLed : Class where
  name := "Led"
  keyword := .classWord
  methods := [{ name := "set", rawType := "void (int)", params := [⟨some "v", "int"⟩], cName := "Led_set" }]
  constructors := [{ name := "Led", rawType := "void (int)", params := [⟨some "p", "int"⟩], cName := "Led_init_i" }]

/-- One of its member functions, which sees a field. -/
def fieldLowering : Lowering where
  program := { classes := [builtLed] }
  owner := some builtLed
  scope := ({} : Scope).bind "x" .field "int"

/-- The field before its name is declared, the local after that. -/
theorem field_unless_declared_sample :
    let V := View.ofText fieldLowering.program.typeEnv [] "set(x); int x; set(x);"
    let W := View.ofText fieldLowering.program.typeEnv (V.localsAt 1) "x"
    let W' := View.ofText fieldLowering.program.typeEnv (V.localsAt 9) "x"
    fieldLowering.planAt W 0 ⟨.ident, "x", 0⟩ = .text "self->x" 1 ∧
      fieldLowering.planAt W' 0 ⟨.ident, "x", 0⟩ = .text "x" 1 := by
  intro V W W'
  have h0 : fieldLowering.Visits "set(x); int x; set(x);" [] V 0 := .start
  have h8 : fieldLowering.Visits "set(x); int x; set(x);" [] V 8 :=
    ((((h0.step (n := 4) (by decide +kernel)).step (n := 5) (by decide +kernel)).step (n := 6) (by decide +kernel)).step
      (n := 7) (by decide +kernel)).step (by decide +kernel)
  have hW : fieldLowering.Visits _ [(V, 1)] W 0 := h0.nested (t := ⟨.ident, "set", 0⟩) (by decide +kernel) (by decide +kernel)
  have hW' : fieldLowering.Visits _ [(V, 9)] W' 0 := h8.nested (t := ⟨.ident, "set", 15⟩) (by decide +kernel) (by decide +kernel)
  have hV : V.fragment.BlockScoped fieldLowering.program.typeEnv := ⟨by decide +kernel, by decide +kernel⟩
  have hargs : (Fragment.ofText "x").BlockScoped fieldLowering.program.typeEnv := ⟨by decide +kernel, by decide +kernel⟩
  constructor
  · refine (field_unless_declared fieldLowering _ _ W 0 _ "x" hW ⟨by decide +kernel, by decide, by decide, by decide +kernel⟩
      (by decide) (by decide) (by decide) ?_).2 ?_
    · simp only [mem_cons, not_mem_nil, or_false, forall_eq_or_imp, forall_eq]
      exact ⟨hargs, hV⟩
    · unfold View.Declares
      decide +kernel
  · refine (field_unless_declared fieldLowering _ _ W' 0 _ "x" hW' ⟨by decide +kernel, by decide, by decide, by decide +kernel⟩
      (by decide) (by decide) (by decide) ?_).1 ?_
    · simp only [mem_cons, not_mem_nil, or_false, forall_eq_or_imp, forall_eq]
      exact ⟨hargs, hV⟩
    · unfold View.Declares
      decide +kernel

/-- The name of an object in its own arguments is the field. -/
theorem object_name_is_field_in_arguments :
    (View.ofText fieldLowering.program.typeEnv [] "Led x(x);").Declares "x" 3 ∧
      fieldLowering.lower "Led x(x);" = "Led x;\nLed_init_i(&x, self->x);" := by
  constructor
  · unfold View.Declares
    decide +kernel
  · decide +kernel

end Lowering

end Declass
