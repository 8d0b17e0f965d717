import Declass.Proofs.Lowering.Arguments
import Declass.Proofs.Lowering.Locals

/-!
# Lowering significant tokens

What lowering does to the significant tokens of a text, as a function of these tokens alone: `Lowering.tokensToDepth` never
sees a comment, a directive or a blank. It follows the same plans as the lowering of texts.
-/

namespace Declass

open Fragment Lowering Token

namespace Fragment

/-- The tokens strictly between the positions `i` and `j`. -/
def inside (F : Fragment) (i j : Nat) : List Token :=
  ((F.tokens.drop (i + 1)).take (j - i - 1)).map bare

end Fragment

/-- The view of tokens with nothing between them. -/
def View.ofTokens (env : TypeEnv) (outer : List Var) (ts : List Token) : View :=
  let fragment : Fragment := { gaps := [], tokens := ts }
  { fragment, locals := fragment.blockLocals env, outer }

namespace Lowering

/-- The tokens of a call in C. -/
def callTokens (cName : Text) (receiver : Option Text) (args : List Token) : List Token :=
  let first := receiver.elim [] fun r => significant (tokenize r)
  let comma := if receiver.isSome && !args.isEmpty then [ofMark ","] else []
  ofName cName :: ofMark "(" :: (first ++ comma ++ args ++ [ofMark ")"])

variable (L : Lowering) (inner : List Var → List Token → List Token) (V : View) (k : Nat)

/-- The name of the signature chosen for the arguments `args`. -/
def chosenName (signatures : List Callable) (visible : List Var) (name : Text) (args : List Token) : Text :=
  ((ArgContext.select? signatures ((splitTokens args).map (L.argContext visible).tokensTag?)).map Callable.cName).getD name

end Lowering

/-- The tokens of a plan filled in for the tokens from `k` on. -/
def Plan.tokens (L : Lowering) (inner : List Var → List Token → List Token) (V : View) (k : Nat) : Plan → List Token
  | .text w _ => significant (tokenize w)
  | .method f receiver i j =>
    callTokens f.cName (if f.isStatic then none else some receiver)
      (inner (V.localsAt (k + i)) (V.fragment.inside (k + i) (k + j)))
  | .function set name i j =>
    let args := V.fragment.inside (k + (i + 1)) (k + j)
    let visible := V.localsAt (k + i)
    callTokens (L.chosenName set.signatures visible name args) none (inner visible args)
  | .object c name close =>
    let args := close.elim [] fun j => V.fragment.inside (k + 2) (k + j)
    let visible := V.localsAt k
    let call :=
      if args.isEmpty then callTokens c.initName (some ('&' :: name)) []
      else
        callTokens (L.chosenName c.constructors visible c.initName args) (some ('&' :: name)) (inner visible args)
    [ofName c.name, ofName name, ofMark ";"] ++ call ++ [ofMark ";"]

namespace Lowering

variable (L : Lowering) (inner : List Var → List Token → List Token) (V : View) (k : Nat)

/-- The plan for the token `t` at position `k` of a view. -/
def planAt (t : Token) : Plan :=
  L.plan (V.localType? · k) (V.fragment.prev? k) (V.fragment.suffix k) t

variable {L V k} in
theorem planned_planAt {t : Token} (ht : V.fragment.tok? k = some t) :
    Planned L (V.fragment.prev? k) (V.fragment.suffix k) t (L.planAt V k t) :=
  planned_plan (by rw [tok?_suffix]; exact ht)

variable {L V k} in
theorem planAt_of_kind {t : Token} (ht : t.kind = .punct) (hcol : t.text ≠ "::".toList) : L.planAt V k t = .text t.text 1 := by
  have hno : t.isPunct "::" = false := by rw [Token.isPunct, beq_eq_false_iff_ne.2 hcol, Bool.and_false]
  rw [planAt, plan, if_neg (by rw [hno]; exact Bool.false_ne_true), if_pos (by simp [Token.isIdent, ht])]

/-- The tokens that the tokens from position `k` on become. -/
def tokensFrom (k : Nat) : List Token :=
  match _h : V.fragment.tok? k with
  | none => []
  | some t => (L.planAt V k t).tokens L inner V k ++ tokensFrom (max (k + (L.planAt V k t).size) (k + 1))
termination_by V.fragment.size - k
decreasing_by
  have := lt_size_of_tok? _h
  omega

/-- Significant tokens lowered to `depth` levels of nested arguments. -/
def tokensToDepth : Nat → List Var → List Token → List Token
  | 0, _, ts => ts
  | depth + 1, outer, ts => tokensFrom L (tokensToDepth depth) (View.ofTokens L.program.typeEnv outer ts) 0

variable {L inner V k}

theorem tokensFrom_of_none (h : V.fragment.tok? k = none) : tokensFrom L inner V k = [] := by
  rw [tokensFrom]
  split
  · rfl
  · rename_i ht
    rw [h] at ht
    nomatch ht

theorem tokensFrom_of_some {t : Token} (h : V.fragment.tok? k = some t) : tokensFrom L inner V k =
      (L.planAt V k t).tokens L inner V k ++ tokensFrom L inner V (max (k + (L.planAt V k t).size) (k + 1)) := by
  rw [tokensFrom]
  split
  · rename_i hno
    rw [h] at hno
    nomatch hno
  · rename_i t' ht
    cases h.symm.trans ht
    rfl

end Lowering

/-! ## Views with the same tokens -/

/-- The views have the same tokens, places apart, and locals. -/
structure View.Alike (V V' : View) : Prop where
  tokens : V.fragment.tokens.map bare = V'.fragment.tokens.map bare
  locals : V.locals = V'.locals
  outer : V.outer = V'.outer

theorem View.alike_ofText (env : TypeEnv) (outer : List Var) (x : Text) :
    View.Alike (View.ofText env outer x) (View.ofTokens env outer (significant (tokenize x))) := by
  have hts : (Fragment.ofText x).tokens.map bare = (significant (tokenize x)).map bare := by
    rw [tokens_map_bare, significant, List.map_map]
    rfl
  exact ⟨hts, blockLocals_congr hts, rfl⟩

namespace View.Alike

variable {V V' : View} {L : Lowering} {inner : List Var → List Token → List Token} {k : Nat}

section

variable (h : Alike V V')

include h

theorem tok? (k : Nat) : (V.fragment.tok? k).map bare = (V'.fragment.tok? k).map bare := by
  rw [Fragment.tok?, Fragment.tok?, ← List.getElem?_map, ← List.getElem?_map, h.tokens]

theorem prev? (k : Nat) : (V.fragment.prev? k).map bare = (V'.fragment.prev? k).map bare := by
  cases k with
  | zero => rfl
  | succ k => exact h.tok? k

theorem localsAt (k : Nat) : V.localsAt k = V'.localsAt k := by
  rw [View.localsAt, View.localsAt, h.locals, h.outer]

theorem planAt {t t' : Token} (ht : t.bare = t'.bare) : L.planAt V k t = L.planAt V' k t' := by
  have htys : (V.localType? · k) = (V'.localType? · k) := by
    funext name
    rw [View.localType?, View.localType?, h.locals, h.outer]
  have hsuf : (V.fragment.suffix k).tokens.map bare = (V'.fragment.suffix k).tokens.map bare := by
    rw [suffix, suffix, List.map_drop, List.map_drop, h.tokens]
  rw [Lowering.planAt, htys]
  exact plan_congr_of_bare hsuf ht (h.prev? k)

theorem inside (i j : Nat) : V.fragment.inside i j = V'.fragment.inside i j := by
  rw [Fragment.inside, Fragment.inside, List.map_take, List.map_drop, List.map_take, List.map_drop, h.tokens]

theorem planTokens (P : Plan) : P.tokens L inner V k = P.tokens L inner V' k := by
  cases P with
  | text => rfl
  | method | function | object => simp only [Plan.tokens, h.localsAt, h.inside]

/-- What tokens become does not depend on where they stand in a text. -/
theorem tokensFrom : tokensFrom L inner V k = tokensFrom L inner V' k := by
  induction k using tokensFrom.induct L V with
  | case1 k hno =>
    have hno' : V'.fragment.tok? k = none := by
      have heq := h.tok? k
      rw [hno] at heq
      exact Option.map_eq_none_iff.1 heq.symm
    rw [tokensFrom_of_none hno, tokensFrom_of_none hno']
  | case2 k t ht ih =>
    obtain ⟨t', ht', hb⟩ : ∃ t', V'.fragment.tok? k = some t' ∧ t'.bare = t.bare := by
      have heq := h.tok? k
      rw [ht] at heq
      exact Option.map_eq_some_iff.1 heq.symm
    rw [tokensFrom_of_some ht, tokensFrom_of_some ht', ih, h.planTokens, h.planAt hb.symm]

end

end View.Alike

end Declass
