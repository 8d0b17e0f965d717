import Mathlib.Data.Option.Basic
import Declass.Proofs.Lowering.Tidy
import Declass.Proofs.Token.Balance

/-!
# Plans

`Plan` is the decision what a token becomes, with positions counted from the token, and `Plan.lowered` fills in texts: `token_eq`
says that the two make up `token`. So a text is lowered alike to all depths beyond its length (`toDepth_eq_of_lt`).
-/

namespace Declass

open Declass.Bracket Token
open Option (any_eq_true any_some bind_eq_bind bind_eq_some_iff bind_some filter_eq_some_iff getD_none map_eq_some_iff map_some)
open Fragment (close? ident? lt_size_of_tok? ofText tok?)

namespace Fragment

/-- The fragment from the gap before position `k` on. -/
def suffix (F : Fragment) (k : Nat) : Fragment :=
  { gaps := F.gaps.drop k, tokens := F.tokens.drop k }

/-- The text of the token at position `k`. -/
def text? (F : Fragment) (k : Nat) : Option Text :=
  (F.tok? k).map text

/-- One of the marks that link names stands at position `k`. -/
def isMark (F : Fragment) (k : Nat) : Bool :=
  (F.tok? k).any (·.isPunctOf [".", "->", "::"])

/-- A name after such a mark, or a mark after a name, is at `k`. -/
def IsLink (F : Fragment) (k : Nat) : Prop :=
  F.isIdent k = true ∧ F.isMark (k - 1) = true ∨ F.isMark k = true ∧ F.isIdent (k - 1) = true

/-- What follows a class's name and a variable's: `;`, or arguments and `;`. -/
def EndsObject (F : Fragment) (close : Option Nat) : Prop :=
  F.isPunct 2 ";" = true ∧ close = none ∨
    (F.isPunct 2 "(" = true ∨ F.isPunct 2 "\x7b" = true) ∧
      ∃ j, F.close? 2 = some j ∧ F.isPunct (j + 1) ";" = true ∧ close = some j

variable {F : Fragment} {k i : Nat}

@[simp]
theorem tok?_suffix : (F.suffix k).tok? i = F.tok? (k + i) := by
  rw [suffix, tok?, tok?, List.getElem?_drop]

@[simp]
theorem text?_suffix : (F.suffix k).text? i = F.text? (k + i) := by
  rw [text?, text?, tok?_suffix]

@[simp]
theorem isPunct_suffix {p : Text} : (F.suffix k).isPunct i p = F.isPunct (k + i) p := by
  rw [isPunct, isPunct, tok?_suffix]

@[simp]
theorem isIdent_suffix : (F.suffix k).isIdent i = F.isIdent (k + i) := by
  rw [isIdent, isIdent, tok?_suffix]

@[simp]
theorem ident?_suffix : (F.suffix k).ident? i = F.ident? (k + i) := by
  rw [ident?, ident?, tok?_suffix]

theorem close?_suffix : F.close? (k + i) = ((F.suffix k).close? i).map (k + ·) := by
  have htok : (F.suffix k).tokens[i]? = F.tokens[k + i]? := tok?_suffix
  have hd : (F.suffix k).tokens.drop (i + 1) = F.tokens.drop (k + i + 1) := by
    rw [suffix, List.drop_drop, Nat.add_assoc]
  rw [close?, close?, matchingClose, matchingClose, htok, hd]
  cases F.tokens[k + i]?.bind opened? with
  | none => rfl
  | some b =>
    have hsh : ∀ n : Nat, n + (k + i + 1) = k + (n + (i + 1)) := by omega
    simp only [Option.map_map, Function.comp_def, hsh]

end Fragment

/-- What a run of tokens becomes, positions counted from its first. -/
inductive Plan where
  /-- The text `t` for `size` tokens. -/
  | text (t : Text) (size : Nat)
  /-- A call of the method `f` with the arguments between `i` and `j`. -/
  | method (f : Callable) (receiver : Text) (i j : Nat)
  /-- A call of a function `name`: its name at `i`, arguments up to `j`. -/
  | function (set : OverloadSet) (name : Text) (i j : Nat)
  /-- An object declared by its class and name, with arguments up to `close` if any. -/
  | object (c : Class) (name : Text) (close : Option Nat)

namespace Plan

/-- The number of tokens that the plan takes. -/
def size : Plan → Nat
  | .text _ size => size
  | .method _ _ _ j => j + 1
  | .function _ _ _ j => j + 1
  | .object _ _ none => 3
  | .object _ _ (some j) => j + 2

/-- The positions of the brackets around the arguments. -/
def group? : Plan → Option (Nat × Nat)
  | .text _ _ => none
  | .method _ _ i j => some (i, j)
  | .function _ _ i j => some (i + 1, j)
  | .object _ _ close => close.map fun j => (2, j)

variable (L : Lowering) (inner : List Var → Text → Text) (V : View) (k : Nat)

/-- The plan filled in for the tokens from position `k` on. -/
def lowered (P : Plan) : Lowered :=
  { text :=
      match P with
      | .text t _ => t
      | .method f receiver i j => (Lowering.methodCall inner V f receiver (k + i) (k + j)).text
      | .function set name i j =>
        let args := V.fragment.between (k + (i + 1)) (k + j)
        let visible := V.localsAt (k + i)
        let chosen := (L.argContext visible).choose? set.signatures (splitArgs args)
        (chosen.map Callable.cName).getD name ++ "(" ++ inner visible args ++ ")"
      | .object c name close =>
        let args := close.elim [] fun j => V.fragment.between (k + 2) (k + j)
        c.name ++ " " ++ name ++ ";\n" ++ V.indentation k ++
          Lowering.construct L inner c ('&' :: name) args (V.localsAt k) ++ ";"
    next := k + P.size }

end Plan

namespace Lowering

variable (L : Lowering) {P : Plan} {last first : Nat} {t' : Token} {F' : Fragment} {prev' : Option Token}
  {inner' : List Var → Text → Text} {x : Text} {outer : List Var}

/-- The plan for a call of a function that has another name in C. -/
def functionPlan? (F : Fragment) (i j : Nat) : Option Plan := do
  let name ← F.text? i
  let set ← L.program.function? name
  guard (set.isOverloaded || set.signatures.any (·.cName ≠ name))
  return .function set name i j

/-- The plan for a qualified name that starts at `first`. -/
def qualifiedPlan (F : Fragment) (first : Nat) : Plan :=
  let last := first + 2 * qualifiedPairs (F.tokens.drop (first + 1))
  let name := (F.text? last).getD []
  let ownerName := if first < last then F.text? (last - 2) else none
  let close := if F.isPunct (last + 1) "(" then F.close? (last + 1) else none
  let plain : Plan := .text name (last + 1)
  match close, ownerName.bind L.program.class? with
  | some j, some c =>
    match c.method? name with
    | some f => .method f "self" (last + 1) j
    | none => plain
  | some j, none => (L.functionPlan? F last j).getD plain
  | none, _ => plain

/-- The plan for an object that a statement declares. -/
def objectPlan? (F : Fragment) : Option Plan := do
  let c ← L.program.class? (← F.text? 0)
  let name ← F.ident? 1
  if F.isPunct 2 ";" then some (.object c name none)
  else if F.isPunct 2 "(" || F.isPunct 2 "\x7b" then
    match F.close? 2 with
    | some j => if F.isPunct (j + 1) ";" then some (.object c name (some j)) else none
    | none => none
  else none

variable (types : Text → Option Text)

/-- The plan for a method called through a variable. -/
def objectCallPlan? (F : Fragment) : Option Plan := do
  let name ← F.text? 0
  let op ← F.text? 1
  let method ← F.ident? 2
  guard (F.isPunct 3 "(")
  let close ← F.close? 3
  let (c, receiver) ← L.receiver? name op method (types name)
  let f ← c.method? method
  return .method f receiver 3 close

/-- The plan for a call by a plain name. -/
def callPlan? (F : Fragment) : Option Plan := do
  let name ← F.text? 0
  guard (!L.scope.isBoundLocally name && (types name).isNone)
  let close ← F.close? 1
  match L.owner.bind (·.method? name) with
  | some f => return .method f "self" 1 close
  | none => L.functionPlan? F 0 close

/-- The plan for an identifier at the `start` of a statement, or as a member. -/
def identifierPlan (start access : Bool) (F : Fragment) (name : Text) : Plan :=
  let plain : Text :=
    if name = "this" then "self"
    else if L.scope.isField name && (types name).isNone then "self->" ++ name
    else name
  (if start then L.objectPlan? F else none).getD <|
    if access then .text name 1
    else if F.isPunct 1 "::" then L.qualifiedPlan F 0
    else
      (if F.isPunct 1 "." || F.isPunct 1 "->" then L.objectCallPlan? types F else none).getD <|
        if name ≠ "this" && F.isPunct 1 "(" then (L.callPlan? types F).getD (.text name 1) else .text plain 1

/-- The plan for `t` after `prev`; `types` are those of block locals. -/
def plan (prev : Option Token) (F : Fragment) (t : Token) : Plan :=
  if t.isPunct "::" then
    let afterName := prev.any fun p => p.isIdent || p.isPunct ">"
    if F.isIdent 1 && !afterName then L.qualifiedPlan F 1 else .text t.text 1
  else if !t.isIdent then .text t.text 1
  else if t.text = "true" then .text "1" 1
  else if t.text = "false" then .text "0" 1
  else if t.text = "nullptr" then .text "NULL" 1
  else
    L.identifierPlan types (prev.all (·.isPunctOf [";", "\x7b", "\x7d", ":"])) (prev.any (·.isPunctOf [".", "->", "::"])) F
      t.text

/-! ## Tokens that are no brackets -/

theorem plain_of_isIdent {t : Token} (h : t.isIdent) : opened? t = none ∧ closed? t = none := by
  have hk : t.kind = .ident := by simpa [isIdent] using h
  constructor
  · simp [opened?, isPunct, hk]
  · simp [closed?, isPunct, hk]

theorem plain_of_isPunctOf {t : Token} {ps : List Text} (h : t.isPunctOf ps)
    (hps : ∀ b ∈ [round, .curly, .square], b.opening ∉ ps ∧ b.closing ∉ ps) : opened? t = none ∧ closed? t = none := by
  obtain ⟨p, hp, hpun⟩ := List.any_eq_true.1 h
  have hno (b : Bracket) : b.opening ≠ p ∧ b.closing ≠ p := by
    have hb := hps b (by cases b <;> simp)
    exact ⟨fun heq => hb.1 (heq ▸ hp), fun heq => hb.2 (heq ▸ hp)⟩
  rw [isPunct_iff] at hpun
  constructor
  · refine Option.eq_none_iff_forall_ne_some.2 fun b hb => (hno b).1 ?_
    exact (isPunct_iff.1 (opened?_eq_some_iff.1 hb)).2.symm.trans hpun.2
  · refine Option.eq_none_iff_forall_ne_some.2 fun b hb => (hno b).2 ?_
    exact (isPunct_iff.1 (closed?_eq_some_iff.1 hb)).2.symm.trans hpun.2

/-! ## A plan filled in -/

variable {L} {inner : List Var → Text → Text} {V : View} {k i j : Nat}

theorem functionCall?_eq : functionCall? L inner V (k + i) (k + j) =
      (L.functionPlan? (V.fragment.suffix k) i j).map (Plan.lowered L inner V k) := by
  rw [functionCall?, functionPlan?, Fragment.text?_suffix, Fragment.text?]
  cases V.fragment.tok? (k + i) with
  | none => rfl
  | some t =>
    simp only [map_some, bind_eq_bind, bind_some]
    cases L.program.function? t.text with
    | none => rfl
    | some set =>
      simp only [bind_some]
      generalize (set.isOverloaded || set.signatures.any (·.cName ≠ t.text)) = renamed
      cases renamed <;> rfl

theorem qualified_eq (i : Nat) : qualified L inner V (k + i) = (L.qualifiedPlan (V.fragment.suffix k) i).lowered L inner V k := by
  have hd : (V.fragment.suffix k).tokens.drop (i + 1) = V.fragment.tokens.drop (k + i + 1) := by
    rw [Fragment.suffix, List.drop_drop, Nat.add_assoc]
  rw [qualified, qualifiedPlan, hd]
  generalize qualifiedPairs (V.fragment.tokens.drop (k + i + 1)) = pairs
  have hl : k + i + 2 * pairs = k + (i + 2 * pairs) := Nat.add_assoc ..
  have hnx : ∀ n, k + n + 1 = k + (n + 1) := by omega
  have hlt : (k + i < k + (i + 2 * pairs)) = (i < i + 2 * pairs) := by simp
  have hn : ∀ o : Option Token, o.elim [] text = (o.map text).getD [] := by
    intro o
    cases o <;> rfl
  have hown : (if i < i + 2 * pairs then (V.fragment.tok? (k + (i + 2 * pairs) - 2)).map text else none) =
      if i < i + 2 * pairs then (V.fragment.tok? (k + (i + 2 * pairs - 2))).map text else none := by
    split
    · rw [Nat.add_sub_assoc (by omega)]
    · rfl
  simp only [hl, hlt, hnx, hn, Fragment.text?, Fragment.tok?_suffix, Fragment.isPunct_suffix, hown,
    Fragment.close?_suffix (k := k)]
  generalize ((if i < i + 2 * pairs then (V.fragment.tok? (k + (i + 2 * pairs - 2))).map text else none).bind
    L.program.class?) = owner
  generalize ((V.fragment.tok? (k + (i + 2 * pairs))).map text).getD [] = name
  cases V.fragment.isPunct (k + (i + 2 * pairs + 1)) "(" with
  | false => cases owner <;> rfl
  | true =>
    cases hcl : (V.fragment.suffix k).close? (i + 2 * pairs + 1) with
    | none => cases owner <;> rfl
    | some j =>
      cases owner with
      | none =>
        simp only [if_true, map_some, functionCall?_eq]
        cases L.functionPlan? (V.fragment.suffix k) (i + 2 * pairs) j <;> rfl
      | some c => cases hf : c.method? name <;> simp [hf, Plan.lowered, Plan.size, methodCall, Nat.add_assoc]

theorem instantiation?_eq :
    instantiation? L inner V k = (L.objectPlan? (V.fragment.suffix k)).map (Plan.lowered L inner V k) := by
  rw [instantiation?, objectPlan?]
  simp only [Fragment.text?, Fragment.tok?_suffix, Fragment.ident?_suffix, Fragment.isPunct_suffix,
    Fragment.close?_suffix, bind_eq_bind]
  cases V.fragment.tok? k with
  | none => rfl
  | some t =>
    simp only [map_some, bind_some]
    cases L.program.class? t.text with
    | none => rfl
    | some c =>
      cases V.fragment.ident? (k + 1) with
      | none => rfl
      | some name =>
        cases V.fragment.isPunct (k + 2) ";" with
        | true => rfl
        | false =>
          cases V.fragment.isPunct (k + 2) "(" || V.fragment.isPunct (k + 2) "\x7b" with
          | false => rfl
          | true =>
            cases (V.fragment.suffix k).close? 2 with
            | none => rfl
            | some j =>
              simp only [map_some]
              cases V.fragment.isPunct (k + (j + 1)) ";" <;> rfl

theorem objectCall?_eq : objectCall? L inner V k =
      (L.objectCallPlan? (V.localType? · k) (V.fragment.suffix k)).map (Plan.lowered L inner V k) := by
  rw [objectCall?, objectCallPlan?]
  simp only [Fragment.text?, Fragment.tok?_suffix, Fragment.ident?_suffix, Fragment.isPunct_suffix,
    Fragment.close?_suffix]
  cases V.fragment.tok? k with
  | none => rfl
  | some t =>
    cases V.fragment.tok? (k + 1) with
    | none => rfl
    | some op =>
      cases V.fragment.ident? (k + 2) with
      | none => rfl
      | some method =>
        cases V.fragment.isPunct (k + 3) "(" with
        | false => rfl
        | true =>
          cases (V.fragment.suffix k).close? 3 with
          | none => rfl
          | some j =>
            cases hr : L.receiver? t.text op.text method (V.localType? t.text k) with
            | none => simp [hr]
            | some r =>
              cases hf : r.1.method? method <;> simp [Plan.lowered, Plan.size, methodCall, Nat.add_assoc]

theorem call?_eq : call? L inner V k = (L.callPlan? (V.localType? · k) (V.fragment.suffix k)).map (Plan.lowered L inner V k) := by
  rw [call?, callPlan?]
  simp only [Fragment.text?, Fragment.tok?_suffix, Fragment.close?_suffix, bind_eq_bind]
  cases V.fragment.tok? k with
  | none => rfl
  | some t =>
    simp only [map_some, bind_some]
    cases !L.scope.isBoundLocally t.text && (V.localType? t.text k).isNone with
    | false => rfl
    | true =>
      cases (V.fragment.suffix k).close? 1 with
      | none => rfl
      | some j =>
        cases hf : L.owner.bind (·.method? t.text) with
        | some f => simp [Plan.lowered, Plan.size, methodCall, Nat.add_assoc]
        | none => simpa using functionCall?_eq (i := 0)

theorem identifier_eq {name : Text} : identifier L inner V k name =
      (L.identifierPlan (V.localType? · k) (V.atStatementStart k) (V.fragment.afterMemberAccess k) (V.fragment.suffix k)
        name).lowered L inner V k := by
  have hif : ∀ (b : Bool) o, (if b then o.map (Plan.lowered L inner V k) else none) =
      (if b then o else none).map (Plan.lowered L inner V k) := by
    intro b o
    cases b <;> rfl
  have hqual : qualified L inner V k = (L.qualifiedPlan (V.fragment.suffix k) 0).lowered L inner V k := qualified_eq 0
  rw [identifier, identifierPlan]
  simp only [instantiation?_eq, objectCall?_eq, call?_eq, hif, Fragment.isPunct_suffix]
  cases (if V.atStatementStart k then L.objectPlan? (V.fragment.suffix k) else none) with
  | some P => rfl
  | none =>
    cases V.fragment.afterMemberAccess k with
    | true => rfl
    | false =>
      cases V.fragment.isPunct (k + 1) "::" with
      | true => exact hqual
      | false =>
        cases (if V.fragment.isPunct (k + 1) "." || V.fragment.isPunct (k + 1) "->" then
            L.objectCallPlan? (V.localType? · k) (V.fragment.suffix k) else none) with
        | some P => rfl
        | none =>
          cases name ≠ "this" && V.fragment.isPunct (k + 1) "(" with
          | false => rfl
          | true => cases L.callPlan? (V.localType? · k) (V.fragment.suffix k) <;> rfl

/-- A token is lowered by its plan. -/
theorem token_eq (t : Token) : token L inner V k t =
      (L.plan (V.localType? · k) (V.fragment.prev? k) (V.fragment.suffix k) t).lowered L inner V k := by
  rw [token, plan]
  simp only [Fragment.isIdent_suffix]
  cases t.isPunct "::" with
  | true =>
    cases V.fragment.isIdent (k + 1) && !(V.fragment.prev? k).any fun p => p.isIdent || p.isPunct ">" with
    | false => rfl
    | true => exact qualified_eq 1
  | false =>
    cases t.isIdent with
    | false => rfl
    | true =>
      by_cases htrue : t.text = "true"
      · simp [htrue, Plan.lowered, Plan.size]
      by_cases hfalse : t.text = "false"
      · simp [hfalse, Plan.lowered, Plan.size]
      by_cases hnull : t.text = "nullptr"
      · simp [hnull, Plan.lowered, Plan.size]
      simp only [htrue, hfalse, hnull]
      exact identifier_eq

/-! ## What can be planned -/

variable {types : Text → Option Text} {prev : Option Token} {F : Fragment} {t : Token}

/-- A name can start with the token `t` after `prev`. -/
def StartsName (prev : Option Token) (t : Token) : Prop :=
  t.isIdent = true ∨ t.isPunct "::" = true ∧ (prev.any fun p => p.isIdent || p.isPunct ">") = false

/-- The texts through which a call that starts with `t` goes. -/
def IsReceiver (t : Token) (receiver : Text) : Prop :=
  receiver = "self" ∨ t.isIdent = true ∧ ∃ expr, (expr = t.text ∨ expr = "self->" ++ t.text) ∧
    (receiver = expr ∨ receiver = '&' :: expr)

/-- A call of the name `u` at `last` of `F`, arguments up to `j`. -/
structure Called (prev : Option Token) (F : Fragment) (t : Token) (u : Token) (last j : Nat) : Prop where
  starts : StartsName prev t
  links : ∀ i, 0 < i → i ≤ last → F.IsLink i
  name : F.tok? last = some u
  ident : u.isIdent = true
  opened : F.isPunct (last + 1) "(" = true
  closed : F.close? (last + 1) = some j

theorem Called.afterMemberAccess {F : Fragment} {u : Token} (h : Called prev (F.suffix k) t u last j) (hpos : 0 < last) :
    F.afterMemberAccess (k + last) := by
  obtain ⟨n, rfl⟩ := Nat.exists_eq_succ_of_ne_zero (ne_of_gt hpos)
  rcases h.links _ hpos (le_refl _) with ⟨-, hm⟩ | ⟨hm, -⟩
  · rw [Fragment.isMark, Fragment.tok?_suffix] at hm
    exact hm
  · rw [Fragment.isMark, h.name, any_some, isPunctOf, List.any_eq_true] at hm
    obtain ⟨p, -, hp⟩ := hm
    exact absurd h.ident (by simp [isIdent, (isPunct_iff.1 hp).1])

/-- What can be planned for `t` at the head of `F`, after `prev`. -/
inductive Planned (L : Lowering) (prev : Option Token) (F : Fragment) (t : Token) : Plan → Prop
  | kept (hname : t.isIdent = true → F.isPunct 1 "::" = true → prev.any (·.isPunctOf [".", "->", "::"]) = true)
    (hcolons : t.isPunct "::" = true → F.isIdent 1 = true → (prev.any fun p => p.isIdent || p.isPunct ">") = true) :
    Planned L prev F t (.text t.text 1)
  | digit {w : Text} (hw : w = "1" ∨ w = "0") (hident : t.isIdent = true) (ht : t.text = "true" ∨ t.text = "false") :
    Planned L prev F t (.text w 1)
  | word {w : Text} (hw : w = "NULL" ∨ w = "self" ∨ w = "self->" ++ t.text) (hident : t.isIdent = true)
    (hnext : F.isPunct 1 "::" = true → t.text = "nullptr") : Planned L prev F t (.text w 1)
  | name {u : Token} {last : Nat} (hstarts : StartsName prev t) (hlinks : ∀ i, 0 < i → i ≤ last → F.IsLink i)
    (hu : F.tok? last = some u) (hident : u.isIdent = true)
    (hnext : F.isPunct (last + 1) "::" = true → F.isIdent (last + 2) = false) : Planned L prev F t (.text u.text (last + 1))
  | method {f : Callable} {receiver : Text} {u : Token} {last j : Nat} (hcalled : Called prev F t u last j) {c : Class}
    (hc : L.owner = some c ∨ c ∈ L.program.classes ∧ 0 < last) (hf : c.method? u.text = some f)
    (hreceiver : IsReceiver t receiver) : Planned L prev F t (.method f receiver (last + 1) j)
  | function {set : OverloadSet} {u : Token} {last j : Nat} (hcalled : Called prev F t u last j)
    (hset : L.program.function? u.text = some set)
    (hrenamed : (set.isOverloaded || set.signatures.any (·.cName ≠ u.text)) = true) :
    Planned L prev F t (.function set u.text last j)
  | object {c : Class} {u : Token} {close : Option Nat}
    (hprev : prev.all (·.isPunctOf [";", "\x7b", "\x7d", ":"]) = true) (hident : t.isIdent = true)
    (hc : L.program.class? t.text = some c) (hu : F.tok? 1 = some u) (huIdent : u.isIdent = true)
    (hend : F.EndsObject close) : Planned L prev F t (.object c u.text close)

theorem planned_function {u : Token} (hc : Called prev F t u last j) (h : L.functionPlan? F last j = some P) :
    Planned L prev F t P := by
  simp only [functionPlan?, Fragment.text?, hc.name, map_some, bind_eq_bind, bind_some, bind_eq_some_iff] at h
  obtain ⟨set, hset, _, hgd, hP⟩ := h
  cases hP
  refine .function hc hset ?_
  by_contra hn
  rw [guard, if_neg hn] at hgd
  cases hgd

/-- The tokens of a qualified name after its first one. -/
theorem getElem?_of_lt_qualifiedPairs {ts : List Token} (h : i < qualifiedPairs ts) :
    (∃ colons, ts[2 * i]? = some colons ∧ colons.isPunct "::") ∧ ∃ name, ts[2 * i + 1]? = some name ∧ name.isIdent := by
  induction ts using qualifiedPairs.induct generalizing i with
  | case1 colons name ts hp ih =>
    rw [qualifiedPairs, if_pos hp] at h
    rw [Bool.and_eq_true] at hp
    cases i with
    | zero => exact ⟨⟨colons, rfl, hp.1⟩, name, rfl, hp.2⟩
    | succ i => exact ih (by omega)
  | case2 colons name ts hp =>
    rw [qualifiedPairs, if_neg hp] at h
    omega
  | case3 ts hsh =>
    rw [qualifiedPairs.eq_def] at h
    split at h
    · exact absurd rfl (hsh _ _ _)
    · nomatch h

theorem isMark_of_isPunct {p : Text} (hp : p ∈ [".".toList, "->".toList, "::".toList]) (h : F.isPunct k p) : F.isMark k := by
  obtain ⟨u, hu, hpun⟩ := any_eq_true _ _ |>.1 h
  rw [Fragment.isMark, hu, any_some, isPunctOf, List.any_eq_true]
  exact ⟨p, hp, hpun⟩

theorem qualifiedPairs_drop (ts : List Token) : qualifiedPairs (ts.drop (2 * qualifiedPairs ts)) = 0 := by
  induction ts using qualifiedPairs.induct with
  | case1 colons name ts hp ih =>
    rw [qualifiedPairs, if_pos hp]
    exact ih
  | case2 colons name ts hp =>
    rw [qualifiedPairs, if_neg hp, List.drop_zero, qualifiedPairs, if_neg hp]
  | case3 ts hsh =>
    have hz : qualifiedPairs ts = 0 := by
      rw [qualifiedPairs.eq_def]
      split
      · exact absurd rfl (hsh _ _ _)
      · rfl
    rw [hz, List.drop_zero, hz]

/-- No `::` and name follow a qualified name. -/
theorem not_isIdent_after_qualified (hl : first + 2 * qualifiedPairs (F.tokens.drop (first + 1)) = last)
    (hcol : F.isPunct (last + 1) "::") : F.isIdent (last + 2) = false := by
  by_contra hid
  rw [Bool.not_eq_false] at hid
  obtain ⟨c, hc, hc'⟩ := any_eq_true _ _ |>.1 hcol
  obtain ⟨u, hu, hu'⟩ := any_eq_true _ _ |>.1 hid
  obtain ⟨hlt, hc⟩ := getElem?_eq_some_iff.1 hc
  obtain ⟨hlt', hu⟩ := getElem?_eq_some_iff.1 hu
  have hno := qualifiedPairs_drop (F.tokens.drop (first + 1))
  rw [List.drop_drop, show first + 1 + 2 * qualifiedPairs (F.tokens.drop (first + 1)) = last + 1 by omega,
    List.drop_eq_getElem_cons hlt, List.drop_eq_getElem_cons hlt', hc, hu, qualifiedPairs, hc', hu'] at hno
  nomatch hno

/-- A qualified name ends with a name, and `::` links its names. -/
theorem exists_last (hfst : F.isIdent first) (hl : first + 2 * qualifiedPairs (F.tokens.drop (first + 1)) = last) :
    ∃ u, F.tok? last = some u ∧ u.isIdent ∧ ∀ i, first < i → i ≤ last → F.IsLink i := by
  have hpr m (hm : m < qualifiedPairs (F.tokens.drop (first + 1))) :
      F.isMark (first + 2 * m + 1) ∧ F.isIdent (first + 2 * m + 2) := by
    obtain ⟨⟨colons, hcol, hp⟩, u, hu, hid⟩ := getElem?_of_lt_qualifiedPairs hm
    rw [List.getElem?_drop, show first + 1 + 2 * m = first + 2 * m + 1 by omega] at hcol
    rw [List.getElem?_drop, show first + 1 + (2 * m + 1) = first + 2 * m + 2 by omega] at hu
    refine ⟨isMark_of_isPunct (p := "::") (by simp) ?_, ?_⟩
    · rw [Fragment.isPunct, tok?, hcol]
      exact hp
    · rw [Fragment.isIdent, tok?, hu]
      exact hid
  have hn m (hm : m ≤ qualifiedPairs (F.tokens.drop (first + 1))) : F.isIdent (first + 2 * m) := by
    cases m with
    | zero => exact hfst
    | succ m => exact (hpr m hm).2
  obtain ⟨u, hu, hid⟩ := any_eq_true _ _ |>.1 (hn _ (le_refl _))
  refine ⟨u, hl ▸ hu, hid, ?_⟩
  intro i hi hle
  obtain ⟨m, rfl | rfl⟩ : ∃ m, i = first + 2 * m + 1 ∨ i = first + 2 * m + 2 := ⟨(i - first - 1) / 2, by omega⟩
  · exact .inr ⟨(hpr m (by omega)).1, hn m (by omega)⟩
  · exact .inl ⟨(hpr m (by omega)).2, (hpr m (by omega)).1⟩

theorem planned_qualified (hst : StartsName prev t) (hfst : F.isIdent first)
    (hbef : ∀ i, 0 < i → i ≤ first → F.IsLink i) : Planned L prev F t (L.qualifiedPlan F first) := by
  unfold qualifiedPlan
  dsimp only
  generalize hl : first + 2 * qualifiedPairs (F.tokens.drop (first + 1)) = last
  obtain ⟨u, hu, hid, haft⟩ := exists_last hfst hl
  have hlk : ∀ i, 0 < i → i ≤ last → F.IsLink i := fun i hpos hle =>
    (lt_or_ge first i).elim (fun hlt => haft i hlt hle) (hbef i hpos)
  have hnm : Planned L prev F t (.text u.text (last + 1)) := .name hst hlk hu hid (not_isIdent_after_qualified hl)
  have hcalled {j : Nat} (h : (if F.isPunct (last + 1) "(" then F.close? (last + 1) else none) = some j) :
      Called prev F t u last j := by
    obtain ⟨ho, hcl⟩ := Option.ite_none_right_eq_some.1 h
    exact ⟨hst, hlk, hu, hid, ho, hcl⟩
  have htx : F.text? last = some u.text := by rw [Fragment.text?, hu]; rfl
  rw [htx]
  split
  · rename_i j c hcl hcls
    split
    · rename_i f hf
      obtain ⟨ownerName, hown, hc⟩ := bind_eq_some_iff.1 hcls
      have hlt : first < last := by
        by_contra hn
        rw [if_neg hn] at hown
        nomatch hown
      exact .method (hcalled hcl) (.inr ⟨List.mem_of_find?_eq_some hc, by omega⟩) hf (.inl rfl)
    · exact hnm
  · rename_i j hcl hcls
    cases hca : L.functionPlan? F last j with
    | none => exact hnm
    | some P => exact planned_function (hcalled hcl) hca
  · exact hnm

theorem planned_object (hpv : prev.all (·.isPunctOf [";", "\x7b", "\x7d", ":"])) (ht : F.tok? 0 = some t)
    (hid : t.isIdent) (h : L.objectPlan? F = some P) : Planned L prev F t P := by
  simp only [objectPlan?, Fragment.text?, ht, map_some, bind_eq_bind, bind_some, bind_eq_some_iff, ident?,
    map_eq_some_iff, filter_eq_some_iff] at h
  obtain ⟨c, hc, name, ⟨u, ⟨hu, huIdent⟩, rfl⟩, h⟩ := h
  split at h
  next hse =>
    cases h
    exact .object hpv hid hc hu huIdent (.inl ⟨hse, rfl⟩)
  next =>
    split at h
    next ho =>
      split at h
      next j hcl =>
        split at h
        next hse =>
          cases h
          rw [Bool.or_eq_true] at ho
          exact .object hpv hid hc hu huIdent (.inr ⟨ho, j, hcl, hse, rfl⟩)
        next => cases h
      next => cases h
    next => cases h

/-- The class of a receiver is one of the program. -/
theorem receiver?_eq_some {op method : Text} {localType : Option Text} {c : Class} {receiver : Text}
    (hid : t.isIdent) (h : L.receiver? t.text op method localType = some (c, receiver)) :
    (L.owner = some c ∨ c ∈ L.program.classes) ∧ IsReceiver t receiver := by
  unfold receiver? at h
  split at h
  · obtain ⟨c', hc', heq⟩ := map_eq_some_iff.1 h
    cases heq
    exact ⟨.inl hc', .inl rfl⟩
  · have hexpr : (L.variableOf t.text localType).2 = t.text ∨ (L.variableOf t.text localType).2 = "self->" ++ t.text := by
      unfold variableOf
      split
      · exact .inl rfl
      · dsimp only
        split
        · exact .inr rfl
        · exact .inl rfl
      · exact .inl rfl
    generalize L.variableOf t.text localType = found at h hexpr
    obtain ⟨type, expr⟩ := found
    obtain ⟨c', hc', heq⟩ := map_eq_some_iff.1 h
    cases heq
    constructor
    · right
      rcases Option.or_eq_some_iff.1 hc' with hdecl | ⟨-, hdeclaring⟩
      · obtain ⟨className, -, hcls⟩ := bind_eq_some_iff.1 (filter_eq_some_iff.1 hdecl).1
        exact List.mem_of_find?_eq_some hcls
      · exact List.mem_of_find?_eq_some hdeclaring
    · refine .inr ⟨hid, expr, hexpr, ?_⟩
      split
      · exact .inl rfl
      · exact .inr rfl

section

variable (ht : F.tok? 0 = some t)

include ht

theorem planned_objectCall (hid : t.isIdent)
    (hacc : (F.isPunct 1 "." || F.isPunct 1 "->")) (h : L.objectCallPlan? types F = some P) : Planned L prev F t P := by
  simp only [objectCallPlan?, Fragment.text?, ht, map_some, bind_eq_bind, bind_some, bind_eq_some_iff, ident?,
    map_eq_some_iff, filter_eq_some_iff] at h
  obtain ⟨_, ⟨op, hop, rfl⟩, method, ⟨u, ⟨hu, huIdent⟩, rfl⟩, _, hgd, j, hcl, ⟨c, receiver⟩, hrv, f, hf, hP⟩ := h
  cases hP
  have ho : F.isPunct 3 "(" := by
    by_contra hn
    rw [guard, if_neg hn] at hgd
    cases hgd
  have hm : F.isMark 1 := by
    rcases Bool.or_eq_true _ _ ▸ hacc with hp | hp
    · exact isMark_of_isPunct (by simp) hp
    · exact isMark_of_isPunct (by simp) hp
  have hlk : ∀ i, 0 < i → i ≤ 2 → F.IsLink i := by
    intro i hpos hle
    obtain rfl | rfl : i = 1 ∨ i = 2 := by omega
    · exact .inr ⟨hm, by rw [Fragment.isIdent, ht]; exact hid⟩
    · exact .inl ⟨by rw [Fragment.isIdent, hu]; exact huIdent, hm⟩
  obtain ⟨hc, hrv⟩ := receiver?_eq_some hid hrv
  have hca : Called prev F t u 2 j := ⟨.inl hid, hlk, hu, huIdent, ho, hcl⟩
  exact .method hca (hc.imp_right fun h => ⟨h, by omega⟩) hf hrv

theorem planned_call (hid : t.isIdent) (ho : F.isPunct 1 "(") {P : Plan}
    (h : L.callPlan? types F = some P) : Planned L prev F t P := by
  simp only [callPlan?, Fragment.text?, ht, map_some, bind_eq_bind, bind_some, bind_eq_some_iff] at h
  obtain ⟨_, -, j, hcl, h⟩ := h
  have hca : Called prev F t t 0 j := ⟨.inl hid, fun i hpos hle => by omega, ht, hid, ho, hcl⟩
  split at h
  · rename_i f hf
    cases h
    obtain ⟨c, hc, hf⟩ := bind_eq_some_iff.1 hf
    exact .method hca (.inl hc) hf (.inl rfl)
  · exact planned_function hca h

theorem planned_identifier (hid : t.isIdent) :
    Planned L prev F t (L.identifierPlan types (prev.all (·.isPunctOf [";", "\x7b", "\x7d", ":"]))
      (prev.any (·.isPunctOf [".", "->", "::"])) F t.text) := by
  have hst : StartsName prev t := .inl hid
  have hcol (h : t.isPunct "::") : t.isIdent = false := by simp [isIdent, (isPunct_iff.1 h).1]
  have hfst : F.isIdent 0 := by
    rw [Fragment.isIdent, ht]
    exact hid
  unfold identifierPlan
  dsimp only
  cases hobj : (if prev.all (·.isPunctOf [";", "\x7b", "\x7d", ":"]) then L.objectPlan? F else none) with
  | some P =>
    obtain ⟨hpv, hP⟩ := Option.ite_none_right_eq_some.1 hobj
    exact planned_object hpv ht hid hP
  | none =>
    split
    · rename_i hacc
      exact .kept (fun _ _ => hacc) fun h => absurd hid (Bool.eq_false_iff.1 (hcol h))
    split
    · exact planned_qualified hst hfst fun i hpos hle => by omega
    rename_i hqual
    have hk : Planned L prev F t (.text t.text 1) :=
      .kept (fun _ h => absurd h hqual) fun h => absurd hid (Bool.eq_false_iff.1 (hcol h))
    cases hc : (if F.isPunct 1 "." || F.isPunct 1 "->" then L.objectCallPlan? types F else none) with
    | some P =>
      obtain ⟨hacc, hP⟩ := Option.ite_none_right_eq_some.1 hc
      exact planned_objectCall ht hid hacc hP
    | none =>
      split
      · rename_i ho
        cases hpl : L.callPlan? types F with
        | some P => exact planned_call ht hid (Bool.and_eq_true _ _ ▸ ho).2 hpl
        | none => exact hk
      · split
        · exact .word (.inr (.inl rfl)) hid fun h => absurd h hqual
        split
        · exact .word (.inr (.inr rfl)) hid fun h => absurd h hqual
        · exact hk

theorem planned_plan : Planned L prev F t (L.plan types prev F t) := by
  unfold plan
  split
  · rename_i hcol
    dsimp only
    split
    · rename_i hn
      rw [Bool.and_eq_true, Bool.not_eq_true'] at hn
      refine planned_qualified (.inr ⟨hcol, hn.2⟩) hn.1 fun i hpos hle => ?_
      obtain rfl : i = 1 := by omega
      exact .inl ⟨hn.1, isMark_of_isPunct (p := "::") (by simp) (by rw [Fragment.isPunct, ht]; exact hcol)⟩
    · rename_i hn
      rw [Bool.and_eq_true, Bool.not_eq_true', not_and, Bool.not_eq_false] at hn
      exact .kept (fun h => absurd h (by simp [isIdent, (isPunct_iff.1 hcol).1])) fun _ => hn
  split
  · rename_i hcol hid
    exact .kept (fun h => by simp [h] at hid) fun h => absurd h hcol
  rename_i hid
  rw [Bool.not_eq_true', Bool.not_eq_false] at hid
  split
  · rename_i htx
    exact .digit (.inl rfl) hid (.inl htx)
  split
  · rename_i htx
    exact .digit (.inr rfl) hid (.inr htx)
  split
  · rename_i htx
    exact .word (.inl rfl) hid fun _ => htx
  · exact planned_identifier ht hid

/-- A plan takes one token at least, with fitting brackets. -/
theorem Planned.fits (h : Planned L prev F t P) :
    0 < P.size ∧ P.size ≤ F.size ∧ ∀ i j, P.group? = some (i, j) → F.close? i = some j ∧ j < P.size := by
  have hpos := lt_size_of_tok? ht
  cases h with
  | kept | digit | word => exact ⟨Nat.one_pos, hpos, nofun⟩
  | name _ _ hu => exact ⟨Nat.succ_pos _, lt_size_of_tok? hu, nofun⟩
  | method hc =>
    refine ⟨Nat.succ_pos _, Fragment.lt_size_of_close? hc.closed, ?_⟩
    intro i j hg
    cases hg
    exact ⟨hc.closed, Nat.lt_succ_self _⟩
  | function hc =>
    refine ⟨Nat.succ_pos _, Fragment.lt_size_of_close? hc.closed, ?_⟩
    intro i j hg
    cases hg
    exact ⟨hc.closed, Nat.lt_succ_self _⟩
  | object _ _ _ _ _ hend =>
    rcases hend with ⟨hse, rfl⟩ | ⟨-, j, hcl, hse, rfl⟩
    · exact ⟨Nat.succ_pos _, Fragment.lt_size_of_isPunct hse, nofun⟩
    · refine ⟨Nat.succ_pos _, Fragment.lt_size_of_isPunct hse, ?_⟩
      intro i j' hg
      cases hg
      exact ⟨hcl, by rw [Plan.size]; omega⟩

end

/-- The plan for a token takes tokens of the fragment, with fitting brackets. -/
theorem plan_fits (L : Lowering) {t : Token} (ht : V.fragment.tok? k = some t)
    (hP : L.plan (V.localType? · k) (V.fragment.prev? k) (V.fragment.suffix k) t = P) :
    0 < P.size ∧ k + P.size ≤ V.fragment.size ∧
      ∀ i j, P.group? = some (i, j) → i < j ∧ j < P.size ∧ V.fragment.close? (k + i) = some (k + j) := by
  have hh : (V.fragment.suffix k).tok? 0 = some t := by
    rw [Fragment.tok?_suffix]
    exact ht
  have hpl : Planned L (V.fragment.prev? k) (V.fragment.suffix k) t P := hP ▸ planned_plan hh
  obtain ⟨hpos, hle, hg⟩ := hpl.fits hh
  have hsz : (V.fragment.suffix k).size = V.fragment.size - k := List.length_drop
  refine ⟨hpos, by omega, ?_⟩
  intro i j hij
  obtain ⟨hcl, hj⟩ := hg i j hij
  exact ⟨Fragment.lt_of_close? hcl, hj, by rw [Fragment.close?_suffix, hcl]; rfl⟩

/-! ## What a plan depends on -/

/-- What does not look at offsets sees the same in the same token elsewhere. -/
theorem eq_of_bare {β : Type} (f : Token → β) (hf : ∀ t : Token, f t.bare = f t) {t : Token} (h : t.bare = t'.bare) :
    f t = f t' := by
  rw [← hf, h, hf]

theorem bind_tok?_congr (h : F.tokens.map bare = F'.tokens.map bare) {β : Type} (f : Token → Option β)
    (hf : ∀ t : Token, f t.bare = f t) : (F.tok? i).bind f = (F'.tok? i).bind f := by
  have hbi : ∀ o : Option Token, o.bind f = (o.map bare).bind f := by
    intro o
    cases o with
    | none => rfl
    | some t => exact (hf t).symm
  rw [hbi, hbi (F'.tok? i), tok?, tok?, ← List.getElem?_map, ← List.getElem?_map, h]

theorem any_of_bare {o o' : Option Token} (h : o.map bare = o'.map bare) (f : Token → Bool)
    (hf : ∀ t : Token, f t.bare = f t) : o.any f = o'.any f := by
  have hany : ∀ o : Option Token, o.any f = (o.map bare).any f := by
    intro o
    cases o with
    | none => rfl
    | some t => exact (hf t).symm
  rw [hany, hany o', h]

theorem any_tok?_congr (h : F.tokens.map bare = F'.tokens.map bare) (f : Token → Bool)
    (hf : ∀ t : Token, f t.bare = f t) (i : Nat) : (F.tok? i).any f = (F'.tok? i).any f := by
  refine any_of_bare ?_ f hf
  rw [tok?, tok?, ← List.getElem?_map, ← List.getElem?_map, h]

theorem closeWithin_bare (b : Bracket) (n : Nat) (ts : List Token) : closeWithin b n (ts.map bare) = closeWithin b n ts := by
  induction ts generalizing n with
  | nil => rfl
  | cons t ts ih =>
    rw [List.map_cons, closeWithin_cons, closeWithin_cons]
    simp only [ih]
    rfl

theorem qualifiedPairs_bare (ts : List Token) : qualifiedPairs (ts.map bare) = qualifiedPairs ts := by
  induction ts using qualifiedPairs.induct with
  | case1 colons name ts hp ih =>
    rw [List.map_cons, List.map_cons, qualifiedPairs, qualifiedPairs, if_pos hp, ih]
    exact if_pos hp
  | case2 colons name ts hp =>
    rw [List.map_cons, List.map_cons, qualifiedPairs, qualifiedPairs, if_neg hp]
    exact if_neg hp
  | case3 ts hsh =>
    rcases ts with - | ⟨colons, - | ⟨name, ts⟩⟩
    · rfl
    · rfl
    · exact absurd rfl (hsh colons name ts)

section

variable (h : F.tokens.map bare = F'.tokens.map bare)

include h

theorem close?_congr (i : Nat) : F.close? i = F'.close? i := by
  have hop : F.tokens[i]?.bind opened? = F'.tokens[i]?.bind opened? :=
    bind_tok?_congr h opened? (fun _ => rfl)
  have hd : ∀ b, closeWithin b 0 (F.tokens.drop (i + 1)) = closeWithin b 0 (F'.tokens.drop (i + 1)) := by
    intro b
    rw [← closeWithin_bare, ← closeWithin_bare b 0 (F'.tokens.drop (i + 1)), List.map_drop, List.map_drop, h]
  rw [close?, close?, matchingClose, matchingClose, hop]
  simp only [hd]

/-- A plan does not look at offsets, and hardly at the token before. -/
theorem plan_congr (ht : t.bare = t'.bare)
    (hn : (prev.any fun p => p.isIdent || p.isPunct ">") = prev'.any fun p => p.isIdent || p.isPunct ">")
    (hst : prev.all (·.isPunctOf [";", "\x7b", "\x7d", ":"]) = prev'.all (·.isPunctOf [";", "\x7b", "\x7d", ":"]))
    (hacc : prev.any (·.isPunctOf [".", "->", "::"]) = prev'.any (·.isPunctOf [".", "->", "::"])) :
    L.plan types prev F t = L.plan types prev' F' t' := by
  have htx : ∀ i, F.text? i = F'.text? i := by
    intro i
    simp only [Fragment.text?, Option.map_eq_bind]
    exact bind_tok?_congr h _ (fun _ => rfl)
  have hid? : ∀ i, F.ident? i = F'.ident? i := by
    intro i
    have hbi : ∀ o : Option Token, (o.filter isIdent).map text = o.bind fun t => if t.isIdent then some t.text else none := by
      intro o
      cases o with
      | none => rfl
      | some t => cases ht : t.isIdent <;> simp [ht]
    rw [ident?, ident?, hbi, hbi]
    exact bind_tok?_congr h _ (fun _ => rfl)
  have hp : ∀ i p, F.isPunct i p = F'.isPunct i p := fun i p => any_tok?_congr h (·.isPunct p) (fun _ => rfl) i
  have hid : ∀ i, F.isIdent i = F'.isIdent i := any_tok?_congr h isIdent fun _ => rfl
  have hcl := close?_congr h
  have hpr : ∀ i, qualifiedPairs (F.tokens.drop i) = qualifiedPairs (F'.tokens.drop i) := by
    intro i
    rw [← qualifiedPairs_bare, ← qualifiedPairs_bare (F'.tokens.drop i), List.map_drop, List.map_drop, h]
  have hcol : t.isPunct "::" = t'.isPunct "::" := eq_of_bare (·.isPunct "::") (fun _ => rfl) ht
  have hidentt : t.isIdent = t'.isIdent := eq_of_bare isIdent (fun _ => rfl) ht
  have htextt : t.text = t'.text := eq_of_bare text (fun _ => rfl) ht
  simp only [plan, identifierPlan, callPlan?, objectCallPlan?, objectPlan?, qualifiedPlan, functionPlan?, htx, hp,
    hid, hid?, hcl, hpr, hcol, hidentt, htextt, hn, hst, hacc]

theorem plan_congr_of_bare (ht : t.bare = t'.bare)
    (hpv : prev.map bare = prev'.map bare) : L.plan types prev F t = L.plan types prev' F' t' := by
  refine plan_congr h ht (any_of_bare hpv _ fun _ => rfl) ?_ (any_of_bare hpv _ fun _ => rfl)
  have hall : ∀ o : Option Token, o.all (·.isPunctOf [";", "\x7b", "\x7d", ":"]) =
      (o.map bare).all (·.isPunctOf [";", "\x7b", "\x7d", ":"]) := by
    intro o
    cases o <;> rfl
  rw [hall, hall prev', hpv]

end

/-- A plan is filled in alike with the same arguments, locals and indentation. -/
theorem lowered_text_eq {V' : View} {k' : Nat} (hg : ∀ i j, P.group? = some (i, j) → i < P.size ∧
      V.fragment.between (k + i) (k + j) = V'.fragment.between (k' + i) (k' + j))
    (hpos : 0 < P.size) (hloc : ∀ i, i < P.size → V.localsAt (k + i) = V'.localsAt (k' + i))
    (hindent : V.indentation k = V'.indentation k') : (P.lowered L inner V k).text = (P.lowered L inner V' k').text := by
  have hfst : V.localsAt k = V'.localsAt k' := hloc 0 hpos
  cases P with
  | text => rfl
  | method f receiver i j =>
    obtain ⟨hi, ha⟩ := hg i j rfl
    simp only [Plan.lowered, methodCall, hloc i hi, ha]
  | function set name i j =>
    obtain ⟨hi, ha⟩ := hg (i + 1) j rfl
    simp only [Plan.lowered, hloc i (by omega), ha]
  | object c name close =>
    cases close with
    | none => simp only [Plan.lowered, Option.elim, hfst, hindent]
    | some j =>
      obtain ⟨-, ha⟩ := hg 2 j rfl
      simp only [Plan.lowered, Option.elim, hfst, hindent, ha]

/-! ## Depths beyond the length of the text -/

/-- A plan is filled in alike by what lowers its arguments alike. -/
theorem lowered_congr (hx : V.fragment = ofText x) (hin : ∀ visible y, y.length < x.length → inner visible y = inner' visible y)
    (hg : ∀ i j, P.group? = some (i, j) → V.fragment.close? (k + i) = some (k + j)) :
    P.lowered L inner V k = P.lowered L inner' V k := by
  have ha {i j : Nat} (h : P.group? = some (i, j)) : (V.fragment.between (k + i) (k + j)).length < x.length := by
    have hcl := hg i j h
    rw [hx] at hcl ⊢
    obtain ⟨g⟩ := Fragment.bracketed_of_close? hcl
    exact g.length_between_lt
  cases P with
  | text => rfl
  | method f receiver i j => simp only [Plan.lowered, methodCall, hin _ _ (ha rfl)]
  | function set name i j => simp only [Plan.lowered, hin _ _ (ha rfl)]
  | object c name close =>
    cases close with
    | none => rfl
    | some j =>
      have hlt := lt_of_le_of_lt Text.length_trim_le (ha rfl)
      simp only [Plan.lowered, construct, Option.elim, hin _ _ hlt]
      rfl

theorem pieces_of_none {gap : Text} (h : V.fragment.tok? k = none) : pieces L inner V k gap = [.text gap] := by
  rw [pieces.eq_def]
  split
  · rfl
  · rename_i t ht
    cases h.symm.trans ht

theorem pieces_of_isAssignment {gap : Text} (ht : V.fragment.tok? k = some t) (h : V.isAssignment k) : pieces L inner V k gap =
      .text gap :: .assign :: pieces L inner V (k + 1) ((V.fragment.gap (k + 1)).dropWhile isSpaceOrTab) := by
  rw [pieces.eq_def]
  split
  · rename_i hno
    cases hno.symm.trans ht
  · rw [if_pos h]

theorem pieces_of_tok? {gap : Text} (ht : V.fragment.tok? k = some t) (h : ¬V.isAssignment k) {n : Nat}
    (hn : max (token L inner V k t).next (k + 1) = n) : pieces L inner V k gap =
      .text gap :: .text (token L inner V k t).text :: pieces L inner V n (V.fragment.gap n) := by
  rw [pieces.eq_def]
  split
  · rename_i hno
    cases hno.symm.trans ht
  · rename_i t' ht'
    cases ht.symm.trans ht'
    subst hn
    rw [if_neg h]

theorem pieces_congr {gap : Text} (hx : V.fragment = ofText x)
    (hin : ∀ visible y, y.length < x.length → inner visible y = inner' visible y) :
    pieces L inner V k gap = pieces L inner' V k gap := by
  induction k, gap using pieces.induct L inner V with
  | case1 k gap hno => rw [pieces_of_none hno, pieces_of_none hno]
  | case2 k gap t ht hasg ih => rw [pieces_of_isAssignment ht hasg, pieces_of_isAssignment ht hasg, ih]
  | case3 k gap t ht hasg lowered =>
    rename_i next ih
    have htoken : token L inner V k t = token L inner' V k t := by
      rw [token_eq, token_eq]
      exact lowered_congr hx hin fun i j hg => ((plan_fits L ht rfl).2.2 i j hg).2.2
    have hnx : max (token L inner V k t).next (k + 1) = next := rfl
    rw [pieces_of_tok? ht hasg hnx, pieces_of_tok? ht hasg (htoken ▸ hnx), ih, htoken]

/-- Text that ends with neither a space nor a tab stays as it is. -/
theorem foldl_emit_append {y : Text} (hy : Text.dropEndWhile isSpaceOrTab y = y) (z : Text) (ps : List Piece) :
    ps.foldl emit (y ++ z) = y ++ ps.foldl emit z := by
  induction ps generalizing z with
  | nil => rfl
  | cons p ps ih =>
    rw [List.foldl_cons, List.foldl_cons, ← ih]
    cases p with
    | text t => simp [emit]
    | assign =>
      have hz : Text.dropEndWhile isSpaceOrTab z = if z.all isSpaceOrTab then [] else Text.dropEndWhile isSpaceOrTab z := by
        conv_lhs => rw [← List.nil_append z, Text.dropEndWhile_append]
        rfl
      rw [emit, emit, Text.dropEndWhile_append, hy, hz]
      split <;> simp

/-- A piece of text is written, up to spaces and tabs at its end. -/
theorem infix_foldl_emit (out t : Text) (ps : List Piece) : Text.dropEndWhile isSpaceOrTab t <:+: ps.foldl emit (out ++ t) := by
  obtain ⟨blanks, -, hsplit⟩ := Text.exists_dropEndWhile isSpaceOrTab (out ++ t)
  have hfix : Text.dropEndWhile isSpaceOrTab (Text.dropEndWhile isSpaceOrTab (out ++ t)) =
      Text.dropEndWhile isSpaceOrTab (out ++ t) := by
    simp [Text.dropEndWhile, List.dropWhile_idempotent]
  rw [hsplit, foldl_emit_append hfix, Text.dropEndWhile_append]
  split
  next hall =>
    have hnil : t.reverse.dropWhile isSpaceOrTab = [] := by simpa using hall
    rw [Text.dropEndWhile, hnil]
    exact List.nil_infix
  next => exact ⟨out, _, rfl⟩

/-- A text is lowered alike by what lowers shorter texts alike. -/
theorem level_congr (hin : ∀ visible y, y.length < x.length → inner visible y = inner' visible y) :
    level L inner outer x = level L inner' outer x := by
  rw [level, level, pieces_congr rfl hin]

/-- A text is lowered alike to all depths beyond its length. -/
theorem toDepth_eq_of_lt {d d' : Nat} (hd : x.length < d) (hd' : x.length < d') : toDepth L d outer x = toDepth L d' outer x := by
  induction d generalizing d' outer x with
  | zero => omega
  | succ d ih =>
    obtain ⟨d', rfl⟩ : ∃ n, d' = n + 1 := ⟨d' - 1, by omega⟩
    refine level_congr fun visible y hy => ?_
    exact ih (by omega) (by omega)

/-- The arguments of the calls in a text are lowered as the text itself is. -/
theorem lowerWithin_eq (L : Lowering) (outer : List Var) (x : Text) : L.lowerWithin outer x = level L L.lowerWithin outer x := by
  refine level_congr fun visible y hy => ?_
  exact toDepth_eq_of_lt hy (Nat.lt_succ_self _)

end Lowering

end Declass
