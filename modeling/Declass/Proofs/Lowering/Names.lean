import Declass.Proofs.Lowering.Plan
import Mathlib.Data.Option.Basic

/-!
# Names that are written, and groups that are trimmed

The names that a lowered text holds are names of its source or names of the program (`Lowering.HasNames`), and the arguments
of a method call and of a constructor call are in a group whose text is trimmed.
-/

namespace Declass

open List Token

namespace Token

open Scan

theorem isName_of_isIdent {x : Text} {t : Token} (ht : t ∈ tokenize x) (hid : t.isIdent) : isName t.text := by
  obtain ⟨lineStart, rest, hcut, -⟩ := (lexed_tokenizeFrom true 0 x).cut_of_mem ht
  have hk : t.kind = .ident := by simpa [isIdent] using hid
  rw [hk] at hcut
  generalize t.text = text at hcut
  cases hcut with
  | @ident c r h hn =>
    obtain ⟨hall, -⟩ := takeWhile_stop hn
    rw [isName, all_cons, hall, continuesIdent_of_startsIdent h]
    simpa using h

end Token

namespace Lowering

open Scan Fragment

/-- The names that a lowering writes are names in C. -/
structure HasNames (p : Program) : Prop where
  classes : ∀ c ∈ p.classes, isName c.name = true
  methods : ∀ c ∈ p.classes, ∀ f ∈ c.methods, isName f.cName = true
  constructors : ∀ c ∈ p.classes, ∀ f ∈ c.constructors, isName f.cName = true
  functions : ∀ s ∈ p.functions, ∀ f ∈ s.signatures, isName f.cName = true

variable {p : Program} {owner : Option Class} {x : Text} {k : Nat} {b : Bracket} {f : Callable} {name : Token} {c : Class}

theorem mem_of_choose? {C : ArgContext} {signatures : List Callable} {args : List Text} {f : Callable}
    (h : C.choose? signatures args = some f) : f ∈ signatures := by
  simp only [ArgContext.choose?, Option.or_eq_some_iff] at h
  rcases h with h | ⟨-, h | ⟨-, h | ⟨-, h⟩⟩⟩
  · exact mem_of_mem_filter (mem_of_find?_eq_some h)
  · exact mem_of_mem_filter (mem_of_find?_eq_some h)
  · exact mem_of_mem_filter (mem_of_mem_head? h)
  · exact mem_of_find?_eq_some h

theorem isName_initName (hns : HasNames p) (hc : c ∈ p.classes) : isName c.initName :=
  isName_append (hns.classes c hc) rfl

section

variable (hk : (ofText x).tok? k = some name)

include hk

/-- What tells of a group after the name at `k` with trimmed text. -/
theorem trimsGroup_take : p.trimsGroup owner ((ofText x).tokens.take (k + 1)) b = (name.isIdent && ((b == .round &&
          ((((ofText x).prev? k).any (·.isPunctOf [".", "->", "::"]) && p.classes.any fun c => (c.method? name.text).isSome) ||
            owner.any fun c => (c.method? name.text).isSome)) ||
        (b != .square && ((ofText x).prev? k).any fun t => t.isIdent && (p.class? t.text).isSome))) := by
  have hfil : ((ofText x).tokens.take (k + 1)).filter (!·.isTrivia) = (ofText x).tokens.take (k + 1) := by
    rw [filter_eq_self]
    intro u hu
    have hmem := mem_of_mem_take hu
    rw [tokens_ofText] at hmem
    exact (mem_filter.1 hmem).2
  have hreverse : ((ofText x).tokens.take (k + 1)).reverse = name :: ((ofText x).tokens.take k).reverse := by
    rw [take_add_one, ← tok?, hk, reverse_append]
    rfl
  have hpv : ((ofText x).tokens.take k).reverse.head? = (ofText x).prev? k := by
    have hlt := lt_size_of_tok? hk
    rw [head?_reverse]
    cases k with
    | zero => rfl
    | succ k =>
      rw [prev?, tok?, getLast?_take]
      have hso : k < (ofText x).tokens.length := Nat.lt_of_succ_lt hlt
      simp [getElem?_eq_getElem hso]
  unfold Program.trimsGroup
  rw [hfil, hreverse]
  dsimp only
  rw [hpv]

theorem trims_of_access (hid : name.isIdent) (hpv : ((ofText x).prev? k).any (·.isPunctOf [".", "->", "::"])) (hc : c ∈ p.classes)
    (hf : c.method? name.text = some f) : p.trimsGroup owner ((ofText x).tokens.take (k + 1)) .round := by
  have hany : (p.classes.any fun c => (c.method? name.text).isSome) :=
    any_eq_true.2 ⟨c, hc, by rw [hf]; rfl⟩
  rw [trimsGroup_take hk, hid, hpv, hany]
  rfl

theorem trims_of_owner (hid : name.isIdent) (hc : owner = some c)
    (hf : c.method? name.text = some f) : p.trimsGroup owner ((ofText x).tokens.take (k + 1)) .round := by
  have hany : (owner.any fun c => (c.method? name.text).isSome) := by
    rw [hc, Option.any_some, hf]
    rfl
  rw [trimsGroup_take hk, hid, hany, Bool.or_true]
  rfl

end

theorem trims_of_class {type : Token} (hk : (ofText x).tok? (k + 1) = some name) (hid : name.isIdent)
    (hty : (ofText x).tok? k = some type) (htypeIdent : type.isIdent) (hc : p.class? type.text = some c)
    (hb : b ≠ .square) : p.trimsGroup owner ((ofText x).tokens.take (k + 2)) b := by
  rw [trimsGroup_take hk, hid, prev?, hty, Option.any_some, Option.any_some, htypeIdent, hc]
  simp [hb]

end Lowering

end Declass
