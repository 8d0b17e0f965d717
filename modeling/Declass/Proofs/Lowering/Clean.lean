import Declass.Proofs.Lowering.Arguments
import Declass.Proofs.Lowering.Plan

/-!
# Tokens in which comments do no harm

`Clean` says where the comments of arguments that are taken as texts do no harm. It passes to each run of tokens (`Clean.run`) and
to the same tokens in another place (`Clean.of_bare`).
-/

namespace Declass

open List Token
open Declass.Bracket (opened?)

namespace Program

/-- A group of kind `b` after `us` can be the arguments of a renamed function. -/
def renamesGroup (p : Program) (us : List Token) (b : Bracket) : Bool :=
  b == .round && (us.filter (!·.isTrivia)).getLast?.any fun name =>
    name.isIdent && (p.function? name.text).any fun set => set.isOverloaded || set.signatures.any (·.cName ≠ name.text)

end Program

namespace Token

/-- Among the tokens there is no directive, and no comment without code. -/
def isArguments (ts : List Token) : Bool :=
  ts.all (·.kind != .directive) && (ts.all (·.kind != .comment) || ts.any (!·.isTrivia))

theorem isArguments_iff {ts : List Token} : isArguments ts ↔
      (∀ t ∈ ts, t.kind ≠ .directive) ∧ ((∀ t ∈ ts, t.kind ≠ .comment) ∨ ∃ t ∈ ts, t.isTrivia = false) := by
  simp [isArguments]

theorem isArguments_bare (ts : List Token) : isArguments (ts.map bare) = isArguments ts := by
  simp only [isArguments, all_map, any_map]
  rfl

end Token

/-- The arguments in a bracket of kind `b` after `us` can be taken. -/
def Program.CanTake (p : Program) (owner : Option Class) (us : List Token) (b : Bracket) (ms : List Token) : Prop :=
  ((p.trimsGroup owner us b || p.renamesGroup us b) = true → isArguments ms = true) ∧
    (p.trimsGroup owner us b = true → isNeat ms = true)

instance (p : Program) (owner : Option Class) (us : List Token) (b : Bracket) (ms : List Token) :
    Decidable (p.CanTake owner us b ms) :=
  inferInstanceAs (Decidable (_ ∧ _))

/-- Comments do no harm in the members of the class `owner`, or elsewhere. -/
structure Clean (p : Program) (owner : Option Class) (ts : List Token) : Prop where
  sound : ∀ t ∈ ts, t.isSound = true
  apart : ts.IsChain fun t u => standsApart t u = true
  arguments : ∀ i < ts.length, ∀ b ∈ ts[i]?.bind opened?, ∀ n ∈ closeWithin b 0 (ts.drop (i + 1)),
    p.CanTake owner (ts.take i) b ((ts.drop (i + 1)).take n)

namespace Clean

variable {p : Program} {owner : Option Class} {ts ts' us ms vs : List Token} {b : Bracket}

/-- What is said of a group between two brackets. -/
theorem canTake (h : Clean p owner ts) {o c : Token} (hspl : ts = us ++ o :: (ms ++ c :: vs))
    (ho : opened? o = some b) (hc : Bracket.closed? c = some b) (hlv : b.level 0 ms = some 0) : p.CanTake owner us b ms := by
  have htk : ts.take us.length = us := by rw [hspl, take_left]
  have hd : ts.drop (us.length + 1) = ms ++ c :: vs := by
    rw [hspl, ← drop_drop, drop_left]
    rfl
  have hop : ts[us.length]?.bind opened? = some b := by
    rw [hspl, getElem?_append_right (le_refl _), Nat.sub_self]
    exact ho
  have hcl : closeWithin b 0 (ts.drop (us.length + 1)) = some ms.length := by
    rw [hd]
    exact closeWithin_of_level hlv hc
  have hlt : us.length < ts.length := by simp [hspl]
  have hg := h.arguments us.length hlt b hop ms.length hcl
  rw [htk, hd, take_left] at hg
  exact hg

theorem of_groups (hsnd : ∀ t ∈ ts, t.isSound) (hap : ts.IsChain fun t u => standsApart t u)
    (hgs : ∀ us o ms c vs b, ts = us ++ o :: (ms ++ c :: vs) → opened? o = some b → Bracket.closed? c = some b →
      b.level 0 ms = some 0 → p.CanTake owner us b ms) : Clean p owner ts where
  sound := hsnd
  apart := hap
  arguments := by
    intro i hi b hb n hn
    obtain ⟨o, hget, ho⟩ := Option.bind_eq_some_iff.1 hb
    obtain ⟨hlv, c, hc, hcl⟩ := level_of_closeWithin hn
    refine hgs (ts.take i) o _ c ((ts.drop (i + 1)).drop (n + 1)) b ?_ ho hcl hlv
    obtain ⟨hi', rfl⟩ := List.getElem?_eq_some_iff.1 hget
    obtain ⟨hn', rfl⟩ := List.getElem?_eq_some_iff.1 hc
    rw [getElem_cons_drop, take_append_drop, getElem_cons_drop, take_append_drop]

theorem renamesGroup_append (before : List Token) (h : p.renamesGroup us b) : p.renamesGroup (before ++ us) b := by
  rw [Program.renamesGroup, Bool.and_eq_true] at h ⊢
  obtain ⟨name, hn, hset⟩ := Option.any_eq_true _ _ |>.1 h.2
  refine ⟨h.1, ?_⟩
  rw [filter_append, getLast?_append, hn]
  exact hset

theorem run (h : Clean p owner (us ++ ms ++ vs)) : Clean p owner ms := by
  refine of_groups (fun t ht => h.sound t (by simp [ht])) h.apart.left_of_append.right_of_append ?_
  intro us' o ms' c vs' b hspl ho hc hlv
  have hspl' : us ++ ms ++ vs = (us ++ us') ++ o :: (ms' ++ c :: (vs' ++ vs)) := by
    rw [hspl]
    simp
  obtain ⟨ha, hne⟩ := h.canTake hspl' ho hc hlv
  refine ⟨fun htk => ha ?_, fun htrm => hne (Tidy.trimsGroup_append us htrm)⟩
  rw [Bool.or_eq_true] at htk ⊢
  exact htk.imp (Tidy.trimsGroup_append us) (renamesGroup_append us)

theorem renamesGroup_bare : p.renamesGroup (us.map bare) b = p.renamesGroup us b := by
  rw [Program.renamesGroup, Program.renamesGroup, Tidy.filter_bare _ fun _ => rfl, getLast?_map]
  cases (us.filter (!·.isTrivia)).getLast? with
  | none => rfl
  | some name => rfl

theorem canTake_bare : p.CanTake owner (us.map bare) b (ms.map bare) ↔ p.CanTake owner us b ms := by
  rw [Program.CanTake, Program.CanTake, Tidy.trimsGroup_bare, renamesGroup_bare, isArguments_bare, Tidy.isNeat_bare]

/-- The same tokens in another place are clean. -/
theorem of_bare (h : Clean p owner ts) (heq : ts.map bare = ts'.map bare) : Clean p owner ts' where
  sound t' ht' := by
    have hmem : t'.bare ∈ ts.map bare := heq ▸ mem_map_of_mem ht'
    obtain ⟨t, ht, hba⟩ := mem_map.1 hmem
    rw [← isSound_bare, ← hba]
    exact h.sound t ht
  apart := by
    have hts : (ts.map bare).IsChain fun t u => standsApart t u := (isChain_map bare).2 h.apart
    rw [heq] at hts
    exact (isChain_map bare).1 hts
  arguments := by
    intro i hi b hb n hn
    have hlen : ts.length = ts'.length := by simpa using congrArg length heq
    have hb' : b ∈ ts[i]?.bind opened? := by
      have hba : (ts.map bare)[i]? = (ts'.map bare)[i]? := by rw [heq]
      rw [getElem?_map, getElem?_map] at hba
      have hbi := congrArg (Option.bind · opened?) hba
      rw [Option.bind_map, Option.bind_map] at hbi
      exact hbi.trans hb
    have hn' : n ∈ closeWithin b 0 (ts.drop (i + 1)) := by
      rw [← Lowering.closeWithin_bare, map_drop, heq, ← map_drop, Lowering.closeWithin_bare]
      exact hn
    have hg := h.arguments i (by omega) b hb' n hn'
    rw [← canTake_bare, map_take, map_take, map_drop, heq, ← map_take, ← map_drop, ← map_take, canTake_bare] at hg
    exact hg

/-- Clean tokens are steady. -/
theorem steady (h : Clean p owner ts) : Steady p owner ts where
  whole t ht := by
    obtain ⟨htm, hstr, -⟩ := isSound_iff.1 (h.sound t ht)
    exact isWhole_iff.2 ⟨htm, hstr⟩
  apart := h.apart.imp fun _ _ => keepsApart_of_standsApart
  neat _ _ _ _ _ _ hspl ho hc hlv htrm := (h.canTake hspl ho hc hlv).2 htrm

/-- Clean tokens that are lexed again from their own text are clean. -/
theorem tokenize_spelling (h : Clean p owner ts) (hl : Lexed true ts) : Clean p owner (tokenize (spelling ts)) :=
  h.of_bare (Tidy.bare_tokenize hl).symm

end Clean

end Declass
