import Declass.Proofs.Lowering.Join

/-!
# The block locals of a fragment

The locals that a fragment declares are told by its tokens (`Fragment.blockLocals_congr`).
-/

namespace Declass

open FoundLocal List Token

namespace FoundLocal

/-! ## Declarations -/

theorem joined_bare (ts : List Token) : joined (ts.map bare) = joined ts := by
  induction ts using joined.induct with
  | case1 => rfl
  | case2 t => rfl
  | case3 t u ts ih =>
    rw [map_cons, map_cons, joined, ← map_cons, ih]
    rfl

theorem takeWhile_bare (p : Token → Bool) (hp : ∀ t : Token, p t.bare = p t) (ts : List Token) :
    (ts.map bare).takeWhile p = (ts.takeWhile p).map bare := by
  rw [takeWhile_map]
  congr 2
  funext t
  exact hp t

theorem at?_bare (env : TypeEnv) (ts : List Token) : at? env (ts.map bare) = at? env ts := by
  have hwords : (ts.map bare).takeWhile (·.isWordOf declWords) = (ts.takeWhile (·.isWordOf declWords)).map bare :=
    takeWhile_bare _ (fun _ => rfl) ts
  have hps n : ((ts.map bare).drop n).takeWhile isPart = ((ts.drop n).takeWhile isPart).map bare := by
    rw [← map_drop, takeWhile_bare _ fun _ => rfl]
  unfold at?
  simp only [hwords, length_map, hps, getLast?_map, getElem?_map, ← map_dropLast, head?_map, joined_bare]
  generalize ((ts.drop (ts.takeWhile (·.isWordOf declWords)).length).takeWhile isPart) = parts
  cases parts.getLast? with
  | none => rfl
  | some name =>
    cases ts[(ts.takeWhile (·.isWordOf declWords)).length + parts.length]? with
    | none => rfl
    | some next => cases parts.dropLast.head? <;> rfl

end FoundLocal

namespace Fragment

/-! ## Fragments with the same tokens -/

section

variable {F F' : Fragment} (h : F.tokens.map bare = F'.tokens.map bare)
include h

theorem size_congr : F.size = F'.size := by
  have hlen := congrArg length h
  rw [length_map, length_map] at hlen
  exact hlen

theorem isPunct_congr (k : Nat) (p : Text) : F.isPunct k p = F'.isPunct k p :=
  Lowering.any_tok?_congr h (·.isPunct p) (fun _ => rfl) k

theorem findPunct?_congr (ps : List Text) (k : Nat) : F.findPunct? ps k = F'.findPunct? ps k := by
  have hf (ts : List Token) : (ts.map bare).findIdx? (·.isPunctOf ps) = ts.findIdx? (·.isPunctOf ps) := by
    rw [findIdx?_map]
    rfl
  rw [findPunct?, findPunct?, ← hf, ← hf (F'.tokens.drop k), map_drop, map_drop, h]

theorem localStop_congr (ends : List Nat) (k : Nat) : F.localStop ends k = F'.localStop ends k := by
  simp only [localStop, statementEnd?, Lowering.close?_congr h, isPunct_congr h, findPunct?_congr h, size_congr h]

theorem blockEnds_congr (ends : List Nat) (k : Nat) {t t' : Token} (ht : t.bare = t'.bare) :
    F.blockEnds ends k t = F'.blockEnds ends k t' := by
  have he : F.blockEnds ends k t = F'.blockEnds ends k t := by
    simp only [blockEnds, Lowering.close?_congr h, size_congr h]
  rw [he]
  exact Lowering.eq_of_bare (F'.blockEnds ends k) (fun _ => rfl) ht

end

variable {F : Fragment} {env : TypeEnv} {start : Bool} {ends : List Nat} {k : Nat} {t : Token} {ts : List Token}
  {F' : Fragment}

theorem blockLocalsFrom_of_some {d : FoundLocal} (h : (if start then at? env (t :: ts) else none) = some d) :
    F.blockLocalsFrom env start ends k (t :: ts) =
      { name := d.name, type := d.type, first := k + d.size - 1, stop := F.localStop ends k } ::
        F.blockLocalsFrom env false ends (k + d.size) (ts.drop (d.size - 1)) := by
  rw [blockLocalsFrom.eq_def]
  simp only [h]

theorem blockLocalsFrom_of_none (h : (if start then at? env (t :: ts) else none) = none) :
    F.blockLocalsFrom env start ends k (t :: ts) = F.blockLocalsFrom env (canFollow t) (F.blockEnds ends k t) (k + 1) ts := by
  rw [blockLocalsFrom.eq_def]
  simp only [h]

theorem blockLocalsFrom_congr (h : F.tokens.map bare = F'.tokens.map bare) {ts' : List Token}
    (hts : ts.map bare = ts'.map bare) : F.blockLocalsFrom env start ends k ts = F'.blockLocalsFrom env start ends k ts' := by
  induction start, ends, k, ts using blockLocalsFrom.induct F env generalizing ts' with
  | case1 start ends k =>
    obtain rfl : ts' = [] := by simpa using hts.symm
    rw [blockLocalsFrom, blockLocalsFrom]
  | case2 start ends k t ts d hd ih =>
    cases ts' with
    | nil => nomatch hts
    | cons t' ts' =>
      have hd' : (if start then at? env (t' :: ts') else none) = some d := by
        rw [← at?_bare, ← hts, at?_bare]
        exact hd
      rw [map_cons, map_cons, cons.injEq] at hts
      have hdr : (ts.drop (d.size - 1)).map bare = (ts'.drop (d.size - 1)).map bare := by
        rw [map_drop, map_drop, hts.2]
      rw [blockLocalsFrom_of_some hd, blockLocalsFrom_of_some hd', ih hdr, localStop_congr h]
  | case3 start ends k t ts hno ih =>
    cases ts' with
    | nil => nomatch hts
    | cons t' ts' =>
      have hno' : (if start then at? env (t' :: ts') else none) = none := by
        rw [← at?_bare, ← hts, at?_bare]
        exact hno
      rw [map_cons, map_cons, cons.injEq] at hts
      have hfol : canFollow t = canFollow t' :=
        Lowering.eq_of_bare canFollow (fun _ => rfl) hts.1
      rw [blockLocalsFrom_of_none hno, blockLocalsFrom_of_none hno', ih hts.2, hfol, blockEnds_congr h ends k hts.1]

/-- The same tokens declare the same locals, whatever stands between them. -/
theorem blockLocals_congr (h : F.tokens.map bare = F'.tokens.map bare) : F.blockLocals env = F'.blockLocals env :=
  blockLocalsFrom_congr h h

end Fragment

end Declass
