import Declass.Proofs.Token.Nesting
import Mathlib.Order.Bounds.Basic

/-!
# Partners of brackets

A bracket is closed where the height of its kind first comes back to what it was before it, so groups of one kind lie in each other
or apart (`matchingClose_laminar`).
-/

namespace Declass

open Declass.Bracket List

namespace Token

variable {b : Bracket} {ts : List Token} {t : Token} {k n d : Nat}

/-- How many more of a kind are opened than closed up to `n`. -/
def height (b : Bracket) (ts : List Token) (n : Nat) : Int :=
  (ts.take n).countP (opened? · = some b) - (ts.take n).countP (closed? · = some b)

/-- From `k` up to `c`, a kind is closed as often as opened. -/
def Balances (b : Bracket) (ts : List Token) (k c : Nat) : Prop :=
  k < c ∧ c < ts.length ∧ height b ts (c + 1) = height b ts k

theorem height_add (b : Bracket) (ts : List Token) (k n : Nat) :
    height b ts (k + n) = height b ts k + height b (ts.drop k) n := by
  simp only [height, take_add, countP_append]
  omega

theorem height_cons : height b (t :: ts) (n + 1) = height b [t] 1 + height b ts n := by
  rw [Nat.add_comm, height_add]
  rfl

/-- A token opens a group, closes one, or leaves the height. -/
theorem height_singleton (b : Bracket) (t : Token) :
    height b [t] 1 = if opened? t = some b then 1 else if closed? t = some b then -1 else 0 := by
  rw [height]
  by_cases ho : opened? t = some b
  · have hc : closed? t ≠ some b := fun hc => nomatch (opened?_eq_none_of_closed? hc).symm.trans ho
    simp [ho, hc]
  · by_cases hc : closed? t = some b <;> simp [ho, hc]

/-- A token changes the height by one at most. -/
theorem height_succ_ge (b : Bracket) (ts : List Token) (k : Nat) : height b ts k - 1 ≤ height b ts (k + 1) := by
  rw [height_add]
  cases hd : ts.drop k with
  | nil =>
    have hzero : height b [] 1 = 0 := rfl
    omega
  | cons t us =>
    have := height_singleton b t
    have hone : height b (t :: us) 1 = height b [t] 1 := rfl
    split at this <;> omega

/-- The group around `d` others is closed where the height first is below `-d`. -/
theorem height_closeWithin (b : Bracket) (d : Nat) (ts : List Token) :
    (∀ n, closeWithin b d ts = some n → n < ts.length ∧ height b ts (n + 1) = -d - 1 ∧ ∀ m ≤ n, -d ≤ height b ts m) ∧
      (closeWithin b d ts = none → ∀ m, -d ≤ height b ts m) := by
  induction ts generalizing d with
  | nil =>
    refine ⟨nofun, fun _ m => ?_⟩
    have hz : height b [] m = 0 := by simp [height]
    omega
  | cons t ts ih =>
    have hrise := height_singleton b t
    have hzero : height b (t :: ts) 0 = 0 := rfl
    have hstep (d' : Nat) (hd : height b [t] 1 = d' - d)
        (hc : closeWithin b d (t :: ts) = (closeWithin b d' ts).map (· + 1)) :
        (∀ n, closeWithin b d (t :: ts) = some n →
          n < (t :: ts).length ∧ height b (t :: ts) (n + 1) = -d - 1 ∧ ∀ m ≤ n, -d ≤ height b (t :: ts) m) ∧
          (closeWithin b d (t :: ts) = none → ∀ m, -d ≤ height b (t :: ts) m) := by
      have hlow (m : Nat) (h : -d' ≤ height b ts m) : -d ≤ height b (t :: ts) (m + 1) := by
        rw [height_cons]
        omega
      rw [hc]
      constructor
      · intro n hn
        obtain ⟨n, hn', rfl⟩ := Option.map_eq_some_iff.1 hn
        obtain ⟨hlt, hend, hall⟩ := (ih d').1 n hn'
        refine ⟨Nat.succ_lt_succ hlt, by rw [height_cons]; omega, fun m hm => ?_⟩
        cases m with
        | zero => omega
        | succ m => exact hlow m (hall m (Nat.le_of_succ_le_succ hm))
      · intro hno m
        cases m with
        | zero => omega
        | succ m => exact hlow m ((ih d').2 (Option.map_eq_none_iff.1 hno) m)
    have hcons := closeWithin_cons b d t ts
    split at hcons
    next ho => exact hstep (d + 1) (by rw [hrise, if_pos ho]; omega) hcons
    next ho =>
      rw [if_neg ho] at hrise
      split at hcons
      next hc =>
        rw [if_pos hc] at hrise
        split at hcons
        next hd =>
          subst hd
          rw [hcons]
          refine ⟨fun n hn => ?_, nofun⟩
          cases hn
          refine ⟨Nat.succ_pos _, hrise, fun m hm => ?_⟩
          rw [Nat.le_zero.1 hm]
          rfl
        next hd => exact hstep (d - 1) (by omega) hcons
      next hc => exact hstep d (by rw [hrise, if_neg hc]; omega) hcons

section

variable (hk : ts[k]?.bind opened? = some b)

include hk

theorem height_succ_of_opened? : height b ts (k + 1) = height b ts k + 1 := by
  obtain ⟨t, ht, ho⟩ := Option.bind_eq_some_iff.1 hk
  obtain ⟨hlt, rfl⟩ := List.getElem?_eq_some_iff.1 ht
  have hone : height b (ts.drop k) 1 = height b [ts[k]] 1 := by rw [drop_eq_getElem_cons hlt]; rfl
  rw [height_add, hone, height_singleton, if_pos ho]

/-- The group opened at `k` is closed where the height first is as before. -/
theorem height_matchingClose :
    (∀ c, matchingClose ts k = some c → Balances b ts k c ∧ ∀ j, k < j → j ≤ c → height b ts k < height b ts j) ∧
      (matchingClose ts k = none → ∀ j, k < j → height b ts k < height b ts j) := by
  have hafter (n : Nat) : height b ts (k + 1 + n) = height b ts k + 1 + height b (ts.drop (k + 1)) n := by
    rw [height_add, height_succ_of_opened? hk]
  obtain ⟨hsome, hnone⟩ := height_closeWithin b 0 (ts.drop (k + 1))
  simp only [matchingClose, hk]
  constructor
  · intro c hc
    obtain ⟨n, hn, rfl⟩ := Option.map_eq_some_iff.1 hc
    obtain ⟨hn, hend, hall⟩ := hsome n hn
    rw [length_drop] at hn
    refine ⟨⟨by omega, by omega, ?_⟩, fun j hj hjc => ?_⟩
    · rw [show n + (k + 1) + 1 = k + 1 + (n + 1) by omega, hafter]
      omega
    · have := hafter (j - (k + 1))
      have := hall (j - (k + 1)) (by omega)
      rw [show k + 1 + (j - (k + 1)) = j by omega] at *
      omega
  · intro hno j hj
    have := hafter (j - (k + 1))
    have := hnone (Option.map_eq_none_iff.1 hno) (j - (k + 1))
    rw [show k + 1 + (j - (k + 1)) = j by omega] at *
    omega

/-- A group that starts inside another of its kind ends there too. -/
theorem matchingClose_lt {k' c c' : Nat} (hk' : ts[k']?.bind opened? = some b)
    (hlt : k < k') (hc : matchingClose ts k = some c) (hc' : matchingClose ts k' = some c') : c < k' ∨ c' < c := by
  by_contra hno
  rw [not_or, Nat.not_lt, Nat.not_lt] at hno
  obtain ⟨hb, hup⟩ := (height_matchingClose hk).1 c hc
  obtain ⟨hb', hup'⟩ := (height_matchingClose hk').1 c' hc'
  have hbelow := hup k' hlt hno.1
  rcases Nat.lt_or_eq_of_le hno.2 with hin | rfl
  · have := hup' (c + 1) (by omega) hin
    have := hb.2.2
    omega
  · have := hb.2.2
    have := hb'.2.2
    omega

end

/-- A bracket is closed at the first position up to which its kind balances, if any. Until then never more are closed than
opened, and what stands between closes what it opens. Groups of one kind end at different positions, and lie apart or in each
other. -/
theorem matchingClose_laminar (ts : List Token) (b : Bracket) (k : Nat) (hk : ts[k]?.bind opened? = some b) :
    (∀ c, matchingClose ts k = some c → IsLeast {c | Balances b ts k c} c) ∧
      (matchingClose ts k = none ↔ ∀ c, ¬Balances b ts k c) ∧
      (∀ j, k ≤ j → (∀ c, matchingClose ts k = some c → j ≤ c) → height b ts k ≤ height b ts (j + 1)) ∧
      (∀ c, matchingClose ts k = some c →
        height b ts c = height b ts (k + 1) ∧ ∀ j, k < j → j ≤ c → height b ts (k + 1) ≤ height b ts j) ∧
      ∀ k' c c', k ≠ k' → ts[k']?.bind opened? = some b → matchingClose ts k = some c → matchingClose ts k' = some c' →
        c ≠ c' ∧ (c < k' ∨ c' < k ∨ k < k' ∧ c' < c ∨ k' < k ∧ c < c') := by
  obtain ⟨hsome, hnone⟩ := height_matchingClose hk
  have hnext : height b ts (k + 1) = height b ts k + 1 := height_succ_of_opened? hk
  refine ⟨fun c hc => ⟨(hsome c hc).1, fun c' hc' => ?_⟩, ⟨fun hno c hc => ?_, fun hno => ?_⟩, fun j hj hread => ?_,
    fun c hc => ?_, fun k' c c' hne hk' hc hc' => ?_⟩
  · by_contra hlt
    have := (hsome c hc).2 (c' + 1) (Nat.lt_succ_of_lt hc'.1) (by omega)
    have := hc'.2.2
    omega
  · have := hnone hno (c + 1) (Nat.lt_succ_of_lt hc.1)
    have := hc.2.2
    omega
  · cases hc : matchingClose ts k with
    | none => rfl
    | some c => exact absurd (hsome c hc).1 (hno c)
  · cases hc : matchingClose ts k with
    | none => exact Int.le_of_lt (hnone hc (j + 1) (Nat.lt_succ_of_le hj))
    | some c =>
      rcases Nat.lt_or_eq_of_le (hread c hc) with hlt | rfl
      · exact Int.le_of_lt ((hsome c hc).2 (j + 1) (Nat.lt_succ_of_le hj) hlt)
      · exact Int.le_of_eq (hsome j hc).1.2.2.symm
  · obtain ⟨⟨hlt, hlen, hend⟩, hup⟩ := hsome c hc
    have := hup c hlt (Nat.le_refl c)
    have := height_succ_ge b ts c
    refine ⟨by omega, fun j hj hjc => ?_⟩
    have := hup j hj hjc
    omega
  · have hlt := (hsome c hc).1.1
    have hlt' := ((height_matchingClose hk').1 c' hc').1.1
    rcases Nat.lt_or_gt_of_ne hne with h | h
    · have := matchingClose_lt hk hk' h hc hc'
      omega
    · have := matchingClose_lt hk' hk h hc' hc
      omega

theorem matchingClose_laminar_nested :
    matchingClose (tokenize "(a[(b)]c)") 0 = some 8 ∧ matchingClose (tokenize "(a[(b)]c)") 3 = some 5 ∧
      IsLeast {c | Balances .round (tokenize "(a[(b)]c)") 0 c} 8 := by
  have hout : matchingClose (tokenize "(a[(b)]c)") 0 = some 8 := by decide +kernel
  exact ⟨hout, by decide +kernel, (matchingClose_laminar (tokenize "(a[(b)]c)") .round 0 (by decide +kernel)).1 8 hout⟩

end Token

end Declass
