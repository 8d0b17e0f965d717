import Declass.Proofs.Disk.Frame
import Declass.Proofs.Path.Components

/-!
# Where paths lead

A path leads where its names lead, one after the other. Main statements: paths with one directory that lead to one file are the
same path (`Disk.components_eq_of_above_eq`), and so are paths with one anchor and without `..`
(`Disk.components_eq_of_anchor_eq`).
-/

namespace Declass

open List Declass.Path

namespace Disk

variable {d : Disk} {p q : Path} {l m : Location} {piece : Text} {pieces front : List Text} {bytes : List UInt8}

/-- Where one piece leads. -/
theorem step_eq_ok (h : d.step l piece = .ok m) : d.node? l = some .directory ∧ ((isFiller piece ∧ m = l) ∨
      isFiller piece = false ∧ m = if piece = ".." then l.dropLast else l ++ [piece]) := by
  unfold step at h
  split at h
  next hdir =>
    refine ⟨hdir, ?_⟩
    split at h
    next hfil =>
      cases h
      exact .inl ⟨hfil, rfl⟩
    next hfil =>
      refine .inr ⟨by simpa using hfil, ?_⟩
      split at h
      next hup =>
        cases h
        rw [if_pos hup]
      next hup =>
        rw [if_neg hup]
        unfold child at h
        split at h
        · cases h
        split at h
        · cases h
          rfl
        · cases h
  · cases h
  · cases h

theorem step_eq_of_not_filler (h : d.step l piece = .ok m) (hpc : isFiller piece = false) :
    m = if piece = ".." then l.dropLast else l ++ [piece] := by
  rcases (step_eq_ok h).2 with ⟨hfil, -⟩ | ⟨-, hm⟩
  · simp [hpc] at hfil
  · exact hm

theorem walk_cons_eq_ok : d.walk l (piece :: pieces) = .ok m ↔ ∃ k, d.step l piece = .ok k ∧ d.walk k pieces = .ok m := by
  constructor
  · exact Except.bind_eq_ok
  · rintro ⟨k, hs, hw⟩
    have hc : d.walk l (piece :: pieces) = (d.step l piece >>= fun k => d.walk k pieces) := rfl
    rw [hc, hs]
    exact hw

theorem walk_append_eq_ok {back : List Text} :
    d.walk l (front ++ back) = .ok m ↔ ∃ k, d.walk l front = .ok k ∧ d.walk k back = .ok m := by
  induction front generalizing l with
  | nil => exact ⟨fun h => ⟨l, rfl, h⟩, fun ⟨k, hk, h⟩ => by cases hk; exact h⟩
  | cons piece front ih =>
    rw [cons_append]
    simp only [walk_cons_eq_ok, ih]
    constructor
    · rintro ⟨k, hs, k', hw, hback⟩
      exact ⟨k', ⟨k, hs, hw⟩, hback⟩
    · rintro ⟨k', ⟨k, hs, hw⟩, hback⟩
      exact ⟨k, hs, k', hw, hback⟩

theorem walk_concat_eq_ok : d.walk l (front ++ [piece]) = .ok m ↔ ∃ k, d.walk l front = .ok k ∧ d.step k piece = .ok m := by
  rw [walk_append_eq_ok]
  refine exists_congr fun k => and_congr_right fun _ => ?_
  rw [walk_cons_eq_ok]
  exact ⟨fun ⟨k', hs, hnil⟩ => by cases hnil; exact hs, fun hs => ⟨m, hs, rfl⟩⟩

/-- Fillers lead nowhere else. -/
theorem walk_filter (h : d.walk l pieces = .ok m) : d.walk l (pieces.filter (!isFiller ·)) = .ok m := by
  induction pieces generalizing l with
  | nil => exact h
  | cons piece pieces ih =>
    obtain ⟨k, hs, hw⟩ := walk_cons_eq_ok.1 h
    rcases (step_eq_ok hs).2 with ⟨hfil, rfl⟩ | ⟨hfil, -⟩
    · rw [filter_cons_of_neg (by simp [hfil])]
      exact ih hw
    · rw [filter_cons_of_pos (by simp [hfil])]
      exact walk_cons_eq_ok.2 ⟨k, hs, ih hw⟩

/-- The place where a path starts. -/
def origin (d : Disk) (p : Path) : Location :=
  if p.isAbsolute then [] else d.cwd

theorem origin_eq (h : p.anchor = q.anchor) : d.origin p = d.origin q := by
  have habs : p.isAbsolute = q.isAbsolute := by rw [Bool.eq_iff_iff, p.isAbsolute_iff, q.isAbsolute_iff, h]
  rw [origin, origin, habs]

theorem walk_of_resolve (h : d.resolve p = .ok l) : Text.byteSize p.text < pathLimit ∧ d.walk (d.origin p) p.slashed = .ok l := by
  obtain ⟨⟨l₀, pieces⟩, hst, hw⟩ := Except.bind_eq_ok h
  unfold start at hst
  split at hst
  · cases hst
  split at hst
  · cases hst
  split at hst
  · cases hst
  next hlim =>
    cases hst
    exact ⟨by omega, hw⟩

/-- A path leads where its names lead. -/
theorem walk_names (h : d.resolve p = .ok l) : d.walk (d.origin p) p.names = .ok l :=
  walk_filter (walk_of_resolve h).2

/-- A path that leads to a file ends in a name. -/
theorem endsInName (h : d.resolve p = .ok l) (hf : d.node? l = some (.file bytes)) : p.EndsInName := by
  obtain ⟨front, piece, hsl⟩ := (eq_nil_or_concat' p.slashed).resolve_left (splitOn_ne_nil _ _)
  refine ⟨piece, by rw [hsl, getLast?_concat], ?_⟩
  have hw := (walk_of_resolve h).2
  rw [hsl, walk_concat_eq_ok] at hw
  obtain ⟨k, -, hs⟩ := hw
  obtain ⟨hdir, ⟨-, rfl⟩ | ⟨hpc, -⟩⟩ := step_eq_ok hs
  · simp [hdir] at hf
  · exact hpc

/-- In one directory, each file has one name. -/
theorem components_eq_of_above_eq (habv : p.above = q.above) (hp : d.resolve p = .ok l) (hq : d.resolve q = .ok l)
    (hf : d.node? l = some (.file bytes)) : p.components = q.components := by
  have hpn := (endsInName hp hf).names_ne_nil
  have hqn := (endsInName hq hf).names_ne_nil
  rw [above_eq hpn, above_eq hqn] at habv
  obtain ⟨hanc, hfro⟩ := lead_append_inj habv
  obtain ⟨front, a, ha⟩ := (eq_nil_or_concat' p.names).resolve_left hpn
  obtain ⟨front', b, hb⟩ := (eq_nil_or_concat' q.names).resolve_left hqn
  rw [ha, hb, dropLast_concat, dropLast_concat] at hfro
  subst hfro
  have hw := walk_names hp
  have hw' := walk_names hq
  rw [ha, walk_concat_eq_ok] at hw
  rw [hb, ← origin_eq hanc, walk_concat_eq_ok] at hw'
  obtain ⟨k, hk, hs⟩ := hw
  obtain ⟨k', hk', hs'⟩ := hw'
  cases hk.symm.trans hk'
  have hab : a = b := by
    have hl := step_eq_of_not_filler hs (isFiller_of_mem_names (p := p) (by simp [ha]))
    have hl' := step_eq_of_not_filler hs' (isFiller_of_mem_names (p := q) (by simp [hb]))
    rw [hl] at hl'
    have hlen : ∀ c, k.dropLast ≠ k ++ [c] := fun c h => by
      have := congrArg length h
      simp only [length_dropLast, length_append, length_singleton] at this
      omega
    split at hl' <;> split at hl'
    next hup hup' => rw [hup, hup']
    next => exact absurd hl' (hlen b)
    next => exact absurd hl'.symm (hlen a)
    next => simpa using hl'
  rw [components_eq, components_eq, hanc, ha, hb, hab]

/-- A path that does not go up leads where its names say. -/
theorem eq_origin_append (h : d.resolve p = .ok l) (hp : p.climbs = false) : l = d.origin p ++ p.names := by
  have hns : ∀ piece ∈ p.names, isFiller piece = false ∧ piece ≠ ".." := fun piece hpc =>
    ⟨isFiller_of_mem_names hpc, ne_of_mem_names hp hpc⟩
  have hw := walk_names h
  generalize p.names = pieces at hns hw
  generalize d.origin p = l₀ at hw
  induction pieces generalizing l₀ with
  | nil =>
    cases hw
    exact (append_nil _).symm
  | cons piece pieces ih =>
    rw [forall_mem_cons] at hns
    obtain ⟨k, hs, hw⟩ := walk_cons_eq_ok.1 hw
    have hk := step_eq_of_not_filler hs hns.1.1
    rw [if_neg hns.1.2] at hk
    rw [ih hns.2 k hw, hk, append_assoc, singleton_append]

/-- Each place has one name from where the path starts, unless the path goes up. -/
theorem components_eq_of_anchor_eq (hanc : p.anchor = q.anchor) (hp : p.climbs = false) (hq : q.climbs = false)
    (h : d.SamePlace p q) : p.components = q.components := by
  obtain ⟨l, hpl, hql⟩ := h
  have hns : d.origin p ++ p.names = d.origin q ++ q.names :=
    (eq_origin_append hpl hp).symm.trans (eq_origin_append hql hq)
  rw [origin_eq hanc] at hns
  rw [components_eq, components_eq, hanc, append_cancel_left hns]

end Disk

end Declass
