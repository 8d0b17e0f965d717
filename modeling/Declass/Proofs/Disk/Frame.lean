import Declass.Disk.Write
import Mathlib.Data.List.Basic

/-!
# What a change to a disk leaves alone

`Rewrites outputs d d'` says what writing files and making directories cannot do: a directory stays a directory, a file stays a
file, and a file with other contents is one that a path of `outputs` leads to. Main statement: `rewrites_write`.
-/

namespace Declass

/-- A computation in two parts succeeds when both parts do. -/
theorem Except.bind_eq_ok {ε α β : Type} {x : Except ε α} {f : α → Except ε β} {b : β} (h : x >>= f = .ok b) :
    ∃ a, x = .ok a ∧ f a = .ok b := by
  cases x with
  | error e => cases h
  | ok a => exact ⟨a, rfl, h⟩

namespace Disk

variable {d d' d'' : Disk} {p : Path} {l : Location} {outputs : List Path} {pieces : List Text} {bytes : List UInt8}
  {m : Location} {name : Text}

theorem resolve_eq_ok {l₀ : Location} (hs : d.start p = .ok (l₀, pieces)) (hw : d.walk l₀ pieces = .ok l) :
    d.resolve p = .ok l := by
  have hr : d.resolve p = (d.start p >>= fun s => d.walk s.1 s.2) := rfl
  rw [hr, hs]
  exact hw

theorem read_eq_ok_iff : d.read p = .ok bytes ↔ ∃ l, d.resolve p = .ok l ∧ d.node? l = some (.file bytes) := by
  constructor
  · intro h
    obtain ⟨l, hl, hn⟩ := Except.bind_eq_ok h
    refine ⟨l, hl, ?_⟩
    split at hn
    next hf =>
      cases hn
      exact hf
    · cases hn
    · cases hn
  · rintro ⟨l, hl, hn⟩
    simp [read, hl, hn, bind, Except.bind]

/-- The two paths lead to one place. -/
def SamePlace (d : Disk) (p q : Path) : Prop :=
  ∃ l, d.resolve p = .ok l ∧ d.resolve q = .ok l

/-! ## One new node -/

theorem find?_upsert (entries : List (Location × Node)) (l l' : Location) (n : Node) :
    (Table.upsert (fun e => e.1 = l) (fun _ => (l, n)) (l, n) entries).find? (fun e => e.1 = l') =
      if l' = l then some (l, n) else entries.find? fun e => e.1 = l' := by
  induction entries with
  | nil => by_cases h : l' = l <;> simp [Table.upsert, eq_comm]
  | cons e entries ih =>
    by_cases he : e.1 = l
    · by_cases h : l' = l
      · simp [Table.upsert, he, h]
      · have h' : ¬ l = l' := fun hl => h hl.symm
        simp [Table.upsert, he, h, h']
    · by_cases h : e.1 = l'
      · have h' : ¬ l' = l := fun hl => he (h.trans hl)
        simp [Table.upsert, h, h']
      · simp only [Table.upsert, he, decide_false, Bool.false_eq_true, if_false, List.find?_cons, h, ih]

theorem node?_put_self (d : Disk) (n : Node) (h : l ≠ []) : (d.put l n).node? l = some n := by
  simp [node?, put, find?_upsert, h]

theorem node?_put_of_ne (n : Node) {l' : Location} (h : l' ≠ l) : (d.put l n).node? l' = d.node? l' := by
  simp [node?, put, find?_upsert, h]

/-! ## Changes -/

/-- Nothing vanishes, and every directory is still one. -/
structure Keeps (d d' : Disk) : Prop where
  cwd : d'.cwd = d.cwd
  directory : ∀ l, d.node? l = some .directory → d'.node? l = some .directory
  isSome : ∀ l, (d.node? l).isSome → (d'.node? l).isSome

namespace Keeps

theorem put {n : Node} (hn : d.node? l = some .directory → n = .directory) : Keeps d (d.put l n) where
  cwd := rfl
  directory l' hl' := by
    by_cases he : l' = []
    · simp [he, node?]
    by_cases hl : l' = l
    · subst hl
      rw [node?_put_self d n he, hn hl']
    · rwa [node?_put_of_ne n hl]
  isSome l' hl' := by
    by_cases he : l' = []
    · simp [he, node?]
    by_cases hl : l' = l
    · subst hl
      simp [node?_put_self d n he]
    · rwa [node?_put_of_ne n hl]

variable {l' : Location}

/-! Where a path led, it still leads. -/

theorem child {name : Text} (h : Keeps d d') (hc : d.child l name = .ok l') : d'.child l name = .ok l' := by
  unfold Disk.child at hc ⊢
  split at hc
  · cases hc
  next hlen =>
    split at hc
    next hso => rw [if_neg hlen, if_pos (h.isSome _ hso), hc]
    next => cases hc

theorem step {piece : Text} (h : Keeps d d') (hs : d.step l piece = .ok l') : d'.step l piece = .ok l' := by
  unfold Disk.step at hs ⊢
  split at hs
  next hdir =>
    rw [h.directory l hdir]
    split at hs
    next hfil => rwa [if_pos hfil]
    next hfil =>
      rw [if_neg hfil]
      split at hs
      next hup => rwa [if_pos hup]
      next hup => rw [if_neg hup, h.child hs]
  · cases hs
  · cases hs

theorem walk {pieces : List Text} (h : Keeps d d') (hw : d.walk l pieces = .ok l') : d'.walk l pieces = .ok l' := by
  induction pieces generalizing l with
  | nil => exact hw
  | cons piece pieces ih =>
    obtain ⟨m, hs, hw⟩ := Except.bind_eq_ok hw
    have hw' : d'.walk l (piece :: pieces) = (d'.step l piece >>= fun m => d'.walk m pieces) := rfl
    rw [hw', h.step hs]
    exact ih hw

theorem start_eq (h : Keeps d d') (p : Path) : d'.start p = d.start p := by
  unfold Disk.start
  rw [h.cwd]

theorem resolve (h : Keeps d d') (hr : d.resolve p = .ok l) : d'.resolve p = .ok l := by
  obtain ⟨⟨m, pieces⟩, hs, hw⟩ := Except.bind_eq_ok hr
  exact resolve_eq_ok (by rw [h.start_eq, hs]) (h.walk hw)

end Keeps

/-- Nothing vanishes or changes its nature, and each file that changed is one a path of `outputs` leads to. -/
structure Rewrites (outputs : List Path) (d d' : Disk) : Prop extends Keeps d d' where
  file : ∀ l bytes, d.node? l = some (.file bytes) → ∃ bytes', d'.node? l = some (.file bytes') ∧
    (bytes' = bytes ∨ ∃ q ∈ outputs, d'.resolve q = .ok l)

namespace Rewrites

theorem refl (outputs : List Path) (d : Disk) : Rewrites outputs d d where
  cwd := rfl
  directory _ h := h
  isSome _ h := h
  file _ bytes h := ⟨bytes, h, .inl rfl⟩

theorem mono {outputs' : List Path} (h : Rewrites outputs d d') (hs : outputs ⊆ outputs') : Rewrites outputs' d d' where
  toKeeps := h.toKeeps
  file l bytes hl := by
    obtain ⟨bytes', hl', hb | ⟨q, hq, hr⟩⟩ := h.file l bytes hl
    · exact ⟨bytes', hl', .inl hb⟩
    · exact ⟨bytes', hl', .inr ⟨q, hs hq, hr⟩⟩

theorem trans (h : Rewrites outputs d d') (h' : Rewrites outputs d' d'') : Rewrites outputs d d'' where
  cwd := h'.cwd.trans h.cwd
  directory l hl := h'.directory l (h.directory l hl)
  isSome l hl := h'.isSome l (h.isSome l hl)
  file l bytes hl := by
    obtain ⟨bytes', hl', hb⟩ := h.file l bytes hl
    obtain ⟨bytes'', hl'', hb'⟩ := h'.file l bytes' hl'
    refine ⟨bytes'', hl'', ?_⟩
    rcases hb' with rfl | hb'
    · rcases hb with rfl | ⟨q, hq, hr⟩
      · exact .inl rfl
      · exact .inr ⟨q, hq, h'.resolve hr⟩
    · exact .inr hb'

/-- A file that no output leads to is read as before. -/
theorem read {bytes : List UInt8} (h : Rewrites outputs d d') (hr : d.read p = .ok bytes) :
    d'.read p = .ok bytes ∨ ∃ q ∈ outputs, d'.SamePlace q p := by
  obtain ⟨l, hl, hn⟩ := read_eq_ok_iff.1 hr
  have hl' : d'.resolve p = .ok l := h.resolve hl
  obtain ⟨bytes', hn', rfl | ⟨q, hq, hq'⟩⟩ := h.file l bytes hn
  · exact .inl (read_eq_ok_iff.2 ⟨l, hl', hn'⟩)
  · exact .inr ⟨q, hq, l, hq', hl'⟩

end Rewrites

/-! ## Files and directories -/

theorem walkToDirectory_eq_ok (h : d.walkToDirectory l pieces = .ok m) :
    d.walk l pieces = .ok m ∧ d.node? m = some .directory := by
  obtain ⟨m', hw, hs⟩ := Except.bind_eq_ok h
  unfold step at hs
  split at hs
  next hdir =>
    cases hs
    exact ⟨hw, hdir⟩
  · cases hs
  · cases hs

theorem newPlace_eq_ok {place : Location} (h : newPlace l name = .ok place) :
    ¬ Text.byteSize name > nameLimit ∧ place = l ++ [name] := by
  unfold newPlace at h
  split at h
  · cases h
  next hlen =>
    cases h
    exact ⟨hlen, rfl⟩

theorem pieces_ne_nil (h : d.start p = .ok (l, pieces)) : pieces ≠ [] := by
  unfold start at h
  split at h
  · cases h
  split at h
  · cases h
  split at h
  · cases h
  cases h
  exact List.splitOn_ne_nil _ _

/-- A name that is there is where a path that ends with it leads. -/
theorem walk_concat (hw : d.walk l pieces = .ok m) (hdir : d.node? m = some .directory)
    (hn : ¬ (Path.isFiller name || name = "..")) (hlen : ¬ Text.byteSize name > nameLimit)
    (hso : (d.node? (m ++ [name])).isSome) : d.walk l (pieces ++ [name]) = .ok (m ++ [name]) := by
  have happ : d.walk l (pieces ++ [name]) = (d.walk l pieces >>= fun m => d.walk m [name]) := by
    simp [walk]
  have hs : d.step m name = .ok (m ++ [name]) := by
    simp only [Bool.or_eq_true, decide_eq_true_eq, not_or] at hn
    unfold step child
    rw [hdir]
    rw [if_neg hn.1, if_neg hn.2, if_neg hlen, if_pos hso]
  rw [happ, hw]
  have hone : d.walk m [name] = (d.step m name >>= pure) := rfl
  exact hone.trans (by rw [hs]; rfl)

/-- A file is written by a new node at the place that its path leads to afterwards. -/
theorem write_eq_ok (h : d.write p bytes = .ok d') :
    ∃ place, d' = d.put place (.file bytes) ∧ Keeps d d' ∧ d'.node? place = some (.file bytes) ∧ d'.resolve p = .ok place := by
  obtain ⟨⟨l, pieces⟩, hst, h⟩ := Except.bind_eq_ok h
  obtain ⟨init, name, rfl⟩ := (List.eq_nil_or_concat' pieces).resolve_left (pieces_ne_nil hst)
  simp only [List.getLast?_concat, List.dropLast_concat, Option.getD_some] at h
  obtain ⟨m, hw, h⟩ := Except.bind_eq_ok h
  obtain ⟨hw, hdir⟩ := walkToDirectory_eq_ok hw
  split at h
  · cases h
  next hn =>
    obtain ⟨place, hpl, h⟩ := Except.bind_eq_ok h
    obtain ⟨hlen, rfl⟩ := newPlace_eq_ok hpl
    split at h
    · cases h
    next hnode =>
      cases h
      have hk : Keeps d (d.put (m ++ [name]) (.file bytes)) := .put fun he => absurd he hnode
      have hs := node?_put_self d (.file bytes) (List.concat_ne_nil name m)
      exact ⟨m ++ [name], rfl, hk, hs, resolve_eq_ok (by rw [hk.start_eq, hst])
        (walk_concat (hk.walk hw) (hk.directory m hdir) hn hlen (by simp [hs]))⟩

/-- Writing a file changes only the one that its path leads to. -/
theorem rewrites_write (h : d.write p bytes = .ok d') : Rewrites [p] d d' := by
  obtain ⟨place, rfl, hk, hs, hle⟩ := write_eq_ok h
  refine { toKeeps := hk, file := fun l' bytes' hl' => ?_ }
  by_cases he : l' = place
  · subst he
    exact ⟨bytes, hs, .inr ⟨p, List.mem_singleton_self p, hle⟩⟩
  · exact ⟨bytes', by rwa [node?_put_of_ne _ he], .inl rfl⟩

theorem read_write (h : d.write p bytes = .ok d') : d'.read p = .ok bytes := by
  obtain ⟨place, -, -, hs, hle⟩ := write_eq_ok h
  exact read_eq_ok_iff.2 ⟨place, hle, hs⟩

theorem rewrites_makeDirectory (h : d.makeDirectory p = .ok d') : Rewrites [] d d' := by
  obtain ⟨⟨l, pieces⟩, -, h⟩ := Except.bind_eq_ok h
  obtain ⟨m, -, h⟩ := Except.bind_eq_ok h
  split at h
  · cases h
  obtain ⟨place, -, h⟩ := Except.bind_eq_ok h
  split at h
  · cases h
  next hnode =>
    cases h
    rw [Bool.not_eq_true, Option.isSome_eq_false_iff, Option.isNone_iff_eq_none] at hnode
    refine { toKeeps := .put fun _ => rfl, file := fun l' bytes hl' => ?_ }
    have hne : l' ≠ place := fun he => by simp [he, hnode] at hl'
    exact ⟨bytes, by rwa [node?_put_of_ne _ hne], .inl rfl⟩

theorem rewrites_makeWithin (d : Disk) (ps : List Path) : Rewrites [] d (d.makeWithin ps).1 := by
  induction ps generalizing d with
  | nil => exact .refl [] d
  | cons p above ih =>
    unfold makeWithin
    split
    · exact .refl [] d
    split
    next d' hd' => exact rewrites_makeDirectory hd'
    · have habv : Rewrites [] d (d.makeWithin above).1 := ih d
      split
      next d' e hmade =>
        rw [hmade] at habv
        exact habv
      next d' hmade =>
        rw [hmade] at habv
        split
        next d'' hd'' => exact habv.trans (rewrites_makeDirectory hd'')
        · exact habv
    · exact .refl [] d

/-- Making directories changes no file. -/
theorem rewrites_makeDirectories : Rewrites [] d (d.makeDirectories p).1 :=
  rewrites_makeWithin d p.ancestors

end Disk

end Declass
