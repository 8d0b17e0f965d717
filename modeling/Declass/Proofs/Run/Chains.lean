import Declass.Proofs.Disk.Place
import Declass.Run.Load
import Mathlib.Data.Finset.Prod
import Mathlib.Data.List.Chain

/-!
# Chains of includes

A chain of includes can go round in a circle of files under new paths. A path of a chain is named from the root, or its directory
starts with the one before it; while that stays the same, the chain goes through other files. Main statement:
`Disk.IncludeChain.length_le`.
-/

namespace Declass

open List Text

/-! ## Lengths -/

namespace Text

theorem length_le_byteSize (t : Text) : t.length ≤ byteSize t := by
  induction t with
  | nil => simp
  | cons c t ih =>
    have hc : 0 < c.utf8Size := Char.utf8Size_pos c
    simp only [byteSize, foldr_cons, length_cons] at ih ⊢
    omega

theorem length_lines_le (t : Text) : (lines t).length ≤ t.length := by
  fun_induction lines t with
  | case1 => simp
  | case2 t ih => simpa using ih
  | case3 t ih =>
    simp only [length_cons]
    omega
  | case4 c t _ _ hlines ih => simp
  | case5 c t _ _ line rest hlines ih =>
    rw [hlines] at ih
    simp only [length_cons] at ih ⊢
    omega

/-- A character that was begun may still turn out to be a defect. -/
theorem length_unitsAfter_le (p : Option OpenChar) (bytes : List UInt8) :
    (unitsAfter p bytes).length ≤ bytes.length + p.toList.length := by
  induction bytes generalizing p with
  | nil => cases p <;> simp [unitsAfter]
  | cons b rest ih =>
    have hle : ∀ n, (unitsAfter.fromLead n rest).length ≤ rest.length + 1 := by
      intro n
      unfold unitsAfter.fromLead
      split
      · simpa using ih none
      next p _ => simpa using ih (some p)
      · simpa using ih none
    cases p with
    | none => simpa [unitsAfter] using hle b.toNat
    | some p =>
      rw [unitsAfter]
      split
      · split
        · exact Nat.le_trans (Nat.succ_le_succ (ih none)) (by simp)
        · exact Nat.le_trans (ih _) (by simp)
      · exact Nat.succ_le_succ (hle b.toNat)

theorem length_le_of_ofUtf8? {bytes : List UInt8} {t : Text} (h : ofUtf8? bytes = some t) : t.length ≤ bytes.length := by
  have huns : (units bytes).length ≤ bytes.length := length_unitsAfter_le none bytes
  unfold ofUtf8? at h
  generalize units bytes = us at h huns
  refine Nat.le_trans (Nat.le_of_eq ?_) huns
  clear huns
  induction us generalizing t with
  | nil =>
    cases h
    rfl
  | cons u us ih =>
    rw [mapM_cons] at h
    obtain ⟨c, -, h⟩ := Option.bind_eq_some_iff.1 h
    obtain ⟨t', ht', h⟩ := Option.bind_eq_some_iff.1 h
    cases h
    rw [length_cons, length_cons, ih ht']

end Text

/-! ## Names from the root -/

/-- The names from the root in the include lines of a file. -/
def Node.rootNames : Node → List Path
  | .directory => []
  | .file bytes =>
    (((lines ((ofUtf8? bytes).getD [])).filterMap Disk.includeName?).map Path.mk).filter Path.isAbsolute

theorem Node.length_rootNames_le (n : Node) : n.rootNames.length ≤ n.size := by
  cases n with
  | directory => simp [rootNames]
  | file bytes =>
    cases ht : ofUtf8? bytes with
    | none => simp [rootNames, ht, lines]
    | some t =>
      calc
        (Node.file bytes).rootNames.length ≤ (lines t).length := by
          rw [rootNames, ht]
          refine Nat.le_trans (length_filter_le _ _) ?_
          rw [length_map]
          exact length_filterMap_le _ _
        _ ≤ t.length := length_lines_le t
        _ ≤ bytes.length := length_le_of_ofUtf8? ht

namespace Disk

variable (d : Disk)

/-- The names from the root in the include lines of all files. -/
def rootNames : List Path :=
  d.entries.flatMap fun e => e.2.rootNames

/-- The places of the files with text. -/
def filled : List Location :=
  (d.entries.filter fun e => 0 < e.2.size).map Prod.fst

theorem length_rootNames_le : d.rootNames.length ≤ d.size := by
  unfold rootNames size
  induction d.entries with
  | nil => simp
  | cons e entries ih =>
    have he := e.2.length_rootNames_le
    rw [flatMap_cons, length_append, foldr_cons]
    omega

theorem length_filled_le : d.filled.length ≤ d.size := by
  unfold filled size
  induction d.entries with
  | nil => simp
  | cons e entries ih =>
    rw [length_map] at ih ⊢
    rw [filter_cons, foldr_cons]
    split
    next he =>
      have he : 0 < e.2.size := by simpa using he
      rw [length_cons]
      omega
    · omega

/-! ## Steps -/

/-- The file at `p` includes the one at `q`. -/
def Includes (p q : Path) : Prop :=
  ∃ t, d.readText p = .ok t ∧ q ∈ d.quotedIncludes p t

variable {d} {p q : Path}

theorem readText_eq_ok {t : Text} (h : d.readText p = .ok t) :
    ∃ l bytes, d.resolve p = .ok l ∧ d.node? l = some (.file bytes) ∧ ofUtf8? bytes = some t := by
  obtain ⟨bytes, hrd, htx⟩ := Except.bind_eq_ok h
  obtain ⟨l, hl, hf⟩ := read_eq_ok_iff.1 hrd
  refine ⟨l, bytes, hl, hf, ?_⟩
  split at htx
  next hutf =>
    cases htx
    exact hutf
  · cases htx

theorem exists_of_isFile (h : d.isFile p) : ∃ l bytes, d.resolve p = .ok l ∧ d.node? l = some (.file bytes) := by
  unfold isFile lookup? at h
  split at h
  next bytes hnode =>
    split at hnode
    next l hl => exact ⟨l, bytes, hl, hnode⟩
    next => cases hnode
  next => cases h

theorem mem_entries_of_node? {l : Location} {bytes : List UInt8} (h : d.node? l = some (.file bytes)) :
    (l, Node.file bytes) ∈ d.entries := by
  unfold node? at h
  split at h
  · cases h
  · obtain ⟨e, he, hnode⟩ := Option.map_eq_some_iff.1 h
    have hl : e.1 = l := by simpa using find?_some he
    have he' : e = (l, Node.file bytes) := Prod.ext hl hnode
    exact he' ▸ mem_of_find?_eq_some he

/-- A file that includes another one holds text. -/
theorem Includes.exists_place (h : d.Includes p q) :
    ∃ l ∈ d.filled, ∃ bytes, d.resolve p = .ok l ∧ d.node? l = some (.file bytes) := by
  obtain ⟨t, ht, hq⟩ := h
  obtain ⟨l, bytes, hl, hf, hutf⟩ := readText_eq_ok ht
  refine ⟨l, mem_map.2 ⟨(l, .file bytes), mem_filter.2 ⟨mem_entries_of_node? hf, ?_⟩, rfl⟩, bytes, hl, hf⟩
  have hlines : lines t ≠ [] := by
    intro hnil
    simp [quotedIncludes, hnil] at hq
  have hlen := Nat.le_trans (length_lines_le t) (length_le_of_ofUtf8? hutf)
  have hpos := length_pos_of_ne_nil hlines
  exact decide_eq_true (Nat.lt_of_lt_of_le hpos hlen)

/-- A header is named from the root, or lies below its includer. -/
theorem Includes.mem_rootNames_or_above (h : d.Includes p q) : q ∈ d.rootNames ∨ p.above <+: q.above := by
  obtain ⟨t, ht, hq⟩ := h
  obtain ⟨l, bytes, hl, hf, hutf⟩ := readText_eq_ok ht
  obtain ⟨hq, hisFile⟩ := mem_filter.1 hq
  obtain ⟨name, hn, rfl⟩ := mem_map.1 hq
  cases habs : Path.isAbsolute ⟨name⟩ with
  | true =>
    have hjoin : (p.parent?.getD "").join ⟨name⟩ = ⟨name⟩ := by simp [Path.join, habs]
    rw [hjoin]
    refine .inl (mem_flatMap.2 ⟨_, mem_entries_of_node? hf, ?_⟩)
    rw [Node.rootNames, hutf]
    exact mem_filter.2 ⟨mem_map.2 ⟨name, hn, rfl⟩, habs⟩
  | false =>
    obtain ⟨l', bytes', hl', hf'⟩ := exists_of_isFile hisFile
    exact .inr (Path.above_prefix_join (endsInName hl hf).names_ne_nil habs (endsInName hl' hf'))

theorem Includes.length_above_lt (h : d.Includes p q) : p.above.length < pathLimit := by
  obtain ⟨l, -, bytes, hl, hf⟩ := h.exists_place
  calc
    p.above.length = p.components.length - 1 := length_dropLast
    _ ≤ p.text.length := by
      have := p.length_components_le
      omega
    _ ≤ byteSize p.text := length_le_byteSize p.text
    _ < pathLimit := (walk_of_resolve hl).1

/-! ## Chains -/

/-- Paths, each included by the next, no two spellings of one path. -/
structure IncludeChain (d : Disk) (c : List Path) : Prop where
  steps : c.IsChain fun q p => d.Includes p q
  distinct : (c.map Path.key).Nodup

namespace IncludeChain

variable {c front rest : List Path}

theorem tail (h : d.IncludeChain (p :: c)) : d.IncludeChain c where
  steps := h.steps.tail
  distinct := (nodup_cons.1 h.distinct).2

/-- The directories along a chain with no name from the root. -/
theorem above_prefix (h : d.IncludeChain (p :: (front ++ q :: rest))) (hns : ∀ x ∈ p :: front, x ∉ d.rootNames) :
    q.above <+: p.above := by
  rw [forall_mem_cons] at hns
  induction front generalizing p with
  | nil =>
    have hs : d.Includes q p := (isChain_cons_cons.1 h.steps).1
    exact hs.mem_rootNames_or_above.resolve_left hns.1
  | cons r front ih =>
    have hs : d.Includes r p := (isChain_cons_cons.1 h.steps).1
    exact (ih h.tail (forall_mem_cons.1 hns.2)).trans (hs.mem_rootNames_or_above.resolve_left hns.1)

end IncludeChain

variable (d)

/-- The number of names from the root in a chain. -/
def legs (c : List Path) : Nat :=
  c.countP (· ∈ d.rootNames)

/-- The place of a file. -/
def place (p : Path) : Location :=
  (d.resolve p).toOption.getD []

/-- Where a path of a chain stands: names, directory, file. -/
def marks : List Path → List (Nat × Nat × Location)
  | [] => []
  | p :: c => (d.legs (p :: c), p.above.length, d.place p) :: marks c

variable {d}

theorem length_marks (c : List Path) : (d.marks c).length = c.length := by
  induction c with
  | nil => rfl
  | cons p c ih => rw [marks, length_cons, length_cons, ih]

theorem exists_of_mem_marks {c : List Path} {x : Nat × Nat × Location} (h : x ∈ d.marks c) :
    ∃ front p rest, c = front ++ p :: rest ∧ x = (d.legs (p :: rest), p.above.length, d.place p) := by
  induction c with
  | nil => cases h
  | cons p c ih =>
    rcases mem_cons.1 h with rfl | h
    · exact ⟨[], p, c, rfl, rfl⟩
    · obtain ⟨front, q, rest, rfl, hx⟩ := ih h
      exact ⟨p :: front, q, rest, rfl, hx⟩

namespace IncludeChain

variable {c : List Path}

/-- Two paths of a chain do not stand at one mark. -/
theorem nodup_marks (h : d.IncludeChain c) (hlive : ∀ p ∈ c, ∃ q, d.Includes p q) : (d.marks c).Nodup := by
  induction c with
  | nil => exact nodup_nil
  | cons p c ih =>
    refine nodup_cons.2 ⟨fun hmem => ?_, ih h.tail fun x hx => hlive x (mem_cons_of_mem _ hx)⟩
    obtain ⟨front, q, rest, rfl, hm⟩ := exists_of_mem_marks hmem
    obtain ⟨hlegs, hlen, hpl⟩ : d.legs (p :: (front ++ q :: rest)) = d.legs (q :: rest) ∧
      p.above.length = q.above.length ∧ d.place p = d.place q := by simpa using hm
    have hns : ∀ x ∈ p :: front, x ∉ d.rootNames := by
      rw [legs, legs, ← cons_append, countP_append] at hlegs
      have hz : (p :: front).countP (· ∈ d.rootNames) = 0 := by omega
      simpa using countP_eq_zero.1 hz
    have habv : q.above = p.above := (h.above_prefix hns).eq_of_length hlen.symm
    obtain ⟨_, hp⟩ := hlive p mem_cons_self
    obtain ⟨_, hq⟩ := hlive q (by simp)
    obtain ⟨l, -, bytes, hl, hf⟩ := hp.exists_place
    obtain ⟨l', -, bytes', hl', hf'⟩ := hq.exists_place
    have hll : l = l' := by simpa [place, hl, hl', Except.toOption] using hpl
    subst hll
    have hkey : p.key = q.key := by
      rw [Path.key_eq_key_iff, Path.same, beq_iff_eq]
      exact components_eq_of_above_eq habv.symm hl hl' hf
    exact (nodup_cons.1 h.distinct).1 (mem_map.2 ⟨q, by simp, hkey.symm⟩)

theorem legs_le (h : d.IncludeChain c) : d.legs c ≤ d.rootNames.length := by
  rw [legs, countP_eq_length_filter]
  have hnd : (c.filter (· ∈ d.rootNames)).Nodup := (List.Nodup.of_map _ h.distinct).filter _
  refine (hnd.subperm fun p hp => ?_).length_le
  simpa using (mem_filter.1 hp).2

theorem of_append {front : List Path} (h : d.IncludeChain (front ++ c)) : d.IncludeChain c := by
  induction front with
  | nil => exact h
  | cons p front ih => exact ih h.tail

theorem exists_includes (h : d.IncludeChain (p :: c)) : ∀ x ∈ c, ∃ y, d.Includes x y := by
  induction c generalizing p with
  | nil => simp
  | cons r c ih =>
    rw [forall_mem_cons]
    exact ⟨⟨p, (isChain_cons_cons.1 h.steps).1⟩, ih h.tail⟩

/-- A chain is bounded, whatever circles of files there are. -/
theorem length_le (h : d.IncludeChain (p :: c)) : c.length ≤ (d.size + 1) * (pathLimit * d.size) := by
  have hlive := h.exists_includes
  have hsub : (d.marks c).toFinset ⊆
      Finset.range (d.rootNames.length + 1) ×ˢ Finset.range pathLimit ×ˢ d.filled.toFinset := by
    intro x hx
    obtain ⟨front, q, rest, rfl, rfl⟩ := exists_of_mem_marks (mem_toFinset.1 hx)
    obtain ⟨_, hq⟩ := hlive q (by simp)
    obtain ⟨l, hfilled, bytes, hl, -⟩ := hq.exists_place
    have hlegs := h.tail.of_append.legs_le
    simp only [Finset.mem_product, Finset.mem_range]
    refine ⟨by omega, hq.length_above_lt, ?_⟩
    simpa [place, hl, Except.toOption] using hfilled
  calc
    c.length = (d.marks c).toFinset.card := by
      rw [toFinset_card_of_nodup (h.tail.nodup_marks hlive), length_marks]
    _ ≤ (d.rootNames.length + 1) * (pathLimit * d.filled.toFinset.card) := by
      simpa using Finset.card_le_card hsub
    _ ≤ (d.size + 1) * (pathLimit * d.size) := by
      refine Nat.mul_le_mul (Nat.succ_le_succ d.length_rootNames_le) (Nat.mul_le_mul_left _ ?_)
      exact Nat.le_trans (toFinset_card_le _) d.length_filled_le

end IncludeChain

end Disk

end Declass
