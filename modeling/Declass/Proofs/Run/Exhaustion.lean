import Declass.Proofs.Run.Accounting
import Declass.Proofs.Run.Chains

/-!
# Loading comes to an end

A path that waits for the next round is the end of a chain of includes, one step for each round (`Loading.Chained`), and chains are
bounded. So at the end nothing waits, and each path was read once. Main statement: `Disk.load_reads_paths_once`.
-/

namespace Declass

open List Declass.Path

namespace Loading

variable {d : Disk} {s : Loading} {todo : List Path} {n : Nat}

/-! ## Paths that were met -/

/-- The paths that were read, or could not be. -/
def reads (s : Loading) : List Path :=
  s.corpus.paths ++ s.failures.map Prod.fst

theorem mem_seen_foldl_meet {k : Key} (ps : List Path) : k ∈ (ps.foldl meet s).seen ↔ k ∈ s.seen ∨ k ∈ ps.map key := by
  induction ps generalizing s with
  | nil => simp
  | cons p ps ih =>
    have hmeet : k ∈ (s.meet p).seen ↔ k ∈ s.seen ∨ k = p.key := by
      unfold meet
      split
      next hse =>
        refine ⟨.inl, fun h => h.elim id ?_⟩
        rintro rfl
        simpa using hse
      next => simp
    rw [foldl_cons, ih, hmeet, map_cons, mem_cons, or_assoc]

theorem mem_waiting_foldl_meet {q : Path} {ps : List Path} (h : q ∈ (ps.foldl meet s).waiting) : q ∈ s.waiting ∨ q ∈ ps := by
  induction ps generalizing s with
  | nil => exact .inl h
  | cons p ps ih =>
    rcases ih h with h | h
    · unfold meet at h
      split at h
      · exact .inl h
      · rcases mem_append.1 h with h | h
        · exact .inl h
        · exact .inr (mem_singleton.1 h ▸ mem_cons_self)
    · exact .inr (mem_cons_of_mem p h)

/-- Each path was met once, and was read, waits, or is in this round. -/
structure Accounted (todo : List Path) (s : Loading) : Prop where
  met : ((s.reads ++ s.waiting ++ todo).map key).Perm s.seen
  once : s.seen.Nodup

namespace Accounted

theorem meet (h : s.Accounted todo) (p : Path) : (s.meet p).Accounted todo := by
  unfold Loading.meet
  split
  · exact h
  next hnew =>
    refine ⟨?_, ?_⟩
    · have hmet := h.met
      rw [perm_iff_count] at hmet ⊢
      intro k
      have hk := hmet k
      simp only [reads, map_append, count_append, map_cons, map_nil] at hk ⊢
      omega
    · have hp : p.key ∉ s.seen := by simpa using hnew
      simpa [nodup_append] using ⟨h.once, fun k hk he => hp (he ▸ hk)⟩

theorem foldl_meet (h : s.Accounted todo) (ps : List Path) : (ps.foldl Loading.meet s).Accounted todo :=
  List.foldlRecOn ps Loading.meet h fun _ ht p _ => ht.meet p

variable {p : Path}

theorem readFile (h : s.Accounted (p :: todo)) : (s.readFile d p).Accounted todo := by
  have hmet := h.met
  rw [perm_iff_count] at hmet
  unfold Loading.readFile
  split
  next content _ =>
    have hrd : Accounted todo { s with corpus := s.corpus.append p content } := by
      refine ⟨?_, h.once⟩
      rw [perm_iff_count]
      intro k
      have hk := hmet k
      simp only [reads, Corpus.append, Corpus.paths, map_append, count_append, map_cons, map_nil, count_cons, count_nil] at hk ⊢
      omega
    exact hrd.foldl_meet _
  · refine ⟨?_, h.once⟩
    rw [perm_iff_count]
    intro k
    have hk := hmet k
    simp only [reads, map_append, count_append, map_cons, map_nil, count_cons, count_nil] at hk ⊢
    omega

theorem foldl_readFile {ps : List Path} (h : s.Accounted (ps ++ todo)) : (ps.foldl (Loading.readFile d) s).Accounted todo := by
  induction ps generalizing s with
  | nil => exact h
  | cons p ps ih => exact ih h.readFile

theorem readRound (h : s.Accounted []) : (s.readRound d).Accounted [] := by
  refine foldl_readFile ⟨?_, h.once⟩
  simpa [reads] using h.met

theorem key_mem_seen (h : s.Accounted todo) (hp : p ∈ s.waiting) : p.key ∈ s.seen :=
  h.met.subset (mem_map_of_mem (by simp [hp]))

end Accounted

/-- The headers of the files that were read were met. -/
def Followed (d : Disk) (s : Loading) : Prop :=
  ∀ p ∈ s.corpus.paths, ∀ q, d.Includes p q → q.key ∈ s.seen

theorem Followed.readFile (h : s.Followed d) (p : Path) : (s.readFile d p).Followed d := by
  unfold Loading.readFile
  split
  next content hp =>
    intro q hq r hr
    rw [corpus_foldl_meet] at hq
    rw [mem_seen_foldl_meet]
    simp only [Corpus.append, Corpus.paths, map_append, mem_append] at hq
    rcases hq with hq | hq
    · exact .inl (h q hq r hr)
    · rw [mem_singleton.1 hq] at hr
      obtain ⟨t, ht, hr⟩ := hr
      cases hp.symm.trans ht
      exact .inr (mem_map_of_mem hr)
  · exact h

theorem Followed.readRound (h : s.Followed d) : (s.readRound d).Followed d := by
  have hst : Followed d { s with waiting := [] } := h
  exact List.foldlRecOn s.waiting (Loading.readFile d) hst fun _ ht p _ => ht.readFile p

/-- What waits after a round is included by a file of the round. -/
theorem exists_includes_of_mem_waiting : ∀ q ∈ (s.readRound d).waiting, ∃ p ∈ s.waiting, d.Includes p q := by
  have hst : ∀ q ∈ ({ s with waiting := [] } : Loading).waiting, ∃ p ∈ s.waiting, d.Includes p q := by simp
  refine List.foldlRecOn (motive := fun t => ∀ q ∈ t.waiting, ∃ p ∈ s.waiting, d.Includes p q) s.waiting
    (Loading.readFile d) hst fun t ht p hp q hq => ?_
  unfold readFile at hq
  split at hq
  next content hcon =>
    rcases mem_waiting_foldl_meet hq with hq | hq
    · exact ht q hq
    · exact ⟨p, hp, content, hcon, hq⟩
  · exact ht q hq

/-! ## Rounds -/

/-- Each waiting path ends a chain of `n` steps through met paths. -/
def Chained (d : Disk) (n : Nat) (s : Loading) : Prop :=
  ∀ p ∈ s.waiting, ∃ c, d.IncludeChain (p :: c) ∧ c.length = n ∧ ∀ q ∈ c, q.key ∈ s.seen

theorem Chained.readRound (h : s.Chained d n) (ha : s.Accounted []) : (s.readRound d).Chained d (n + 1) := by
  intro q hq
  obtain ⟨p, hp, hs⟩ := exists_includes_of_mem_waiting q hq
  obtain ⟨c, hch, hlen, hse⟩ := h p hp
  have hr := s.past_readRound (d := d)
  have hold : ∀ x ∈ p :: c, x.key ∈ s.seen := forall_mem_cons.2 ⟨ha.key_mem_seen hp, hse⟩
  refine ⟨p :: c, ⟨.cons_cons hs hch.steps, nodup_cons.2 ⟨fun hmem => ?_, hch.distinct⟩⟩,
    by rw [length_cons, hlen], fun x hx => hr.met (hold x hx)⟩
  obtain ⟨x, hx, hkey⟩ := mem_map.1 hmem
  exact hr.gone q hq (hkey ▸ hold x hx)

/-- What a round keeps, all rounds keep. -/
theorem rounds_induction {P : Loading → Prop} (hr : ∀ s : Loading, P s → P (s.readRound d)) (n : Nat) (h : P s) :
    P (s.rounds d n) := by
  induction n generalizing s with
  | zero => exact h
  | succ n ih =>
    unfold rounds
    split
    · exact h
    · exact ih (hr s h)

/-- Nothing waits after more rounds than a chain has steps. -/
theorem waiting_rounds {k : Nat} (ha : s.Accounted []) (h : s.Chained d k)
    (hn : (d.size + 1) * (Disk.pathLimit * d.size) < k + n) : (s.rounds d n).waiting = [] := by
  induction n generalizing s k with
  | zero =>
    rw [eq_nil_iff_forall_not_mem]
    intro p hp
    obtain ⟨c, hch, hlen, -⟩ := h p hp
    have hbound := hch.length_le
    omega
  | succ n ih =>
    unfold rounds
    split
    next hemp => simpa using hemp
    next => exact ih ha.readRound (h.readRound ha) (by omega)

end Loading

/-! ## Loading -/

namespace Disk

variable (d : Disk) (files : List Path) {q : Path}

/-- The places of the files of the disk. -/
def filePlaces : List Location :=
  (d.entries.map Prod.fst).dedup.filter fun l =>
    match d.node? l with
    | some (.file _) => true
    | _ => false

variable {d} in
theorem mem_filePlaces {l : Location} {bytes : List UInt8} (h : d.node? l = some (.file bytes)) : l ∈ d.filePlaces := by
  unfold filePlaces
  rw [mem_filter, mem_dedup, mem_map, h]
  exact ⟨⟨_, mem_entries_of_node? h, rfl⟩, rfl⟩

/-- The loading of the files of a run, after its last round. -/
def loaded : Loading :=
  (d.loadFiles files).rounds d d.roundLimit

theorem accounted_meet : (files.foldl Loading.meet {}).Accounted [] :=
  Loading.Accounted.foldl_meet ⟨.refl _, nodup_nil⟩ files

theorem accounted_loaded : (d.loaded files).Accounted [] :=
  Loading.rounds_induction (fun _ h => h.readRound) _ (accounted_meet files).readRound

theorem followed_loaded : (d.loaded files).Followed d := by
  have hmeet : (files.foldl Loading.meet {}).Followed d := by
    intro p hp
    rw [Loading.corpus_foldl_meet] at hp
    cases hp
  exact Loading.rounds_induction (fun _ h => h.readRound) _ hmeet.readRound

theorem waiting_loaded : (d.loaded files).waiting = [] := by
  have hmeet : (files.foldl Loading.meet {}).Chained d 0 := fun p _ =>
    ⟨[], ⟨.singleton p, nodup_singleton _⟩, rfl, by simp⟩
  have ha := accounted_meet files
  refine Loading.waiting_rounds ha.readRound (hmeet.readRound ha) ?_
  have hbound : (d.size + 1) * (pathLimit * d.size) ≤ d.roundLimit := by
    calc
      (d.size + 1) * (pathLimit * d.size) ≤ (d.size + 1) * (pathLimit * (d.size + 1)) :=
        Nat.mul_le_mul_left _ (Nat.mul_le_mul_left _ (Nat.le_succ _))
      _ = d.roundLimit := by rw [roundLimit, Nat.mul_left_comm, Nat.mul_assoc]
  omega

/-- Of the paths that were read, no two are spellings of one path. -/
theorem nodup_key_reads : ((d.loaded files).reads.map key).Nodup := by
  have ha := d.accounted_loaded files
  have hnd := ha.met.nodup_iff.2 ha.once
  rw [waiting_loaded] at hnd
  simpa using hnd

/-- What was met was read. -/
theorem exists_reads_of_mem_seen (h : q.key ∈ (d.loaded files).seen) : ∃ r ∈ (d.loaded files).reads, r.same q := by
  have hmem := (d.accounted_loaded files).met.mem_iff.2 h
  rw [waiting_loaded] at hmem
  obtain ⟨r, hr, hkey⟩ := mem_map.1 hmem
  exact ⟨r, by simpa using hr, key_eq_key_iff.1 hkey⟩

theorem key_mem_seen_loaded {f : Path} (h : f ∈ files) : f.key ∈ (d.loaded files).seen := by
  have hmeet : f.key ∈ (files.foldl Loading.meet {}).seen :=
    (Loading.mem_seen_foldl_meet files).2 (.inr (mem_map_of_mem h))
  refine Loading.rounds_induction (P := fun s => f.key ∈ s.seen) (fun s hs => ?_) _ ?_
  · exact s.past_readRound.met hs
  · exact ((files.foldl Loading.meet {}).past_readRound).met hmeet

variable {d} in
/-- Paths to one file are the same if written with one directory, or if they start alike and never go up. -/
theorem key_eq_of_samePlace {p : Path} (hf : d.isFile p) (hpl : d.SamePlace p q)
    (h : p.above = q.above ∨ p.anchor = q.anchor ∧ p.climbs = false ∧ q.climbs = false) : p.key = q.key := by
  rw [key_eq_key_iff, same, beq_iff_eq]
  rcases h with habv | ⟨hanc, hp, hq⟩
  · obtain ⟨l, hl, hl'⟩ := hpl
    obtain ⟨l₀, bytes, hl₀, hnode⟩ := exists_of_isFile hf
    cases hl.symm.trans hl₀
    exact components_eq_of_above_eq habv hl hl' hnode
  · exact components_eq_of_anchor_eq hanc hp hq hpl

/-- The files among paths that start alike and never go up are all different. -/
theorem length_filter_le_filePlaces {ps : List Path} (h : (ps.map key).Nodup) (a : Anchor) :
    (ps.filter fun p => d.isFile p && p.anchor == a && !p.climbs).length ≤ d.filePlaces.length := by
  generalize hrd : (ps.filter fun p => d.isFile p && p.anchor == a && !p.climbs) = read
  have hmem : ∀ p ∈ read, d.isFile p ∧ p.anchor = a ∧ p.climbs = false := by
    intro p hp
    rw [← hrd] at hp
    simpa [and_assoc] using (mem_filter.1 hp).2
  have hkeys : (read.map key).Nodup := h.sublist (hrd ▸ filter_sublist.map _)
  have hres : ∀ p ∈ read, d.resolve p = .ok (d.place p) ∧ d.place p ∈ d.filePlaces := by
    intro p hp
    obtain ⟨l, bytes, hl, hnode⟩ := exists_of_isFile (hmem p hp).1
    have hpl : d.place p = l := by simp [place, hl, Except.toOption]
    exact ⟨hpl ▸ hl, hpl ▸ mem_filePlaces hnode⟩
  have hplaces : (read.map d.place).Nodup := by
    refine List.Nodup.map_on (fun p hp q hq hpq => ?_) (List.Nodup.of_map _ hkeys)
    obtain ⟨hf, hanc, hclimbs⟩ := hmem p hp
    obtain ⟨-, hanc', hclimbs'⟩ := hmem q hq
    have hpl : d.SamePlace p q := ⟨d.place p, (hres p hp).1, hpq ▸ (hres q hq).1⟩
    exact inj_on_of_nodup_map hkeys hp hq
      (key_eq_of_samePlace hf hpl (.inr ⟨hanc.trans hanc'.symm, hclimbs, hclimbs'⟩))
  have hsub : read.map d.place ⊆ d.filePlaces := by
    intro l hl
    obtain ⟨p, hp, rfl⟩ := mem_map.1 hl
    exact (hres p hp).2
  simpa using (hplaces.subperm hsub).length_le

/-- Loading reads each path once, whatever its spelling, and ends whatever circles of includes there are: nothing waits, and
the files of the run and all headers that files of the corpus include are read. A file is read under two paths only if these
are written with different directories and, besides, start differently or go up; so paths that start alike and do not go up
make no more reads than there are files. -/
theorem load_reads_paths_once (d : Disk) (files : List Path) :
    (d.loaded files).waiting = [] ∧
    (∀ f ∈ files, ∃ r ∈ (d.loaded files).reads, r.same f) ∧
    (∀ p ∈ (d.load files).paths, ∀ q, d.Includes p q → ∃ r ∈ (d.loaded files).reads, r.same q) ∧
    ((d.loaded files).reads.map Path.key).Nodup ∧
    (∀ p ∈ (d.loaded files).reads, ∀ q ∈ (d.loaded files).reads, d.isFile p = true → d.SamePlace p q → p ≠ q →
      p.above ≠ q.above ∧ (p.anchor ≠ q.anchor ∨ p.climbs = true ∨ q.climbs = true)) ∧
    ∀ a, ((d.loaded files).reads.filter fun p => d.isFile p && p.anchor == a && !p.climbs).length ≤
      d.filePlaces.length := by
  have hnodup := d.nodup_key_reads files
  refine ⟨d.waiting_loaded files, fun f hf => d.exists_reads_of_mem_seen files (d.key_mem_seen_loaded files hf),
    fun p hp q hq => d.exists_reads_of_mem_seen files (d.followed_loaded files p hp q hq), hnodup, ?_,
    d.length_filter_le_filePlaces hnodup⟩
  intro p hp q hq hfile hplace hne
  have hkey : p.key ≠ q.key := fun hkey => hne (inj_on_of_nodup_map hnodup hp hq hkey)
  refine ⟨fun habove => hkey (key_eq_of_samePlace hfile hplace (.inl habove)), ?_⟩
  by_contra h
  simp only [not_or, not_not, Bool.not_eq_true] at h
  exact hkey (key_eq_of_samePlace hfile hplace (.inr h))

/-- Two headers that include each other. -/
def circle : Disk :=
  { entries := [(["a.h".toList], .file (Text.toUtf8 "#include \"b.h\"\n")),
      (["b.h".toList], .file (Text.toUtf8 "#include \"./a.h\"\n#include \"a.h\"\n"))] }

theorem paths_circle : (circle.load ["a.h"]).paths = [⟨"a.h".toList⟩, ⟨"b.h".toList⟩, ⟨"./a.h".toList⟩, ⟨"./b.h".toList⟩] := by
  cbv

theorem samePlace_circle : circle.SamePlace "a.h" "./a.h" :=
  ⟨["a.h"], by cbv, by cbv⟩

theorem includes_circle : circle.Includes "b.h" "./a.h" := by
  refine ⟨"#include \"./a.h\"\n#include \"a.h\"\n", by cbv, ?_⟩
  have hquoted : circle.quotedIncludes "b.h" "#include \"./a.h\"\n#include \"a.h\"\n" =
      [⟨"./a.h"⟩, ⟨"a.h"⟩] := by cbv
  exact mem_cons_self

theorem load_reads_paths_once_circle :
    (circle.loaded ["a.h"]).waiting = [] ∧
      (circle.Includes "b.h" "./a.h" ∧ ∃ r ∈ (circle.loaded ["a.h"]).reads, r.same "./a.h") ∧
      (circle.SamePlace "a.h" "./a.h" ∧ Path.above "a.h" ≠ Path.above "./a.h") ∧
      ((circle.loaded ["a.h"]).reads.filter fun p => circle.isFile p && p.anchor == .here && !p.climbs).length ≤
        circle.filePlaces.length := by
  obtain ⟨hwaiting, -, hfollowed, -, hapart, hcount⟩ := load_reads_paths_once circle ["a.h"]
  have hpaths : ∀ p ∈ [("a.h" : Path), "b.h", "./a.h"], p ∈ (circle.load ["a.h"]).paths := by
    rw [paths_circle]
    decide
  have hreads : ∀ p ∈ (circle.load ["a.h"]).paths, p ∈ (circle.loaded ["a.h"]).reads := fun _ =>
    mem_append_left _
  refine ⟨hwaiting, ⟨includes_circle, hfollowed "b.h" (hpaths _ (by simp)) "./a.h" includes_circle⟩,
    ⟨samePlace_circle, ?_⟩, hcount .here⟩
  exact (hapart "a.h" (hreads _ (hpaths _ (by simp))) "./a.h" (hreads _ (hpaths _ (by simp))) (by cbv) samePlace_circle
    (by decide)).1

/-- One file. -/
def single : Disk :=
  { entries := [(["a.cpp".toList], .file (Text.toUtf8 "int x;\n"))] }

/-- A file under two paths is in the corpus under both. -/
theorem load_single_twice :
    (single.load (single.related ["a.cpp", "./a.cpp"])).paths = [⟨"a.cpp".toList⟩, ⟨"./a.cpp".toList⟩] ∧
      single.SamePlace "a.cpp" "./a.cpp" ∧ single.filePlaces = [["a.cpp".toList]] := by
  refine ⟨by cbv, ⟨["a.cpp".toList], by cbv, by cbv⟩, by cbv⟩

end Disk

end Declass
