import Declass.Output.Unit
import Mathlib.Data.List.Nodup
import Mathlib.Logic.Relation
import Mathlib.Tactic.Tauto

/-!
# The order of classes is an order of all classes

A visit only adds classes that were not met before, so the order is a permutation of the classes. When no class embeds itself, every
class comes after all that it embeds (`orderedClasses_embedded`).
-/

namespace Declass

open List

namespace Program

variable (p : Program) {v w : Visited} {visit : Visited → Class → Visited} {c : Class} {path : List Class}

/-- `w` is `v` with classes of the program that `v` had not met. -/
def Visited.Grows (v w : Visited) : Prop :=
  ∃ added : List Class, w.order = v.order ++ added ∧ (∀ n, n ∈ w.seen ↔ n ∈ v.seen ∨ n ∈ added.map Class.name) ∧
    (∀ c ∈ added, c ∈ p.classes ∧ c.name ∉ v.seen) ∧ (added.map Class.name).Nodup

theorem Visited.Grows.refl (v : Visited) : Visited.Grows p v v :=
  ⟨[], by simp, by simp, by simp, by simp⟩

variable {p}

theorem Visited.Grows.trans {u : Visited} (h : Visited.Grows p u v) (h' : Visited.Grows p v w) : Visited.Grows p u w := by
  obtain ⟨as, ho, hs, ha, hn⟩ := h
  obtain ⟨bs, ho', hs', hb, hn'⟩ := h'
  refine ⟨as ++ bs, by rw [ho', ho, append_assoc], ?_, ?_, ?_⟩
  · intro n
    rw [hs', hs, map_append, mem_append, or_assoc]
  · intro c hc
    rcases mem_append.1 hc with hc | hc
    · exact ha c hc
    · exact ⟨(hb c hc).1, fun hm => (hb c hc).2 ((hs _).2 (.inl hm))⟩
  · rw [map_append, nodup_append]
    refine ⟨hn, hn', ?_⟩
    rintro n hna _ hnb rfl
    obtain ⟨c, hc, rfl⟩ := mem_map.1 hnb
    exact (hb c hc).2 ((hs _).2 (.inr hna))

/-- A fold of growing steps grows. -/
theorem Visited.Grows.foldl (cs : List Class) (h : ∀ v, ∀ c ∈ cs, Visited.Grows p v (visit v c)) (v : Visited) :
    Visited.Grows p v (cs.foldl visit v) := by
  induction cs generalizing v with
  | nil => exact Visited.Grows.refl p v
  | cons c cs ih =>
    refine (h v c mem_cons_self).trans (ih (fun w d hd => h w d (mem_cons_of_mem _ hd)) _)

theorem mem_classes_of_embedded {d : Class} (h : d ∈ p.embedded c) : d ∈ p.classes := by
  simp only [embedded, mem_filterMap] at h
  obtain ⟨v, _, hd⟩ := h
  split at hd
  · nomatch hd
  · obtain ⟨name, _, hf⟩ := Option.bind_eq_some_iff.1 hd
    exact mem_of_find?_eq_some hf

/-- The visit of a class adds classes of the program. -/
theorem grows_visitClass (depth : Nat) (v : Visited) (c : Class) (hc : c ∈ p.classes) :
    Visited.Grows p v (p.visitClass depth v c) := by
  induction depth generalizing v c with
  | zero => exact Visited.Grows.refl p v
  | succ depth ih =>
    rw [visitClass]
    split
    · exact Visited.Grows.refl p v
    · rename_i hse
      have hnew : c.name ∉ v.seen := by simpa using hse
      obtain ⟨added, ho, hs, ha, hn⟩ := Visited.Grows.foldl (p.embedded c)
        (fun w d hd => ih w d (mem_classes_of_embedded hd)) { v with seen := c.name :: v.seen }
      refine ⟨added ++ [c], by simp [ho], ?_, ?_, ?_⟩
      · intro n
        simp only [hs, mem_cons, map_append, map_cons, mem_append]
        tauto
      · intro d hd
        rcases mem_append.1 hd with hd | hd
        · exact ⟨(ha d hd).1, fun hm => (ha d hd).2 (mem_cons_of_mem _ hm)⟩
        · rw [mem_singleton.1 hd]
          exact ⟨hc, hnew⟩
      · rw [map_append, map_singleton, ← concat_eq_append]
        refine .concat (fun hm => ?_) hn
        obtain ⟨d, hd, hname⟩ := mem_map.1 hm
        exact (ha d hd).2 (hname ▸ mem_cons_self)

/-- A visit of one level at least meets its class. -/
theorem mem_seen_visitClass (depth : Nat) (v : Visited) (c : Class) : c.name ∈ (p.visitClass (depth + 1) v c).seen := by
  rw [visitClass]
  split
  · rename_i hse
    simpa using hse
  · obtain ⟨_, _, hs, _, _⟩ := Visited.Grows.foldl (p.embedded c)
      (fun w d hd => grows_visitClass depth w d (mem_classes_of_embedded hd)) { v with seen := c.name :: v.seen }
    exact (hs _).2 (.inl mem_cons_self)

/-- The visits of some classes meet all of them. -/
theorem mem_seen_foldl (depth : Nat) {cs : List Class} (hsub : cs ⊆ p.classes) (v : Visited) (hc : c ∈ cs) :
    c.name ∈ (cs.foldl (p.visitClass (depth + 1)) v).seen := by
  induction cs generalizing v with
  | nil => nomatch hc
  | cons d cs ih =>
    have hcs : cs ⊆ p.classes := fun x hx => hsub (mem_cons_of_mem _ hx)
    rcases mem_cons.1 hc with rfl | hc
    · obtain ⟨_, _, hs, _, _⟩ := Visited.Grows.foldl cs
        (fun w x hx => grows_visitClass (depth + 1) w x (hcs hx)) (p.visitClass (depth + 1) v c)
      exact (hs _).2 (.inl (mem_seen_visitClass depth v c))
    · exact ih hcs _ hc

/-- With distinct names, the classes are written each exactly once. -/
theorem orderedClasses_perm (h : (p.classes.map Class.name).Nodup) : p.orderedClasses.Perm p.classes := by
  obtain ⟨added, ho, hs, ha, hn⟩ := Visited.Grows.foldl p.classes
    (fun v c hc => grows_visitClass (p.classes.length + 1) v c hc) {}
  have hord : p.orderedClasses = added := by simpa [orderedClasses] using ho
  rw [hord]
  refine (perm_ext_iff_of_nodup (List.Nodup.of_map _ hn) (List.Nodup.of_map _ h)).2 fun c => ?_
  constructor
  · exact fun hc => (ha c hc).1
  · intro hc
    have hse := mem_seen_foldl p.classes.length (List.Subset.refl p.classes) {} hc
    rcases (hs _).1 hse with hnil | hmem
    · nomatch hnil
    · obtain ⟨d, hd, hnm⟩ := mem_map.1 hmem
      rwa [← inj_on_of_nodup_map h (ha d hd).1 hc hnm]

/-! ## Embedded classes come first -/

/-- No class embeds itself, directly or through others. -/
def EmbeddingAcyclic (p : Program) : Prop :=
  ∀ c, ¬Relation.TransGen (fun a b => b ∈ p.embedded a) c c

/-- A rank that gets smaller from a class to those it embeds. -/
theorem EmbeddingAcyclic.of_rank (rank : Text → Nat)
    (h : ∀ c ∈ p.classes, ∀ d ∈ p.embedded c, rank d.name < rank c.name) : p.EmbeddingAcyclic := by
  intro c hcycle
  have hlower : ∀ d, Relation.TransGen (fun a b => b ∈ p.embedded a) c d → c ∈ p.classes → rank d.name < rank c.name := by
    intro d hd hc
    induction hd with
    | single hs => exact h c hc _ hs
    | tail hp hs ih =>
      obtain ⟨_, -, hl⟩ := Relation.TransGen.tail'_iff.1 hp
      exact Nat.lt_trans (h _ (mem_classes_of_embedded hl) _ hs) ih
  obtain ⟨_, -, hl⟩ := Relation.TransGen.tail'_iff.1 hcycle
  exact Nat.lt_irrefl _ (hlower c hcycle (mem_classes_of_embedded hl))

/-- Every class of the list comes after the classes that it embeds. -/
def EmbeddedFirst (p : Program) (order : List Class) : Prop :=
  ∀ before c after, order = before ++ c :: after → p.embedded c ⊆ before

theorem EmbeddedFirst.concat {order : List Class} (h : p.EmbeddedFirst order) (hc : p.embedded c ⊆ order) :
    p.EmbeddedFirst (order ++ [c]) := by
  intro before d after heq
  rcases eq_nil_or_concat after with rfl | ⟨after, e, rfl⟩
  · obtain ⟨rfl, hd⟩ := append_inj' heq rfl
    cases hd
    exact hc
  · rw [concat_eq_append, ← cons_append, ← append_assoc] at heq
    exact h before d after (append_inj' heq rfl).1

/-- The classes met are in the order after what they embed, or are visited. -/
structure Visited.Sorted (p : Program) (path : List Class) (v : Visited) : Prop where
  order : p.EmbeddedFirst v.order
  met : ∀ c ∈ p.classes, c.name ∈ v.seen → c ∈ v.order ∨ c ∈ path

/-- The number of classes that were not met. -/
def Visited.unmet (p : Program) (v : Visited) : Nat :=
  p.classes.countP fun c => !v.seen.contains c.name

theorem Visited.Grows.unmet_le (h : Visited.Grows p v w) : w.unmet p ≤ v.unmet p := by
  obtain ⟨added, -, hse, -, -⟩ := h
  refine countP_mono_left fun c _ hc => ?_
  simp only [Bool.not_eq_true', contains_eq_mem, decide_eq_false_iff_not] at hc ⊢
  exact fun hmem => hc ((hse _).2 (.inl hmem))

theorem Visited.Grows.order_subset (h : Visited.Grows p v w) : v.order ⊆ w.order := by
  obtain ⟨added, hord, -⟩ := h
  rw [hord]
  exact subset_append_left _ _

theorem unmet_cons_lt (hc : c ∈ p.classes) (hnew : c.name ∉ v.seen) :
    Visited.unmet p { v with seen := c.name :: v.seen } < v.unmet p := by
  obtain ⟨before, after, hspl⟩ := append_of_mem hc
  have hmono (cs : List Class) : cs.countP (fun d => !(c.name :: v.seen).contains d.name) ≤
      cs.countP fun d => !v.seen.contains d.name := by
    refine countP_mono_left fun d _ hd => ?_
    simp only [Bool.not_eq_true', contains_eq_mem, decide_eq_false_iff_not, mem_cons, not_or] at hd ⊢
    exact hd.2
  have hbef := hmono before
  have haft := hmono after
  have hold : (!v.seen.contains c.name) := by simpa using hnew
  have hmet : ((!(c.name :: v.seen).contains c.name)) = False := by simp
  simp only [Visited.unmet, hspl, countP_append, countP_cons, hold, hmet, if_true, if_false]
  omega

/-- The visits of classes that all of `path` reach put each in the order. -/
theorem sorted_foldl {limit : Nat} (cs : List Class) (hgr : ∀ v, ∀ c ∈ cs, Visited.Grows p v (visit v c))
    (hvis : ∀ v, v.unmet p < limit → v.Sorted p path → ∀ c ∈ cs, (visit v c).Sorted p path ∧ c ∈ (visit v c).order)
    (hlim : v.unmet p < limit) (hv : v.Sorted p path) : (cs.foldl visit v).Sorted p path ∧ cs ⊆ (cs.foldl visit v).order := by
  induction cs generalizing v with
  | nil => exact ⟨hv, nil_subset _⟩
  | cons c cs ih =>
    have hgr' : ∀ v, ∀ d ∈ cs, Visited.Grows p v (visit v d) := fun v d hd => hgr v d (mem_cons_of_mem _ hd)
    have hc := hgr v c mem_cons_self
    obtain ⟨hsorted, hmem⟩ := hvis v hlim hv c mem_cons_self
    obtain ⟨hfold, hsub⟩ := ih hgr' (fun v hl hv d hd => hvis v hl hv d (mem_cons_of_mem _ hd))
      (Nat.lt_of_le_of_lt hc.unmet_le hlim) hsorted
    have hlat := (Visited.Grows.foldl cs hgr' (visit v c)).order_subset
    exact ⟨hfold, cons_subset.2 ⟨hlat hmem, hsub⟩⟩

/-- The visit of a class that all of `path` reach. Every level meets one more class, so the bound is enough. -/
theorem sorted_visitClass (hns : (p.classes.map Class.name).Nodup) (hacyc : p.EmbeddingAcyclic) (depth : Nat)
    (hc : c ∈ p.classes) (hp : ∀ a ∈ path, Relation.TransGen (fun a b => b ∈ p.embedded a) a c)
    (hlim : v.unmet p < depth) (hv : v.Sorted p path) :
    (p.visitClass depth v c).Sorted p path ∧ c ∈ (p.visitClass depth v c).order := by
  induction depth generalizing v c path with
  | zero => nomatch hlim
  | succ depth ih =>
    rw [visitClass]
    split
    next hse =>
      refine ⟨hv, (hv.met c hc (by simpa using hse)).resolve_right ?_⟩
      exact fun hmem => hacyc c (hp c hmem)
    next hse =>
      have hnew : c.name ∉ v.seen := by simpa using hse
      have ho : Visited.Sorted p (c :: path) { v with seen := c.name :: v.seen } := by
        refine ⟨hv.order, fun d hd hmem => ?_⟩
        rcases mem_cons.1 hmem with hn | hmem
        · exact .inr (mem_cons.2 (.inl (inj_on_of_nodup_map hns hd hc hn)))
        · exact (hv.met d hd hmem).imp_right (mem_cons_of_mem _)
      have hreach : ∀ d ∈ p.embedded c, ∀ a ∈ c :: path, Relation.TransGen (fun a b => b ∈ p.embedded a) a d := by
        intro d hd a ha
        rcases mem_cons.1 ha with rfl | ha
        · exact .single hd
        · exact (hp a ha).tail hd
      obtain ⟨hsorted, hsub⟩ := sorted_foldl (p.embedded c)
        (fun w d hd => grows_visitClass depth w d (mem_classes_of_embedded hd))
        (fun w hw hs d hd => ih (mem_classes_of_embedded hd) (hreach d hd) hw hs)
        (Nat.lt_of_lt_of_le (unmet_cons_lt hc hnew) (Nat.le_of_lt_succ hlim)) ho
      refine ⟨⟨hsorted.order.concat hsub, fun d hd hmem => ?_⟩, mem_append_right _ mem_cons_self⟩
      rcases hsorted.met d hd hmem with hd | hd
      · exact .inl (mem_append_left _ hd)
      · rcases mem_cons.1 hd with rfl | hd
        · exact .inl (mem_append_right _ mem_cons_self)
        · exact .inr hd

/-- When no class embeds itself, each is written after those it embeds. -/
theorem orderedClasses_embedded (hns : (p.classes.map Class.name).Nodup) (hacyc : p.EmbeddingAcyclic) :
    p.EmbeddedFirst p.orderedClasses := by
  have hlim : Visited.unmet p {} < p.classes.length + 1 :=
    Nat.lt_succ_of_le countP_le_length
  have hst : Visited.Sorted p [] {} := ⟨fun before c after h => by simp at h, fun c _ h => absurd h not_mem_nil⟩
  have hvis : ∀ v : Visited, v.unmet p < p.classes.length + 1 → v.Sorted p [] → ∀ c ∈ p.classes,
      (p.visitClass (p.classes.length + 1) v c).Sorted p [] ∧ c ∈ (p.visitClass (p.classes.length + 1) v c).order :=
    fun v hl hv c hc => sorted_visitClass hns hacyc _ hc (fun a ha => absurd ha not_mem_nil) hl hv
  exact (sorted_foldl p.classes (grows_visitClass _) hvis hlim hst).1.order

end Program

end Declass
