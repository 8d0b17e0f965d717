import Declass.Program.Build
import Mathlib.Data.List.Nodup

/-!
# Names that tell declarations apart

Every list of a program has at most one entry for each name, also when it is finished. `main` is kept apart from the functions.
-/

namespace Declass

open List

/-! ## Tables -/

namespace Table

variable {α β : Type} {xs : List α}

theorem nodup_map_concat {key : α → β} {x : α} (h : (xs.map key).Nodup) (hx : ∀ y ∈ xs, key y ≠ key x) :
    ((xs ++ [x]).map key).Nodup := by
  rw [map_append, map_singleton, ← concat_eq_append]
  refine .concat (fun hm => ?_) h
  obtain ⟨y, hy, hk⟩ := mem_map.1 hm
  exact hx y hy hk

/-- An edit of the entry with the key of `fresh` keeps keys distinct. -/
theorem nodup_upsert [DecidableEq β] {key : α → β} {k : β} {f : α → α} {fresh : α} (hf : ∀ x, key (f x) = key x)
    (hk : key fresh = k) (h : (xs.map key).Nodup) : ((upsert (fun x => key x = k) f fresh xs).map key).Nodup := by
  rw [map_upsert key _ f fresh hf]
  split
  · exact h
  · rename_i hany
    rw [← map_singleton, ← map_append]
    exact nodup_map_concat h fun x hx hkey => hany (any_eq_true.2 ⟨x, hx, decide_eq_true (hkey.trans hk)⟩)

/-- What holds of old, edited and new entries holds of all afterwards. -/
theorem forall_mem_upsert {p : α → Bool} {f : α → α} {fresh : α} {P : α → Prop} (h : ∀ x ∈ xs, P x)
    (hf : ∀ x, p x → P x → P (f x)) (hfr : P fresh) : ∀ x ∈ upsert p f fresh xs, P x := by
  induction xs with
  | nil => simpa [upsert] using hfr
  | cons x xs ih =>
    rw [forall_mem_cons] at h
    unfold upsert
    split
    · rename_i hx
      exact forall_mem_cons.2 ⟨hf x hx h.1, h.2⟩
    · exact forall_mem_cons.2 ⟨h.1, ih h.2⟩

end Table

/-! ## One declaration -/

namespace Class

/-- The methods of the class have distinct names. -/
def Keyed (c : Class) : Prop :=
  (c.methods.map Callable.name).Nodup

variable {c : Class}

theorem Keyed.addField (h : c.Keyed) (v : Var) : (c.addField v).Keyed := by
  unfold Class.addField
  split <;> exact h

theorem Keyed.addMethod (h : c.Keyed) (f : Callable) : (c.addMethod f).Keyed :=
  Table.nodup_upsert (fun _ => rfl) rfl h

@[simp]
theorem name_addField (c : Class) (v : Var) : (c.addField v).name = c.name := by
  unfold addField
  split <;> rfl

end Class

namespace Enumeration

/-- The constants of the enumeration have distinct names. -/
def Keyed (e : Enumeration) : Prop :=
  (e.constants.map EnumConstant.name).Nodup

theorem Keyed.addConstant {e : Enumeration} (h : e.Keyed) (k : EnumConstant) : (e.addConstant k).Keyed := by
  unfold Enumeration.addConstant
  split
  · exact h
  · rename_i hany
    exact Table.nodup_map_concat h fun j hj hname => hany (any_eq_true.2 ⟨j, hj, decide_eq_true hname⟩)

@[simp]
theorem name_addConstant (e : Enumeration) (k : EnumConstant) : (e.addConstant k).name = e.name := by
  unfold addConstant
  split <;> rfl

end Enumeration

namespace Program

/-- Names tell declarations apart, and no function is `main`. -/
structure Keyed (p : Program) : Prop where
  classes : (p.classes.map Class.name).Nodup
  methods : ∀ c ∈ p.classes, c.Keyed
  enums : (p.enums.map Enumeration.name).Nodup
  constants : ∀ e ∈ p.enums, e.Keyed
  functions : ∀ f ∈ p.signatures, f.name ≠ "main".toList

theorem Keyed.empty : Keyed {} :=
  ⟨by simp, by simp, by simp, by simp, by simp [signatures]⟩

variable {p : Program}

theorem Keyed.editClass (h : p.Keyed) (name : Text) (keyword : RecordKeyword) {f : Class → Class}
    (hn : ∀ c, (f c).name = c.name) (hf : ∀ c, c.Keyed → (f c).Keyed) : (p.editClass name keyword f).Keyed where
  classes := Table.nodup_upsert hn (hn _) h.classes
  methods := Table.forall_mem_upsert h.methods (fun c _ => hf c) (hf _ (by simp [Class.Keyed]))
  enums := h.enums
  constants := h.constants
  functions := h.functions

theorem Keyed.addFunction (h : p.Keyed) (f : Callable) : (p.addFunction f).Keyed := by
  unfold Program.addFunction
  split
  · exact ⟨h.classes, h.methods, h.enums, h.constants, h.functions⟩
  · rename_i hm
    refine ⟨h.classes, h.methods, h.enums, h.constants, ?_⟩
    have hold : ∀ s ∈ p.functions, ∀ g ∈ s.signatures, g.name ≠ "main" := by
      intro s hs g hg
      exact h.functions g (mem_flatMap.2 ⟨s, hs, hg⟩)
    have hset : ∀ s : OverloadSet, (∀ g ∈ s.signatures, g.name ≠ "main") →
        ∀ g ∈ Callable.addSignature s.signatures f, g.name ≠ "main" :=
      fun s hs => Table.forall_mem_upsert hs (fun g _ hg => hg) hm
    intro g hg
    obtain ⟨s, hs, hg⟩ := mem_flatMap.1 hg
    exact Table.forall_mem_upsert hold (fun s _ => hset s) (by simpa using hm) s hs g hg

/-- One more declaration keeps the names apart. -/
theorem Keyed.absorb (h : p.Keyed) (d : Declaration) : (p.absorb d).Keyed := by
  cases d with
  | record name keyword origin => exact h.editClass name keyword (fun _ => rfl) fun _ hc => hc
  | field owner v => exact h.editClass owner .classWord (fun _ => by simp) fun _ hc => hc.addField v
  | method owner d => exact h.editClass owner .classWord (fun _ => rfl) fun _ hc => hc.addMethod _
  | constructor owner d => exact h.editClass owner .classWord (fun _ => rfl) fun _ hc => hc
  | destructor owner => exact h.editClass owner .classWord (fun _ => rfl) fun _ hc => hc
  | enumeration name isScoped =>
    exact ⟨h.classes, h.methods, Table.nodup_upsert (fun _ => rfl) rfl h.enums,
      Table.forall_mem_upsert h.constants (fun _ _ he => he) (by simp [Enumeration.Keyed]), h.functions⟩
  | constant enumeration name value =>
    refine ⟨h.classes, h.methods, ?_, ?_, h.functions⟩
    · show ((p.enums.map _).map Enumeration.name).Nodup
      rw [map_map]
      refine (map_congr_left ?_).symm ▸ h.enums
      intro e _
      simp only [Function.comp_apply]
      split <;> simp
    · intro e he
      obtain ⟨e', he', rfl⟩ := mem_map.1 he
      split
      · exact (h.constants e' he').addConstant _
      · exact h.constants e' he'
  | function d => exact h.addFunction _
  | global v hasInit => exact ⟨h.classes, h.methods, h.enums, h.constants, h.functions⟩

/-! ## All declarations -/

/-- What each declaration keeps, all declarations keep. -/
theorem absorbAll_induction {P : Program → Prop} (hstep : ∀ p d, P p → P (p.absorb d)) (h : P p) (ds : List Declaration) :
    P (p.absorbAll ds) := by
  induction ds generalizing p with
  | nil => exact h
  | cons d ds ih => exact ih (hstep p d h)

theorem Keyed.absorbAll (h : p.Keyed) (ds : List Declaration) : (p.absorbAll ds).Keyed :=
  absorbAll_induction (fun _ d h => h.absorb d) h ds

theorem Keyed.withoutPlain (h : p.Keyed) : p.withoutPlain.Keyed where
  classes := h.classes.sublist (filter_sublist.map _)
  methods c hc := h.methods c (mem_of_mem_filter hc)
  enums := h.enums
  constants := h.constants
  functions := h.functions

theorem Keyed.named (h : p.Keyed) : p.named.Keyed where
  classes := by
    show ((p.classes.map Class.named).map Class.name).Nodup
    rw [map_map]
    exact h.classes
  methods := by
    intro c hc
    obtain ⟨c', hc', rfl⟩ := mem_map.1 hc
    show ((c'.methods.map _).map Callable.name).Nodup
    rw [map_map]
    exact h.methods c' hc'
  enums := h.enums
  constants := h.constants
  functions := by
    intro f hf
    obtain ⟨s, hs, hfs⟩ := mem_flatMap.1 hf
    obtain ⟨s', hs', rfl⟩ := mem_map.1 hs
    obtain ⟨f', hf', rfl⟩ := mem_map.1 hfs
    exact h.functions f' (mem_flatMap.2 ⟨s', hs', hf'⟩)

end Program

end Declass
