import Declass.Proofs.Program.Order
import Declass.Proofs.Program.Replay

/-!
# Merging adds and keeps programs well-formed

In whatever order declarations come, the program is well-formed (`Program.WellFormed`) and is extended: keys stay where they are
(`Program.KeysKept`), and within an entry only gaps are filled. Main statement: `Program.absorbAll_extends`.
-/

namespace Declass

open Callable List

/-! ## Keys that stay -/

namespace Table

variable {α β : Type} {key : α → β} {R : α → α → Prop} {xs ys : List α}

/-- The keys of a table that grows are the first keys afterwards. -/
theorem Grows.keys_prefix (h : Grows key R xs ys) : xs.map key <+: ys.map key := by
  rw [prefix_iff_getElem?]
  intro i hi
  rw [length_map] at hi
  obtain ⟨y, hy, hk, -⟩ := h.kept i xs[i] (getElem?_eq_getElem hi)
  rw [getElem?_map, hy, getElem_map, Option.map_some, hk]

/-- With distinct keys an entry has grown from that of its key. -/
theorem Grows.of_key (h : Grows key R xs ys) (hys : (ys.map key).Nodup) {x y : α} (hx : x ∈ xs) (hy : y ∈ ys)
    (hk : key y = key x) : R x y := by
  obtain ⟨i, hi⟩ := mem_iff_getElem?.1 hx
  obtain ⟨z, hz, hkz, hxz⟩ := h.kept i x hi
  rwa [inj_on_of_nodup_map hys hy (mem_of_getElem? hz) (hk.trans hkz.symm)]

end Table

/-! ## Well-formed programs -/

namespace Class

/-- A field is added only under a new name. -/
theorem nodup_fields_addField {c : Class} (h : (c.fields.map Var.name).Nodup) (v : Var) :
    ((c.addField v).fields.map Var.name).Nodup := by
  unfold addField
  split
  · exact h
  next hnew =>
    exact Table.nodup_map_concat h fun w hw hname => hnew (find?_isSome.2 ⟨w, hw, decide_eq_true hname⟩)

end Class

namespace Program

/-- Every list has at most one entry for each key, and no overload set is empty or that of `main`. -/
structure WellFormed (p : Program) : Prop where
  /-- Classes, methods, enumerations and constants have distinct names. -/
  keyed : p.Keyed
  /-- Overload sets have distinct names; constructors and signatures of a set, distinct parameter types. -/
  merged : p.Merged
  fields : ∀ c ∈ p.classes, (c.fields.map Var.name).Nodup
  globals : (p.globals.map GlobalVar.name).Nodup
  inhabited : ∀ s ∈ p.functions, s.signatures ≠ []
  notMain : ∀ s ∈ p.functions, s.name ≠ "main".toList

namespace WellFormed

variable {p : Program}

theorem empty : WellFormed {} :=
  ⟨.empty, .empty, by simp, by simp, by simp, by simp⟩

/-- An edit that keeps the field names of a class distinct keeps them all so. -/
theorem fields_editClass (h : p.WellFormed) (name : Text) (keyword : RecordKeyword) {f : Class → Class}
    (hf : ∀ c, (c.fields.map Var.name).Nodup → ((f c).fields.map Var.name).Nodup) :
    ∀ c ∈ (p.editClass name keyword f).classes, (c.fields.map Var.name).Nodup :=
  Table.forall_mem_upsert h.fields (fun c _ => hf c) (hf _ (by simp))

theorem addSignature_ne_nil (fs : List Callable) (f : Callable) : addSignature fs f ≠ [] := by
  cases fs with
  | nil => simp [addSignature, Table.upsert]
  | cons g fs =>
    unfold addSignature Table.upsert
    split <;> simp

/-- A report of a function makes no empty set and none of `main`. -/
theorem addFunction (h : p.WellFormed) (f : Callable) : (∀ s ∈ (p.addFunction f).functions, s.signatures ≠ []) ∧
      ∀ s ∈ (p.addFunction f).functions, s.name ≠ "main".toList := by
  unfold Program.addFunction
  split
  · exact ⟨h.inhabited, h.notMain⟩
  next hm =>
    exact ⟨Table.forall_mem_upsert h.inhabited (fun s _ _ => addSignature_ne_nil s.signatures f) (by simp),
      Table.forall_mem_upsert h.notMain (fun _ _ hs => hs) hm⟩

/-- One more declaration keeps a program well-formed. -/
theorem absorb (h : p.WellFormed) (d : Declaration) : (p.absorb d).WellFormed := by
  have hkey := h.keyed.absorb d
  have hmrg := h.merged.absorb d
  cases d with
  | record name keyword origin =>
    exact ⟨hkey, hmrg, h.fields_editClass _ _ fun _ hc => hc, h.globals, h.inhabited, h.notMain⟩
  | field owner v =>
    exact ⟨hkey, hmrg, h.fields_editClass _ _ fun _ hc => Class.nodup_fields_addField hc v, h.globals, h.inhabited, h.notMain⟩
  | method owner d | constructor owner d | destructor owner =>
    exact ⟨hkey, hmrg, h.fields_editClass _ _ fun _ hc => hc, h.globals, h.inhabited, h.notMain⟩
  | enumeration name isScoped | constant enumeration name value =>
    exact ⟨hkey, hmrg, h.fields, h.globals, h.inhabited, h.notMain⟩
  | function d =>
    have hsets := h.addFunction (ofDecl d)
    have hr : (p.absorb (.function d)).classes = p.classes ∧ (p.absorb (.function d)).globals = p.globals := by
      simp only [Program.absorb, Program.addFunction]
      split <;> exact ⟨rfl, rfl⟩
    exact ⟨hkey, hmrg, hr.1 ▸ h.fields, hr.2 ▸ h.globals, hsets.1, hsets.2⟩
  | global v hasInit =>
    exact ⟨hkey, hmrg, h.fields, Table.nodup_upsert (fun _ => rfl) rfl h.globals, h.inhabited, h.notMain⟩

theorem absorbAll (h : p.WellFormed) (ds : List Declaration) : (p.absorbAll ds).WellFormed :=
  absorbAll_induction (fun _ d h => h.absorb d) h ds

end WellFormed

/-! ## More declarations -/

/-- The keys of every list come first in the same list of the other program, with types and values. -/
structure KeysKept (p q : Program) : Prop where
  classes : p.classes.map Class.name <+: q.classes.map Class.name
  enums : p.enums.map Enumeration.name <+: q.enums.map Enumeration.name
  functions : p.functions.map OverloadSet.name <+: q.functions.map OverloadSet.name
  globals : p.globals.map GlobalVar.name <+: q.globals.map GlobalVar.name
  fields : ∀ c ∈ p.classes, ∀ d ∈ q.classes, d.name = c.name → c.fields <+: d.fields
  methods : ∀ c ∈ p.classes, ∀ d ∈ q.classes, d.name = c.name →
    c.methods.map name <+: d.methods.map name
  constructors : ∀ c ∈ p.classes, ∀ d ∈ q.classes, d.name = c.name →
    c.constructors.map paramTypes <+: d.constructors.map paramTypes
  constants : ∀ e ∈ p.enums, ∀ e' ∈ q.enums, e'.name = e.name → e.constants <+: e'.constants
  signatures : ∀ s ∈ p.functions, ∀ t ∈ q.functions, t.name = s.name →
    s.signatures.map paramTypes <+: t.signatures.map paramTypes

theorem Grows.keysKept {p q : Program} (h : p.Grows q) (hq : q.WellFormed) : p.KeysKept q where
  classes := h.classes.keys_prefix
  enums := h.enums.keys_prefix
  functions := h.functions.keys_prefix
  globals := h.globals.keys_prefix
  fields _ hc _ hd hn := (h.classes.of_key hq.keyed.classes hc hd hn).fields
  methods _ hc _ hd hn := (h.classes.of_key hq.keyed.classes hc hd hn).methods.keys_prefix
  constructors _ hc _ hd hn := (h.classes.of_key hq.keyed.classes hc hd hn).constructors.keys_prefix
  constants _ he _ he' hn := (h.enums.of_key hq.keyed.enums he he' hn).constants
  signatures _ hs _ ht hn := (h.functions.of_key hq.merged.sets hs ht hn).signatures.keys_prefix

/-- The program of some declarations is well-formed, and further ones extend it: its keys stay in place before all new ones,
and each entry keeps what it holds. -/
theorem absorbAll_extends (es fs : List Declaration) :
    (absorbAll {} es).WellFormed ∧ (absorbAll {} es).KeysKept (absorbAll {} (es ++ fs)) ∧
      (absorbAll {} es).Grows (absorbAll {} (es ++ fs)) := by
  have hgrows : (absorbAll {} es).Grows (absorbAll {} (es ++ fs)) := by
    rw [absorbAll_append]
    exact grows_absorbAll _ fs
  exact ⟨WellFormed.empty.absorbAll es, hgrows.keysKept (WellFormed.empty.absorbAll (es ++ fs)), hgrows⟩

end Program

end Declass
