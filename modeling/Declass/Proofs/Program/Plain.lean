import Declass.Proofs.Program.Merging

/-!
# Programs of plain data

A record is plain when it was never called a class and has neither methods nor constructors. Plain reports leave all records plain
(`Program.AllPlain.absorbAll`), and the finished program has no classes (`Program.AllPlain.finish_isOk_iff`).
-/

namespace Declass

open Declaration List

namespace Declaration

/-- The name of a reported record. -/
def recordName? : Declaration → Option Text
  | .record name _ _ => some name
  | _ => none

/-- The names of the reported records. -/
def recordNames (ds : List Declaration) : List Text :=
  ds.filterMap recordName?

/-- The report leaves records plain, after reports of those `known`. -/
def PlainAfter (known : List Text) : Declaration → Prop
  | .record _ keyword _ => keyword = .structWord
  | .field owner _ => owner ∈ known
  | .method _ _ | .constructor _ _ | .destructor _ => False
  | _ => True

/-- The reports leave records plain, one after the other. -/
def PlainFrom (known : List Text) : List Declaration → Prop
  | [] => True
  | d :: ds => d.PlainAfter known ∧ PlainFrom (known ++ d.recordName?.toList) ds

theorem recordNames_cons (d : Declaration) (ds : List Declaration) :
    recordNames (d :: ds) = d.recordName?.toList ++ recordNames ds := by
  rw [recordNames, filterMap_cons]
  cases d.recordName? <;> rfl

variable {known : List Text} {ds : List Declaration} {f : Declaration → Declaration}

theorem plainFrom_append {es : List Declaration} :
    PlainFrom known (ds ++ es) ↔ PlainFrom known ds ∧ PlainFrom (known ++ recordNames ds) es := by
  induction ds generalizing known with
  | nil => simp [PlainFrom, recordNames]
  | cons d ds ih =>
    rw [cons_append, PlainFrom, PlainFrom, ih, recordNames_cons, append_assoc, and_assoc]

/-- An edit of a report that changes nothing about records. -/
structure KeepsPlain (f : Declaration → Declaration) : Prop where
  recordName? : ∀ d, (f d).recordName? = d.recordName?
  plainAfter : ∀ known d, PlainAfter known d → PlainAfter known (f d)

theorem KeepsPlain.recordNames_modify (hf : KeepsPlain f) (i : Nat) : recordNames (ds.modify i f) = recordNames ds := by
  induction ds generalizing i with
  | nil => rw [modify_nil]
  | cons d ds ih =>
    cases i with
    | zero => rw [modify_zero_cons, recordNames_cons, recordNames_cons, hf.recordName?]
    | succ i => rw [modify_succ_cons, recordNames_cons, recordNames_cons, ih]

theorem KeepsPlain.plainFrom_modify (hf : KeepsPlain f) (h : PlainFrom known ds) (i : Nat) : PlainFrom known (ds.modify i f) := by
  induction ds generalizing known i with
  | nil => rwa [modify_nil]
  | cons d ds ih =>
    cases i with
    | zero => exact ⟨hf.plainAfter known d h.1, by rw [hf.recordName?]; exact h.2⟩
    | succ i => exact ⟨h.1, ih h.2 i⟩

end Declaration

/-- What holds of the entries and an edited one holds of all. -/
theorem Table.forall_mem_upsert_known {α : Type} {p : α → Bool} {f : α → α} {fresh : α} {P : α → Prop} {xs : List α}
    (h : ∀ x ∈ xs, P x) (hf : ∀ x, P x → P (f x)) (hkn : ∃ x ∈ xs, p x) : ∀ x ∈ upsert p f fresh xs, P x := by
  rcases first_or_none p xs with ⟨as, x, bs, rfl, hx, has⟩ | hno
  · rw [upsert_append has hx]
    intro y hy
    rcases mem_append.1 hy with hy | hy
    · exact h y (mem_append_left _ hy)
    rcases mem_cons.1 hy with rfl | hy
    · exact hf x (h x (by simp))
    · exact h y (by simp [hy])
  · obtain ⟨x, hx, hpx⟩ := hkn
    rw [hno x hx] at hpx
    nomatch hpx

namespace Class

theorem isPlain_addField (c : Class) (v : Var) : (c.addField v).isPlain = c.isPlain := by
  unfold addField
  split <;> rfl

end Class

namespace Program

variable {p : Program} {n : Text} {known : List Text} {ds : List Declaration}

/-- All records are plain. -/
def AllPlain (p : Program) : Prop :=
  ∀ c ∈ p.classes, c.isPlain = true

theorem mem_names_editClass {f : Class → Class} (hf : ∀ c, (f c).name = c.name) (name : Text) (keyword : RecordKeyword) :
    n ∈ (p.editClass name keyword f).classes.map Class.name ↔ n ∈ p.classes.map Class.name ∨ n = name :=
  Table.mem_map_upsert hf (hf { name, keyword })

section

variable (h : p.AllPlain)

include h

theorem AllPlain.absorb (hkn : known ⊆ p.classes.map Class.name) {d : Declaration} (hd : d.PlainAfter known) :
    (p.absorb d).AllPlain ∧ known ++ d.recordName?.toList ⊆ (p.absorb d).classes.map Class.name := by
  cases d with
  | record name keyword origin =>
    obtain rfl : keyword = .structWord := hd
    constructor
    · exact Table.forall_mem_upsert h (fun c _ hc => hc) rfl
    · intro n hn
      refine (mem_names_editClass (f := (·.addRecord .structWord origin)) (fun _ => rfl) name .structWord).2 ?_
      rcases mem_append.1 hn with hn | hn
      · exact .inl (hkn hn)
      · exact .inr (mem_singleton.1 hn)
  | field owner v =>
    obtain ⟨c, hc, hnm⟩ := mem_map.1 (hkn hd)
    constructor
    · exact Table.forall_mem_upsert_known h (fun c hc => (c.isPlain_addField v).trans hc) ⟨c, hc, decide_eq_true hnm⟩
    · intro n hn
      refine (mem_names_editClass (fun c => c.name_addField v) owner .classWord).2 (.inl (hkn ?_))
      simpa [recordName?] using hn
  | method | constructor | destructor => exact False.elim hd
  | function f =>
    have hcls : (p.absorb (.function f)).classes = p.classes := by
      simp only [Program.absorb, addFunction]
      split <;> rfl
    rw [AllPlain, hcls]
    exact ⟨h, fun n hn => hkn (by simpa [recordName?] using hn)⟩
  | enumeration _ _ | constant _ _ _ | global _ _ =>
    exact ⟨h, fun n hn => hkn (by simpa [recordName?] using hn)⟩

theorem AllPlain.absorbAll (hkn : known ⊆ p.classes.map Class.name) (hds : PlainFrom known ds) : (p.absorbAll ds).AllPlain := by
  induction ds generalizing p known with
  | nil => exact h
  | cons d ds ih =>
    obtain ⟨hpl, hns⟩ := h.absorb hkn hds.1
    exact ih hpl hns hds.2

/-- Lists of reports that are plain are plain together. -/
theorem AllPlain.absorbAll_flatten {dumps : List (List Declaration)}
    (hdmp : ∀ ds ∈ dumps, PlainFrom [] ds) : (p.absorbAll dumps.flatten).AllPlain := by
  induction dumps generalizing p with
  | nil => exact h
  | cons ds dumps ih =>
    rw [flatten_cons, Program.absorbAll, foldl_append]
    refine ih ?_ fun es hes => hdmp es (mem_cons_of_mem _ hes)
    exact h.absorbAll (nil_subset _) (hdmp ds mem_cons_self)

/-! ## Finishing -/

theorem AllPlain.classes_named : p.withoutPlain.named.classes = [] := by
  refine map_eq_nil_iff.2 (filter_eq_nil_iff.2 fun c hc => ?_)
  simp [h c hc]

theorem AllPlain.classes_finish {q : Program} (hq : p.finish = .ok q) : q.classes = [] := by
  obtain ⟨rfl, -⟩ := finish_eq_ok hq
  exact h.classes_named

/-- A plain program is finished unless two functions get one C name. -/
theorem AllPlain.finish_isOk_iff : (∃ q, p.finish = .ok q) ↔ (p.named.signatures.map Callable.cName).Nodup := by
  rw [exists_finish_iff, h.classes_named]
  exact ⟨fun hall => hall.2, fun hall => ⟨by simp, hall⟩⟩

end

section

variable (h : ∀ a b, .function a ∈ ds → .function b ∈ ds → a.name = b.name → a.identity = b.identity)

include h

/-- A name reported with one list of types is held with one. -/
theorem types_eq_of_same
    {ts us : List Text} (hts : (absorbAll {} ds).Holds (.signature n ts)) (hus : (absorbAll {} ds).Holds (.signature n us)) :
    ts = us := by
  have hrep : ∀ vs, (absorbAll {} ds).Holds (.signature n vs) →
      ∃ a, .function a ∈ ds ∧ a.identity = .signature n vs := by
    intro vs hvs
    obtain ⟨f, hf, hkey⟩ := mem_map.1 ((Merged.empty.absorbAll ds).mem_signatures_iff.2 hvs)
    obtain ⟨rfl, rfl⟩ := Prod.mk.inj hkey
    obtain ⟨a, ha, hid⟩ := exists_report (mem_append_right _ hf)
    have hnotMain := (Keyed.empty.absorbAll ds).functions f hf
    exact ⟨a, ha, hid.trans (Callable.identity_eq_signature_iff.2 ⟨hnotMain, rfl, rfl⟩)⟩
  obtain ⟨a, ha, hats⟩ := hrep ts hts
  obtain ⟨b, hb, hbus⟩ := hrep us hus
  have hn : a.name = b.name :=
    (Callable.identity_eq_signature_iff.1 hats).2.1.trans (Callable.identity_eq_signature_iff.1 hbus).2.1.symm
  have hs : Fact.signature n ts = .signature n us := hats.symm.trans ((h a b ha hb hn).trans hbus)
  cases hs
  rfl

/-- When function names have one list of types each, no two get one C name. -/
theorem nodup_cNames_of_same : ((absorbAll {} ds).named.signatures.map Callable.cName).Nodup := by
  have hmrg := Merged.empty.absorbAll ds
  have hplainName : ∀ n ts, (absorbAll {} ds).functionName n ts = n := by
    intro n ts
    have hnot : (absorbAll {} ds).overloads n = false := by
      rw [Bool.eq_false_iff]
      intro hover
      obtain ⟨ts, us, hne, hts, hus⟩ := hmrg.overloads_iff.1 hover
      exact hne (types_eq_of_same h hts hus)
    rw [functionName, hnot]
    rfl
  refine hmrg.nodup_functions_iff.2 ?_
  intro n ts m us hts hus heq
  rw [hplainName, hplainName] at heq
  subst heq
  exact ⟨rfl, types_eq_of_same h hts hus⟩

end

end Program

end Declass
