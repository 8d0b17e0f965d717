import Declass.Proofs.Program.Merging

/-!
# When names collide

A C name is made from the tags of parameter types, which can be read off it (`Tag.suffix_eq_iff`). So the declarations tell whether a
program can be finished, and under which names. Main statement: `Program.finish_collides_iff`.
-/

namespace Declass

open Callable Declaration List

/-! ## Tags in names -/

namespace Tag

/-- The tags of a parameter list. -/
def sequence (types : List Text) : List Tag :=
  types.map ofSpelling

theorem letter_injective : Function.Injective letter := by
  intro a b h
  cases a <;> cases b <;> first | rfl | exact absurd h (by decide)

variable {ts us : List Text}

theorem letters_eq_iff : (ts.flatMap fun t => ['_', (ofSpelling t).letter]) = (us.flatMap fun u => ['_', (ofSpelling u).letter]) ↔
      sequence ts = sequence us := by
  induction ts generalizing us with
  | nil => cases us <;> simp [sequence]
  | cons t ts ih =>
    cases us with
    | nil => simp [sequence]
    | cons u us =>
      have hr := @ih us
      simp [sequence, hr, letter_injective.eq_iff]

/-- No tag is written like the start of `_void`. -/
theorem void_ne_letters (t : Text) : ("_void" : Text) ≠ (t :: ts).flatMap fun t => ['_', (ofSpelling t).letter] := by
  intro h
  have hletter : 'v' = (ofSpelling t).letter := (List.cons.inj (List.cons.inj h).2).1
  cases ht : ofSpelling t <;> rw [ht] at hletter <;> exact absurd hletter (by decide)

/-- Parameter lists add the same to a name just if their tags agree. -/
theorem suffix_eq_iff : suffix ts = suffix us ↔ sequence ts = sequence us := by
  cases ts with
  | nil =>
    cases us with
    | nil => simp
    | cons u us => exact iff_of_false (void_ne_letters u) (by simp [sequence])
  | cons t ts =>
    cases us with
    | nil => exact iff_of_false (void_ne_letters t).symm (by simp [sequence])
    | cons u us => exact letters_eq_iff

end Tag

theorem Program.constructorName_eq_iff {owner : Text} {ts us : List Text} :
    constructorName owner ts = constructorName owner us ↔ Tag.sequence ts = Tag.sequence us := by
  have hc (t : Text) (ts : List Text) :
      constructorName owner (t :: ts) = constructorName owner [] ++ Tag.suffix (t :: ts) := rfl
  have hne (t : Text) (ts : List Text) : constructorName owner [] ≠ constructorName owner (t :: ts) := by
    intro h
    rw [hc, self_eq_append_right] at h
    cases h
  cases ts with
  | nil =>
    cases us with
    | nil => simp
    | cons u us => exact iff_of_false (hne u us) (by simp [Tag.sequence])
  | cons t ts =>
    cases us with
    | nil => exact iff_of_false (hne t ts).symm (by simp [Tag.sequence])
    | cons u us => rw [hc, hc, append_cancel_left_eq, Tag.suffix_eq_iff]

/-! ## Constructors and functions as they are reported -/

namespace Declaration

/-- One of the declarations states the fact. -/
def Stated (ds : List Declaration) (x : Fact) : Prop :=
  ∃ d ∈ ds, x ∈ d.facts

end Declaration

namespace Program

variable {p : Program} {x : Fact}

theorem holds_absorbAll_callable (hx : x.isCallable) (ds : List Declaration) :
    (p.absorbAll ds).Holds x ↔ p.Holds x ∨ Stated ds x := by
  induction ds generalizing p with
  | nil => simp [absorbAll, Stated]
  | cons d ds ih =>
    calc (p.absorbAll (d :: ds)).Holds x
        ↔ (p.absorb d).Holds x ∨ Stated ds x := ih
      _ ↔ p.Holds x ∨ Stated (d :: ds) x := by
          rw [holds_absorb fun _ _ => .inr hx, or_assoc, Stated, Stated, exists_mem_cons_iff]

theorem holds_callable_iff (hx : x.isCallable) {ds : List Declaration} :
    (absorbAll {} ds).Holds x ↔ Stated ds x :=
  (holds_absorbAll_callable hx ds).trans (or_iff_right not_holds_empty)

end Program

/-! ## Names of functions -/

namespace Declaration

/-- The parameter types that a fact states of a function called `name`. -/
def typesIn (name : Text) : Fact → Option (List Text)
  | .signature n types => if n = name then some types else none
  | _ => none

/-- The parameter types that functions `name` are reported with. -/
def typesOf (ds : List Declaration) (name : Text) : List (List Text) :=
  (ds.flatMap facts).filterMap (typesIn name)

theorem mem_typesOf_iff {ds : List Declaration} {name : Text} {types : List Text} :
    types ∈ typesOf ds name ↔ Stated ds (.signature name types) := by
  have hfact (x : Fact) : typesIn name x = some types ↔ x = .signature name types := by
    cases x with
    | signature n ts =>
      simp only [typesIn]
      split <;> simp_all
    | _ => simp [typesIn]
  simp only [typesOf, mem_filterMap, mem_flatMap, hfact]
  constructor
  · rintro ⟨x, ⟨d, hd, hx⟩, rfl⟩
    exact ⟨d, hd, hx⟩
  · rintro ⟨d, hd, hx⟩
    exact ⟨_, ⟨d, hd, hx⟩, rfl⟩

/-- The C name of a function: its own if it has one signature, else tagged. -/
def functionName (ds : List Declaration) (name : Text) (types : List Text) : Text :=
  if (typesOf ds name).all (· = types) then name else Tag.mangled name types

end Declaration

namespace Program

variable {ds : List Declaration} {ts : List Text} {s : OverloadSet} {q : Program}

/-- The C names of a program can be told from its declarations. -/
theorem functionName_absorbAll {name : Text} {types : List Text} (h : Stated ds (.signature name types)) :
    (absorbAll {} ds).functionName name types = Declaration.functionName ds name types := by
  have hho (ts : List Text) : (absorbAll {} ds).Holds (.signature name ts) ↔ ts ∈ typesOf ds name :=
    (holds_callable_iff rfl).trans mem_typesOf_iff.symm
  have hmem : types ∈ typesOf ds name := mem_typesOf_iff.2 h
  have hover : (absorbAll {} ds).overloads name = !(typesOf ds name).all (· = types) := by
    rw [Bool.eq_iff_iff, (Merged.empty.absorbAll ds).overloads_iff]
    simp only [hho, Bool.not_eq_true', all_eq_false, decide_eq_true_eq]
    constructor
    · rintro ⟨ts, us, hne, hts, hus⟩
      by_cases hts' : ts = types
      · exact ⟨us, hus, fun hus' => hne (hts'.trans hus'.symm)⟩
      · exact ⟨ts, hts, hts'⟩
    · rintro ⟨ts, hts, hne⟩
      exact ⟨ts, types, hne, hts, hmem⟩
  rw [functionName, Declaration.functionName, hover]
  cases (typesOf ds name).all (· = types) <;> rfl

/-! ## Collisions -/

/-- A kept class has two constructors with the same tags but different types. -/
def ConstructorsClash (ds : List Declaration) : Prop :=
  ∃ c ∈ (absorbAll {} ds).withoutPlain.classes, ∃ ts us, Stated ds (.constructor c.name ts) ∧
    Stated ds (.constructor c.name us) ∧ ts ≠ us ∧ Tag.sequence ts = Tag.sequence us

/-- Two different functions are reported that get one C name. -/
def FunctionsClash (ds : List Declaration) : Prop :=
  ∃ n ts m us, Stated ds (.signature n ts) ∧ Stated ds (.signature m us) ∧ (n, ts) ≠ (m, us) ∧
    Declaration.functionName ds n ts = Declaration.functionName ds m us

theorem exists_error_iff {p : Program} : (∃ e, p.finish = .error e) ↔ ¬∃ q, p.finish = .ok q := by
  cases p.finish <;> simp

/-- A class with a constructor is kept. -/
theorem exists_kept_class {owner : Text} (h : Stated ds (.constructor owner ts)) :
    ∃ c ∈ (absorbAll {} ds).withoutPlain.classes, c.name = owner := by
  have hmrg : (absorbAll {} ds).Merged := Merged.empty.absorbAll ds
  have hho : (absorbAll {} ds).Holds (.constructor owner ts) := (holds_callable_iff rfl).2 h
  have hk : (absorbAll {} ds).withoutPlain.Holds (.constructor owner ts) := by
    refine hmrg.holds_withoutPlain.2 ⟨hho, ?_⟩
    intro name hn
    cases hn
    exact .inr (.inr ⟨ts, hho⟩)
  obtain ⟨c, hc, hn, -⟩ := (holds_iff_of_class? rfl).1 hk
  exact ⟨c, hc, hn⟩

theorem apart_iff : (absorbAll {} ds).Apart ↔ ¬(ConstructorsClash ds ∨ FunctionsClash ds) := by
  constructor
  · rintro ⟨hctors, hfuns⟩ (⟨c, -, ts, us, hts, hus, hne, htags⟩ | ⟨n, ts, m, us, hts, hus, hne, hn⟩)
    · exact hne (hctors c.name ts us ((holds_callable_iff rfl).2 hts) ((holds_callable_iff rfl).2 hus)
        (constructorName_eq_iff.2 htags))
    · rw [← functionName_absorbAll hts, ← functionName_absorbAll hus] at hn
      obtain ⟨rfl, rfl⟩ := hfuns n ts m us ((holds_callable_iff rfl).2 hts) ((holds_callable_iff rfl).2 hus) hn
      exact hne rfl
  · intro hno
    refine ⟨fun owner ts us hts hus hn => ?_, fun n ts m us hts hus hn => ?_⟩
    · have hts := (holds_callable_iff rfl).1 hts
      have hus := (holds_callable_iff rfl).1 hus
      obtain ⟨c, hc, rfl⟩ := exists_kept_class hts
      by_contra hne
      exact hno (.inl ⟨c, hc, ts, us, hts, hus, hne, constructorName_eq_iff.1 hn⟩)
    · have hts := (holds_callable_iff rfl).1 hts
      have hus := (holds_callable_iff rfl).1 hus
      rw [functionName_absorbAll hts, functionName_absorbAll hus] at hn
      by_contra hne
      exact hno (.inr ⟨n, ts, m, us, hts, hus, fun heq => hne (Prod.mk.inj heq), hn⟩)

/-- The overload set has the signatures reported under its name, with the C names that the reports give, all distinct. -/
structure SetNamed (ds : List Declaration) (s : OverloadSet) : Prop where
  types : (s.signatures.map paramTypes).Nodup
  reported : ∀ ts, ts ∈ s.signatures.map paramTypes ↔ Stated ds (.signature s.name ts)
  names : s.signatures.map cName =
    (s.signatures.map paramTypes).map (Declaration.functionName ds s.name)
  distinct : (s.signatures.map cName).Nodup
  notMain : "main".toList ∉ s.signatures.map cName

theorem mem_types_iff (hs : s ∈ (absorbAll {} ds).functions) :
    ts ∈ s.signatures.map paramTypes ↔ Stated ds (.signature s.name ts) := by
  rw [← holds_callable_iff rfl, holds_signature_iff]
  refine ⟨fun hts => ⟨s, hs, rfl, hts⟩, ?_⟩
  rintro ⟨t, ht, hn, hts⟩
  rwa [← inj_on_of_nodup_map (Merged.empty.absorbAll ds).sets ht hs hn]

theorem setNamed_of_finish (h : (absorbAll {} ds).finish = .ok q) (hs : s ∈ q.functions) : SetNamed ds s := by
  have hfin : q.Finished := finished_of_finish (Keyed.empty.absorbAll ds) h
  have hsig : ∀ f ∈ s.signatures, f ∈ q.signatures := fun f hf => mem_flatMap.2 ⟨s, hs, hf⟩
  obtain ⟨rfl, -⟩ := finish_eq_ok h
  have hmrg : (absorbAll {} ds).Merged := Merged.empty.absorbAll ds
  obtain ⟨t, ht, rfl⟩ := mem_map.1 hs
  have htys : t.named.signatures.map paramTypes = t.signatures.map paramTypes := by
    simp [OverloadSet.named, paramTypes]
  have hrep (ts : List Text) : ts ∈ t.named.signatures.map paramTypes ↔ _ := htys ▸ mem_types_iff ht
  refine ⟨htys ▸ hmrg.signatures t ht, hrep, ?_, ?_, ?_⟩
  · rw [map_map]
    refine map_congr_left fun f hf => ?_
    have hstate := (hrep f.paramTypes).1 (mem_map_of_mem hf)
    have hn : f.name = t.name := by
      obtain ⟨g, hg, rfl⟩ := mem_map.1 hf
      exact hmrg.names t ht g hg
    have hcName : f.cName = (absorbAll {} ds).functionName f.name f.paramTypes := by
      have hf : f ∈ (absorbAll {} ds).named.signatures := hsig f hf
      rw [hmrg.signatures_named] at hf
      obtain ⟨g, -, rfl⟩ := mem_map.1 hf
      rfl
    rw [hcName, hn]
    exact functionName_absorbAll hstate
  · have hns := hfin.signatureNames
    rw [signatures, map_flatMap, nodup_flatMap] at hns
    exact hns.1 _ hs
  · intro hm
    obtain ⟨f, hf, hn⟩ := mem_map.1 hm
    exact hfin.signatureName f (hsig f hf) hn

/-- Every reported function has an overload set. -/
theorem mem_sets_of_finish (h : (absorbAll {} ds).finish = .ok q) {n : Text} (hn : Stated ds (.signature n ts)) :
    n ∈ q.functions.map OverloadSet.name := by
  obtain ⟨rfl, -⟩ := finish_eq_ok h
  obtain ⟨s, hs, hnm, -⟩ := holds_signature_iff.1 ((holds_callable_iff rfl).2 hn)
  exact mem_map.2 ⟨s.named, mem_map_of_mem hs, hnm⟩

/-- A program cannot be finished exactly if it keeps a class with two constructors whose types differ and have the same tags,
or if two functions get one C name. When it is finished, each reported function is in an overload set, with a C name of its own
for each signature. -/
theorem finish_collides_iff (ds : List Declaration) :
    ((∃ e, (absorbAll {} ds).finish = .error e) ↔ ConstructorsClash ds ∨ FunctionsClash ds) ∧
      ∀ q, (absorbAll {} ds).finish = .ok q →
        (∀ n ts, Declaration.Stated ds (.signature n ts) → n ∈ q.functions.map OverloadSet.name) ∧
          ∀ s ∈ q.functions, SetNamed ds s := by
  refine ⟨?_, fun q hq => ⟨fun n ts => mem_sets_of_finish hq, fun s => setNamed_of_finish hq⟩⟩
  rw [exists_error_iff, (Merged.empty.absorbAll ds).finish_isOk_iff, apart_iff, not_not]

/-- A class with two constructors and a name with three signatures. -/
def apartSample : List Declaration :=
  [.record "Led" .structWord none, .constructor "Led" { name := "Led", rawType := "void (int)" },
    .constructor "Led" { name := "Led", rawType := "void (float)" }, .function { name := "log", rawType := "void ()" },
    .function { name := "log", rawType := "void (int)" }, .function { name := "log", rawType := "void (int, bool)" }]

theorem finish_collides_iff_apartSample :
    ¬(ConstructorsClash apartSample ∨ FunctionsClash apartSample) ∧
      ∃ q, (absorbAll {} apartSample).finish = .ok q ∧ ∃ s ∈ q.functions,
        s.signatures.map cName = ["log_void".toList, "log_i".toList, "log_i_b".toList] ∧ SetNamed apartSample s := by
  have hok : ((absorbAll {} apartSample).finish.toOption.any fun q =>
      q.functions.any fun s => s.signatures.map cName = ["log_void".toList, "log_i".toList, "log_i_b".toList]) =
        true := by decide +kernel
  obtain ⟨q, hq, htest⟩ := exists_ok_of_any hok
  obtain ⟨s, hs, hnames⟩ := any_eq_true.mp htest
  refine ⟨fun hclash => ?_, q, hq, s, hs, of_decide_eq_true hnames, ((finish_collides_iff apartSample).2 q hq).2 s hs⟩
  obtain ⟨e, he⟩ := (finish_collides_iff apartSample).1.mpr hclash
  cases hq.symm.trans he

end Program

end Declass
