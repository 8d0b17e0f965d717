import Declass.Proofs.Outline.Bodies
import Declass.Proofs.Program.Filling
import Declass.Proofs.Program.Order

/-!
# Definitions of overloads

A signature takes the first definition that writes its parameter types, or else the one at its own place among those with as many
parameters. When two get the same one is said by `Program.definitions_shared_iff`.
-/

namespace Declass

open List
open Corpus (ofList)

/-! ## Definitions are told apart by where they stand -/

namespace Outline

theorem nodup_definitions (source : Text) : (ofSource source).definitions.Nodup := by
  obtain ⟨hall, hpr⟩ := scan_definitions
  have hnd : (ofSource (String.ofList source).toList).definitions.Nodup := by
    refine (hpr.imp_of_mem ?_ : List.Nodup _)
    rintro d e hd - hprecedes rfl
    obtain ⟨i, j, -, hdel⟩ := hall d hd
    obtain ⟨_, _, -, -, henc⟩ := encloses_of_delimits hdel
    have hlt := span_lt_of_precedes hprecedes
    have hle := henc.ordered
    omega
  rwa [String.toList_ofList] at hnd

end Outline

namespace Corpus

/-- No two entries are of one path, and each is stored under a spelling of it. -/
structure Keyed (c : Corpus) : Prop where
  keys : (c.entries.map fun e => e.1.components).Nodup
  stored : ∀ e ∈ c.entries, e.2.path.components = e.1.components

variable {c : Corpus}

theorem Keyed.insert (h : c.Keyed) (path : Path) (content : Text) : (c.insert path content).Keyed := by
  have hs : (fun e : Path × SourceFile => e.1.same path) = fun e => decide (e.1.components = path.components) := by
    funext e
    exact beq_eq_decide _ _
  unfold Corpus.insert
  rw [hs]
  constructor
  · refine Table.nodup_upsert ?_ rfl h.keys
    exact fun _ => rfl
  · exact Table.forall_mem_upsert h.stored (fun e he _ => (of_decide_eq_true he).symm) rfl

theorem keyed_ofList (files : List (Path × Text)) : (ofList files).Keyed := by
  have hfold : ∀ c : Corpus, c.Keyed → (files.foldl (fun c f => c.insert f.1 f.2) c).Keyed := by
    induction files with
    | nil => exact fun c hc => hc
    | cons f files ih => exact fun c hc => ih _ (hc.insert f.1 f.2)
  exact hfold {} ⟨nodup_nil, fun e he => absurd he not_mem_nil⟩

theorem Keyed.pairwise_outlines (h : c.Keyed) : c.outlines.Pairwise fun f g => f.path ≠ g.path := by
  rw [outlines, files, map_map, pairwise_map]
  refine (pairwise_map.1 h.keys).imp_of_mem ?_
  intro e e' he he' hne hp
  exact hne (by rw [← h.stored e he, ← h.stored e' he']; exact congrArg Path.components hp)

end Corpus

namespace Candidate

variable {files : List FileOutline}

theorem nodup_all {c : Corpus} (h : c.Keyed) : (all c.outlines).Nodup := by
  rw [all, nodup_flatMap]
  constructor
  · intro f hf
    obtain ⟨file, -, rfl⟩ := mem_map.1 hf
    refine (Outline.nodup_definitions file.content).map ?_
    intro d e hde
    exact (Candidate.mk.inj hde).2
  · refine h.pairwise_outlines.imp ?_
    intro f g hne c hc hc'
    obtain ⟨d, -, rfl⟩ := mem_map.1 hc
    obtain ⟨e, -, he⟩ := mem_map.1 hc'
    exact hne (Candidate.mk.inj he).1.symm

theorem nodup_functions (h : (all files).Nodup) (name : Text) : (functions files name).Nodup :=
  h.filter _

theorem nodup_members (h : (all files).Nodup) (owner name : Text) : (members files owner name).Nodup :=
  (filter_append_perm _ _).nodup_iff.2 (h.filter _)

end Candidate

/-! ## Signatures of one name -/

/-- The signatures that share a name, and its definitions. -/
structure Family where
  signatures : List Callable
  candidates : List Candidate

namespace Family

variable (F : Family) {c : Candidate}

/-- The signatures with `arity` parameters. -/
def signaturesOf (arity : Nat) : List Callable :=
  F.signatures.filter (·.params.length = arity)

/-- The definitions with `arity` parameters. -/
def definitionsOf (arity : Nat) : List Candidate :=
  F.candidates.filter (·.definition.params.length = arity)

/-- The definition that a signature gets. -/
def definition? (f : Callable) : Option Candidate :=
  Candidate.select? F.candidates f F.signatures

/-- The first definition that writes a signature's types. -/
def matching? (f : Callable) : Option Candidate :=
  F.candidates.find? (·.writes f.paramTypes)

/-- The definition at the place of a signature, by number of parameters. -/
def placed? (f : Callable) : Option Candidate :=
  (F.definitionsOf f.params.length)[(F.signaturesOf f.params.length).idxOf f]?

/-- No definition writes the types of `f`; that at its place is the first with `g`'s. -/
def Displaces (g f : Callable) : Prop :=
  F.matching? f = none ∧ ∃ c, F.matching? g = some c ∧ F.placed? f = some c

/-- The signatures with their bodies. -/
def fill : Family :=
  { F with signatures := F.signatures.map (Callable.fill F.candidates F.signatures) }

variable {F} {f g : Callable}

theorem writes_of_matching? (h : F.matching? f = some c) : c.writes f.paramTypes :=
  find?_some (p := fun c : Candidate => c.writes f.paramTypes) h

theorem arity_of_placed? (h : F.placed? f = some c) : c.definition.params.length = f.params.length :=
  of_decide_eq_true (mem_filter.1 (mem_of_getElem? h)).2

theorem mem_signaturesOf (hf : f ∈ F.signatures) : f ∈ F.signaturesOf f.params.length :=
  mem_filter.2 ⟨hf, decide_eq_true rfl⟩

section

variable (hf : f ∈ F.signatures) (hcnt : (F.signaturesOf f.params.length).length ≤ (F.definitionsOf f.params.length).length)

include hf hcnt

/-- With enough definitions, each signature has one at its place. -/
theorem exists_placed? : ∃ c, F.placed? f = some c := by
  have hlt := Nat.lt_of_lt_of_le (idxOf_lt_length_iff.2 (mem_signaturesOf hf)) hcnt
  exact ⟨_, getElem?_eq_getElem hlt⟩

/-- A signature gets a definition that writes its types, else that at its place. -/
theorem definition?_eq : F.definition? f = (F.matching? f).or (F.placed? f) := by
  have hordinal : ((F.signaturesOf f.params.length).idxOf? f).getD 0 = (F.signaturesOf f.params.length).idxOf f := by
    have hexists : ∃ g, g ∈ F.signaturesOf f.params.length ∧ (g == f) :=
      ⟨f, mem_signaturesOf hf, beq_self_eq_true f⟩
    rw [List.idxOf?, findIdx?_eq_some_of_exists hexists]
    rfl
  obtain ⟨c, hc⟩ := exists_placed? hf hcnt
  rw [hc]
  rw [placed?, ← hordinal] at hc
  exact congrArg (Option.or (F.matching? f)) (by rw [definitionsOf, signaturesOf] at hc; rw [hc]; rfl)

end

/-- Two signatures have different definitions at their places. -/
theorem eq_of_placed? (hnd : F.candidates.Nodup) (hf : f ∈ F.signatures) (hcf : F.placed? f = some c)
    (hcg : F.placed? g = some c) : f = g := by
  have harity : g.params.length = f.params.length := (arity_of_placed? hcg).symm.trans (arity_of_placed? hcf)
  rw [placed?, harity] at hcg
  have hlt := (List.getElem?_eq_some_iff.1 hcf).1
  have hindex := (getElem?_inj hlt (hnd.filter _)).1 (hcf.trans hcg.symm)
  exact (idxOf_inj (mem_signaturesOf hf)).1 hindex

/-- With enough definitions a signature gets one of its length. -/
theorem exists_definition? (hf : f ∈ F.signatures)
    (hcnt : (F.signaturesOf f.params.length).length ≤ (F.definitionsOf f.params.length).length) :
    ∃ c ∈ F.definitionsOf f.params.length, F.definition? f = some c := by
  rw [definition?_eq hf hcnt]
  cases hex : F.matching? f with
  | some c =>
    have harity := Candidate.length_of_writes (writes_of_matching? hex)
    exact ⟨c, mem_filter.2 ⟨mem_of_find?_eq_some hex, decide_eq_true harity⟩, rfl⟩
  | none =>
    obtain ⟨c, hc⟩ := exists_placed? hf hcnt
    exact ⟨c, mem_of_getElem? hc, hc⟩

theorem matching?_congr (hf : c.writes f.paramTypes) (hg : c.writes g.paramTypes) : F.matching? f = F.matching? g := by
  have htys : f.paramTypes.map Text.withoutBlanks = g.paramTypes.map Text.withoutBlanks :=
    (beq_iff_eq.1 hf).symm.trans (beq_iff_eq.1 hg)
  simp only [matching?, Candidate.writes, htys]

theorem getElem?_fill {i : Nat} (hf : F.signatures[i]? = some f) (hb : f.body = none) (hc : F.definition? f = some c) :
    F.fill.signatures[i]? = some { f with body := some c.body } := by
  rw [fill, getElem?_map, hf, Option.map_some, Callable.fill, hb]
  rw [definition?] at hc
  rw [hc]
  rfl

theorem not_writes_of_matching? (h : F.matching? f = none) (hc : c ∈ F.candidates) : c.writes f.paramTypes ≠ true :=
  find?_eq_none.1 h c hc

/-- With enough definitions, two signatures get the same one just if it writes the types of both, or is the first with those of
one and at the place of the other, whose types none writes. -/
theorem same_definition_iff (hnd : F.candidates.Nodup) (hf : f ∈ F.signatures) (hg : g ∈ F.signatures) (hne : f ≠ g)
    (hcnt : ∀ n ∈ [f.params.length, g.params.length], (F.signaturesOf n).length ≤ (F.definitionsOf n).length)
    {d : Candidate} (hc : F.definition? f = some c) (hd : F.definition? g = some d) :
    c = d ↔ c.writes f.paramTypes ∧ c.writes g.paramTypes ∨ F.Displaces g f ∨ F.Displaces f g := by
  have hcmem : c ∈ F.candidates := Candidate.mem_of_select? hc
  rw [definition?_eq hf (hcnt _ (by simp))] at hc
  rw [definition?_eq hg (hcnt _ (by simp))] at hd
  unfold Displaces
  cases hef : F.matching? f with
  | some e =>
    obtain rfl : c = e := by simpa [hef, eq_comm] using hc
    have hwr := writes_of_matching? hef
    cases heg : F.matching? g with
    | some e' =>
      obtain rfl : d = e' := by simpa [heg, eq_comm] using hd
      simp only [reduceCtorEq, false_and, or_false, hwr, true_and]
      constructor
      · rintro rfl
        exact writes_of_matching? heg
      · intro hwr'
        exact Option.some.inj (hef.symm.trans ((matching?_congr hwr hwr').trans heg))
    | none =>
      have hpl : F.placed? g = some d := by simpa [heg] using hd
      have hnot := not_writes_of_matching? heg hcmem
      simp only [hnot, and_false, reduceCtorEq, false_and, false_or, hpl, true_and, Option.some.injEq]
      exact ⟨fun heq => ⟨c, rfl, heq.symm⟩, fun ⟨e, hce, hde⟩ => hce.trans hde.symm⟩
  | none =>
    have hpl : F.placed? f = some c := by simpa [hef] using hc
    have hnot := not_writes_of_matching? hef hcmem
    cases heg : F.matching? g with
    | some e' =>
      obtain rfl : d = e' := by simpa [heg, eq_comm] using hd
      simp [hnot, hpl]
    | none =>
      have hpl' : F.placed? g = some d := by simpa [heg] using hd
      simp only [hnot, false_and, reduceCtorEq, and_false, exists_false, or_self, iff_false]
      rintro rfl
      exact hne (eq_of_placed? hnd hf hpl hpl')

end Family

/-! ## The families of a program -/

namespace Program

/-- The families of a program: overload sets, and constructors. -/
def families (files : List FileOutline) (p : Program) : List Family :=
  p.functions.map (fun s => ⟨s.signatures, Candidate.functions files s.name⟩) ++
    p.classes.map fun c => ⟨c.constructors, Candidate.members files c.name c.name⟩

/-- Neither a constructor nor a function has a body. -/
structure Bodiless (p : Program) : Prop where
  constructors : ∀ c ∈ p.classes, ∀ f ∈ c.constructors, f.body = none
  signatures : ∀ s ∈ p.functions, ∀ f ∈ s.signatures, f.body = none

namespace Bodiless

variable {p : Program}

theorem empty : Bodiless {} :=
  ⟨by simp, by simp⟩

theorem addSignature {fs : List Callable} (h : ∀ f ∈ fs, f.body = none) (d : CallableDecl) :
    ∀ f ∈ Callable.addSignature fs (.ofDecl d), f.body = none := by
  refine Table.forall_mem_upsert h ?_ rfl
  intro f _ hf
  rw [Callable.merge, hf]
  rfl

theorem editClass (h : p.Bodiless) (name : Text) (keyword : RecordKeyword) {f : Class → Class}
    (hf : ∀ c, (∀ g ∈ c.constructors, g.body = none) → ∀ g ∈ (f c).constructors, g.body = none) :
    (p.editClass name keyword f).Bodiless :=
  { h with constructors := Table.forall_mem_upsert h.constructors (fun c _ => hf c) (hf _ (by simp)) }

theorem addFunction (h : p.Bodiless) (d : CallableDecl) : (p.addFunction (.ofDecl d)).Bodiless := by
  unfold Program.addFunction
  split
  · exact ⟨h.constructors, h.signatures⟩
  · refine { h with signatures := Table.forall_mem_upsert h.signatures (fun s _ hs => addSignature hs d) ?_ }
    intro f hf
    rw [mem_singleton.1 hf]
    rfl

theorem absorb (h : p.Bodiless) (d : Declaration) : (p.absorb d).Bodiless := by
  cases d with
  | record name keyword origin => exact h.editClass name keyword fun _ hc => hc
  | field owner v =>
    refine h.editClass owner .classWord fun c hc => ?_
    unfold Class.addField
    split <;> exact hc
  | method owner d => exact h.editClass owner .classWord fun _ hc => hc
  | constructor owner d => exact h.editClass owner .classWord fun _ hc => addSignature hc d
  | destructor owner => exact h.editClass owner .classWord fun _ hc => hc
  | function d => exact h.addFunction d
  | enumeration | constant | global => exact ⟨h.constructors, h.signatures⟩

theorem absorbAll (h : p.Bodiless) (ds : List Declaration) : (p.absorbAll ds).Bodiless :=
  absorbAll_induction (fun _ d h => h.absorb d) h ds

end Bodiless

variable {p : Program}

/-- What is finished keeps to: signatures have the names of their sets, parameter types tell them apart, and no body is there
yet. -/
theorem families_of_finish {ds : List Declaration} (h : (absorbAll {} ds).finish = .ok p) :
    (∀ s ∈ p.functions, ∀ f ∈ s.signatures, f.name = s.name) ∧
      ∀ files, ∀ F ∈ p.families files, Callable.Keyed F.signatures ∧ ∀ f ∈ F.signatures, f.body = none := by
  obtain ⟨rfl, -⟩ := finish_eq_ok h
  have hmrg : (absorbAll {} ds).Merged := Merged.empty.absorbAll ds
  have hbodiless : (absorbAll {} ds).Bodiless := Bodiless.empty.absorbAll ds
  constructor
  · intro s hs f hf
    obtain ⟨s', hs', rfl⟩ := mem_map.1 hs
    obtain ⟨f', hf', rfl⟩ := mem_map.1 hf
    exact hmrg.names s' hs' f' hf'
  · intro files F hF
    rcases mem_append.1 hF with hF | hF
    · obtain ⟨s, hs, rfl⟩ := mem_map.1 hF
      obtain ⟨s', hs', rfl⟩ := mem_map.1 hs
      constructor
      · show ((s'.signatures.map _).map Callable.paramTypes).Nodup
        rw [map_map]
        exact hmrg.signatures s' hs'
      · intro f hf
        obtain ⟨f', hf', rfl⟩ := mem_map.1 hf
        exact hbodiless.signatures s' hs' f' hf'
    · obtain ⟨c, hc, rfl⟩ := mem_map.1 hF
      obtain ⟨c', hc', rfl⟩ := mem_map.1 hc
      have hc' := mem_of_mem_filter hc'
      constructor
      · show ((c'.constructors.map _).map Callable.paramTypes).Nodup
        rw [map_map]
        exact hmrg.constructors c' hc'
      · intro f hf
        obtain ⟨f', hf', rfl⟩ := mem_map.1 hf
        exact hbodiless.constructors c' hc' f' hf'

/-- Filling a program fills its families. -/
theorem families_fill (h : ∀ s ∈ p.functions, ∀ f ∈ s.signatures, f.name = s.name) (files : List FileOutline) :
    (p.fill files).families files = (p.families files).map Family.fill := by
  simp only [families, fill_eq, map_append, map_map]
  congr 1
  refine map_congr_left fun s hs => ?_
  simp only [Function.comp_apply]
  congr 1
  exact map_congr_left fun f hf => by rw [h s hs f hf]

theorem nodup_candidates {corpus : Corpus} (h : corpus.Keyed) {F : Family} (hF : F ∈ p.families corpus.outlines) :
    F.candidates.Nodup := by
  have hall := Candidate.nodup_all h
  rcases mem_append.1 hF with hF | hF
  · obtain ⟨s, -, rfl⟩ := mem_map.1 hF
    exact Candidate.nodup_functions hall s.name
  · obtain ⟨c, -, rfl⟩ := mem_map.1 hF
    exact Candidate.nodup_members hall c.name c.name

/-- In a finished program, take two signatures of an overload set or two constructors of a class, and a corpus with enough
definitions of that name and number of parameters. Filling gives each of the two the body of one of these. They get the same
only where it writes the types of both, or where it is the first that writes the types of one and stands at the place of the
other, whose types no definition writes. -/
theorem definitions_shared_iff (ds : List Declaration) (p : Program) (h : (absorbAll {} ds).finish = .ok p)
    (files : List (Path × Text)) (F : Family) (hF : F ∈ p.families (ofList files).outlines) (i j : Nat) (hij : i ≠ j)
    (f g : Callable) (hf : F.signatures[i]? = some f) (hg : F.signatures[j]? = some g)
    (hcount : ∀ n ∈ [f.params.length, g.params.length], (F.signaturesOf n).length ≤ (F.definitionsOf n).length) :
    F.fill ∈ (p.fill (ofList files).outlines).families (ofList files).outlines ∧
      ∃ c ∈ F.definitionsOf f.params.length, ∃ d ∈ F.definitionsOf g.params.length,
        F.definition? f = some c ∧ F.definition? g = some d ∧
        F.fill.signatures[i]? = some { f with body := some c.body } ∧
        F.fill.signatures[j]? = some { g with body := some d.body } ∧
        (c = d ↔ c.writes f.paramTypes = true ∧ c.writes g.paramTypes = true ∨ F.Displaces g f ∨ F.Displaces f g) := by
  obtain ⟨hnames, hfamilies⟩ := families_of_finish h
  obtain ⟨hkeyed, hbody⟩ := hfamilies _ F hF
  have hnodup := nodup_candidates (Corpus.keyed_ofList files) hF
  have hfmem := mem_of_getElem? hf
  have hgmem := mem_of_getElem? hg
  have hne : f ≠ g := by
    rintro rfl
    exact hij ((getElem?_inj (List.getElem?_eq_some_iff.mp hf).1 hkeyed.of_map).mp (hf.trans hg.symm))
  obtain ⟨c, hc, hdefinition⟩ := Family.exists_definition? hfmem (hcount _ (by simp))
  obtain ⟨d, hd, hdefinition'⟩ := Family.exists_definition? hgmem (hcount _ (by simp))
  refine ⟨?_, c, hc, d, hd, hdefinition, hdefinition', ?_, ?_, ?_⟩
  · rw [families_fill hnames]
    exact mem_map_of_mem hF
  · exact Family.getElem?_fill hf (hbody f hfmem) hdefinition
  · exact Family.getElem?_fill hg (hbody g hgmem) hdefinition'
  · exact Family.same_definition_iff hnodup hfmem hgmem hne hcount hdefinition hdefinition'

/-- Two functions of one name, for numbers and for characters. -/
def putDeclarations : List Declaration :=
  [.function { name := "put", rawType := "void (unsigned int)" }, .function { name := "put", rawType := "void (char)" }]

/-- A file that defines both, with the types in full. -/
def putInFull : List (Path × Text) :=
  [("p.cpp", "void put(char)\x7bc;\x7dvoid put(unsigned int)\x7bu;\x7d")]

/-- A file that defines both, with a type in its short form. -/
def putInShort : List (Path × Text) :=
  [("p.cpp", "void put(char)\x7bc;\x7dvoid put(unsigned)\x7bu;\x7d")]

theorem definitions_shared_iff_putInFull :
    ∃ p, (absorbAll {} putDeclarations).finish = .ok p ∧
      ∃ F ∈ p.families (ofList putInFull).outlines, ∃ f g, F.signatures[0]? = some f ∧ F.signatures[1]? = some g ∧
        (∀ n ∈ [f.params.length, g.params.length], (F.signaturesOf n).length ≤ (F.definitionsOf n).length) ∧
        F.fill.signatures.map (fun f => (f.cName, f.body.map Body.text)) =
          [("put_i".toList, some "u;".toList), ("put_c".toList, some "c;".toList)] ∧
        F.fill ∈ (p.fill (ofList putInFull).outlines).families (ofList putInFull).outlines ∧
        ∃ c ∈ F.definitionsOf f.params.length, ∃ d ∈ F.definitionsOf g.params.length,
          F.definition? f = some c ∧ F.definition? g = some d ∧
          F.fill.signatures[0]? = some { f with body := some c.body } ∧
          F.fill.signatures[1]? = some { g with body := some d.body } ∧
          (c = d ↔ c.writes f.paramTypes = true ∧ c.writes g.paramTypes = true ∨ F.Displaces g f ∨ F.Displaces f g) := by
  have hok : ((absorbAll {} putDeclarations).finish.toOption.any fun p =>
      (p.families (ofList putInFull).outlines).any fun F =>
        decide (F.signatures.map (·.params.length) = [1, 1] ∧ (F.signaturesOf 1).length ≤ (F.definitionsOf 1).length ∧
          F.fill.signatures.map (fun f => (f.cName, f.body.map Body.text)) =
            [("put_i".toList, some "u;".toList), ("put_c".toList, some "c;".toList)])) = true := by
    decide +kernel
  obtain ⟨p, hp, htest⟩ := exists_ok_of_any hok
  obtain ⟨F, hF, htest⟩ := any_eq_true.mp htest
  obtain ⟨harities, hcounts, htexts⟩ := of_decide_eq_true htest
  obtain ⟨f, fs, hsignatures, hf, hfs⟩ := map_eq_cons_iff.mp harities
  obtain ⟨g, gs, rfl, hg, -⟩ := map_eq_cons_iff.mp hfs
  have hfirst : F.signatures[0]? = some f := by rw [hsignatures]; rfl
  have hsecond : F.signatures[1]? = some g := by rw [hsignatures]; rfl
  have hcount : ∀ n ∈ [f.params.length, g.params.length], (F.signaturesOf n).length ≤ (F.definitionsOf n).length := by
    simpa [hf, hg] using hcounts
  exact ⟨p, hp, F, hF, f, g, hfirst, hsecond, hcount, htexts,
    definitions_shared_iff _ p hp putInFull F hF 0 1 Nat.zero_ne_one f g hfirst hsecond hcount⟩

/-- The second signature's definition goes to the first too. -/
theorem put_definitions_shared :
    ∃ p, (absorbAll {} putDeclarations).finish = .ok p ∧
      ∃ F ∈ p.families (ofList putInShort).outlines, ∃ f g, F.signatures = [f, g] ∧ f ≠ g ∧
        (∀ n ∈ [f.params.length, g.params.length], (F.signaturesOf n).length ≤ (F.definitionsOf n).length) ∧
        ∃ c, c.writes g.paramTypes = true ∧ F.definition? f = some c ∧ F.definition? g = some c := by
  have hok : ((absorbAll {} putDeclarations).finish.toOption.any fun p =>
      (p.families (ofList putInShort).outlines).any fun F => F.signatures.any fun f => F.signatures.any fun g =>
        decide (F.signatures = [f, g] ∧ f ≠ g ∧
          (∀ n ∈ [f.params.length, g.params.length], (F.signaturesOf n).length ≤ (F.definitionsOf n).length) ∧
          F.definition? g = F.definition? f) && (F.definition? f).any (·.writes g.paramTypes)) = true := by
    decide +kernel
  obtain ⟨p, hp, htest⟩ := exists_ok_of_any hok
  obtain ⟨F, hF, htest⟩ := any_eq_true.mp htest
  obtain ⟨f, -, htest⟩ := any_eq_true.mp htest
  obtain ⟨g, -, htest⟩ := any_eq_true.mp htest
  rw [Bool.and_eq_true, decide_eq_true_iff] at htest
  obtain ⟨⟨hsignatures, hne, hcount, hsame⟩, hwrites⟩ := htest
  obtain ⟨c, hc, hwrites⟩ := Option.any_eq_true _ _ |>.mp hwrites
  exact ⟨p, hp, F, hF, f, g, hsignatures, hne, hcount, c, hwrites, hc, hsame.trans hc⟩

end Program

end Declass
