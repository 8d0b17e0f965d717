import Declass.Program.Bodies
import Declass.Proofs.Program.Names
import Mathlib.Data.List.Forall2
import Mathlib.Data.Option.Basic

/-!
# Filling the gaps of a program

Whether a callable gets a definition depends on numbers only: of definitions, of parameters and of signatures of its name
(`Candidate.isSome_select?`). So what is absent after a pass stays absent. Main statement: `Program.fill_gaps`.
-/

namespace Declass

open Callable List

/-! ## Whether there is a definition -/

namespace Candidate

/-- There is a definition for a signature: one with `arity` parameters, or the only one for the only one. -/
def offers (candidates : List Candidate) (arity siblings : Nat) : Bool :=
  candidates.any (·.definition.params.length = arity) || candidates.length = 1 && siblings ≤ 1

variable {c : Candidate} {f : Callable} {files : List FileOutline} {name : Text}

theorem length_of_writes (h : c.writes f.paramTypes) : c.definition.params.length = f.params.length := by
  have hlen := congrArg List.length (beq_iff_eq.1 h)
  rw [length_map, length_map, paramTypes, length_map] at hlen
  exact hlen

theorem isSome_getElem?_or_head? {α : Type} (xs : List α) (n : Nat) : (xs[n]?.or xs.head?).isSome = !xs.isEmpty := by
  cases xs with
  | nil => rfl
  | cons x xs => cases (x :: xs)[n]? <;> rfl

/-- If a definition is found depends on no text and no body. -/
theorem isSome_select? (candidates : List Candidate) (siblings : List Callable) :
    (select? candidates f siblings).isSome = offers candidates f.params.length siblings.length := by
  have hlo : (if candidates.length = 1 && siblings.length ≤ 1 then candidates.head? else none).isSome =
      (candidates.length = 1 && siblings.length ≤ 1 : Bool) := by
    rcases candidates with - | ⟨c, - | ⟨d, cs⟩⟩
    · rfl
    · by_cases h : siblings.length ≤ 1 <;> simp [h]
    · rfl
  have hsimilar : (!(candidates.filter (·.definition.params.length = f.params.length)).isEmpty) =
      candidates.any (·.definition.params.length = f.params.length) := by
    rw [Bool.eq_iff_iff, Bool.not_eq_true', isEmpty_eq_false_iff_exists_mem, any_eq_true]
    simp only [mem_filter]
  have hex : (candidates.find? (·.writes f.paramTypes)).isSome →
      candidates.any (·.definition.params.length = f.params.length) := by
    intro h
    rw [find?_isSome] at h
    obtain ⟨c, hc, hwr⟩ := h
    exact any_eq_true.2 ⟨c, hc, decide_eq_true (length_of_writes hwr)⟩
  rw [select?, Option.isSome_or, Option.isSome_or, isSome_getElem?_or_head?, hsimilar, ← Bool.or_assoc]
  congr 1
  exact Bool.or_eq_right_iff_imp.2 hex

theorem mem_of_select? {candidates : List Candidate} {siblings : List Callable}
    (h : select? candidates f siblings = some c) : c ∈ candidates := by
  rcases Option.or_eq_some_iff.1 h with h | ⟨-, h⟩
  · exact mem_of_find?_eq_some h
  rcases Option.or_eq_some_iff.1 h with h | ⟨-, h⟩
  · rcases Option.or_eq_some_iff.1 h with h | ⟨-, h⟩
    · exact mem_of_mem_filter (mem_of_getElem? h)
    · exact mem_of_mem_filter (mem_of_mem_head? h)
  · exact mem_of_mem_head? (Option.ite_none_right_eq_some.1 h).2

theorem mem_all_of_mem_functions (h : c ∈ functions files name) : c ∈ all files :=
  mem_of_mem_filter h

theorem mem_all_of_mem_members {owner : Text} (h : c ∈ members files owner name) : c ∈ all files := by
  rcases mem_append.1 h with h | h
  · exact mem_of_mem_filter (mem_of_mem_filter h)
  · exact mem_of_mem_filter (mem_of_mem_filter h)

end Candidate

/-! ## One callable, one variable -/

namespace Callable

variable {files : List FileOutline} {candidates : List Candidate} {siblings : List Callable} {f : Callable}

/-- `g` is `f`, or has the body of a definition that `f` lacked. -/
inductive Filled (files : List FileOutline) (f : Callable) : Callable → Prop
  | same : Filled files f f
  | body {c : Candidate} (absent : f.body = none) (found : c ∈ Candidate.all files) :
    Filled files f { f with body := some c.body }

theorem fill_of_isSome (h : f.body.isSome) : f.fill candidates siblings = f := by
  obtain ⟨b, hb⟩ := Option.isSome_iff_exists.1 h
  rw [fill, hb, Option.some_or, ← hb]

theorem fill_of_select?_eq_none (h : Candidate.select? candidates f siblings = none) : f.fill candidates siblings = f := by
  rw [fill, h, Option.map_none, Option.or_none]

theorem filled_fill (h : ∀ c ∈ candidates, c ∈ Candidate.all files) : Filled files f (f.fill candidates siblings) := by
  cases hb : f.body with
  | some b =>
    rw [fill_of_isSome (by rw [hb]; rfl)]
    exact .same
  | none =>
    cases hsel : Candidate.select? candidates f siblings with
    | none =>
      rw [fill_of_select?_eq_none hsel]
      exact .same
    | some c =>
      rw [fill, hsel, hb]
      exact .body hb (h c (Candidate.mem_of_select? hsel))

theorem isNone_body_fill : (f.fill candidates siblings).body.isNone =
      (f.body.isNone && !Candidate.offers candidates f.params.length siblings.length) := by
  rw [← Candidate.isSome_select?, fill]
  cases f.body <;> cases Candidate.select? candidates f siblings <;> rfl

/-- A second pass finds nothing for what is still absent. -/
theorem fill_fill {siblings' : List Callable} (h : siblings'.length = siblings.length) :
    (f.fill candidates siblings).fill candidates siblings' = f.fill candidates siblings := by
  cases hb : (f.fill candidates siblings).body.isSome with
  | true => exact fill_of_isSome hb
  | false =>
    have hno : (f.fill candidates siblings).body.isNone := by rw [← Option.not_isSome, hb]; rfl
    rw [isNone_body_fill, Bool.and_eq_true, Bool.not_eq_true'] at hno
    have hsel {fs : List Callable} (hlen : fs.length = siblings.length) : Candidate.select? candidates f fs = none := by
      rw [← Option.not_isSome_iff_eq_none, Candidate.isSome_select?, hlen, hno.2]
      exact Bool.false_ne_true
    rw [fill_of_select?_eq_none (hsel rfl), fill_of_select?_eq_none (hsel h)]

end Callable

namespace GlobalVar

/-- `h` is `g`, or has the text of an initializer that `g` lacked. -/
inductive Filled (files : List FileOutline) (g : GlobalVar) : GlobalVar → Prop
  | same : Filled files g g
  | init {i : GlobalInit} (absent : g.initArgs = none) (found : i ∈ files.flatMap (·.outline.globals)) :
    Filled files g { g with initArgs := some i.args }

theorem filled_fill (files : List FileOutline) (g : GlobalVar) : Filled files g (g.fill files) := by
  unfold fill
  dsimp only
  cases hi : g.initArgs with
  | some a =>
    rw [Option.some_or, ← hi]
    exact .same
  | none =>
    cases hf : (files.flatMap (·.outline.globals)).find? fun i =>
        i.name = g.name && (i.type = typeWord g.type || (typeWord g.type).isEmpty) with
    | none =>
      rw [Option.map_none, Option.or_none, ← hi]
      exact .same
    | some i => exact .init hi (mem_of_find?_eq_some hf)

theorem fill_fill (files : List FileOutline) (g : GlobalVar) : (g.fill files).fill files = g.fill files := by
  unfold fill
  dsimp only
  cases g.initArgs with
  | some a => rfl
  | none => cases (files.flatMap (·.outline.globals)).find? _ <;> rfl

end GlobalVar

/-! ## The parts of a program -/

namespace Class

/-- Only constructors and methods differ, each by a body at most. -/
structure Filled (files : List FileOutline) (c d : Class) : Prop where
  constructors : List.Forall₂ (Callable.Filled files) c.constructors d.constructors
  methods : List.Forall₂ (Callable.Filled files) c.methods d.methods
  others : d = { c with constructors := d.constructors, methods := d.methods }

theorem filled_fill (files : List FileOutline) (c : Class) : c.Filled files (c.fill files) where
  constructors := by
    refine forall₂_map_right_iff.2 (forall₂_same.2 fun f _ => ?_)
    exact Callable.filled_fill fun _ => Candidate.mem_all_of_mem_members
  methods := by
    refine forall₂_map_right_iff.2 (forall₂_same.2 fun f _ => ?_)
    exact Callable.filled_fill fun _ => Candidate.mem_all_of_mem_members
  others := rfl

theorem fill_fill (files : List FileOutline) (c : Class) : (c.fill files).fill files = c.fill files := by
  simp only [fill, map_map]
  congr 1
  · exact map_congr_left fun f _ => Callable.fill_fill rfl
  · exact map_congr_left fun f _ => Callable.fill_fill (length_map _)

end Class

namespace OverloadSet

/-- The set with the bodies of its signatures. -/
def fill (files : List FileOutline) (s : OverloadSet) : OverloadSet :=
  { s with signatures := s.signatures.map fun f => f.fill (Candidate.functions files f.name) s.signatures }

/-- Only the signatures of the set differ, each by a body at most. -/
structure Filled (files : List FileOutline) (s t : OverloadSet) : Prop where
  signatures : List.Forall₂ (Callable.Filled files) s.signatures t.signatures
  name : t.name = s.name

theorem filled_fill (files : List FileOutline) (s : OverloadSet) : s.Filled files (s.fill files) where
  signatures := by
    refine forall₂_map_right_iff.2 (forall₂_same.2 fun f _ => ?_)
    exact Callable.filled_fill fun _ => Candidate.mem_all_of_mem_functions
  name := rfl

theorem fill_fill (files : List FileOutline) (s : OverloadSet) : (s.fill files).fill files = s.fill files := by
  simp only [fill, map_map]
  congr 1
  exact map_congr_left fun f _ => Callable.fill_fill (length_map _)

end OverloadSet

/-! ## Programs -/

/-- A callable that is looked up, with what its name has. -/
structure Lookup where
  name : Text
  callable : Callable
  candidates : List Candidate
  siblings : Nat

namespace Lookup

/-- The callable has a body or there is a definition for it. -/
def isMet (l : Lookup) : Bool :=
  l.callable.body.isSome || Candidate.offers l.candidates l.callable.params.length l.siblings

end Lookup

namespace Class

/-- What is looked up for a class: its constructors, then its methods. -/
def lookups (files : List FileOutline) (c : Class) : List Lookup :=
  c.constructors.map (fun f => ⟨f.cName, f, Candidate.members files c.name c.name, c.constructors.length⟩) ++
    c.methods.map fun f => ⟨f.cName, f, Candidate.members files c.name f.name, 1⟩

end Class

namespace OverloadSet

/-- What is looked up for the signatures of a function name. -/
def lookups (files : List FileOutline) (s : OverloadSet) : List Lookup :=
  s.signatures.map fun f => ⟨f.cName, f, Candidate.functions files f.name, s.signatures.length⟩

end OverloadSet

namespace Program

/-- All that is looked up: the classes, then the functions, then `main`. -/
def lookups (files : List FileOutline) (p : Program) : List Lookup :=
  p.classes.flatMap (·.lookups files) ++ p.functions.flatMap (·.lookups files) ++
    p.main.toList.map fun f => ⟨"main", f, Candidate.functions files f.name, 0⟩

/-- Only callables and variables differ, by what was absent. -/
structure Filled (files : List FileOutline) (p q : Program) : Prop where
  classes : List.Forall₂ (Class.Filled files) p.classes q.classes
  enums : q.enums = p.enums
  functions : List.Forall₂ (OverloadSet.Filled files) p.functions q.functions
  globals : List.Forall₂ (GlobalVar.Filled files) p.globals q.globals
  main : Option.Rel (Callable.Filled files) p.main q.main

variable {files : List FileOutline} {p : Program}

theorem fill_eq :
    p.fill files =
      { p with
        classes := p.classes.map (·.fill files)
        functions := p.functions.map (·.fill files)
        globals := p.globals.map (·.fill files)
        main := p.main.map fun f => f.fill (Candidate.functions files f.name) [] } :=
  rfl

theorem filled_fill (files : List FileOutline) (p : Program) : p.Filled files (p.fill files) where
  classes := forall₂_map_right_iff.2 (forall₂_same.2 fun c _ => c.filled_fill files)
  enums := rfl
  functions := forall₂_map_right_iff.2 (forall₂_same.2 fun s _ => s.filled_fill files)
  globals := forall₂_map_right_iff.2 (forall₂_same.2 fun g _ => g.filled_fill files)
  main := by
    rw [fill_eq]
    cases p.main with
    | none => exact .none
    | some f => exact .some (Callable.filled_fill fun _ => Candidate.mem_all_of_mem_functions)

theorem fill_fill (files : List FileOutline) (p : Program) : (p.fill files).fill files = p.fill files := by
  simp only [fill_eq, map_map, Option.map_map]
  congr 1
  · exact map_congr_left fun c _ => c.fill_fill files
  · exact map_congr_left fun s _ => s.fill_fill files
  · exact map_congr_left fun g _ => g.fill_fill files
  · exact Option.map_congr fun f _ => Callable.fill_fill rfl

/-! ## What is still absent -/

/-- `main` keeps its name in C. -/
def MainKept (p : Program) : Prop :=
  ∀ f, p.main = some f → f.cName = "main".toList

theorem MainKept.fill (h : p.MainKept) (files : List FileOutline) : (p.fill files).MainKept := by
  intro f hf
  obtain ⟨g, hg, rfl⟩ := Option.map_eq_some_iff.1 hf
  exact h g hg

theorem mainKept_of_finish {q : Program} (h : p.finish = .ok q) : q.MainKept := by
  obtain ⟨rfl, -⟩ := finish_eq_ok h
  intro f hf
  obtain ⟨g, -, rfl⟩ := Option.map_eq_some_iff.1 hf
  rfl

/-- The callables without a body, as they are looked up. -/
theorem missingBodies_eq (h : p.MainKept) :
    p.missingBodies = ((p.lookups files).filter (·.callable.body.isNone)).map Lookup.name := by
  have hcls (c : Class) : ((c.lookups files).filter (·.callable.body.isNone)).map Lookup.name =
      (c.callables.filter (·.body.isNone)).map cName := by
    simp [Class.lookups, Class.callables, filter_map, Function.comp_def]
  have hset (s : OverloadSet) : ((s.lookups files).filter (·.callable.body.isNone)).map Lookup.name =
      (s.signatures.filter (·.body.isNone)).map cName := by
    simp [OverloadSet.lookups, filter_map, Function.comp_def]
  have hm : ((p.main.toList.map fun f => (⟨"main", f, Candidate.functions files f.name, 0⟩ : Lookup)).filter
      (·.callable.body.isNone)).map Lookup.name = (p.main.toList.filter (·.body.isNone)).map cName := by
    cases hp : p.main with
    | none => rfl
    | some f => by_cases hb : f.body.isNone <;> simp [hb, h f hp]
  simp only [missingBodies, lookups, signatures, filter_append, map_append, filter_flatMap, map_flatMap, hcls, hset, hm]

theorem missing_names (candidates : Callable → List Candidate) (siblings : Callable → List Callable) (fs : List Callable) :
    ((fs.map fun f => f.fill (candidates f) (siblings f)).filter (·.body.isNone)).map cName =
      ((fs.map fun f => (⟨f.cName, f, candidates f, (siblings f).length⟩ : Lookup)).filter (!·.isMet)).map Lookup.name := by
  have hmet (f : Callable) : (f.fill (candidates f) (siblings f)).body.isNone =
      !Lookup.isMet ⟨f.cName, f, candidates f, (siblings f).length⟩ := by
    rw [isNone_body_fill, Lookup.isMet, Bool.not_or, Option.not_isSome]
  simp only [filter_map, map_map, Function.comp_def, hmet]
  rfl

/-- What is absent after filling had no body and has no definition. -/
theorem missingBodies_fill (h : p.MainKept) :
    (p.fill files).missingBodies = ((p.lookups files).filter (!·.isMet)).map Lookup.name := by
  have hcls (c : Class) : ((c.fill files).callables.filter (·.body.isNone)).map cName =
      ((c.lookups files).filter (!·.isMet)).map Lookup.name := by
    rw [Class.lookups, Class.callables, filter_append, map_append, filter_append, map_append]
    exact congrArg₂ _ (missing_names (fun _ => _) (fun _ => c.constructors) _) (missing_names _ (fun f => [f]) _)
  have hset (s : OverloadSet) : ((s.fill files).signatures.filter (·.body.isNone)).map cName =
      ((s.lookups files).filter (!·.isMet)).map Lookup.name :=
    missing_names _ (fun _ => s.signatures) _
  have hm : ((p.fill files).main.toList.filter (·.body.isNone)).map cName =
      ((p.main.toList.map fun f => (⟨"main", f, Candidate.functions files f.name, 0⟩ : Lookup)).filter
        (!·.isMet)).map Lookup.name := by
    rw [fill_eq]
    cases hp : p.main with
    | none => rfl
    | some f =>
      rw [← h f hp]
      exact missing_names (fun f => Candidate.functions files f.name) (fun _ => []) [f]
  rw [lookups, filter_append, map_append, filter_append, map_append, ← hm]
  simp only [missingBodies, signatures, fill_eq, filter_flatMap, map_flatMap, flatMap_map, hcls, hset]

/-! ## Finished programs -/

/-- The program after it was filled from each corpus in turn. -/
def fillAll (p : Program) (corpora : List Corpus) : Program :=
  corpora.foldl (fun p c => p.fill c.outlines) p

theorem MainKept.fillAll (h : p.MainKept) (corpora : List Corpus) : (p.fillAll corpora).MainKept := by
  induction corpora generalizing p with
  | nil => exact h
  | cons c corpora ih => exact ih (h.fill c.outlines)

/-- Filling a finished program from a corpus adds bodies and initializers that were absent and changes nothing else, also if it
was filled before. The names reported are those of the callables without a body afterwards, in the order of the look-ups: they
had none and the corpus has no definition. Filling again from the same corpus changes nothing and reports the same names. -/
theorem fill_gaps (ds : List Declaration) (finished : Program) (h : (absorbAll {} ds).finish = .ok finished)
    (earlier : List Corpus) (corpus : Corpus) :
    let p := finished.fillAll earlier
    let q := p.fill corpus.outlines
    p.Filled corpus.outlines q ∧
      q.missingBodies = ((q.lookups corpus.outlines).filter (·.callable.body.isNone)).map Lookup.name ∧
      q.missingBodies = ((p.lookups corpus.outlines).filter (!·.isMet)).map Lookup.name ∧
      q.fill corpus.outlines = q ∧ (q.fill corpus.outlines).missingBodies = q.missingBodies := by
  intro p q
  have hmain : p.MainKept := (mainKept_of_finish h).fillAll earlier
  have hagain : q.fill corpus.outlines = q := fill_fill corpus.outlines p
  exact ⟨filled_fill corpus.outlines p, missingBodies_eq (hmain.fill _), missingBodies_fill hmain, hagain,
    congrArg missingBodies hagain⟩

/-- A class, two functions of one name, and `main`. -/
def gapSample : List Declaration :=
  [.record "Led" .classWord none, .constructor "Led" { name := "Led", rawType := "void (int)" },
    .method "Led" { name := "on", rawType := "void ()" }, .function { name := "put", rawType := "void (int)" },
    .function { name := "put", rawType := "void (char)" }, .function { name := "main", rawType := "int ()" }]

/-- A file that defines the method. -/
def methodCorpus : Corpus :=
  Corpus.ofList [("l.cpp", "void Led::on()\x7ba;\x7d")]

/-- A file that defines the method once more and both functions. -/
def functionCorpus : Corpus :=
  Corpus.ofList [("p.cpp", "void Led::on()\x7bb;\x7dvoid put(int)\x7bc;\x7dvoid put(char)\x7bd;\x7d")]

/-- The first corpus's body stays, and two callables get none. -/
theorem fill_gaps_gapSample :
    ∃ finished, (absorbAll {} gapSample).finish = .ok finished ∧
      let p := finished.fillAll [methodCorpus]
      let q := p.fill functionCorpus.outlines
      (q.lookups functionCorpus.outlines).map (fun l => (l.name, l.callable.body.map Body.text)) =
          [("Led_init_i".toList, none), ("Led_on".toList, some "a;".toList), ("put_i".toList, some "c;".toList),
            ("put_c".toList, some "d;".toList), ("main".toList, none)] ∧
        p.Filled functionCorpus.outlines q ∧
        q.missingBodies = ((q.lookups functionCorpus.outlines).filter (·.callable.body.isNone)).map Lookup.name ∧
        q.missingBodies = ((p.lookups functionCorpus.outlines).filter (!·.isMet)).map Lookup.name ∧
        q.fill functionCorpus.outlines = q ∧ (q.fill functionCorpus.outlines).missingBodies = q.missingBodies := by
  have hok : ((absorbAll {} gapSample).finish.toOption.any fun finished =>
      (((finished.fillAll [methodCorpus]).fill functionCorpus.outlines).lookups functionCorpus.outlines).map
          (fun l => (l.name, l.callable.body.map Body.text)) =
        [("Led_init_i".toList, none), ("Led_on".toList, some "a;".toList), ("put_i".toList, some "c;".toList),
          ("put_c".toList, some "d;".toList), ("main".toList, none)]) = true := by
    decide +kernel
  obtain ⟨finished, hfinished, htexts⟩ := exists_ok_of_any hok
  exact ⟨finished, hfinished, of_decide_eq_true htexts,
    fill_gaps gapSample finished hfinished [methodCorpus] functionCorpus⟩

end Program

end Declass
