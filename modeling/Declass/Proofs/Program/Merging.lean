import Declass.Dump.Reader
import Declass.Proofs.Program.Order
import Mathlib.Data.List.Induction

/-!
# Which reports are of one function

A free function is known by its name and its parameter types, and `main` by its name alone; files and linkage take no part. Main
statement: each reported function has one entry, shared by its reports and by no others (`Program.freeFunctions_of_finish`).
-/

namespace Declass

open Callable Declaration List

/-- What a free function is known by. -/
def Callable.identity (f : Callable) : Fact :=
  if f.name = "main" then .main else .signature f.name f.paramTypes

namespace CallableDecl

/-- What the reported function is known by. -/
def identity (d : CallableDecl) : Fact :=
  (ofDecl d).identity

/-- The file of a definition. -/
def definitionFile? (d : CallableDecl) : Option Path :=
  if d.isDefinition then d.origin else none

end CallableDecl

/-- The reported free function. -/
def Declaration.function? : Declaration → Option CallableDecl
  | .function d => some d
  | _ => none

/-- The reports of a free function, in their order. -/
def Declaration.reportsOf (x : Fact) (ds : List Declaration) : List CallableDecl :=
  (ds.filterMap function?).filter fun d => d.identity = x

/-! ## Tables -/

namespace Table

variable {α β : Type} [DecidableEq β] (key : α → β)

/-- The entry with a key after an edit with the key of `fresh`. -/
theorem find?_upsert {k : β} {f : α → α} {fresh : α} (hf : ∀ x, key (f x) = key x) (hk : key fresh = k) (k' : β) (xs : List α) :
    (upsert (fun x => key x = k) f fresh xs).find? (fun x => key x = k') =
      if k = k' then some ((xs.find? fun x => key x = k').elim fresh f) else xs.find? fun x => key x = k' := by
  induction xs with
  | nil => by_cases h : k = k' <;> simp [upsert, hk]
  | cons x xs ih =>
    by_cases hx : key x = k
    · by_cases h : k = k'
      · simp [upsert, hx, hf, h]
      · simp [upsert, hx, hf, h]
    · by_cases hx' : key x = k'
      · have h : k ≠ k' := fun h => hx (hx'.trans h.symm)
        simp [upsert, hx', h, Ne.symm h]
      · simpa [upsert, hx, hx'] using ih

/-- With distinct keys, at most one entry has a key. -/
theorem filter_eq_find? {xs : List α} (h : (xs.map key).Nodup) (k : β) :
    xs.filter (fun x => key x = k) = (xs.find? fun x => key x = k).toList := by
  induction xs with
  | nil => rfl
  | cons x xs ih =>
    rw [map_cons, nodup_cons] at h
    by_cases hx : key x = k
    · have hno : xs.filter (fun y => key y = k) = [] := by
        rw [filter_eq_nil_iff]
        intro y hy hyk
        exact h.1 (mem_map.2 ⟨y, hy, (of_decide_eq_true hyk).trans hx.symm⟩)
      rw [filter_cons_of_pos (by simpa using hx), find?_cons_of_pos (by simpa using hx), hno]
      rfl
    · rw [filter_cons_of_neg (by simpa using hx), find?_cons_of_neg (by simpa using hx), ih h.2]

end Table

/-! ## Merging reports -/

namespace Callable

variable {f : Callable} (fs : List Callable)

theorem identity_eq_main_iff : f.identity = .main ↔ f.name = "main".toList := by
  unfold identity
  split <;> simp_all

theorem identity_eq_signature_iff {name : Text} {types : List Text} :
    f.identity = .signature name types ↔ f.name ≠ "main".toList ∧ f.name = name ∧ f.paramTypes = types := by
  unfold identity
  split <;> simp_all

/-- The callable before it gets its C name. -/
def unnamed (f : Callable) : Callable :=
  { f with cName := [] }

/-- The callable of the first report, with what later ones add. -/
def mergeAll : List Callable → Option Callable
  | [] => none
  | f :: fs => some (fs.foldl merge f)

theorem mergeAll_concat : mergeAll (fs ++ [f]) = some ((mergeAll fs).elim f (·.merge f)) := by
  cases fs with
  | nil => rfl
  | cons g fs => simp [mergeAll]

theorem name_foldl_merge (f : Callable) : (fs.foldl merge f).name = f.name := by
  induction fs generalizing f with
  | nil => rfl
  | cons g fs ih => exact ih (f.merge g)

/-- The first definition gives the file. -/
theorem definedIn_foldl_merge : (fs.foldl merge f).definedIn = (f :: fs).findSome? definedIn := by
  induction fs generalizing f with
  | nil => cases h : f.definedIn <;> simp
  | cons g fs ih =>
    rw [foldl_cons, ih]
    simp only [findSome?_cons, merge]
    cases f.definedIn <;> rfl

end Callable

namespace Program

variable {p q : Program} {ds : List Declaration}

/-- `main` and every function signature. -/
def freeFunctions (p : Program) : List Callable :=
  p.main.toList ++ p.signatures

/-- The entry of a free function. -/
def entryOf? (p : Program) : Fact → Option Callable
  | .main => p.main
  | .signature name types => (p.function? name).bind fun s => s.signatures.find? (·.paramTypes = types)
  | _ => none

/-- A report of a function changes its entry and no other. -/
theorem entryOf?_addFunction (f : Callable) (x : Fact) :
    (p.addFunction f).entryOf? x = if f.identity = x then some ((p.entryOf? x).elim f (·.merge f)) else p.entryOf? x := by
  unfold addFunction
  split
  next hm =>
    have hid : f.identity = .main := identity_eq_main_iff.2 hm
    rw [hid]
    cases x with
    | main => simp [entryOf?]
    | _ => rfl
  next hm =>
    have hid : f.identity = .signature f.name f.paramTypes := identity_eq_signature_iff.2 ⟨hm, rfl, rfl⟩
    rw [hid]
    cases x with
    | signature name types =>
      have hset := Table.find?_upsert OverloadSet.name
        (f := fun s => { s with signatures := addSignature s.signatures f }) (fun _ => rfl)
        (rfl : OverloadSet.name { name := f.name, signatures := [f] } = f.name) name p.functions
      have hsig (s : OverloadSet) : (addSignature s.signatures f).find? (·.paramTypes = types) = _ :=
        Table.find?_upsert paramTypes (fun g => g.paramTypes_merge f) rfl types s.signatures
      simp only [entryOf?, function?, hset]
      by_cases hn : f.name = name
      · cases p.functions.find? fun s => s.name = name with
        | none => by_cases htys : f.paramTypes = types <;> simp [hn]
        | some s => by_cases htys : f.paramTypes = types <;> simp [hn, hsig]
      · simp [hn]
    | _ => rfl

theorem entryOf?_absorb (d : Declaration) (x : Fact) : (p.absorb d).entryOf? x = match d.function? with
      | some c => if c.identity = x then some ((p.entryOf? x).elim (ofDecl c) (·.merge (ofDecl c))) else p.entryOf? x
      | none => p.entryOf? x := by
  cases d with
  | function c => exact p.entryOf?_addFunction (ofDecl c) x
  | _ => cases x <;> rfl

/-- The entry of a free function is what its reports add up to. -/
theorem entryOf?_absorbAll_empty (ds : List Declaration) (x : Fact) :
    (absorbAll {} ds).entryOf? x = mergeAll ((reportsOf x ds).map ofDecl) := by
  induction ds using List.reverseRecOn with
  | nil => cases x <;> rfl
  | append_singleton ds d ih =>
    have hl : absorbAll {} (ds ++ [d]) = (absorbAll {} ds).absorb d := by simp [absorbAll]
    rw [hl, entryOf?_absorb, ih]
    unfold reportsOf
    cases hd : d.function? with
    | none => simp [hd]
    | some c =>
      by_cases hc : c.identity = x
      · simp [hd, hc, mergeAll_concat]
      · simp [hd, hc]

/-! ## Entries of a program -/

/-- The function `main` is called so. -/
def MainNamed (p : Program) : Prop :=
  ∀ f, p.main = some f → f.name = "main".toList

theorem mainNamed_absorbAll_empty (ds : List Declaration) : (absorbAll {} ds).MainNamed := by
  intro f hf
  have hent := entryOf?_absorbAll_empty ds .main
  rw [show (absorbAll {} ds).entryOf? .main = some f from hf] at hent
  cases hreps : reportsOf .main ds with
  | nil =>
    rw [hreps] at hent
    nomatch hent
  | cons d rest =>
    rw [hreps] at hent
    have hd : d ∈ reportsOf .main ds := hreps ▸ mem_cons_self
    have hid : d.identity = .main := of_decide_eq_true (mem_filter.1 hd).2
    rw [Option.some.inj hent, name_foldl_merge]
    exact identity_eq_main_iff.1 hid

theorem filter_signatures (h : p.Merged) (hkey : p.Keyed) (name : Text) (types : List Text) :
    p.signatures.filter (fun f => f.identity = .signature name types) = (p.entryOf? (.signature name types)).toList := by
  have hset : ∀ s ∈ p.functions, s.signatures.filter (fun f => f.identity = .signature name types) =
      if s.name = name then (s.signatures.find? (·.paramTypes = types)).toList else [] := by
    intro s hs
    rw [← Table.filter_eq_find? paramTypes (h.signatures s hs)]
    split
    next hn =>
      refine filter_congr fun f hf => ?_
      have hm := hkey.functions f (mem_flatMap.2 ⟨s, hs, hf⟩)
      rw [decide_eq_decide, identity_eq_signature_iff]
      exact ⟨fun hid => hid.2.2, fun htys => ⟨hm, (h.names s hs f hf).trans hn, htys⟩⟩
    next hn =>
      rw [filter_eq_nil_iff]
      intro f hf hid
      have hid := identity_eq_signature_iff.1 (of_decide_eq_true hid)
      exact hn ((h.names s hs f hf).symm.trans hid.2.1)
  have hsets := Table.filter_eq_find? OverloadSet.name h.sets name
  calc p.signatures.filter (fun f => f.identity = .signature name types)
      = p.functions.flatMap fun s => s.signatures.filter fun f => f.identity = .signature name types :=
        filter_flatMap
    _ = p.functions.flatMap fun s =>
          if s.name = name then (s.signatures.find? (·.paramTypes = types)).toList else [] :=
        flatMap_congr hset
    _ = (p.functions.filter (fun s => s.name = name)).flatMap fun s =>
          (s.signatures.find? (·.paramTypes = types)).toList := by
        induction p.functions with
        | nil => rfl
        | cons s ss ih => by_cases hn : s.name = name <;> simp [hn, ih]
    _ = (p.entryOf? (.signature name types)).toList := by
        rw [hsets]
        cases hfd : p.functions.find? fun s => s.name = name <;> simp [entryOf?, function?, hfd]

/-- A free function has one entry, or none. -/
theorem filter_freeFunctions (h : p.Merged) (hkey : p.Keyed) (hm : p.MainNamed) (f : Callable) :
    p.freeFunctions.filter (fun g => g.identity = f.identity) = (p.entryOf? f.identity).toList := by
  unfold freeFunctions
  rw [filter_append]
  by_cases hn : f.name = "main"
  · rw [identity_eq_main_iff.2 hn]
    have hsigs : p.signatures.filter (fun g => g.identity = .main) = [] := by
      rw [filter_eq_nil_iff]
      exact fun g hg hid => hkey.functions g hg (identity_eq_main_iff.1 (of_decide_eq_true hid))
    have hent : p.main.toList.filter (fun g => g.identity = .main) = p.main.toList := by
      rw [filter_eq_self]
      exact fun g hg => decide_eq_true (identity_eq_main_iff.2 (hm g (by simpa using hg)))
    rw [hsigs, hent, append_nil]
    rfl
  · rw [identity_eq_signature_iff.2 ⟨hn, rfl, rfl⟩, filter_signatures h hkey]
    have hent : p.main.toList.filter (fun g => g.identity = .signature f.name f.paramTypes) = [] := by
      rw [filter_eq_nil_iff]
      intro g hg hid
      exact (identity_eq_signature_iff.1 (of_decide_eq_true hid)).1 (hm g (by simpa using hg))
    rw [hent, nil_append]

theorem filter_freeFunctions_absorbAll_empty (f : Callable) :
    (absorbAll {} ds).freeFunctions.filter (fun g => g.identity = f.identity) =
      (mergeAll ((reportsOf f.identity ds).map ofDecl)).toList := by
  rw [← entryOf?_absorbAll_empty]
  exact filter_freeFunctions (Merged.empty.absorbAll ds) (Keyed.empty.absorbAll ds) (mainNamed_absorbAll_empty ds) f

theorem exists_report {f : Callable} (hf : f ∈ (absorbAll {} ds).freeFunctions) :
    ∃ d, .function d ∈ ds ∧ d.identity = f.identity := by
  have hmem : f ∈ (absorbAll {} ds).freeFunctions.filter fun g => g.identity = f.identity :=
    mem_filter.2 ⟨hf, decide_eq_true rfl⟩
  rw [filter_freeFunctions_absorbAll_empty] at hmem
  cases hreps : reportsOf f.identity ds with
  | nil =>
    rw [hreps] at hmem
    nomatch hmem
  | cons d rest =>
    have hd : d ∈ reportsOf f.identity ds := hreps ▸ mem_cons_self
    obtain ⟨hrep, hid⟩ := mem_filter.1 hd
    obtain ⟨e, he, hed⟩ := mem_filterMap.1 hrep
    cases e with
    | function c =>
      cases hed
      exact ⟨d, he, of_decide_eq_true hid⟩
    | _ => nomatch hed

/-! ## Finished programs -/

/-- A finished program has the free functions of the built one, C names apart. -/
theorem freeFunctions_finish (h : p.finish = .ok q) : q.freeFunctions.map unnamed = p.freeFunctions.map unnamed := by
  obtain ⟨rfl, -⟩ := finish_eq_ok h
  have hm : p.withoutPlain.named.main.toList.map unnamed = p.main.toList.map unnamed := by
    simp only [withoutPlain]
    cases p.main <;> rfl
  have hset (s : OverloadSet) : s.named.signatures.map unnamed = s.signatures.map unnamed := by
    rw [OverloadSet.named, map_map]
    rfl
  have hsigs : p.withoutPlain.named.signatures.map unnamed = p.signatures.map unnamed := by
    simp only [signatures, named, withoutPlain, map_flatMap, flatMap_map, hset]
  rw [freeFunctions, freeFunctions, map_append, map_append, hm, hsigs]

/-- The entries of the function that a report is of. -/
def entriesOf (p : Program) (d : CallableDecl) : List Callable :=
  p.freeFunctions.filter fun f => f.identity = d.identity

/-- A function has one entry, with the file of its first definition. -/
theorem entriesOf_finish (h : (absorbAll {} ds).finish = .ok q) {d : CallableDecl} (hd : .function d ∈ ds) :
    ∃ f, q.entriesOf d = [f] ∧ f.definedIn = (reportsOf d.identity ds).findSome? CallableDecl.definitionFile? := by
  have hbuilt : (absorbAll {} ds).entriesOf d = (mergeAll ((reportsOf d.identity ds).map ofDecl)).toList :=
    filter_freeFunctions_absorbAll_empty (ofDecl d)
  have hunnamed : (q.entriesOf d).map unnamed = ((absorbAll {} ds).entriesOf d).map unnamed := by
    have hfil (r : Program) : (r.entriesOf d).map unnamed =
        (r.freeFunctions.map unnamed).filter fun f => f.identity = d.identity := by
      rw [filter_map]
      rfl
    rw [hfil, hfil, freeFunctions_finish h]
  have hrep : d ∈ reportsOf d.identity ds :=
    mem_filter.2 ⟨mem_filterMap.2 ⟨_, hd, rfl⟩, decide_eq_true rfl⟩
  cases hreps : reportsOf d.identity ds with
  | nil =>
    rw [hreps] at hrep
    nomatch hrep
  | cons first rest =>
    rw [hbuilt, hreps] at hunnamed
    obtain ⟨f, hf, hfst⟩ := map_eq_singleton_iff.1 hunnamed
    refine ⟨f, hf, ?_⟩
    have hfi : f.unnamed.definedIn = _ := congrArg definedIn hfst
    calc f.definedIn = ((rest.map ofDecl).foldl merge (ofDecl first)).definedIn := hfi
      _ = ((first :: rest).map ofDecl).findSome? definedIn := definedIn_foldl_merge _
      _ = (first :: rest).findSome? CallableDecl.definitionFile? := findSome?_map ..

/-- Each reported function has exactly one entry in a finished program. Two reports share it if and only if they are of one
function, from whichever files and with whatever linkage, and it keeps the file of the first definition. -/
theorem freeFunctions_of_finish (ds : List Declaration) (q : Program) (h : (absorbAll {} ds).finish = .ok q)
    (a b : CallableDecl) (ha : .function a ∈ ds) (hb : .function b ∈ ds) :
    ∃ f g, q.entriesOf a = [f] ∧ q.entriesOf b = [g] ∧ (f = g ↔ a.identity = b.identity) ∧
      f.definedIn = (reportsOf a.identity ds).findSome? CallableDecl.definitionFile? ∧
      g.definedIn = (reportsOf b.identity ds).findSome? CallableDecl.definitionFile? := by
  obtain ⟨f, hf, hfile⟩ := entriesOf_finish h ha
  obtain ⟨g, hg, hfile'⟩ := entriesOf_finish h hb
  refine ⟨f, g, hf, hg, ?_, hfile, hfile'⟩
  have hmem {d : CallableDecl} {e : Callable} (he : q.entriesOf d = [e]) : e.identity = d.identity := by
    have he : e ∈ q.entriesOf d := he ▸ mem_singleton_self e
    exact of_decide_eq_true (mem_filter.mp he).2
  constructor
  · rintro rfl
    exact (hmem hf).symm.trans (hmem hg)
  · intro hsame
    have hentries : q.entriesOf a = q.entriesOf b := by rw [entriesOf, entriesOf, hsame]
    exact singleton_inj.mp (hf.symm.trans (hentries.trans hg))

/-- A definition of a function with internal linkage. -/
def localTick (file : Path) (type : Text) : CallableDecl :=
  { name := "tick", rawType := type, isDefinition := true, isStatic := true, origin := some file }

/-- Two files with a function of their own each, and one more. -/
def tickSample : List Declaration :=
  [.function (localTick "a.cpp" "void ()"), .function (localTick "b.cpp" "void ()"),
    .function (localTick "b.cpp" "void (int)")]

theorem freeFunctions_of_finish_tickSample :
    ∃ q, (absorbAll {} tickSample).finish = .ok q ∧ .function (localTick "b.cpp" "void ()") ∈ tickSample ∧
      .function (localTick "b.cpp" "void (int)") ∈ tickSample ∧
      ∃ f g, q.entriesOf (localTick "b.cpp" "void ()") = [f] ∧ q.entriesOf (localTick "b.cpp" "void (int)") = [g] ∧
        (f = g ↔ (localTick "b.cpp" "void ()").identity = (localTick "b.cpp" "void (int)").identity) ∧
        f.definedIn = (reportsOf (localTick "b.cpp" "void ()").identity tickSample).findSome?
          CallableDecl.definitionFile? ∧
        g.definedIn = (reportsOf (localTick "b.cpp" "void (int)").identity tickSample).findSome?
          CallableDecl.definitionFile? := by
  have hfirst : .function (localTick "b.cpp" "void ()") ∈ tickSample := by simp [tickSample]
  have hsecond : .function (localTick "b.cpp" "void (int)") ∈ tickSample := by simp [tickSample]
  have hok : ((absorbAll {} tickSample).finish.toOption.any fun _ => true) = true := by decide +kernel
  obtain ⟨q, hq, -⟩ := exists_ok_of_any hok
  exact ⟨q, hq, hfirst, hsecond, freeFunctions_of_finish tickSample q hq _ _ hfirst hsecond⟩

/-- The dump of a file that defines a function of its own. -/
def tickDump (file : Text) : Text :=
  "TranslationUnitDecl 0x1\n`-FunctionDecl 0x2 <" ++ file ++ ":1:1> col:13 tick 'void ()' static\n" ++
    "  `-CompoundStmt 0x3 <col:20>\n"

/-- What the dumps of two such files report. -/
def tickDeclarations : List Declaration :=
  Dump.declarations none (tickDump "a.cpp") ++ Dump.declarations none (tickDump "b.cpp")

/-- Functions of two files share one entry, with the first file. -/
theorem local_definitions_share_entry :
    tickDeclarations = [.function (localTick "a.cpp" "void ()"), .function (localTick "b.cpp" "void ()")] ∧
      ∃ q, (absorbAll {} tickDeclarations).finish = .ok q ∧
        q.freeFunctions.map (fun f => (f.name, f.definedIn)) = [("tick".toList, some ⟨"a.cpp".toList⟩)] := by
  have hok : ((absorbAll {} tickDeclarations).finish.toOption.any fun q =>
      q.freeFunctions.map (fun f => (f.name, f.definedIn)) = [("tick".toList, some ⟨"a.cpp".toList⟩)]) = true := by
    decide +kernel
  obtain ⟨q, hq, htest⟩ := exists_ok_of_any hok
  exact ⟨by decide +kernel, q, hq, of_decide_eq_true htest⟩

end Program

end Declass
