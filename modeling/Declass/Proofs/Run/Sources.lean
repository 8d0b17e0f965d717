import Declass.Proofs.Disk.Frame
import Declass.Proofs.Output.Layout
import Declass.Run.Basic
import Mathlib

/-!
# What a run does to its sources

Each file of the corpus was read from the disk as the run found it (`Loading.allRead_load`), and holds what it held unless the path of
a generated file leads to it. Main statement: `source_kept_unless_output`.
-/

namespace Declass

open List

namespace Loading

/-! ## Loading -/

variable {d : Disk} {s : Loading}

/-- Every file of the corpus can be read from the disk. -/
def AllRead (d : Disk) (s : Loading) : Prop :=
  ∀ p ∈ s.corpus.paths, ∃ bytes, d.read p = .ok bytes

theorem corpus_meet (p : Path) : (s.meet p).corpus = s.corpus := by
  unfold meet
  split <;> rfl

theorem corpus_foldl_meet (ps : List Path) : (ps.foldl meet s).corpus = s.corpus := by
  induction ps generalizing s with
  | nil => rfl
  | cons p ps ih => rw [foldl_cons, ih, corpus_meet]

/-- A file is added to the corpus only if it is read. -/
theorem AllRead.readFile (h : s.AllRead d) (p : Path) : (s.readFile d p).AllRead d := by
  intro q hq
  unfold Loading.readFile at hq
  split at hq
  next content hp =>
    rw [corpus_foldl_meet] at hq
    simp only [Corpus.append, Corpus.paths, map_append, mem_append] at hq
    rcases hq with hq | hq
    · exact h q hq
    · obtain ⟨bytes, hbys, -⟩ := Except.bind_eq_ok hp
      rw [mem_singleton.1 hq]
      exact ⟨bytes, hbys⟩
  · exact h q hq

/-- A round keeps the corpus readable. -/
theorem AllRead.readRound (h : s.AllRead d) : (s.readRound d).AllRead d := by
  have hfold : ∀ (ps : List Path) (s : Loading), s.AllRead d → (ps.foldl (Loading.readFile d) s).AllRead d := by
    intro ps
    induction ps with
    | nil => exact fun s hs => hs
    | cons p ps ih => exact fun s hs => ih _ (hs.readFile p)
  exact hfold s.waiting _ h

/-- All rounds keep the corpus readable. -/
theorem AllRead.rounds (h : s.AllRead d) (n : Nat) : (s.rounds d n).AllRead d := by
  induction n generalizing s with
  | zero => exact h
  | succ n ih =>
    unfold Loading.rounds
    split
    · exact h
    · exact ih h.readRound

/-- Every file of a corpus can be read. -/
theorem allRead_load (files : List Path) : ∀ p ∈ (d.load files).paths, ∃ bytes, d.read p = .ok bytes := by
  have hmeet : (files.foldl meet {}).AllRead d := by
    intro p hp
    rw [corpus_foldl_meet] at hp
    simp [Corpus.paths] at hp
  exact hmeet.readRound.rounds d.roundLimit

end Loading

/-! ## The names of the generated files -/

/-- The names of the header and of the source file of a unit. -/
def unitNames (stem : Text) : List Text :=
  [stem ++ ".h", stem ++ ".c"]

/-- The names that files of a batch can have. -/
def batchNames (o : OutputOptions) (inputs : List Path) : List Text :=
  o.sharedHeader :: (("main" : Text) :: Layout.stemsOf inputs).flatMap unitNames

/-- The paths of files in a directory. -/
def Path.within (dir : Path) (names : List Text) : List Path :=
  names.map fun name => dir.join ⟨name⟩

namespace Layout

theorem stem_mem_of_mem_foldl {stems : List Text} (cs : List Class) (taken : List (Text × Text))
    (h : ∀ e ∈ taken, e.2 ∈ stems) : ∀ e ∈ cs.foldl (addClass stems) taken, e.2 ∈ stems := by
  induction cs generalizing taken with
  | nil => exact h
  | cons c cs ih =>
    refine ih _ fun e he => ?_
    unfold addClass at he
    split at he
    · exact h e he
    next s hs =>
      split at he
      · exact h e he
      · rcases mem_append.1 he with he | he
        · exact h e he
        · rw [mem_singleton.1 he]
          exact mem_of_wantedStem? hs

/-- The unit of a class is a stem of the inputs. -/
theorem classStem?_mem {p : Program} {inputs : List Path} {name s : Text}
    (h : (ofInputs p inputs).classStem? name = some s) : s ∈ stemsOf inputs := by
  obtain ⟨e, he, rfl⟩ : ∃ e ∈ (ofInputs p inputs).classStems, e.2 = s := by
    obtain ⟨before, after, hl, -⟩ := lookup_eq_some_iff.1 h
    exact ⟨(name, s), by rw [hl]; simp, rfl⟩
  exact stem_mem_of_mem_foldl p.classes [] (by simp) e he

/-- The main unit is `main` or a stem of the inputs. -/
theorem mainStem_eq_or_mem (p : Program) :
    (ofInputs p inputs).mainStem = "main" ∨ (ofInputs p inputs).mainStem ∈ stemsOf inputs := by
  simp only [ofInputs]
  cases hs : ((p.main.bind Callable.definitionFile?).bind (stemAmong? (stemsOf inputs))).or
      ((stemsOf inputs).find? fun s => !(p.classes.foldl (addClass (stemsOf inputs)) []).any (·.2 = s)) with
  | none => exact .inl rfl
  | some s =>
    right
    rcases Option.or_eq_some_iff.1 hs with hs | ⟨-, hs⟩
    · obtain ⟨i, -, hi⟩ := Option.bind_eq_some_iff.1 hs
      exact mem_of_stemAmong? hi
    · exact mem_of_find?_eq_some hs

/-- The units are `main` and stems of the inputs. -/
theorem units_subset (p : Program) : (ofInputs p inputs).units ⊆ ("main" : Text) :: stemsOf inputs := by
  intro s hs
  rcases mem_units.1 hs with hs | rfl
  · exact mem_cons_of_mem _ hs
  · rcases mainStem_eq_or_mem p with h | h
    · rw [h]
      exact mem_cons_self
    · exact mem_cons_of_mem _ h

end Layout

namespace Program

/-- The files of a batch have the names they can have. -/
theorem name_mem_batchNames {p : Program} {o : OutputOptions} {inputs : List Path} {f : GeneratedFile}
    (h : f ∈ p.generateBatch o inputs) : f.name ∈ batchNames o inputs := by
  have hunit : ∀ s ∈ ("main" : Text) :: Layout.stemsOf inputs, f.name ∈ unitNames s → f.name ∈ batchNames o inputs :=
    fun s hs hf => mem_cons_of_mem _ (mem_flatMap.2 ⟨s, hs, hf⟩)
  simp only [generateBatch, cons_append, mem_cons, mem_append, mem_filterMap] at h
  rcases h with rfl | ⟨c, -, hc⟩ | ⟨s, hs, hf⟩
  · exact mem_cons_self
  · obtain ⟨s, hs, rfl⟩ := Option.map_eq_some_iff.1 hc
    exact hunit s (mem_cons_of_mem _ (Layout.classStem?_mem hs)) (by simp [unitNames])
  · refine hunit s (Layout.units_subset p hs) ?_
    unfold unitFile? at hf
    dsimp only at hf
    split at hf
    · cases hf
    · cases hf
      simp [unitNames]

end Program

namespace Run

/-! ## Writing -/

variable (d : Disk) (dir : Path) (fs : List GeneratedFile)

/-- A file is stored and no other changes, or none changes. -/
theorem store_cases (f : GeneratedFile) :
    (∃ d', store d dir f = (d', .ok (dir.join ⟨f.name⟩)) ∧ Disk.Rewrites [dir.join ⟨f.name⟩] d d') ∨
      ∃ d' e, store d dir f = (d', .error e) ∧ Disk.Rewrites [] d d' := by
  have hmade : Disk.Rewrites [] d (d.makeDirectories dir).1 := Disk.rewrites_makeDirectories
  unfold store
  dsimp only
  split
  next d' e hd' =>
    rw [hd'] at hmade
    exact .inr ⟨d', _, rfl, hmade⟩
  next d' hd' =>
    rw [hd'] at hmade
    split
    next d'' hd'' => exact .inl ⟨d'', rfl, (hmade.mono (by simp)).trans (Disk.rewrites_write hd'')⟩
    · exact .inr ⟨d', _, rfl, hmade⟩

/-- Files stored in a directory change nothing else. -/
theorem rewrites_storeAll : Disk.Rewrites (dir.within (fs.map GeneratedFile.name)) d (storeAll d dir fs).1 := by
  induction fs generalizing d with
  | nil => exact .refl _ d
  | cons f fs ih =>
    unfold storeAll
    rcases store_cases d dir f with ⟨d', hf, hd'⟩ | ⟨d', e, hf, hd'⟩
    · simp only [hf]
      exact (hd'.mono (by simp [Path.within])).trans ((ih d').mono (subset_cons_self _ _))
    · simp only [hf]
      exact hd'.mono (by simp)

/-- Of files stored one by one, only those stored change the disk. -/
theorem rewrites_storeEach : Disk.Rewrites ((storeEach d dir fs).2.filterMap fun w => w.toOption) d (storeEach d dir fs).1 := by
  induction fs generalizing d with
  | nil => exact .refl _ d
  | cons f fs ih =>
    unfold storeEach
    rcases store_cases d dir f with ⟨d', hf, hd'⟩ | ⟨d', e, hf, hd'⟩
    · simp only [hf, Except.toOption]
      exact (hd'.mono (by simp)).trans ((ih d').mono (subset_cons_self _ _))
    · simp only [hf]
      exact (hd'.mono (by simp)).trans (ih d')

/-- The files reported as written are some of those stored. -/
theorem mem_within_of_stored :
    ((storeEach d dir fs).2.filterMap fun w => w.toOption) ⊆ dir.within (fs.map GeneratedFile.name) := by
  induction fs generalizing d with
  | nil => simp [storeEach]
  | cons f fs ih =>
    unfold storeEach
    rcases store_cases d dir f with ⟨d', hf, -⟩ | ⟨d', e, hf, -⟩
    · simp only [hf]
      exact cons_subset_cons _ (ih d')
    · simp only [hf]
      exact List.Subset.trans (ih d') (subset_cons_self _ _)

/-! ## Runs -/

variable (r : Run)

/-- A run with one input changes only its two files. -/
theorem rewrites_transpile (input : Path) (output : Option Path) :
    Disk.Rewrites ((target input output).1.within (unitNames (target input output).2)) d (r.transpile d input output).1 := by
  unfold transpile
  split
  · exact .refl _ d
  next p hp => exact rewrites_storeAll d _ (p.generateUnit r.options _ _)

/-- A batch changes only the files that it reports. -/
theorem rewrites_batch : (r.batch d inputs dir).1 = d ∨
      ∃ report, (r.batch d inputs dir).2 = .ok report ∧ Disk.Rewrites report.outputs d (r.batch d inputs dir).1 ∧
        report.outputs ⊆ dir.within (batchNames r.options report.analyzed) := by
  unfold batch
  split
  · exact .inl rfl
  dsimp only
  split
  · exact .inl rfl
  next p hp =>
    right
    refine ⟨_, rfl, ?_, ?_⟩
    · dsimp only
      split
      · exact .refl _ d
      · exact rewrites_storeEach d dir _
    · dsimp only
      split
      · simp
      · refine List.Subset.trans (mem_within_of_stored d dir _) (map_subset _ fun name hn => ?_)
        obtain ⟨f, hf, rfl⟩ := mem_map.1 hn
        exact Program.name_mem_batchNames hf

/-- Every file that a run reads as a source holds after the run what it held, unless the path of a generated file leads to it.
A run with one input generates a header and a source file; a batch reports the files it wrote. -/
theorem source_kept_unless_output (r : Run) (d : Disk) :
    (∀ (input : Path) (output : Option Path), ∀ p ∈ (d.load (d.related [input])).paths,
      ∃ bytes, d.read p = .ok bytes ∧
        ((r.transpile d input output).1.read p = .ok bytes ∨
          ∃ q ∈ (target input output).1.within (unitNames (target input output).2),
            (r.transpile d input output).1.SamePlace q p)) ∧
    (∀ (inputs : List Path) (dir : Path), ∀ p ∈ (d.load (d.related inputs)).paths,
      ∃ bytes, d.read p = .ok bytes ∧
        ((r.batch d inputs dir).1.read p = .ok bytes ∨
          ∃ report, (r.batch d inputs dir).2 = .ok report ∧
            ∃ q ∈ report.outputs, q ∈ dir.within (batchNames r.options report.analyzed) ∧
              (r.batch d inputs dir).1.SamePlace q p)) := by
  constructor
  · intro input output p hp
    obtain ⟨bytes, hbytes⟩ := Loading.allRead_load _ p hp
    exact ⟨bytes, hbytes, (rewrites_transpile d r input output).read hbytes⟩
  · intro inputs dir p hp
    obtain ⟨bytes, hbytes⟩ := Loading.allRead_load _ p hp
    refine ⟨bytes, hbytes, ?_⟩
    rcases rewrites_batch d dir r with hd | ⟨report, hreport, hrewrites, hnames⟩
    · rw [hd]
      exact .inl hbytes
    · rcases hrewrites.read hbytes with hkept | ⟨q, hq, hlead⟩
      · exact .inl hkept
      · exact .inr ⟨report, hreport, q, hq, hnames hq, hlead⟩

/-- A source file beside the header that it includes. -/
def sideBySide : Disk :=
  { entries := [(["led.cpp".toList], .file (Text.toUtf8 "#include \"led.h\"\n")),
      (["led.h".toList], .file (Text.toUtf8 "class Led;\n"))] }

/-- A run in which neither file declares anything. -/
def silentRun : Run :=
  { source := .ofList [("led.cpp", ""), ("led.h", "")], options := {} }

/-- The header beside the source is related to it. -/
theorem related_sideBySide : sideBySide.related ["led.cpp"] = [⟨"led.cpp".toList⟩, ⟨"led.h".toList⟩] := by
  cbv

theorem paths_sideBySide : (sideBySide.load (sideBySide.related ["led.cpp"])).paths = [⟨"led.cpp".toList⟩, ⟨"led.h".toList⟩] := by
  cbv

theorem mem_sources_sideBySide : ("led.h" : Path) ∈ (sideBySide.load (sideBySide.related ["led.cpp"])).paths := by
  rw [paths_sideBySide]
  decide

theorem source_kept_unless_output_sideBySide :
    ("led.h" : Path) ∈ (sideBySide.load (sideBySide.related ["led.cpp"])).paths ∧
      (∃ bytes, sideBySide.read "led.h" = .ok bytes ∧
        ((silentRun.transpile sideBySide "led.cpp" (some "out")).1.read "led.h" = .ok bytes ∨
          ∃ q ∈ (target "led.cpp" (some "out")).1.within (unitNames (target "led.cpp" (some "out")).2),
            (silentRun.transpile sideBySide "led.cpp" (some "out")).1.SamePlace q "led.h")) ∧
      ∃ bytes, sideBySide.read "led.h" = .ok bytes ∧
        ((silentRun.batch sideBySide ["led.cpp"] "out").1.read "led.h" = .ok bytes ∨
          ∃ report, (silentRun.batch sideBySide ["led.cpp"] "out").2 = .ok report ∧
            ∃ q ∈ report.outputs, q ∈ Path.within "out" (batchNames silentRun.options report.analyzed) ∧
              (silentRun.batch sideBySide ["led.cpp"] "out").1.SamePlace q "led.h") :=
  have hmem := mem_sources_sideBySide
  have hkept := source_kept_unless_output silentRun sideBySide
  ⟨hmem, hkept.1 "led.cpp" (some "out") "led.h" hmem, hkept.2 ["led.cpp"] "out" "led.h" hmem⟩

theorem programOf_silentRun : silentRun.programOf sideBySide "led.cpp" = .ok {} := by
  have hrd : sideBySide.unreadable (sideBySide.related ["led.cpp"]) = [] := by cbv
  have hf : ∀ f : Path, f = ⟨"led.cpp"⟩ ∨ f = ⟨"led.h"⟩ →
      silentRun.source.declarations [⟨"led.cpp"⟩, ⟨"led.h"⟩] f = .ok [] := by
    rintro f (rfl | rfl) <;> cbv
  unfold programOf
  simp only [hrd]
  rfl

/-- By default the generated header replaces the one that was read. -/
theorem transpile_overwrites_sibling :
    ("led.h" : Path) ∈ (sideBySide.load (sideBySide.related ["led.cpp"])).paths ∧
      (silentRun.transpile sideBySide "led.cpp" none).1.read "led.h" ≠ sideBySide.read "led.h" := by
  refine ⟨mem_sources_sideBySide, ?_⟩
  unfold transpile
  rw [programOf_silentRun]
  decide +kernel

end Run

end Declass
