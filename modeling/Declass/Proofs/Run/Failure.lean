import Declass.CommandLine.Execute
import Declass.Proofs.Run.Accounting

/-!
# Runs that fail

A run stops at a file that cannot be read, at one without declarations, or at a collision of names (`Run.programOf_cases`), all
before its first write. Main statement: `Run.failed_run_keeps_disk`.
-/

namespace Declass

open List

namespace Run

variable (r : Run) (d : Disk) {dir : Path} {e : RunError} (input : Path)

/-! ## What keeps a run from having a program -/

/-- What the analysis of a file finds, given the files of the corpus. -/
def analysis (input f : Path) : Except AnalysisError (List Declaration) :=
  r.source.declarations (d.load (d.related [input])).paths f

/-- The declarations of all analysed files, in their order. -/
def declared (input : Path) : List (List Declaration) :=
  (d.related [input]).map fun f => (r.analysis d input f).toOption.getD []

/-- What keeps a run with one input from a program: an unreadable file, a failed analysis, or a collision. -/
def Hindered (input : Path) : Prop :=
  (∃ f ∈ d.related [input], ∃ e, d.readText f = .error e) ∨
    (∃ f ∈ d.related [input], ∃ e, r.analysis d input f = .error e) ∨
      ∃ e, (Program.absorbAll {} (r.declared d input).flatten).finish = .error e

/-- The program is made in three steps. -/
theorem programOf_eq : r.programOf d input = match d.unreadable (d.related [input]) with
      | (path, e) :: _ => .error (.unreadable path e) | [] =>
        ((d.related [input]).mapM fun f => (r.analysis d input f).mapError RunError.analysis) >>= fun ds =>
          resolve ds (d.load (d.related [input])) := by
  unfold programOf
  dsimp only
  cases d.unreadable (d.related [input]) with
  | cons failure rest => rfl
  | nil =>
    dsimp only
    congr 2
    funext f
    unfold analysis
    cases r.source.declarations (d.load (d.related [input])).paths f <;> rfl

/-- The analyses fail with the first that fails, or all succeed. -/
theorem mapM_analysis (files : List Path) : (∃ f ∈ files, ∃ e, r.analysis d input f = .error e ∧
      files.mapM (fun f => (r.analysis d input f).mapError RunError.analysis) = .error (.analysis e)) ∨
    (∀ f ∈ files, ∀ e, r.analysis d input f ≠ .error e) ∧
      files.mapM (fun f => (r.analysis d input f).mapError RunError.analysis) =
        .ok (files.map fun f => (r.analysis d input f).toOption.getD []) := by
  induction files with
  | nil => exact .inr ⟨by simp, rfl⟩
  | cons f files ih =>
    rw [mapM_cons]
    cases hf : r.analysis d input f with
    | error e => exact .inl ⟨f, mem_cons_self, e, hf, rfl⟩
    | ok ds =>
      rcases ih with ⟨g, hg, e, he, hfs⟩ | ⟨hall, hfs⟩
      · refine .inl ⟨g, mem_cons_of_mem f hg, e, he, ?_⟩
        rw [hfs]
        rfl
      · refine .inr ⟨forall_mem_cons.2 ⟨by simp [hf], hall⟩, ?_⟩
        rw [hfs]
        simp [hf]
        rfl

/-- A run stops at an unreadable file, then a failed analysis, then a collision. -/
theorem programOf_cases :
    (∃ f ∈ d.related [input], ∃ e, d.readText f = .error e ∧ r.programOf d input = .error (.unreadable f e)) ∨
    (∀ f ∈ d.related [input], ∀ e, d.readText f ≠ .error e) ∧
      ((∃ f ∈ d.related [input], ∃ e, r.analysis d input f = .error e ∧ r.programOf d input = .error (.analysis e)) ∨
        (∀ f ∈ d.related [input], ∀ e, r.analysis d input f ≠ .error e) ∧
          r.programOf d input = resolve (r.declared d input) (d.load (d.related [input]))) := by
  rw [programOf_eq, d.unreadable_eq (d.nodup_key_related [input])]
  have hfailure {f g : Path} {e : DiskError} : Loading.failure? d f = some (g, e) ↔ f = g ∧ d.readText f = .error e := by
    unfold Loading.failure?
    cases d.readText f <;> simp
  cases hrd : (d.related [input]).filterMap (Loading.failure? d) with
  | cons failure rest =>
    obtain ⟨f, hf, hfail⟩ := mem_filterMap.1 (hrd ▸ mem_cons_self : failure ∈ _)
    obtain ⟨hp, he⟩ := hfailure.1 hfail
    exact .inl ⟨failure.1, hp ▸ hf, failure.2, hp ▸ he, rfl⟩
  | nil =>
    right
    refine ⟨fun f hf e he => ?_, ?_⟩
    · have hno := filterMap_eq_nil_iff.1 hrd f hf
      rw [hfailure.2 ⟨rfl, he⟩] at hno
      cases hno
    · rcases r.mapM_analysis d input (d.related [input]) with ⟨f, hf, e, he, hfs⟩ | ⟨hall, hfs⟩
      · refine .inl ⟨f, hf, e, he, ?_⟩
        simp only [hfs, bind, Except.bind]
      · refine .inr ⟨hall, ?_⟩
        simp only [hfs, bind, Except.bind, declared]

/-- The program is finished, or its names collide. -/
theorem resolve_cases (declarations : List (List Declaration)) (corpus : Corpus) :
    (∃ e, (Program.absorbAll {} declarations.flatten).finish = .error e ∧ resolve declarations corpus = .error (.collision e)) ∨
    (∃ p, resolve declarations corpus = .ok p) ∧ ∀ e, (Program.absorbAll {} declarations.flatten).finish ≠ .error e := by
  unfold resolve
  cases (Program.absorbAll {} declarations.flatten).finish with
  | error e => exact .inl ⟨e, rfl, rfl⟩
  | ok p => exact .inr ⟨⟨_, rfl⟩, by simp⟩

/-- A run with one input is hindered just if it has no program. -/
theorem hindered_iff : r.Hindered d input ↔ ∃ e, r.programOf d input = .error e ∧ ∀ path, e ≠ .unwritable path := by
  rcases r.programOf_cases d input with ⟨f, hf, e, he, hp⟩ | ⟨hrd, ⟨f, hf, e, he, hp⟩ | ⟨hall, hp⟩⟩
  · exact iff_of_true (.inl ⟨f, hf, e, he⟩) ⟨_, hp, by simp⟩
  · exact iff_of_true (.inr (.inl ⟨f, hf, e, he⟩)) ⟨_, hp, by simp⟩
  · rw [hp]
    rcases resolve_cases (r.declared d input) (d.load (d.related [input])) with ⟨e, he, hr⟩ | ⟨⟨p, hr⟩, hok⟩
    · exact iff_of_true (.inr (.inr ⟨e, he⟩)) ⟨_, hr, by simp⟩
    · refine iff_of_false ?_ (by simp [hr])
      rintro (⟨f, hf, e, he⟩ | ⟨f, hf, e, he⟩ | ⟨e, he⟩)
      · exact hrd f hf e he
      · exact hall f hf e he
      · exact hok e he

/-! ## What a failed run leaves -/

theorem store_error {d : Disk} {f : GeneratedFile} (h : (store d dir f).2 = .error e) : e = .unwritable (dir.join ⟨f.name⟩) := by
  unfold store at h
  dsimp only at h
  split at h
  · cases h
    rfl
  · split at h <;> cases h
    rfl

/-- Files are stored until one cannot be written. -/
theorem storeAll_error {fs : List GeneratedFile} {d : Disk} (h : (storeAll d dir fs).2 = .error e) :
    ∃ path, e = .unwritable path := by
  induction fs generalizing d with
  | nil => cases h
  | cons f fs ih =>
    unfold storeAll at h
    cases hf : store d dir f with
    | mk d' result =>
      rw [hf] at h
      cases result with
      | error e' =>
        cases h
        exact ⟨_, store_error (congrArg Prod.snd hf)⟩
      | ok path =>
        cases hr : (storeAll d' dir fs).2 with
        | error e' =>
          simp only [hr] at h
          cases h
          exact ih hr
        | ok paths =>
          simp only [hr] at h
          cases h

/-- A run without a program ends with that error and touches nothing; others can only fail to write. -/
theorem transpile_cases (output : Option Path) :
    (∃ e, r.programOf d input = .error e ∧ r.transpile d input output = (d, .error e)) ∨
      (∃ p, r.programOf d input = .ok p) ∧ ∀ e, (r.transpile d input output).2 = .error e → ∃ path, e = .unwritable path := by
  unfold transpile
  cases hp : r.programOf d input with
  | error e => exact .inl ⟨e, rfl, rfl⟩
  | ok p =>
    refine .inr ⟨⟨p, rfl⟩, fun e h => ?_⟩
    dsimp only at h
    cases hstored : (storeAll d (target input output).1
        (p.generateUnit r.options (target input output).2 (input.fileName?.getD input.text))).2 with
    | error e' =>
      rw [hstored] at h
      cases h
      exact storeAll_error hstored
    | ok paths =>
      rw [hstored] at h
      cases h

theorem batch_error {r : Run} {d : Disk} {inputs : List Path} (h : (r.batch d inputs dir).2 = .error e) :
    (r.batch d inputs dir).1 = d := by
  rcases rewrites_batch d dir r with hd | ⟨report, hrep, -⟩
  · exact hd
  · rw [hrep] at h
    cases h

/-- Showing what an input declares changes nothing. -/
theorem disk_perform_dump (compile : CompilerCommand → CompilerRun) (s : CommandLine.Settings) (input : Path) :
    (CommandLine.perform d compile s (.dump input)).disk = d := by
  unfold CommandLine.perform
  dsimp only
  split
  · rfl
  · split
    · rfl
    · unfold CommandLine.unitOutcome
      split <;> rfl

/-- A run that ends with an error leaves the disk as it was, unless it has one input and the error is a failed write; a look at
declarations always does, and fails only as the run would. A run with one input ends so, writing apart, exactly if a related file
cannot be read, the analysis of one fails or names collide. -/
theorem failed_run_keeps_disk (r : Run) (d : Disk) :
    (∀ input output e, (r.transpile d input output).2 = .error e → (∀ path, e ≠ .unwritable path) →
      (r.transpile d input output).1 = d) ∧
    (∀ inputs dir e, (r.batch d inputs dir).2 = .error e → (r.batch d inputs dir).1 = d) ∧
    (∀ input output e, r.inspect d input = .error e → r.transpile d input output = (d, .error e)) ∧
    (∀ compile settings input, (CommandLine.perform d compile settings (.dump input)).disk = d) ∧
    ∀ input output, r.Hindered d input ↔
      ∃ e, r.transpile d input output = (d, .error e) ∧ ∀ path, e ≠ .unwritable path := by
  refine ⟨fun input output e h hw => ?_, fun inputs dir e h => batch_error h, fun input output e h => ?_, disk_perform_dump d,
    fun input output => (r.hindered_iff d input).trans ?_⟩
  · rcases r.transpile_cases d input output with ⟨e', -, hrun⟩ | ⟨-, hwrite⟩
    · rw [hrun]
    · obtain ⟨path, rfl⟩ := hwrite e h
      exact absurd rfl (hw path)
  · rcases r.transpile_cases d input output with ⟨e', hp, hrun⟩ | ⟨⟨p, hp⟩, -⟩
    · rw [inspect, hp] at h
      cases h
      exact hrun
    · rw [inspect, hp] at h
      cases h
  · rcases r.transpile_cases d input output with ⟨e, hp, hrun⟩ | ⟨⟨p, hp⟩, hwrite⟩
    · simp [hp, hrun]
    · refine iff_of_false (by simp [hp]) ?_
      rintro ⟨e, hrun, hw⟩
      obtain ⟨path, rfl⟩ := hwrite e (congrArg Prod.snd hrun)
      exact hw path rfl

/-- A dump of two functions that both get the C name `f_i`. -/
def clashDump : Text :=
  "TranslationUnitDecl 0x1\n" ++ "|-FunctionDecl 0x2 <led.cpp:1:1> col:6 f 'void (int)'\n" ++
    "`-FunctionDecl 0x3 <line:2:1> line:2:6 f 'void (short)'\n"

/-- The declarations of the dump. -/
def clashDeclarations : List Declaration :=
  [.function { name := "f", rawType := "void (int)", origin := some "led.cpp" },
    .function { name := "f", rawType := "void (short)", origin := some "led.cpp" }]

/-- Their collision. -/
def clash : NameCollision :=
  { name := "f", cName := "f_i", first := "(int)", second := "(short)" }

/-- A run in which the names of one file collide. -/
def clashRun : Run :=
  { source := .ofList [("led.cpp", clashDump), ("led.h", "")], options := {} }

theorem declarations_clashRun :
    clashRun.source.declarations [⟨"led.cpp".toList⟩, ⟨"led.h".toList⟩] ⟨"led.cpp".toList⟩ = .ok clashDeclarations ∧
      clashRun.source.declarations [⟨"led.cpp".toList⟩, ⟨"led.h".toList⟩] ⟨"led.h".toList⟩ = .ok [] := by
  constructor <;> decide +kernel

theorem finish_clashDeclarations : (Program.absorbAll {} clashDeclarations).finish = .error clash := by
  decide +kernel

theorem hindered_clashRun : clashRun.Hindered sideBySide "led.cpp" := by
  have hdecl : clashRun.declared sideBySide "led.cpp" = [clashDeclarations, []] := by
    unfold declared analysis
    rw [paths_sideBySide, related_sideBySide, map_cons, declarations_clashRun.1]
    rfl
  refine .inr (.inr ⟨clash, ?_⟩)
  rw [hdecl]
  exact finish_clashDeclarations

theorem batch_clashRun : ∃ e, (clashRun.batch sideBySide ["led.cpp"] "out").2 = .error e := by
  have hreadable : readable (sideBySide.load (sideBySide.related ["led.cpp"])) (sideBySide.related ["led.cpp"]) =
      [⟨"led.cpp"⟩, ⟨"led.h"⟩] := by
    cbv
  have hfd : (successes (clashRun.analyses (sideBySide.load (sideBySide.related ["led.cpp"])).paths
      (readable (sideBySide.load (sideBySide.related ["led.cpp"])) (sideBySide.related ["led.cpp"])))).map Prod.snd =
        [clashDeclarations, []] := by
    rw [hreadable, paths_sideBySide, analyses, map_cons, declarations_clashRun.1]
    rfl
  have hres (corpus : Corpus) : resolve [clashDeclarations, []] corpus = .error (.collision clash) := by
    unfold resolve
    rw [show [clashDeclarations, []].flatten = clashDeclarations from rfl, finish_clashDeclarations]
  refine ⟨.collision clash, ?_⟩
  unfold batch
  dsimp only
  rw [if_neg (by decide), hfd, hres]

/-- Colliding names end a run with one input as well as a batch. -/
theorem failed_run_keeps_disk_clashRun :
    clashRun.Hindered sideBySide "led.cpp" ∧
      (∃ e, (clashRun.transpile sideBySide "led.cpp" none).2 = .error e ∧ (∀ path, e ≠ .unwritable path) ∧
        (clashRun.transpile sideBySide "led.cpp" none).1 = sideBySide) ∧
      (∃ e, (clashRun.batch sideBySide ["led.cpp"] "out").2 = .error e) ∧
        (clashRun.batch sideBySide ["led.cpp"] "out").1 = sideBySide := by
  obtain ⟨htranspile, hbatch, -, -, hhindered⟩ := failed_run_keeps_disk clashRun sideBySide
  obtain ⟨e, hrun, hw⟩ := (hhindered "led.cpp" none).mp hindered_clashRun
  have hfail : (clashRun.transpile sideBySide "led.cpp" none).2 = .error e := congrArg Prod.snd hrun
  obtain ⟨e', hfail'⟩ := batch_clashRun
  exact ⟨hindered_clashRun, ⟨e, hfail, hw, htranspile _ _ e hfail hw⟩, ⟨e', hfail'⟩, hbatch _ _ e' hfail'⟩

end Run

end Declass
