import Declass.Proofs.Program.Keyed
import Declass.Proofs.Run.Sources

/-!
# What a batch accounts for

No path is met twice, so whether a file of a batch is in the corpus is decided by reading it once (`Disk.isSome_get?_load`). Main
statement: each file is in the report once, as analysed or as a failure, and so is each generated file (`Run.batch_accounts`).
-/

namespace Declass

open List Declass.Path
open Failure (path)

/-! ## Related files -/

namespace Disk

variable (d : Disk)

theorem nodup_key_addPath {paths : List Path} (h : (paths.map key).Nodup) (p : Path) :
    ((addPath paths p).map key).Nodup := by
  unfold addPath
  split
  · exact h
  next hnew =>
    exact Table.nodup_map_concat h fun q hq hkey => hnew (any_eq_true.2 ⟨q, hq, key_eq_key_iff.1 hkey.symm⟩)

/-- No two related files are spellings of one path. -/
theorem nodup_key_related (inputs : List Path) : ((d.related inputs).map key).Nodup := by
  have hst : (([] : List Path).map key).Nodup := nodup_nil
  exact List.foldlRecOn (motive := fun paths => (paths.map key).Nodup) _ addPath hst
    fun _ h p _ => nodup_key_addPath h p

end Disk

/-! ## Rounds of loading -/

namespace Loading

variable {d : Disk} {old : List Key} {s : Loading} (ps : List Path)

/-- Paths met for the first time all wait, in their order. -/
theorem foldl_meet_of_nodup (s : Loading) (h : (s.seen ++ ps.map key).Nodup) :
    ps.foldl meet s = { s with seen := s.seen ++ ps.map key, waiting := s.waiting ++ ps } := by
  induction ps generalizing s with
  | nil => simp
  | cons p ps ih =>
    have hnew : s.meet p = { s with seen := s.seen ++ [p.key], waiting := s.waiting ++ [p] } := by
      have hp : p.key ∉ s.seen := fun hp => (nodup_append.1 h).2.2 p.key hp p.key (by simp) rfl
      rw [meet, if_neg (by simpa using hp)]
    rw [foldl_cons, hnew, ih _ (by simpa using h)]
    simp

theorem failures_foldl_meet : (ps.foldl meet s).failures = s.failures := by
  induction ps generalizing s with
  | nil => rfl
  | cons p ps ih =>
    rw [foldl_cons, ih]
    unfold meet
    split <;> rfl

/-- The failure to read a file. -/
def failure? (d : Disk) (p : Path) : Option (Path × DiskError) :=
  match d.readText p with
  | .ok _ => none
  | .error e => some (p, e)

/-- A file is read into the corpus, or its failure is noted. -/
theorem readFile_eq (s : Loading) (p : Path) :
    (s.readFile d p).corpus.paths = s.corpus.paths ++ [p].filter (fun q => (d.readText q).isOk) ∧
      (s.readFile d p).failures = s.failures ++ (failure? d p).toList := by
  unfold readFile failure?
  cases hp : d.readText p with
  | ok content =>
    simp only [corpus_foldl_meet, failures_foldl_meet]
    simp [Corpus.paths, Corpus.append, hp, Except.toBool]
  | error e => simp [hp, Except.toBool]

theorem foldl_readFile_eq (s : Loading) :
    (ps.foldl (readFile d) s).corpus.paths = s.corpus.paths ++ ps.filter (fun q => (d.readText q).isOk) ∧
      (ps.foldl (readFile d) s).failures = s.failures ++ ps.filterMap (failure? d) := by
  induction ps generalizing s with
  | nil => simp
  | cons p ps ih =>
    obtain ⟨hpaths, hfails⟩ := ih (s.readFile d p)
    obtain ⟨hpaths', hfails'⟩ := s.readFile_eq p
    rw [foldl_cons, hpaths, hfails, hpaths', hfails']
    constructor
    · rw [append_assoc, ← filter_append, singleton_append]
    · rw [append_assoc, filterMap_cons]
      cases failure? d p <;> rfl

/-- The paths of `old` were met, and none of them waits. -/
structure Past (old : List Key) (s : Loading) : Prop where
  met : old ⊆ s.seen
  gone : ∀ p ∈ s.waiting, p.key ∉ old

theorem Past.meet (h : s.Past old) (p : Path) : (s.meet p).Past old := by
  unfold Loading.meet
  split
  · exact h
  next hnew =>
    refine ⟨List.Subset.trans h.met (subset_append_left _ _), ?_⟩
    intro q hq
    rcases mem_append.1 hq with hq | hq
    · exact h.gone q hq
    · rw [mem_singleton.1 hq]
      exact fun hold => hnew (by simpa using h.met hold)

theorem Past.foldl_meet (h : s.Past old) : (ps.foldl Loading.meet s).Past old :=
  List.foldlRecOn ps Loading.meet h fun _ ht p _ => ht.meet p

theorem Past.readFile (h : s.Past old) (p : Path) : (s.readFile d p).Past old := by
  unfold Loading.readFile
  split
  · exact Past.foldl_meet _ ⟨h.met, h.gone⟩
  · exact ⟨h.met, h.gone⟩

/-- After a round, only paths wait that the round met first. -/
theorem past_readRound (s : Loading) : (s.readRound d).Past s.seen := by
  have hst : Past s.seen { s with waiting := [] } := ⟨List.Subset.refl _, by simp⟩
  exact List.foldlRecOn s.waiting (Loading.readFile d) hst fun _ ht p _ => ht.readFile p

/-- Later rounds add only paths that were not met before. -/
theorem exists_paths_rounds (n : Nat) (h : s.Past old) :
    ∃ more, (s.rounds d n).corpus.paths = s.corpus.paths ++ more ∧ ∀ p ∈ more, p.key ∉ old := by
  induction n generalizing s with
  | zero => exact ⟨[], by simp [rounds], by simp⟩
  | succ n ih =>
    unfold rounds
    split
    · exact ⟨[], by simp, by simp⟩
    · have hr := s.past_readRound (d := d)
      obtain ⟨more, hpaths, hm⟩ := ih
        ⟨List.Subset.trans h.met hr.met, fun p hp hold => hr.gone p hp (h.met hold)⟩
      have hrd : (s.readRound d).corpus.paths = s.corpus.paths ++ s.waiting.filter fun q => (d.readText q).isOk :=
        (foldl_readFile_eq s.waiting _).1
      refine ⟨s.waiting.filter (fun q => (d.readText q).isOk) ++ more, by rw [hpaths, hrd, append_assoc], ?_⟩
      intro p hp
      rcases mem_append.1 hp with hp | hp
      · exact h.gone p (mem_of_mem_filter hp)
      · exact hm p hp

end Loading

namespace Corpus

theorem isSome_get?_iff (c : Corpus) (p : Path) : (c.get? p).isSome ↔ ∃ q ∈ c.paths, q.key = p.key := by
  simp only [get?, Option.isSome_map, find?_isSome, paths, mem_map, key_eq_key_iff]
  constructor
  · rintro ⟨e, he, hs⟩
    exact ⟨e.1, ⟨e, he, rfl⟩, hs⟩
  · rintro ⟨_, ⟨e, he, rfl⟩, hs⟩
    exact ⟨e, he, hs⟩

end Corpus

namespace Disk

variable (d : Disk) {files : List Path}

/-- The first round meets just the files of the run. -/
theorem loadFiles_eq (h : (files.map key).Nodup) :
    d.loadFiles files = Loading.readRound d { seen := files.map key, waiting := files } := by
  unfold loadFiles
  rw [Loading.foldl_meet_of_nodup files {} (by simpa using h)]
  rfl

theorem unreadable_eq (h : (files.map key).Nodup) : d.unreadable files = files.filterMap (Loading.failure? d) := by
  unfold unreadable
  rw [loadFiles_eq d h]
  exact (Loading.foldl_readFile_eq files _).2

/-- A file of a run is in the corpus just if it can be read. -/
theorem isSome_get?_load (h : (files.map key).Nodup) {f : Path} (hf : f ∈ files) :
    ((d.load files).get? f).isSome = (d.readText f).isOk := by
  have hr := Loading.past_readRound (d := d) { seen := files.map key, waiting := files }
  obtain ⟨more, hpaths, hm⟩ := Loading.exists_paths_rounds d.roundLimit hr
  rw [← loadFiles_eq d h] at hpaths
  have hrd : (d.loadFiles files).corpus.paths = files.filter fun q => (d.readText q).isOk := by
    rw [loadFiles_eq d h]
    exact (Loading.foldl_readFile_eq files _).1
  rw [Bool.eq_iff_iff, Corpus.isSome_get?_iff]
  unfold load
  rw [hpaths, hrd]
  constructor
  · rintro ⟨q, hq, hkey⟩
    rcases mem_append.1 hq with hq | hq
    · obtain ⟨hq, hok⟩ := mem_filter.1 hq
      rwa [← inj_on_of_nodup_map h hq hf hkey]
    · exact absurd (mem_map.2 ⟨f, hf, hkey.symm⟩) (hm q hq)
  · exact fun hok => ⟨f, mem_append_left _ (mem_filter.2 ⟨hf, hok⟩), rfl⟩

end Disk

namespace Run

/-! ## Analyses -/

variable (r : Run) (d : Disk) {files : List Path} {a : Disk × GeneratedFile} {report : BatchReport}

theorem readable_load (h : (files.map key).Nodup) :
    readable (d.load files) files = files.filter fun f => (d.readText f).isOk :=
  filter_congr fun _ hf => d.isSome_get?_load h hf

theorem isOk_declarations (source : DumpSource) (origins : List Path) (f : Path) :
    (source.declarations origins f).isOk = (source f).isOk := by
  unfold DumpSource.declarations
  cases source f <;> rfl

theorem map_successes (origins : List Path) :
    (successes (r.analyses origins files)).map Prod.fst = files.filter fun f => (r.source f).isOk := by
  rw [successes, analyses, filterMap_map, map_filterMap, ← filterMap_eq_filter]
  refine filterMap_congr fun f _ => ?_
  simp only [Function.comp_apply, ← isOk_declarations r.source origins, Option.guard]
  cases r.source.declarations origins f <;> rfl

theorem map_analysisFailures (origins : List Path) :
    (analysisFailures (r.analyses origins files)).map path = files.filter fun f => !(r.source f).isOk := by
  rw [analysisFailures, analyses, filterMap_map, map_filterMap, ← filterMap_eq_filter]
  refine filterMap_congr fun f _ => ?_
  simp only [Function.comp_apply, ← isOk_declarations r.source origins, Option.guard]
  cases r.source.declarations origins f <;> rfl

theorem map_readFailures (h : (files.map key).Nodup) :
    (readFailures (d.unreadable files)).map path = files.filter fun f => !(d.readText f).isOk := by
  rw [d.unreadable_eq h, readFailures, map_map, map_filterMap, ← filterMap_eq_filter]
  refine filterMap_congr fun f _ => ?_
  cases hf : d.readText f <;> simp [Loading.failure?, Option.guard, hf, Except.toBool]

/-- The declarations of the analysed files, file by file. -/
theorem map_snd_successes (origins : List Path) : (successes (r.analyses origins files)).map Prod.snd =
      (files.filter fun f => (r.source f).isOk).filterMap fun f => (r.source.declarations origins f).toOption := by
  rw [successes, analyses, filterMap_map, map_filterMap, filterMap_filter]
  refine filterMap_congr fun f _ => ?_
  simp only [Function.comp_apply, ← isOk_declarations r.source origins]
  cases r.source.declarations origins f <;> rfl

/-! ## Writes -/

variable (dir : Path)

/-- The files to write, each with the disk it is written to. -/
def attempts (dir : Path) : Disk → List GeneratedFile → List (Disk × GeneratedFile)
  | _, [] => []
  | d, f :: fs => (d, f) :: attempts dir (store d dir f).1 fs

/-- The write succeeds. -/
def succeeds (dir : Path) (a : Disk × GeneratedFile) : Bool :=
  (store a.1 dir a.2).2.isOk

theorem map_snd_attempts (fs : List GeneratedFile) : (attempts dir d fs).map Prod.snd = fs := by
  induction fs generalizing d with
  | nil => rfl
  | cons f fs ih => rw [attempts, map_cons, ih]

/-- The path that a file is written to. -/
def targetPath (dir : Path) (a : Disk × GeneratedFile) : Path :=
  dir.join ⟨a.2.name⟩

/-- Of files written one by one, some are outputs, the others errors. -/
theorem storeEach_eq (fs : List GeneratedFile) :
    (storeEach d dir fs).2.filterMap (fun w => w.toOption) =
        ((attempts dir d fs).filter (succeeds dir)).map (targetPath dir) ∧
      ((storeEach d dir fs).2.filterMap fun w => match w with | .ok _ => none | .error f => some f).map path =
        ((attempts dir d fs).filter fun a => !succeeds dir a).map (targetPath dir) := by
  induction fs generalizing d with
  | nil => simp [storeEach, attempts]
  | cons f fs ih =>
    unfold storeEach attempts
    rcases store_cases d dir f with ⟨d', hf, -⟩ | ⟨d', e, hf, -⟩
    · have hok : succeeds dir (d, f) := by simp [succeeds, hf, Except.toBool]
      obtain ⟨hwr, hfail⟩ := ih d'
      simp only [hf, filter_cons, hok]
      exact ⟨congrArg (dir.join ⟨f.name⟩ :: ·) hwr, hfail⟩
    · have hok : succeeds dir (d, f) = false := by simp [succeeds, hf, Except.toBool]
      obtain ⟨hwr, hfail⟩ := ih d'
      simp only [hf, filter_cons, hok]
      exact ⟨hwr, congrArg (dir.join ⟨f.name⟩ :: ·) hfail⟩

/-- A file that was written can be read from its path. -/
theorem read_store (h : succeeds dir a) :
    (store a.1 dir a.2).1.read (targetPath dir a) = .ok (Text.toUtf8 a.2.contents) := by
  unfold succeeds store at h
  unfold store
  dsimp only at h ⊢
  split at h
  · nomatch h
  next d' hd' =>
    split at h
    next d'' hd'' =>
      exact Disk.read_write hd''
    · nomatch h

theorem rewrites_store_of_not_succeeds (h : succeeds dir a = false) : Disk.Rewrites [] a.1 (store a.1 dir a.2).1 := by
  unfold succeeds at h
  rcases store_cases a.1 dir a.2 with ⟨d', ha, -⟩ | ⟨d', e, ha, hd'⟩
  · rw [ha] at h
    nomatch h
  · rwa [ha]

/-! ## Batches -/

/-- The report has each file once, whatever its spelling: analysed, unreadable or without a dump, each part in order. -/
structure AccountsForFiles (r : Run) (d : Disk) (files : List Path) (report : BatchReport) : Prop where
  distinct : (files.map key).Nodup
  once : (report.analyzed ++ report.failures.map path).Perm files
  analyzed : report.analyzed = (files.filter fun f => (d.readText f).isOk).filter fun f => (r.source f).isOk
  failures : report.failures.map path = (files.filter fun f => !(d.readText f).isOk) ++
    (files.filter fun f => (d.readText f).isOk).filter fun f => !(r.source f).isOk

/-- The report has each generated file once: as an output that can be read back, or as an error that changed no file. -/
structure AccountsForWrites (d : Disk) (dir : Path) (generated : List GeneratedFile) (report : BatchReport) : Prop where
  once : (report.outputs ++ report.writeErrors.map path).Perm (dir.within (generated.map GeneratedFile.name))
  outputs : report.outputs = ((attempts dir d generated).filter (succeeds dir)).map (targetPath dir)
  writeErrors : report.writeErrors.map path =
    ((attempts dir d generated).filter fun a => !succeeds dir a).map (targetPath dir)
  written : ∀ a ∈ attempts dir d generated, succeeds dir a = true →
    (store a.1 dir a.2).1.read (targetPath dir a) = .ok (Text.toUtf8 a.2.contents)
  unwritten : ∀ a ∈ attempts dir d generated, succeeds dir a = false → Disk.Rewrites [] a.1 (store a.1 dir a.2).1

/-- Files that pass both tests, fail the first, or fail only the second. -/
theorem perm_sortedOut (first second : Path → Bool) : ((files.filter first).filter second ++
      ((files.filter fun f => !first f) ++ (files.filter first).filter fun f => !second f)).Perm files := by
  have hsnd := filter_append_perm second (files.filter first)
  have hfst := filter_append_perm first files
  refine (perm_append_comm.append_left _).trans ?_
  rw [← append_assoc]
  exact (hsnd.append_right _).trans hfst

theorem accountsForFiles (h : (files.map key).Nodup) (hanalyzed : report.analyzed =
      (successes (r.analyses (d.load files).paths (readable (d.load files) files))).map Prod.fst)
    (hfails : report.failures = readFailures (d.unreadable files) ++
      analysisFailures (r.analyses (d.load files).paths (readable (d.load files) files))) :
    AccountsForFiles r d files report := by
  have hpaths := congrArg (List.map path) hfails
  rw [map_append, map_readFailures d h, map_analysisFailures, readable_load d h] at hpaths
  rw [map_successes, readable_load d h] at hanalyzed
  refine ⟨h, ?_, hanalyzed, hpaths⟩
  rw [hanalyzed, hpaths]
  exact perm_sortedOut _ _

theorem accountsForWrites (generated : List GeneratedFile)
    (houtputs : report.outputs = (storeEach d dir generated).2.filterMap fun w => w.toOption)
    (herrors : report.writeErrors =
      (storeEach d dir generated).2.filterMap fun w => match w with | .ok _ => none | .error f => some f) :
    AccountsForWrites d dir generated report := by
  obtain ⟨hwr, hfail⟩ := storeEach_eq d dir generated
  rw [← houtputs] at hwr
  rw [← herrors] at hfail
  refine ⟨?_, hwr, hfail, fun a _ => read_store dir, fun a _ => rewrites_store_of_not_succeeds dir⟩
  have htargets : (attempts dir d generated).map (targetPath dir) = dir.within (generated.map GeneratedFile.name) := by
    conv_rhs => rw [← map_snd_attempts d dir generated]
    simp [within, targetPath]
  rw [hwr, hfail, ← map_append, ← htargets]
  exact (filter_append_perm _ _).map _

/-- A batch's report accounts for every related file and for every file generated from the analysed ones. Nothing is generated
when nothing was analysed. -/
theorem batch_accounts (r : Run) (d : Disk) (inputs : List Path) (dir : Path) (report : BatchReport)
    (h : (r.batch d inputs dir).2 = .ok report) :
    AccountsForFiles r d (d.related inputs) report ∧
      ∃ p, resolve (report.analyzed.filterMap fun f =>
            (r.source.declarations (d.load (d.related inputs)).paths f).toOption) (d.load (d.related inputs)) = .ok p ∧
        AccountsForWrites d dir (if report.analyzed = [] then [] else p.generateBatch r.options report.analyzed)
          report := by
  unfold batch at h
  split at h
  · nomatch h
  dsimp only at h
  split at h
  · nomatch h
  next p hp =>
    cases h
    refine ⟨accountsForFiles r d (d.nodup_key_related inputs) rfl rfl, p, ?_, ?_⟩
    · rw [← hp, map_successes, map_snd_successes]
    · refine accountsForWrites d dir _ ?_ ?_ <;>
        simp only [List.isEmpty_iff] <;> split <;> rfl

/-- A file with a dump, one without, and a directory in the way. -/
def mixedDisk : Disk :=
  { entries := [(["led.cpp".toList], .file (Text.toUtf8 "#include \"pins.h\"\n")), (["pins.h".toList], .file []),
      (["pwm.cpp".toList], .file []), (["out".toList], .directory),
      (["out".toList, "shared_definitions.h".toList], .directory)] }

/-- A run that has a dump of one file. -/
def mixedRun : Run :=
  { source := .ofList [("led.cpp", "")], options := {} }

/-- An input that is missing and two that can be read. -/
def mixedInputs : List Path :=
  ["gone.cpp", "led.cpp", "pwm.cpp"]

theorem readable_mixedDisk : readable (mixedDisk.load (mixedDisk.related mixedInputs)) (mixedDisk.related mixedInputs) =
      [⟨"led.cpp".toList⟩, ⟨"pwm.cpp".toList⟩] := by
  cbv

theorem unreadable_mixedDisk : mixedDisk.unreadable (mixedDisk.related mixedInputs) = [(⟨"gone.cpp".toList⟩, .missing)] := by
  cbv

theorem analyses_mixedRun (origins : List Path) : mixedRun.analyses origins [⟨"led.cpp".toList⟩, ⟨"pwm.cpp".toList⟩] =
      [(⟨"led.cpp".toList⟩, .ok []),
        (⟨"pwm.cpp".toList⟩, .error (.failed ⟨"pwm.cpp".toList⟩ 1 "pwm.cpp: no canned dump".toList))] := by
  have hpwm : mixedRun.source ⟨"pwm.cpp"⟩ =
      .error (.failed ⟨"pwm.cpp"⟩ 1 "pwm.cpp: no canned dump") := by cbv
  rfl

theorem batch_mixedDisk :
    (mixedRun.batch mixedDisk mixedInputs "out").2 = .ok
      { analyzed := ["led.cpp"]
        outputs := ["out/led.c"]
        failures := [⟨"gone.cpp", "failed to read gone.cpp: No such file or directory (os error 2)"⟩,
          ⟨"pwm.cpp", "analysis of pwm.cpp failed (exit status: 1): pwm.cpp: no canned dump"⟩]
        writeErrors := [⟨"out/shared_definitions.h", "failed to write out/shared_definitions.h"⟩]
        summary := {}
        warnings := [] } := by
  unfold batch
  simp only [readable_mixedDisk, unreadable_mixedDisk, analyses_mixedRun]
  generalize mixedDisk.load (mixedDisk.related mixedInputs) = corpus
  have hres : resolve [[]] corpus = .ok {} := rfl
  simp only [successes, filterMap_cons, filterMap_nil, Except.toOption, Option.map, map_cons,
    map_nil, hres]
  decide +kernel

theorem batch_accounts_mixedDisk :
    ∃ report, (mixedRun.batch mixedDisk mixedInputs "out").2 = .ok report ∧
      report.outputs = ["out/led.c"] ∧ report.writeErrors.map path = ["out/shared_definitions.h"] ∧
      AccountsForFiles mixedRun mixedDisk (mixedDisk.related mixedInputs) report ∧
      ∃ p, resolve (report.analyzed.filterMap fun f =>
            (mixedRun.source.declarations (mixedDisk.load (mixedDisk.related mixedInputs)).paths f).toOption)
              (mixedDisk.load (mixedDisk.related mixedInputs)) = .ok p ∧
        AccountsForWrites mixedDisk "out"
          (if report.analyzed = [] then [] else p.generateBatch mixedRun.options report.analyzed) report :=
  ⟨_, batch_mixedDisk, rfl, rfl, batch_accounts mixedRun mixedDisk mixedInputs "out" _ batch_mixedDisk⟩

end Run

end Declass
