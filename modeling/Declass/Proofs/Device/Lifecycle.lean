import Declass.Device.Stubs
import Mathlib.Data.List.Induction

/-!
# The life of a stub directory

At most one of the directories that were returned exists: the one that the first request since the last cleanup made, with the
header that it asked for. The system is known only by `TempSystem.Lawful`. Main statement: `StubRegistry.lifecycle`.
-/

namespace Declass

open List

variable {σ δ : Type}

/-- Temporary directories are fresh, and file operations do what they say and no more. -/
structure TempSystem.Lawful (sys : TempSystem σ δ) : Prop where
  fresh : ∀ disk, sys.isDirectory disk (sys.path (sys.make disk).2) = false
  isDirectory_make : ∀ disk e, sys.isDirectory (sys.make disk).1 (sys.path e) ↔
    sys.isDirectory disk (sys.path e) ∨ sys.path e = sys.path (sys.make disk).2
  isDirectory_write : ∀ disk file text p, sys.isDirectory (sys.write disk file text) p = sys.isDirectory disk p
  isDirectory_delete : ∀ disk d e, sys.isDirectory (sys.delete disk d) (sys.path e) ↔
    sys.isDirectory disk (sys.path e) ∧ sys.path e ≠ sys.path d
  read?_write : ∀ disk d name text, sys.isDirectory disk (sys.path d) →
    sys.read? (sys.write disk ((sys.path d).join name) text) ((sys.path d).join name) = some text

/-! ## Numbered directories -/

namespace TempArea

theorem path_injective : Function.Injective path := by
  intro n m h
  have hdigits : Nat.toDigits 10 n = Nat.toDigits 10 m := append_cancel_left (congrArg Path.text h)
  rw [← Nat.ofDigitChars_ten_toDigits (n := n), hdigits, Nat.ofDigitChars_ten_toDigits]

theorem isDirectory_path {t : TempArea} {n : Nat} : system.isDirectory t (system.path n) ↔ n ∈ t.dirs := by
  simp [system, path_injective.eq_iff]

theorem lawful_system : system.Lawful where
  fresh t := by
    refine Bool.eq_false_iff.2 fun h => ?_
    exact Nat.lt_irrefl _ (t.dirs_lt _ (isDirectory_path.1 h))
  isDirectory_make t n := by
    have hpath : system.path n = system.path (system.make t).2 ↔ n = t.made := path_injective.eq_iff
    rw [isDirectory_path, isDirectory_path, hpath]
    simp [system, make]
  isDirectory_write _ _ _ _ := rfl
  isDirectory_delete t d n := by
    have hpath : system.path n ≠ system.path d ↔ n ≠ d := path_injective.ne_iff
    rw [isDirectory_path, isDirectory_path, hpath]
    simp [system, delete]
  read?_write t d name text _ := by simp [system, Path.same]

end TempArea

namespace StubRegistry

variable {sys : TempSystem σ δ} {start disk : σ} {rs : List StubRequest} {device : Text} {xtalFreq : Nat} {p : Path}

/-- The disk and the registry after a sequence of requests. -/
def run (sys : TempSystem σ δ) (start : σ) (rs : List StubRequest) : σ × StubRegistry δ :=
  rs.foldl (step sys) (start, {})

/-- The requests after the last cleanup. -/
def sinceCleanup (rs : List StubRequest) : List StubRequest :=
  (rs.reverse.takeWhile (· ≠ .cleanup)).reverse

/-- One of the requests was answered with the path. -/
def Returned (sys : TempSystem σ δ) (start : σ) (rs : List StubRequest) (p : Path) : Prop :=
  ∃ before device xtalFreq, before ++ [.ensure device xtalFreq] <+: rs ∧
    (ensure sys (run sys start before).1 (run sys start before).2 device xtalFreq).2.2 = p

theorem run_concat (r : StubRequest) : run sys start (rs ++ [r]) = step sys (run sys start rs) r := by
  rw [run, foldl_append]
  rfl

theorem sinceCleanup_concat_cleanup : sinceCleanup (rs ++ [.cleanup]) = [] := by
  rw [sinceCleanup, reverse_concat, takeWhile_cons_of_neg (by decide), reverse_nil]

theorem sinceCleanup_concat_ensure :
    sinceCleanup (rs ++ [.ensure device xtalFreq]) = sinceCleanup rs ++ [.ensure device xtalFreq] := by
  rw [sinceCleanup, reverse_concat, takeWhile_cons_of_pos rfl, reverse_cons, sinceCleanup]

/-- A request adds its answer to those returned. -/
theorem returned_concat (r : StubRequest) (p : Path) : Returned sys start (rs ++ [r]) p ↔ Returned sys start rs p ∨
    ∃ device xtalFreq, r = .ensure device xtalFreq ∧
      (ensure sys (run sys start rs).1 (run sys start rs).2 device xtalFreq).2.2 = p := by
  constructor
  · rintro ⟨before, device, xtalFreq, hpre, hp⟩
    rcases prefix_concat_iff.1 hpre with heq | hpre
    · obtain ⟨rfl, hr⟩ := append_inj' heq rfl
      exact .inr ⟨device, xtalFreq, (singleton_inj.1 hr).symm, hp⟩
    · exact .inl ⟨before, device, xtalFreq, hpre, hp⟩
  · rintro (⟨before, device, xtalFreq, hpre, hp⟩ | ⟨device, xtalFreq, rfl, hp⟩)
    · exact ⟨before, device, xtalFreq, hpre.trans (prefix_append _ _), hp⟩
    · exact ⟨rs, device, xtalFreq, prefix_rfl, hp⟩

/-! ## What a request does -/

/-- The disk with a new directory that holds the header of a device. -/
def prepared (sys : TempSystem σ δ) (disk : σ) (device : Text) (xtalFreq : Nat) : σ :=
  sys.write (sys.make disk).1 ((sys.path (sys.make disk).2).join headerName) (Device.headerText device xtalFreq)

/-- A registry with a directory and the header in it. -/
def holding (sys : TempSystem σ δ) (d : δ) : StubRegistry δ :=
  { dir := some d, files := [(sys.path d).join headerName] }

/-- A header that is there is not written again. -/
theorem ensure_holding (d : δ) : ensure sys disk (holding sys d) device xtalFreq = (disk, holding sys d, sys.path d) := by
  have hwritten : (holding sys d).files.any ((sys.path d).join headerName).same := by simp [holding, Path.same]
  exact if_pos hwritten

/-- A request makes one directory and no other. -/
theorem isDirectory_prepared (h : sys.Lawful) (e : δ) : sys.isDirectory (prepared sys disk device xtalFreq) (sys.path e) ↔
    sys.isDirectory disk (sys.path e) ∨ sys.path e = sys.path (sys.make disk).2 := by
  rw [prepared, h.isDirectory_write, h.isDirectory_make]

/-! ## Any requests -/

/-- The state that requests leave: no directory, or one with the header of the first since a cleanup. -/
inductive Holds (sys : TempSystem σ δ) : σ × StubRegistry δ → List StubRequest → Prop where
  | idle (disk : σ) : Holds sys (disk, {}) []
  | ready (disk : σ) (d : δ) (device : Text) (xtalFreq : Nat) (rest : List StubRequest) :
    sys.read? disk ((sys.path d).join headerName) = some (Device.headerText device xtalFreq) →
    Holds sys (disk, holding sys d) (.ensure device xtalFreq :: rest)

/-- Any requests leave such a state. -/
theorem holds_run (h : sys.Lawful) (start : σ) (rs : List StubRequest) : Holds sys (run sys start rs) (sinceCleanup rs) := by
  induction rs using reverseRecOn with
  | nil => exact .idle start
  | append_singleton rs r ih =>
    rw [run_concat]
    cases r with
    | cleanup =>
      rw [sinceCleanup_concat_cleanup]
      exact .idle _
    | ensure device xtalFreq =>
      rw [sinceCleanup_concat_ensure]
      generalize run sys start rs = s at ih ⊢
      generalize sinceCleanup rs = since at ih ⊢
      cases ih with
      | idle disk =>
        refine .ready _ (sys.make disk).2 device xtalFreq [] (h.read?_write _ _ _ _ ?_)
        exact (h.isDirectory_make _ _).2 (.inr rfl)
      | ready disk d device₁ xtalFreq₁ rest hread =>
        rw [step, ensure_holding]
        exact .ready disk d device₁ xtalFreq₁ _ hread

/-- Of the directories that were returned only the registry's exists; those from the start are there. -/
structure Directories (sys : TempSystem σ δ) (start : σ) (rs : List StubRequest) (s : σ × StubRegistry δ) : Prop where
  returned : ∀ e, Returned sys start rs (sys.path e) →
    (sys.isDirectory s.1 (sys.path e) ↔ s.2.dir.map sys.path = some (sys.path e))
  current : ∀ d, s.2.dir = some d → Returned sys start rs (sys.path d) ∧ sys.isDirectory start (sys.path d) = false
  older : ∀ e, sys.isDirectory start (sys.path e) → sys.isDirectory s.1 (sys.path e)

/-- Any requests keep account of the directories. -/
theorem directories_run (h : sys.Lawful) (start : σ) (rs : List StubRequest) : Directories sys start rs (run sys start rs) := by
  induction rs using reverseRecOn with
  | nil =>
    refine ⟨?_, nofun, fun e he => he⟩
    rintro e ⟨before, device, xtalFreq, hpre, -⟩
    simp at hpre
  | append_singleton rs r ih =>
    have hconcat (p : Path) : Returned sys start (rs ++ [r]) p ↔ _ := returned_concat r p
    have hholds := holds_run h start rs
    rw [run_concat]
    generalize run sys start rs = s at ih hholds hconcat ⊢
    generalize sinceCleanup rs = since at hholds
    obtain ⟨hreturned, hcurrent, holder⟩ := ih
    cases hholds with
    | idle disk =>
      have hgone (e : δ) (he : Returned sys start rs (sys.path e)) : ¬sys.isDirectory disk (sys.path e) := by
        rw [hreturned e he]
        exact nofun
      cases r with
      | cleanup =>
        refine ⟨fun e he => ?_, nofun, holder⟩
        obtain he | ⟨device, xtalFreq, hr, -⟩ := (hconcat _).1 he
        · exact ⟨fun hdir => absurd hdir (hgone e he), nofun⟩
        · cases hr
      | ensure device xtalFreq =>
        refine ⟨fun e he => ?_, ?_, fun e he => (isDirectory_prepared h e).2 (.inl (holder e he))⟩
        · refine (isDirectory_prepared h e).trans ⟨?_, fun heq => .inr (Option.some.inj heq).symm⟩
          rintro (hdir | heq)
          · obtain he | ⟨device, xtalFreq, hr, hp⟩ := (hconcat _).1 he
            · exact absurd hdir (hgone e he)
            · exact congrArg some hp
          · exact congrArg some heq.symm
        · rintro d ⟨⟩
          refine ⟨(hconcat _).2 (.inr ⟨device, xtalFreq, rfl, rfl⟩), Bool.eq_false_iff.2 fun hdir => ?_⟩
          exact Bool.eq_false_iff.1 (h.fresh disk) (holder _ hdir)
    | ready disk d device₁ xtalFreq₁ rest hread =>
      cases r with
      | cleanup =>
        refine ⟨fun e he => ⟨fun hdir => ?_, nofun⟩, nofun, fun e he => (h.isDirectory_delete disk d e).2 ⟨holder e he, ?_⟩⟩
        · obtain ⟨hdir, hne⟩ := (h.isDirectory_delete disk d e).1 hdir
          obtain he | ⟨device, xtalFreq, hr, -⟩ := (hconcat _).1 he
          · exact absurd (Option.some.inj ((hreturned e he).1 hdir)).symm hne
          · cases hr
        · intro heq
          rw [heq, (hcurrent d rfl).2] at he
          cases he
      | ensure device xtalFreq =>
        rw [step, ensure_holding]
        refine ⟨fun e he => hreturned e ?_, fun d' hd => ⟨(hconcat _).2 (.inl (hcurrent d' hd).1), (hcurrent d' hd).2⟩, holder⟩
        obtain he | ⟨device, xtalFreq, hr, hp⟩ := (hconcat _).1 he
        · exact he
        · rw [ensure_holding] at hp
          exact hp ▸ (hcurrent d rfl).1

/-- What is returned is the path of a directory. -/
theorem Returned.exists_path (h : Returned sys start rs p) : ∃ d, p = sys.path d := by
  obtain ⟨before, device, xtalFreq, -, rfl⟩ := h
  refine ⟨(withDirectory sys (run sys start before).1 (run sys start before).2).2.2, ?_⟩
  unfold ensure
  dsimp only
  split <;> rfl

/-- After any requests, of the directories that were returned just the current one exists, if a header was asked for since the
last cleanup. Its `xc.h` is the only tracked file and is the first such header. Directories from the start are still there. -/
theorem lifecycle (h : sys.Lawful) (start : σ) (rs : List StubRequest) :
    (∀ p, Returned sys start rs p →
      (sys.isDirectory (run sys start rs).1 p ↔ (run sys start rs).2.dir.map sys.path = some p)) ∧
    (∀ d, (run sys start rs).2.dir = some d → Returned sys start rs (sys.path d)) ∧
    ((run sys start rs).2.dir.isSome ↔ ∃ device xtalFreq, .ensure device xtalFreq ∈ sinceCleanup rs) ∧
    ((run sys start rs).2.dir = none → (run sys start rs).2.files = []) ∧
    (∀ d, (run sys start rs).2.dir = some d → (run sys start rs).2.files = [(sys.path d).join "xc.h"] ∧
      ∃ device xtalFreq, (sinceCleanup rs).head? = some (.ensure device xtalFreq) ∧
        sys.read? (run sys start rs).1 ((sys.path d).join "xc.h") = some (Device.headerText device xtalFreq)) ∧
    ∀ e, sys.isDirectory start (sys.path e) → sys.isDirectory (run sys start rs).1 (sys.path e) := by
  obtain ⟨hreturned, hcurrent, holder⟩ := directories_run h start rs
  have hholds := holds_run h start rs
  refine ⟨fun p hp => ?_, fun d hd => (hcurrent d hd).1, ?_, ?_, ?_, holder⟩
  · obtain ⟨e, rfl⟩ := hp.exists_path
    exact hreturned e hp
  all_goals
    generalize run sys start rs = s at hholds ⊢
    generalize sinceCleanup rs = since at hholds ⊢
    cases hholds with
    | idle disk => simp
    | ready disk d device xtalFreq rest hread => ?_
  · exact ⟨fun _ => ⟨device, xtalFreq, mem_cons_self⟩, fun _ => rfl⟩
  · exact nofun
  · rintro d' ⟨⟩
    exact ⟨rfl, device, xtalFreq, rfl, hread⟩

/-- A request, a cleanup and two requests for other headers. -/
def sampleRequests : List StubRequest :=
  [.ensure "PIC16F876A" 4000000, .cleanup, .ensure "PIC16F877A" 8000000, .ensure "PIC16F876A" 20000000]

/-- Of the two directories that are returned the second exists, with the header asked for first. -/
theorem lifecycle_numbered :
    ¬TempArea.system.isDirectory (run TempArea.system {} sampleRequests).1 (TempArea.path 0) ∧
    TempArea.system.isDirectory (run TempArea.system {} sampleRequests).1 (TempArea.path 1) ∧
    (run TempArea.system {} sampleRequests).2.files = [(TempArea.path 1).join "xc.h"] ∧
    TempArea.system.read? (run TempArea.system {} sampleRequests).1 ((TempArea.path 1).join "xc.h") =
      some (Device.headerText "PIC16F877A" 8000000) := by
  have hdir : (run TempArea.system {} sampleRequests).2.dir = some 1 := rfl
  have hfirst : Returned TempArea.system {} sampleRequests (TempArea.path 0) := ⟨[], _, _, ⟨_, rfl⟩, rfl⟩
  obtain ⟨hreturned, hcurrent, -, -, hheader, -⟩ := lifecycle TempArea.lawful_system {} sampleRequests
  obtain ⟨hfiles, device, xtalFreq, hhead, hread⟩ := hheader 1 hdir
  obtain ⟨rfl, rfl⟩ := StubRequest.ensure.inj (Option.some.inj hhead)
  refine ⟨fun h => ?_, (hreturned _ (hcurrent 1 hdir)).2 (by rw [hdir]; rfl), hfiles, hread⟩
  rw [hreturned _ hfirst, hdir] at h
  exact Nat.zero_ne_one (TempArea.path_injective (Option.some.inj h)).symm

end StubRegistry

end Declass
