import Declass.Device.Header
import Declass.Path.Basic

/-!
# Stub directories

The stand-in header of a run lies in a temporary directory of its own, which is added to the include path and deleted at the
end. What makes and deletes the directory is a `TempSystem`. In a `TempArea` the directories are numbered as they are made.
-/

namespace Declass

/-- Temporary directories as a run sees them, on a disk `σ` and by handles `δ`. -/
structure TempSystem (σ δ : Type) where
  make : σ → σ × δ
  path : δ → Path
  write : σ → Path → Text → σ
  /-- The disk without the directory and the files in it. -/
  delete : σ → δ → σ
  isDirectory : σ → Path → Bool
  read? : σ → Path → Option Text

/-- The stub directory of a run, and the files written there. -/
structure StubRegistry (δ : Type) where
  dir : Option δ := none
  files : List Path := []
deriving DecidableEq

inductive StubRequest where
  | ensure (device : Text) (xtalFreq : Nat)
  | cleanup
deriving DecidableEq

namespace StubRegistry

variable {σ δ : Type} (sys : TempSystem σ δ) (disk : σ) (r : StubRegistry δ)

def headerName : Path := "xc.h"

/-- The registry with a directory, made if there is none, and its handle. -/
def withDirectory : σ × StubRegistry δ × δ :=
  match r.dir with
  | some d => (disk, r, d)
  | none =>
    let (disk, d) := sys.make disk
    (disk, { r with dir := some d }, d)

/-- Writes the header of a device unless it is there; gives its directory. -/
def ensure (device : Text) (xtalFreq : Nat) : σ × StubRegistry δ × Path :=
  let (disk, r, d) := withDirectory sys disk r
  let header := (sys.path d).join headerName
  if r.files.any header.same then (disk, r, sys.path d)
  else (sys.write disk header (Device.headerText device xtalFreq), { r with files := r.files ++ [header] }, sys.path d)

def cleanup : σ × StubRegistry δ :=
  (r.dir.elim disk (sys.delete disk), {})

/-- The disk and the registry after a request. -/
def step (s : σ × StubRegistry δ) : StubRequest → σ × StubRegistry δ
  | .ensure device xtalFreq =>
    let (disk, r, _) := ensure sys s.1 s.2 device xtalFreq
    (disk, r)
  | .cleanup => cleanup sys s.1 s.2

end StubRegistry

/-- Directories by number: how many were made, which exist, and their files. -/
structure TempArea where
  made : Nat := 0
  dirs : List Nat := []
  files : List (Path × Text) := []
  dirs_lt : ∀ n ∈ dirs, n < made := by exact fun _ h => absurd h List.not_mem_nil
deriving DecidableEq

namespace TempArea

def exists? (t : TempArea) (n : Nat) : Bool :=
  t.dirs.contains n

def path (n : Nat) : Path :=
  ⟨"/tmp/xc8pp-stubs-" ++ Text.ofNat n⟩

def make (t : TempArea) : TempArea × Nat :=
  ({ t with
      made := t.made + 1
      dirs := t.dirs ++ [t.made]
      dirs_lt := by
        intro n hn
        rcases List.mem_append.1 hn with hn | hn
        · exact Nat.lt_succ_of_lt (t.dirs_lt n hn)
        · exact List.mem_singleton.1 hn ▸ Nat.lt_succ_self _ }, t.made)

def delete (t : TempArea) (n : Nat) : TempArea :=
  { t with
    dirs := t.dirs.filter (· ≠ n)
    files := t.files.filter fun e => !e.1.parent?.any (path n).same
    dirs_lt := fun m hm => t.dirs_lt m (List.mem_filter.1 hm).1 }

def system : TempSystem TempArea Nat where
  make := make
  path := path
  write t p text := { t with files := (p, text) :: t.files }
  delete := delete
  isDirectory t p := t.dirs.any fun n => path n = p
  read? t p := (t.files.find? fun e => p.same e.1).map Prod.snd

end TempArea

/-- The registry of a run and the numbered directories it works on. -/
structure Stubs extends StubRegistry Nat where
  temp : TempArea := {}
deriving DecidableEq

namespace Stubs

def apply (s : Stubs) (r : StubRequest) : Stubs :=
  let (temp, registry) := StubRegistry.step TempArea.system (s.temp, s.toStubRegistry) r
  { registry with temp }

/-- The names of the files that the run wrote. -/
def tracked (s : Stubs) : List Text :=
  s.files.filterMap Path.fileName?

def header? (s : Stubs) : Option Text :=
  s.dir.bind fun n => TempArea.system.read? s.temp ((TempArea.path n).join StubRegistry.headerName)

end Stubs

end Declass
