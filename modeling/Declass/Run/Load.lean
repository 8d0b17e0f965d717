import Declass.Run.Related

/-!
# Loading

The corpus of a run: its files, and all headers that they include, directly or through others. The headers are read round
by round, those of one round being the ones that the round before names and no earlier round did.
-/

namespace Declass

/-- A corpus on the way: keys met, paths that wait, unreadable files. -/
structure Loading where
  corpus : Corpus := {}
  seen : List Path.Key := []
  waiting : List Path := []
  failures : List (Path × DiskError) := []
deriving DecidableEq

namespace Loading

/-- A path waits when it is met for the first time, whatever its spelling. -/
def meet (s : Loading) (p : Path) : Loading :=
  if s.seen.contains p.key then s else { s with seen := s.seen ++ [p.key], waiting := s.waiting ++ [p] }

/-- A waiting file read. No path waits twice, so the file is new to the corpus. -/
def readFile (d : Disk) (s : Loading) (p : Path) : Loading :=
  match d.readText p with
  | .ok content => (d.quotedIncludes p content).foldl meet { s with corpus := s.corpus.append p content }
  | .error e => { s with failures := s.failures ++ [(p, e)] }

def readRound (d : Disk) (s : Loading) : Loading :=
  s.waiting.foldl (readFile d) { s with waiting := [] }

/-- The waiting files read, in at most `n` rounds. -/
def rounds (d : Disk) : Nat → Loading → Loading
  | 0, s => s
  | n + 1, s => if s.waiting.isEmpty then s else rounds d n (s.readRound d)

end Loading

namespace Disk

variable (d : Disk)

/-- More rounds than there can be: along a chain of includes directories get longer or it stays among the files of one, unless
a name starts at the root. -/
def roundLimit : Nat :=
  pathLimit * (d.size + 1) * (d.size + 1)

def loadFiles (files : List Path) : Loading :=
  (files.foldl Loading.meet {}).readRound d

def unreadable (files : List Path) : List (Path × DiskError) :=
  (d.loadFiles files).failures

/-- The corpus of the files of a run. An included header that cannot be read is left out. -/
def load (files : List Path) : Corpus :=
  ((d.loadFiles files).rounds d d.roundLimit).corpus

end Disk

end Declass
