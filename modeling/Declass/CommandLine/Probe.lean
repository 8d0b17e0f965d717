import Declass.CommandLine.Execute

/-!
# Probes

Which places of a real disk a command line looks at. A program that has only begun to copy the disk asks again after each
copied file, since a file may name others; when nothing new is asked for, the copy holds all that the run will see.
-/

namespace Declass

namespace Disk

/-- The place that a piece of a path leads to, whatever is there. -/
def strideTo (l : Location) (piece : Text) : Location :=
  if Path.isFiller piece then l else if piece = ".." then l.dropLast else l ++ [piece]

/-- The places on the way along a path, from its start on. -/
def visits (d : Disk) (p : Path) : List Location :=
  let start := if p.isAbsolute then [] else d.cwd
  (List.splitOn '/' p.text).foldl (fun ls piece => ls ++ [strideTo (ls.getLast?.getD start) piece]) [start]

end Disk

namespace CommandLine

/-- The files that may stand beside an input, by any extension. -/
def siblingCandidates (p : Path) : List Path :=
  (FileKind.headerExtensions ++ FileKind.implementationExtensions).map p.withExtension

def includeCandidates (f : SourceFile) : List Path :=
  let dir : Path := f.path.parent?.getD ""
  ((Text.lines f.content).filterMap Disk.includeName?).map fun name => dir.join ⟨name⟩

def requestPaths : Request → List Path × Option Path
  | .transpile input output => ([input], output)
  | .batch inputs output => (inputs, some output)
  | .dump input => ([input], none)

/-- The paths that a request looks at, as far as the disk shows them. -/
def lookedAt (d : Disk) (s : Settings) (r : Request) : List Path :=
  let (inputs, output) := requestPaths r
  let files := d.related inputs
  let settingsFiles :=
    match s.config with
    | some p => [p]
    | none => ((inputs.head?.map inputDir).toList.flatMap Path.ancestors).map fun dir => dir.join Config.fileName
  settingsFiles ++ inputs ++ inputs.flatMap siblingCandidates ++ (d.load files).files.flatMap includeCandidates ++
    files.map (DumpSource.savedPath "ast") ++ output.toList

/-- The places that a command line looks at or writes to. -/
def places (d : Disk) (compile : CompilerCommand → CompilerRun) (words : List Text) : List Location :=
  match parse words with
  | .error _ => []
  | .ok (request, settings) =>
    (lookedAt d settings request).flatMap d.visits ++
      ((perform d compile settings request).disk.changesSince d).map Prod.fst

end CommandLine

end Declass
