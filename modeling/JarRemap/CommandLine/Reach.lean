import JarRemap.CommandLine.Command
import JarRemap.Run.Fingerprint

/-!
# What a command can touch

A command reads and writes nothing but files that its arguments or its configuration name, and the
fingerprint beside the result of a run. To look up a path, everything on the way to it is looked up
as well.
-/

namespace JarRemap

namespace RunConfig

def paths (config : RunConfig) : List Path :=
  config.inputFiles ++ [config.output, Fingerprint.pathFor config.output] ++
    config.emittedDescriptor.toList

end RunConfig

namespace Command

/-- The paths that can be told before any file is read. -/
def paths : Command → List Path
  | .run arguments => (arguments.value? "config").toList.map Path.mk ++ arguments.reportPath.toList
  | .strip input output _ => [input, output]
  | .inspect input _ => [input]

/-- The paths that a run finds in its configuration, which may be in a file. -/
def configured (tree : FileTree) : Command → List Path
  | .run arguments =>
    match RunConfig.ofArguments tree arguments with
    | .ok config => config.paths
    | .error _ => []
  | _ => []

end Command

namespace FileTree

/-- The places that a path leads through, and the one that it leads to. -/
def placesOn (tree : FileTree) (path : Path) : List Place :=
  let start := if path.isAbsolute then [] else tree.here
  (List.range (path.steps.length + 1)).map fun count => (path.steps.take count).foldl stepFrom start

end FileTree

end JarRemap
