import JarRemap.CommandLine.Execute
import JarRemap.CommandLine.Reach

/-!
# The program

A command is worked out on a picture of the files that it can touch. What it changed in the picture
is then done to the files, whether it succeeded or not.
-/

namespace JarRemap.Program

/-- What is at a place now. -/
def look (place : Place) : IO (Option Node) := do
  let file := (← IO.currentDir) / (FileTree.pathTo place).text
  if ← file.isDir then return some .directory
  else if ← file.pathExists then
    let data ← IO.FS.readBinFile file
    return some (.file (.bytes data.toList))
  else return none

/-- Adds a place to the picture, unless it is there. -/
def picturePlace (tree : FileTree) (place : Place) : IO FileTree := do
  if (tree.find? place).isSome then return tree
  else
    match ← look place with
    | some node => return tree.put place node
    | none => return tree

def picturePaths (tree : FileTree) (paths : List Path) : IO FileTree :=
  (paths.flatMap tree.placesOn).foldlM picturePlace tree

/-- Everything that the command can touch, as it is now. -/
def picture (command : Command) : IO FileTree := do
  let here : Path := ⟨(← IO.currentDir).toString⟩
  let tree ← picturePaths (.emptyAt here.steps.reverse) command.paths
  picturePaths tree (command.configured tree)

/-- Writes a file beside its place first, so that it appears all at once. -/
def write (place : Place) (node : Node) : IO Unit := do
  let path := FileTree.pathTo place
  let file := (← IO.currentDir) / path.text
  match node with
  | .directory => IO.FS.createDirAll file
  | .file content =>
    let staged := (← IO.currentDir) / (path.extend ".staged").text
    IO.FS.writeBinFile staged ⟨content.data.toArray⟩
    IO.FS.rename staged file

/-- Does to the files what was done to their picture, in the same order. -/
def commit (before after : FileTree) : IO Unit := do
  for (place, _) in before.nodes do
    if (after.find? place).isNone then
      IO.FS.removeFile ((← IO.currentDir) / (FileTree.pathTo place).text)
  for (place, node) in after.nodes.reverse do
    if before.find? place != some node then write place node

def usage : String :=
  "usage: jarremap [-v] run [options] | strip INPUT --output OUTPUT [--json] | inspect INPUT [--entry NAME]"

def run (command : Command) : IO UInt32 := do
  let before ← picture command
  let (outcome, console) := command.execute.run.run ⟨before, []⟩
  commit before console.tree
  IO.print console.output
  match outcome with
  | .ok _ => return 0
  | .error fault =>
    IO.eprintln s!"Error: {fault.message}"
    return fault.exitCode

end JarRemap.Program

def main (given : List String) : IO UInt32 := do
  match JarRemap.Command.read given with
  | .ok (command, _) => JarRemap.Program.run command
  | .error .help =>
    IO.println JarRemap.Program.usage
    return 0
  | .error .usage =>
    IO.eprintln JarRemap.Program.usage
    return 2
