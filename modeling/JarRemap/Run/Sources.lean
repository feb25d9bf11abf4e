import JarRemap.FileTree.Action
import JarRemap.Run.Config
import JarRemap.Structure.Document

/-!
# The files that a run reads

Mapping tables, member names, access rules, descriptors and configurations, each from its file.
-/

namespace JarRemap

namespace Failure

/-- The state that work leaves behind if it succeeds. -/
def stateAfter {σ α : Type} (work : ExceptT Failure (StateM σ) α) (start : σ) : Except Failure σ :=
  match work.run.run start with
  | (.ok _, state) => .ok state
  | (.error failure, _) => .error failure

end Failure

namespace MappingTable

def load (tree : FileTree) (path : Path) : Except Failure MappingTable := do
  (Srg.parse (← tree.textAt path)).mapError (.mapping path.text)

end MappingTable

namespace MemberNames

/-- Adds the rows of a file, and says how many there were. -/
def addFile (tree : FileTree) (path : Path) : ExceptT Failure (StateM MemberNames) Nat := do
  let text ← liftM (tree.textAt path)
  ExceptT.adapt Failure.memberName (addText path.text text)

def load (tree : FileTree) (paths : List Path) : Except Failure MemberNames :=
  Failure.stateAfter (paths.forM fun path => discard (addFile tree path)) .empty

end MemberNames

namespace RuleSet

/-- Loads the rules of a file, unless they were loaded before under whatever path, and says how many
there were. A file that could not be read to its end counts as loaded. -/
def loadFile (tree : FileTree) (path : Path) : ExceptT Failure (StateM RuleSet) Nat := do
  let source ← liftM ((tree.canonical path).mapError (Failure.file path.text))
  if source.text ∈ (← get).sources then return 0
  else
    modify fun set => { set with sources := set.sources ++ [source.text] }
    let text ← liftM (tree.textAt source)
    ExceptT.adapt Failure.rule (loadLines source.text 1 0 (Text.lines text))

def load (tree : FileTree) (names : MemberNames) (paths : List Path) : Except Failure RuleSet :=
  Failure.stateAfter (paths.forM fun path => discard (loadFile tree path)) (.new names)

end RuleSet

namespace StructureTable

def load (tree : FileTree) (path : Path) : Except Failure StructureTable := do
  match read? (← tree.textAt path) with
  | some table => return table
  | none => throw (.document path.text)

end StructureTable

namespace RunConfig

def load (tree : FileTree) (path : Path) : Except Failure RunConfig := do
  match read? (← tree.textAt path) with
  | some config => return config
  | none => throw .json

end RunConfig

end JarRemap
