import JarRemap.FileTree.Action
import JarRemap.Run.Config
import JarRemap.Sha3

/-!
# Fingerprints

A digest of everything that the result of a run depends on. It is kept in a file beside the result,
so a later run with the same fingerprint has nothing to do.
-/

namespace JarRemap.Fingerprint

/-- Where the fingerprint of a result is kept. -/
def pathFor (output : Path) : Path := output.extend ".fingerprint"

/-- Sets these digests apart from those of other programs. -/
def domain : String := "DEOBF_RUN_FINGERPRINT"

/-- A file as it enters the digest: its path, its length and its bytes. -/
def fileBytes (path : Path) (data : Bytes) : Bytes :=
  path.text.toUTF8.toList ++ Bytes.ofNatLittle 8 data.length ++ data

/-- What the digest is made of: the configuration, and all input files with what is in them. -/
def message (config : RunConfig) (contents : List (Path × Bytes)) : Bytes :=
  domain.toUTF8.toList ++ config.toJson.compact.toUTF8.toList ++
    contents.flatMap fun (path, data) => fileBytes path data

def inputContents (tree : FileTree) (config : RunConfig) : Except Failure (List (Path × Bytes)) :=
  config.inputFiles.mapM fun path => return (path, ← tree.bytesAt path)

def compute (tree : FileTree) (config : RunConfig) : Except Failure String := do
  let contents ← inputContents tree config
  return Bytes.hex (Sha3.digest (message config contents))

/-- The result is there, and so is the fingerprint of the run that made it. -/
def isFresh (tree : FileTree) (output : Path) (fingerprint : String) : Bool :=
  tree.isFile output &&
    match tree.textAt (pathFor output) with
    | .ok stored => Text.trim stored.toList == fingerprint.toList
    | .error _ => false

def store (output : Path) (fingerprint : String) : FileAction Unit :=
  FileAction.writeText (pathFor output) fingerprint

/-- Removes the fingerprint of a result that is about to change. -/
def invalidate (output : Path) : FileAction Unit :=
  FileAction.change (pathFor output) fun tree =>
    match tree.remove (pathFor output) with
    | .error .notFound => .ok tree
    | outcome => outcome

end JarRemap.Fingerprint
