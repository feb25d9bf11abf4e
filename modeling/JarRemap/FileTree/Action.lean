import JarRemap.Archive.Opened
import JarRemap.FileTree

/-!
# Working with files

Reading and writing as a whole program does it: what goes wrong is reported together with the path
that it went wrong for.

An archive appears under its path only when it is finished, all at once. What is made before that
are the directories above it.
-/

namespace JarRemap

namespace FileTree

def contentAt (tree : FileTree) (path : Path) : Except Failure FileContent :=
  (tree.read path).mapError (.file path.text)

def bytesAt (tree : FileTree) (path : Path) : Except Failure Bytes :=
  FileContent.data <$> tree.contentAt path

/-- The text of a file, which has to be UTF-8. -/
def textAt (tree : FileTree) (path : Path) : Except Failure String := do
  let data ← tree.bytesAt path
  match String.fromUTF8? (ByteArray.mk data.toArray) with
  | some text => return text
  | none => throw (.file path.text .notText)

/-- What cannot be read of an entry is told of the whole archive. -/
def entryFailure (path : Path) : Container.EntryFault → Failure
  | .unreadable => .archive path.text
  | .packed .incomplete => .file path.text .incompleteText
  | .packed .corrupt => .file path.text .corruptText
  | .wrongChecksum => .file path.text .wrongChecksum

/-- Opens an archive. Entries that cannot be read are no obstacle yet. -/
def openAt (tree : FileTree) (path : Path) : Except Failure OpenArchive :=
  match tree.locate path with
  | .error fault => .error (.file path.text fault)
  | .ok (_, .file content) =>
    match content.entries? with
    | some entries => .ok (entries.map (·.mapError (entryFailure path)))
    | none => .error (.archive path.text)
  | .ok (_, .directory) => .error (.archive path.text)

/-- All entries of an archive. -/
def archiveAt (tree : FileTree) (path : Path) : Except Failure (List ArchiveEntry) :=
  (tree.openAt path).bind OpenArchive.entries

end FileTree

/-- Work on a file tree that may fail and still leaves a tree behind. -/
abbrev FileAction := ExceptT Failure (StateM FileTree)

namespace FileAction

/-- Reads from the tree as it stands. -/
def read {α : Type} (look : FileTree → Except Failure α) : FileAction α := ExceptT.mk fun tree =>
  (look tree, tree)

/-- Changes the tree, unless that is refused. -/
def change (path : Path) (step : FileTree → Except FileFault FileTree) : FileAction Unit :=
  ExceptT.mk fun tree =>
    match step tree with
    | .ok changed => (.ok (), changed)
    | .error fault => (.error (.file path.text fault), tree)

def writeText (path : Path) (text : String) : FileAction Unit :=
  change path (·.write path (.bytes text.toUTF8.toList))

/-- Makes a directory and all the parents that are missing. -/
def makeAll (path : Path) : FileAction Unit := ExceptT.mk fun tree =>
  let (made, outcome) := tree.makeAll path
  (outcome.mapError (.file path.text), made)

end FileAction

/-- An archive that is being written. -/
structure ArchiveDraft where
  destination : Path
  /-- Latest first. -/
  entries : List ArchiveEntry
deriving DecidableEq, Repr

namespace ArchiveDraft

/-- Where the destination is going to be. -/
def directoryOf (destination : Path) : Path :=
  match destination.parent? with
  | some parent => if parent.text.isEmpty then ⟨"."⟩ else parent
  | none => ⟨"."⟩

/-- Starts an archive; the directory that it goes to is made now. -/
def start (destination : Path) : FileAction ArchiveDraft := do
  FileAction.makeAll (directoryOf destination)
  return ⟨destination, []⟩

def add (draft : ArchiveDraft) (entry : ArchiveEntry) : ArchiveDraft :=
  { draft with entries := entry :: draft.entries }

def written (draft : ArchiveDraft) : Nat := draft.entries.length

/-- Puts the archive where it belongs, in place of what was there. -/
def finish (draft : ArchiveDraft) : FileAction Unit :=
  let content := FileContent.archive draft.entries.reverse
  FileAction.change draft.destination (·.moveTo draft.destination content)

/-- Starts an archive, puts in what is worked out for it, and finishes it if that succeeds. -/
def publish {α : Type} (destination : Path)
    (work : Except Failure (List ArchiveEntry × α)) : FileAction α := do
  let draft ← start destination
  let (entries, result) ← liftM work
  finish (entries.foldl add draft)
  return result

end ArchiveDraft

end JarRemap
