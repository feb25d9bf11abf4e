import JarRemap.Access.RuleSet
import JarRemap.Mapping.Srg

/-!
# Failures

Why a run, or a step of it, did not succeed. Faults of single classes, lines and rows are wrapped
together with the file they were found in; the rest concerns files, archives and the configuration.
-/

namespace JarRemap

/-- What the file system can refuse. -/
inductive FileFault
  | notFound
  | alreadyExists
  | notDirectory
  | isDirectory
  /-- What is there has no name of its own that could be given away. -/
  | busy
  /-- A step of the path, or the whole path, is longer than a name can be. -/
  | nameTooLong
  /-- The path holds a character that no name can hold. -/
  | zeroInName
  /-- There is no such path to move something to. -/
  | invalid
  | notText
  /-- A compressed text goes on behind the end of its bytes. -/
  | incompleteText
  /-- What should be a compressed text is none. -/
  | corruptText
  | wrongChecksum
deriving DecidableEq, Repr

def FileFault.message : FileFault → String
  | notFound => "No such file or directory (os error 2)"
  | alreadyExists => "File exists (os error 17)"
  | notDirectory => "Not a directory (os error 20)"
  | isDirectory => "Is a directory (os error 21)"
  | busy => "Device or resource busy (os error 16)"
  | nameTooLong => "File name too long (os error 36)"
  | zeroInName => "file name contained an unexpected NUL byte"
  | invalid => "Invalid argument (os error 22)"
  | notText => "stream did not contain valid UTF-8"
  | incompleteText => "incomplete deflate stream"
  | corruptText => "corrupt deflate stream"
  | wrongChecksum => "Invalid checksum"

inductive Failure
  | classFile (fault : Fault)
  | mapping (file : String) (fault : Srg.SrgFault)
  | rule (fault : RuleLineFault)
  | memberName (fault : MemberNames.RowFault)
  /-- A structural descriptor that is not the JSON it should be. -/
  | document (file : String)
  /-- Access flags of a nested class that are no hexadecimal number. -/
  | accessValue (text : String)
  /-- Rules that changed nothing, where that is not accepted. -/
  | brokenRules (records : List RuleRecord)
  | injection (injector : String) (cause : Failure)
  | configuration (problem : String)
  /-- JSON that does not fit what it should hold. -/
  | json
  | file (path : String) (fault : FileFault)
  | archive (path : String)
  /-- A sum that does not fit into two bytes. It is not handled: the whole program stops. -/
  | overflow
deriving DecidableEq, Repr

def Failure.message : Failure → String
  | classFile fault => fault.message
  | mapping label fault => fault.message label
  | rule fault => fault.message
  | memberName fault => fault.message
  | document path => s!"invalid structural descriptor '{path}'"
  | accessValue text => s!"invalid inner class access value '{text}'"
  | brokenRules records => s!"{records.length} broken access transformer rules"
  | injection injector cause => s!"structure injection '{injector}' failed: {cause.message}"
  | configuration problem => s!"invalid configuration: {problem}"
  | json => "serialization failed"
  | file path fault => s!"could not access file '{path}': {fault.message}"
  | archive path => s!"archive error in '{path}'"
  | overflow => "attempt to add with overflow"

namespace Failure

/-- The outcome of work on a class, among outcomes of larger work. -/
def ofFault {α : Type} (outcome : Except Fault α) : Except Failure α :=
  outcome.mapError classFile

/-- What happens in an injector is told with its name, unless the program stops there. -/
def ofInjector (injector : String) : Failure → Failure
  | overflow => overflow
  | cause => injection injector cause

end Failure

end JarRemap
