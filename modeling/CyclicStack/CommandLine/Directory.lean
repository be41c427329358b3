import CyclicStack.SystemError

/-!
# Directories

What reading a file gives, and how a path leads to a file of the working directory.
-/

namespace CyclicStack

namespace CommandLine

inductive FileContent where
  | text (text : String)
  /-- The bytes of the file are no text. -/
  | notText
  /-- The file cannot be read. -/
  | unreadable (reason : String)
deriving DecidableEq, Repr

/-- A file that cannot be read for a reason of the system. -/
def FileContent.ofError (e : SystemError) : FileContent :=
  .unreadable e.message

/-- A working directory: its files by name. -/
structure Directory where
  files : List (String × FileContent)
deriving DecidableEq, Repr

namespace Directory

/-- The steps of a path, without those that stay where they are. -/
def steps (path : String) : List String :=
  (path.splitOn "/").filter fun step => step != "" && step != "."

/-- Whether a path can only lead to a directory. -/
def demandsDirectory (path : String) : Bool :=
  path.endsWith "/" || path.endsWith "/."

/-- Goes along the steps of a path.  `files` are those of the directory reached so far;
of the directories around the working directory only their existence is known. -/
def walk (files : List (String × FileContent)) (demandsDirectory : Bool) :
    List String → FileContent
  | [] => .ofError .isDirectory
  | name :: rest =>
    if name = ".." then walk [] demandsDirectory rest
    else if SystemError.maxNameBytes < name.utf8ByteSize then .ofError .nameTooLong
    else
      match files.lookup name with
      | none => .ofError .noEntry
      | some content =>
        if rest.isEmpty && !demandsDirectory then content else .ofError .notDirectory

/-- What reading a path gives.  Paths from the root lead nowhere but to the root
itself. -/
def read (d : Directory) (path : String) : FileContent :=
  if SystemError.maxPathBytes ≤ path.utf8ByteSize then .ofError .nameTooLong
  else
    let files := if path.startsWith "/" then [] else d.files
    walk files (demandsDirectory path) (steps path)

end Directory

end CommandLine

end CyclicStack
