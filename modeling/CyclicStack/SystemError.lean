/-!
# Errors of the system

The reasons that a system gives for not opening a file or a segment.
-/

namespace CyclicStack

/-- A reason for not opening something that has a name. -/
inductive SystemError where
  | noEntry
  | noPermission
  | notDirectory
  | isDirectory
  | invalidArgument
  | nameTooLong
deriving DecidableEq, Repr

namespace SystemError

def all : List SystemError :=
  [.noEntry, .noPermission, .notDirectory, .isDirectory, .invalidArgument, .nameTooLong]

def code : SystemError → Nat
  | .noEntry => 2
  | .noPermission => 13
  | .notDirectory => 20
  | .isDirectory => 21
  | .invalidArgument => 22
  | .nameTooLong => 36

def ofCode? (code : Nat) : Option SystemError :=
  all.find? (·.code == code)

def description : SystemError → String
  | .noEntry => "No such file or directory"
  | .noPermission => "Permission denied"
  | .notDirectory => "Not a directory"
  | .isDirectory => "Is a directory"
  | .invalidArgument => "Invalid argument"
  | .nameTooLong => "File name too long"

def message (e : SystemError) : String :=
  s!"{e.description} (os error {e.code})"

/-- A name has at most this many bytes. -/
def maxNameBytes : Nat := 255

/-- Where names of segments are kept there is room for this many bytes: those of a name,
and four more. -/
def maxSegmentNameBytes : Nat := maxNameBytes + 4

/-- A path has less than this many bytes. -/
def maxPathBytes : Nat := 4096

end SystemError

end CyclicStack
