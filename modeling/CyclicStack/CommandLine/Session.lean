import CyclicStack.CommandLine.Arguments
import CyclicStack.CommandLine.Directory
import CyclicStack.Load
import CyclicStack.Schedule

/-!
# Sessions

A session does what the command line asks for: it loads a program, stores its initial
values and runs its schedule.  What it prints and its exit code are computed from the
arguments and the files.
-/

namespace CyclicStack

namespace CommandLine

/-- The name and version that the program goes by. -/
def programVersion : String := "shmstack 0.1.0"

def licenseText : String :=
  programVersion ++ "\nLicensed under the MIT OR Apache-2.0 license."

def helpText : String :=
  "Cyclic stack machine with shared-memory I/O\n\n" ++
  "Usage: shmstack [OPTIONS] [FILE]\n\n" ++
  "Arguments:\n" ++
  "  [FILE]  Program file\n\n" ++
  "Options:\n" ++
  "  -s, --stack-size <STACK_SIZE>  Stack capacity in words [default: 32]\n" ++
  "  -v, --verbose                  Log load and scheduler progress\n" ++
  "  -d, --debug                    Trace every executed instruction\n" ++
  "      --max-steps <MAX_STEPS>    Abort a cycle after this many instructions\n" ++
  "      --license                  Print license information and exit\n" ++
  "  -h, --help                     Print help\n" ++
  "  -V, --version                  Print version"

/-- Exit codes: success, misuse of the command line, a refused program or program data,
a failure of the system, and a demand that no system can meet. -/
inductive Exit where
  | ok
  | usage
  | data
  | system
  | abort
deriving DecidableEq, Repr

def Exit.code : Exit → Nat
  | .ok => 0
  | .usage => 64
  | .data => 65
  | .system => 71
  | .abort => 101

/-- The complaint that a program stops with: what it was doing, the texts of the error
from the outside in, and the exit code. -/
structure Complaint where
  context : String
  chain : List String
  exit : Exit
deriving DecidableEq, Repr

namespace Complaint

/-- The line that reports a complaint.  A demand that no system can meet is not
reported. -/
def lines (c : Complaint) : List String :=
  if c.exit = .abort then []
  else ["shmstack: " ++ String.intercalate ": " (c.context :: c.chain)]

def ofLoad (path : String) (e : Load.Error) : Complaint where
  context := s!"failed to load {path}"
  chain := e.chain
  exit := match e.cause with
    | .regionTooLarge _ => .abort
    | cause => if cause.isSystemFailure then .system else .data

def ofFailure (context : String) (failure : Failure) : Complaint where
  context := context
  chain := failure.chain
  exit := match failure.root with
    | .stackTooLarge _ | .missingRegion _ => .abort
    | _ => if failure.isSystemFailure then .system else .data

end Complaint

def loadFile (segments : Load.Segments) (path : String) :
    FileContent → Except Load.Error Program
  | .text text => load segments text
  | .notText =>
    .error { cause := .unreadable path "stream did not contain valid UTF-8" }
  | .unreadable reason => .error { cause := .unreadable path reason }

/-- Loads a program and makes a machine of it whose initial values are stored. -/
def prepare (segments : Load.Segments) (host : Host) (path : String) (o : Options)
    (content : FileContent) : Except Complaint Machine := do
  let program ← (loadFile segments path content).mapError (.ofLoad path)
  let m ← (Machine.new program o.machineConfig host).mapError
    (.ofFailure "failed to create machine")
  match Machine.init m with
  | .ok _ m => return m
  | .error failure _ => throw (.ofFailure "failed to initialize variables" failure)

/-- What a session has printed and how it ended. -/
structure Transcript where
  exit : Exit
  output : String := ""
  errors : List String := []
deriving DecidableEq, Repr

def runMachine (w : Surroundings) (stepFuel fuel : Nat) (m : Machine) :
    Option Transcript :=
  match (Schedule.ofSettings m.program.settings).run w stepFuel fuel m with
  | .ok (.stopped _) m => some { exit := .ok, output := m.host.contents }
  | .ok .outOfFuel _ => none
  | .error failure m =>
    let complaint := Complaint.ofFailure "program aborted" failure
    some { exit := complaint.exit, output := m.host.contents,
           errors := complaint.lines }

/-- Does what a list of arguments asks for.  There is no transcript of a session that
has not ended when the fuel is used up. -/
def session (segments : Load.Segments) (host : Host) (w : Surroundings)
    (directory : Directory) (stepFuel fuel : Nat) (arguments : List String) :
    Option Transcript :=
  match parse? arguments with
  | none => some { exit := .usage }
  | some .help => some { exit := .ok, output := helpText ++ "\n" }
  | some .version => some { exit := .ok, output := programVersion ++ "\n" }
  | some .license => some { exit := .ok, output := licenseText ++ "\n" }
  | some (.run path o) =>
    match prepare segments host path o (directory.read path) with
    | .error complaint => some { exit := complaint.exit, errors := complaint.lines }
    | .ok m => runMachine w stepFuel fuel m

end CommandLine

end CyclicStack
