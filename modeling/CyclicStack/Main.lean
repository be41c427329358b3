import CyclicStack.CommandLine.Session
import Std.Time.DateTime.Timestamp

/-!
# The program

The outer layer of the command line: it reads the arguments and the program file, runs
the machine cycle by cycle at the pace of its schedule, prints each line as soon as it
is written, and sets the exit code.  Everything else is done by `CommandLine`.  What
comes next in a cycle or in a schedule is decided by `Machine.turn` and
`Schedule.afterCycle`, which the runs of machines and schedules share.
-/

namespace CyclicStack

namespace CommandLine

/-- Mixes the bits of a number into a random word. -/
def mix (seed : Word) (n : Nat) : Word :=
  let z := seed + UInt64.ofNat (n + 1) * 0x9e3779b97f4a7c15
  let z := (z ^^^ (z >>> (30 : Word))) * 0xbf58476d1ce4e5b9
  let z := (z ^^^ (z >>> (27 : Word))) * 0x94d049bb133111eb
  z ^^^ (z >>> (31 : Word))

/-- The reason of an error number, which some systems give as a negative one. -/
def reasonOf (code : UInt32) (details : String) : String :=
  let code := if code.toInt32 < 0 then code.toInt32.toInt.natAbs else code.toNat
  match SystemError.ofCode? code with
  | some e => e.message
  | none => s!"{details} (os error {code})"

def readFile (path : String) : IO FileContent := do
  try
    let bytes ← IO.FS.readBinFile path
    match String.fromUTF8? bytes with
    | some text => return .text text
    | none => return .notText
  catch
    | .noFileOrDirectory _ code details
    | .permissionDenied _ code details
    | .inappropriateType _ code details
    | .invalidArgument _ code details
    | .otherError code details => return .unreadable (reasonOf code details)
    | e => return .unreadable e.toString

/-- The numbers that follow a key in a text of lines such as `Key: 1 2`. -/
def numbersOf (key : String) (text : String) : List Word :=
  let words (line : String) : List String :=
    (line.toList.splitBy fun a b => Text.isBlank a == Text.isBlank b).map String.ofList
  match (text.splitOn "\n").find? (·.startsWith (key ++ ":")) with
  | some line => (words line).filterMap fun word => (number? word).map UInt64.ofNat
  | none => []

/-- The identities of the process, as far as the system shows them. -/
def readIdentity : IO Identity := do
  try
    let status ← IO.FS.readFile "/proc/self/status"
    let users := numbersOf "Uid" status
    return {
      process := (numbersOf "Pid" status).headD 0
      parent := (numbersOf "PPid" status).headD 0
      user := users.headD 0
      effectiveUser := users.getD 1 0 }
  catch _ => return {}

/-- A host with the identities and a random source of the system. -/
def systemHost : IO Host := do
  let bytes ← IO.getRandomBytes 8
  return { draws := mix (Cell.toWordLittle bytes.toList), identity := ← readIdentity }

/-- The word of a number of nanoseconds in seconds. -/
def secondsOfNs (ns : Nat) : Word :=
  (Float.ofScientific ns true 9).toBits

/-- The time the process has run for in nanoseconds, as far as the system shows it. -/
def processTimeNs : IO Nat := do
  try
    let text ← IO.FS.readFile "/proc/self/schedstat"
    return ((number? (String.ofList (text.toList.takeWhile Char.isDigit))).getD 0)
  catch _ => return 0

def readsClock : Instruction → Bool
  | .pushSource .stime | .pushSource .mtime
  | .pushSource .ctime | .pushSource .ttime => true
  | _ => false

/-- Sets the clocks of a machine to the time of the system, if its next instruction
reads one. -/
def synchronize (m : Machine) : IO Machine := do
  if !(m.program.code[m.ip]?).any readsClock then return m
  let wall := (← Std.Time.Timestamp.now).toNanosecondsSinceUnixEpoch.val.toNat
  let monotonic ← IO.monoNanosNow
  let running ← processTimeNs
  let clock : Clock → Word
    | .wall => secondsOfNs wall
    | .monotonic => secondsOfNs monotonic
    | .processTime | .threadTime => secondsOfNs running
  return { m with host := { m.host with clock := fun _ c => .ok (clock c) } }

/-- Prints the lines that a machine has written since it had `count` lines. -/
def printFrom (count : Nat) (m : Machine) : IO Unit := do
  let out ← IO.getStdout
  for line in m.host.lines.toList.drop count do
    out.putStr (line ++ "\n")
    out.flush

/-- Prints the lines of a complaint and gives its exit code. -/
def complain (c : Complaint) : IO Exit := do
  for line in c.lines do
    IO.eprintln line
  return c.exit

/-- Runs a cycle turn by turn, as `Machine.runFrom` does, and prints after each turn. -/
partial def runCycle (steps : Nat) (m : Machine) :
    IO (EStateM.Result Failure Machine CycleEnd) := do
  let m ← synchronize m
  match m.turn steps with
  | .over result => return result
  | .next m' =>
    printFrom m.host.lines.size m'
    runCycle (steps + 1) m'

/-- Runs cycle after cycle, as `Schedule.runFrom` does, and waits for the deadline of
each. -/
partial def runSchedule (s : Schedule) (stats : ScheduleStats) (deadline : Nat)
    (m : Machine) :
    IO Exit := do
  match ← runCycle 0 { m with ip := 0 } with
  | .error failure _ => complain (.ofFailure "program aborted" failure)
  | .ok _ m =>
    match s.afterCycle stats deadline (← IO.monoNanosNow) with
    | .stop _ => return .ok
    | .wait stats deadline =>
      let remaining := (deadline - (← IO.monoNanosNow)) / 1000000
      IO.sleep (UInt32.ofNat remaining)
      runSchedule s stats deadline { m with host := { m.host with lines := #[] } }

def runPrepared (m : Machine) : IO Exit := do
  runSchedule (Schedule.ofSettings m.program.settings) {} (← IO.monoNanosNow) m

/-- Does what a list of arguments asks for. -/
def perform (arguments : List String) : IO Exit := do
  match parse? arguments with
  | none =>
    IO.eprintln "Usage: shmstack [OPTIONS] [FILE]"
    return .usage
  | some .help =>
    IO.println helpText
    return .ok
  | some .version =>
    IO.println programVersion
    return .ok
  | some .license =>
    IO.println licenseText
    return .ok
  | some (.run path o) =>
    let content ← readFile path
    match prepare .none (← systemHost) path o content with
    | .error complaint => complain complaint
    | .ok m => runPrepared m

end CommandLine

end CyclicStack

def main (arguments : List String) : IO UInt32 := do
  let exit ← CyclicStack.CommandLine.perform arguments
  return UInt32.ofNat exit.code
