/-!
# Reserved names

Names that a program uses without declaring them: sources deliver a word to `PUSH`,
sinks take a word from `POP`.
-/

namespace CyclicStack

/-- A reserved name that delivers words: clocks, process identities and random
numbers. -/
inductive Source where
  | stime | mtime | ctime | ttime
  | pid | ppid | uid | euid
  | rand | randf | randd
deriving DecidableEq, Repr

/-- A reserved name that takes words: one kind of output line each, and one that drops
the word. -/
inductive Sink where
  | stdout | stdouts | stdoutf | stdoutd | null
deriving DecidableEq, Repr

namespace Source

def all : List Source :=
  [.stime, .mtime, .ctime, .ttime, .pid, .ppid, .uid, .euid, .rand, .randf, .randd]

def name : Source → String
  | .stime => "STIME"
  | .mtime => "MTIME"
  | .ctime => "CTIME"
  | .ttime => "TTIME"
  | .pid => "PID"
  | .ppid => "PPID"
  | .uid => "UID"
  | .euid => "EUID"
  | .rand => "RAND"
  | .randf => "RANDF"
  | .randd => "RANDD"

def ofName? (name : String) : Option Source :=
  all.find? (·.name == name)

end Source

namespace Sink

def all : List Sink :=
  [.stdout, .stdouts, .stdoutf, .stdoutd, .null]

def name : Sink → String
  | .stdout => "STDOUT"
  | .stdouts => "STDOUTS"
  | .stdoutf => "STDOUTF"
  | .stdoutd => "STDOUTD"
  | .null => "NULL"

def ofName? (name : String) : Option Sink :=
  all.find? (·.name == name)

end Sink

/-- Whether a name is a source or a sink and so cannot be declared. -/
def isReserved (name : String) : Bool :=
  (Source.ofName? name).isSome || (Sink.ofName? name).isSome

end CyclicStack
