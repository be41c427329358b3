import CyclicStack.Machine

/-!
# Arguments

What the command line asks for.  Arguments are taken one after the other; the first one
that is out of place, or that asks for the version or for help, decides.
-/

namespace CyclicStack

namespace CommandLine

/-- The options and the file given so far. -/
structure Options where
  file : Option String := none
  stackSize : Option Nat := none
  maxSteps : Option Nat := none
  verbose : Bool := false
  debug : Bool := false
  license : Bool := false
deriving DecidableEq, Repr

/-- What the command line asks for. -/
inductive Request where
  | help
  | version
  | license
  | run (file : String) (options : Options)
deriving DecidableEq, Repr

inductive Valued where
  | stackSize
  | maxSteps
deriving DecidableEq, Repr

inductive Flag where
  | verbose
  | debug
  | license
  | version
  | help
deriving DecidableEq, Repr

/-- What follows from the arguments read so far. -/
inductive Progress where
  /-- More arguments can follow. -/
  | more (options : Options)
  /-- The next argument is the value of an option. -/
  | value (option : Valued) (options : Options)
  /-- The request is settled, whatever follows. -/
  | settled (request : Request)
  | misuse
deriving DecidableEq, Repr

/-- An unsigned number below `2 ^ 64` in decimal, with an optional plus in front. -/
def number? (s : String) : Option Nat :=
  let digits := match s.toList with
    | '+' :: rest => rest
    | rest => rest
  if digits.isEmpty || !digits.all Char.isDigit then none
  else
    let n := digits.foldl (fun n c => n * 10 + (c.toNat - '0'.toNat)) 0
    if n < UInt64.size then some n else none

namespace Options

/-- Sets an option that takes a value.  It is given at most once. -/
def setValue (o : Options) (option : Valued) (text : String) : Progress :=
  match option, number? text with
  | .stackSize, some n =>
    if o.stackSize.isSome || n < minStackCapacity then .misuse
    else .more { o with stackSize := some n }
  | .maxSteps, some n =>
    if o.maxSteps.isSome then .misuse else .more { o with maxSteps := some n }
  | _, none => .misuse

/-- Sets a flag.  It is given at most once. -/
def setFlag (o : Options) : Flag → Progress
  | .verbose => if o.verbose then .misuse else .more { o with verbose := true }
  | .debug => if o.debug then .misuse else .more { o with debug := true }
  | .license => if o.license then .misuse else .more { o with license := true }
  | .version => .settled .version
  | .help => .settled .help

/-- Takes the file name.  There is at most one, and it is not empty. -/
def setFile (o : Options) (name : String) : Progress :=
  if name = "" || o.file.isSome then .misuse else .more { o with file := some name }

/-- Takes a group of short options.  The first that takes a value takes it from the rest
of the group, after an optional equals sign, or from the next argument. -/
def shortGroup (o : Options) : List Char → Progress
  | [] => .more o
  | 's' :: rest =>
    match rest with
    | [] => .value .stackSize o
    | '=' :: text => o.setValue .stackSize (String.ofList text)
    | text => o.setValue .stackSize (String.ofList text)
  | c :: rest =>
    let flag? : Option Flag := match c with
      | 'v' => some .verbose
      | 'd' => some .debug
      | 'V' => some .version
      | 'h' => some .help
      | _ => none
    match flag? with
    | none => .misuse
    | some flag =>
      match o.setFlag flag with
      | .more o => shortGroup o rest
      | progress => progress

/-- The long option of a name: one that takes a value or a flag. -/
def longName? : String → Option (Valued ⊕ Flag)
  | "stack-size" => some (.inl .stackSize)
  | "max-steps" => some (.inl .maxSteps)
  | "verbose" => some (.inr .verbose)
  | "debug" => some (.inr .debug)
  | "license" => some (.inr .license)
  | "version" => some (.inr .version)
  | "help" => some (.inr .help)
  | _ => none

/-- Takes a long option, whose value may follow an equals sign. -/
def long (o : Options) (chars : List Char) : Progress :=
  let name := chars.takeWhile (· != '=')
  match longName? (String.ofList name), chars.dropWhile (· != '=') with
  | some (.inl option), [] => .value option o
  | some (.inl option), _ :: text => o.setValue option (String.ofList text)
  | some (.inr flag), [] => o.setFlag flag
  | _, _ => .misuse

/-- Takes an argument that is not the value of an option. -/
def argument (o : Options) (text : String) : Progress :=
  match text.toList with
  | '-' :: '-' :: chars => o.long chars
  | '-' :: c :: rest => o.shortGroup (c :: rest)
  | _ => o.setFile text

/-- The request of options that nothing more follows.  Without a file only the licence
can be shown. -/
def request? (o : Options) : Option Request :=
  if o.license then some .license
  else o.file.map (.run · o)

def machineConfig (o : Options) : MachineConfig :=
  let usual : MachineConfig := {}
  { stackSize := o.stackSize.getD usual.stackSize, maxSteps := o.maxSteps,
    trace := o.debug }

end Options

/-- Takes the arguments after `--`, which are file names. -/
def parseFiles (o : Options) : List String → Option Request
  | [] => o.request?
  | name :: rest =>
    match o.setFile name with
    | .more o => parseFiles o rest
    | _ => none

/-- Whether an argument can be the value of an option, and is no option itself. -/
def isValue (text : String) : Bool :=
  match text.toList with
  | '-' :: _ :: _ => false
  | _ => true

/-- Goes on from what the arguments so far have led to. -/
def parseFrom : Progress → List String → Option Request
  | .misuse, _ => none
  | .settled request, _ => some request
  | .more o, [] => o.request?
  | .value _ _, [] => none
  | .more o, text :: rest =>
    if text = "--" then parseFiles o rest else parseFrom (o.argument text) rest
  | .value option o, text :: rest =>
    if isValue text then parseFrom (o.setValue option text) rest else none

/-- What a list of arguments asks for, or nothing if it makes no sense. -/
def parse? (arguments : List String) : Option Request :=
  parseFrom (.more {}) arguments

end CommandLine

end CyclicStack
