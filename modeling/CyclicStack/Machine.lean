import CyclicStack.Execution

/-!
# The machine

A machine stores the initial values of its variables once and then runs its instruction
list once per cycle, from the first instruction to the first `halt`.  The stack outlives
a cycle.

A cycle need not end, so it is run with fuel: one unit for each instruction, and a
result of its own for a cycle that has not ended when the fuel is used up.
-/

namespace CyclicStack

/-- How a machine is set up. -/
structure MachineConfig where
  stackSize : Nat := 32
  /-- Number of instructions after which a cycle is cut off. -/
  maxSteps : Option Nat := none
  trace : Bool := false
deriving DecidableEq, Repr

/-- A machine between two instructions. -/
structure Machine extends State where
  config : MachineConfig
  /-- Position of the next instruction, or of the last one when a cycle has ended. -/
  ip : Nat := 0
  /-- Whether all initial values have been stored. -/
  initialized : Bool := false
  /-- Number of initial values stored so far. -/
  initsStored : Nat := 0

/-- What a finished cycle reports. -/
structure CycleReport where
  /-- Number of instructions executed, the final one included. -/
  steps : Nat
  /-- Number of words left on the stack. -/
  depth : Nat
deriving DecidableEq, Repr

/-- How a cycle that did not fail ended. -/
inductive CycleEnd where
  | finished (report : CycleReport)
  | outOfFuel
deriving DecidableEq, Repr

namespace Machine

/-- A machine for a program that has not run yet. -/
def new (program : Program) (config : MachineConfig) (host : Host) :
    Except Failure Machine := do
  let stack ← Stack.ofCapacity config.stackSize
  return { program, stack, host, config }

/-- An action on the part of the machine that instructions work on. -/
def onState {α : Type} (action : Action State α) : Action Machine α :=
  Action.zoom Machine.toState (fun s m => { m with toState := s }) action

def storeInit (id : Nat) (value : Word) : Action Machine Unit :=
  Action.report (fun m => .atInit (m.program.variableName id))
    (onState (State.onProgram (Program.store id value)))

/-- Stores the initial values of a list, counting those that were stored. -/
def storeInits (inits : List (Nat × Word)) (m : Machine) :
    EStateM.Result Failure Machine Unit :=
  match inits with
  | [] => .ok () m
  | (id, value) :: rest =>
    match storeInit id value m with
    | .ok _ m => storeInits rest { m with initsStored := m.initsStored + 1 }
    | .error failure m => .error failure m

/-- Stores the initial values that have not been stored yet, in the order of
declaration.  After a failure the next call resumes at the variable whose store
failed. -/
def init : Action Machine Unit := fun m =>
  if m.initialized then .ok () m
  else
    match storeInits (m.program.inits.drop m.initsStored) m with
    | .ok _ m => .ok () { m with initialized := true }
    | .error failure m => .error failure m

/-- Goes where the last instruction says. -/
def follow (m : Machine) : Flow → Machine
  | .next => { m with ip := m.ip + 1 }
  | .jump target => { m with ip := target }
  | .halt => m

/-- Executes the instruction at the instruction pointer. -/
def step : Action Machine Flow := fun m =>
  let ip := m.ip
  match m.program.code[ip]? with
  | none => .error (.outsideProgram ip) m
  | some i =>
    match onState (execute i) m with
    | .ok flow m => .ok flow (m.follow flow)
    | .error failure m => .error (.atInstruction ip (m.program.describe ip) failure) m

/-- The step limit, once a cycle has reached it. -/
def reachedLimit? (m : Machine) (steps : Nat) : Option Nat :=
  m.config.maxSteps.filter (· ≤ steps)

/-- What one more turn of a cycle comes to. -/
inductive Turn where
  | next (m : Machine)
  | over (result : EStateM.Result Failure Machine CycleEnd)

/-- One turn of a cycle, `steps` instructions into it. -/
def turn (steps : Nat) (m : Machine) : Turn :=
  match m.reachedLimit? steps with
  | some limit => .over (.error (.stepLimitExceeded limit) m)
  | none =>
    match step m with
    | .error failure m => .over (.error failure m)
    | .ok .halt m => .over (.ok (.finished ⟨steps + 1, m.stack.size⟩) m)
    | .ok _ m => .next m

/-- Runs on from the instruction pointer, `steps` instructions into a cycle. -/
def runFrom (steps fuel : Nat) (m : Machine) :
    EStateM.Result Failure Machine CycleEnd :=
  match fuel with
  | 0 => .ok .outOfFuel m
  | fuel + 1 =>
    match m.turn steps with
    | .next m => runFrom (steps + 1) fuel m
    | .over result => result

/-- Fuel for a cycle: a machine with a step limit brings its own and never runs out of
it. -/
def cycleFuel (m : Machine) (fuel : Nat) : Nat :=
  match m.config.maxSteps with
  | some limit => limit + 1
  | none => fuel

/-- Runs one cycle from the first instruction, after the initial values have been
stored. -/
def run (fuel : Nat) : Action Machine CycleEnd := fun m =>
  match init m with
  | .ok _ m => runFrom 0 (m.cycleFuel fuel) { m with ip := 0 }
  | .error failure m => .error failure m

end Machine

/-- Runs a program for one cycle on a machine of the usual size and gives what it has
written. -/
def runOnce (program : Program) (host : Host) (fuel : Nat) :
    Except Failure (Option String) := do
  let m ← Machine.new program {} host
  match Machine.run fuel m with
  | .ok (.finished _) m => return some m.host.contents
  | .ok .outOfFuel _ => return none
  | .error failure _ => throw failure

end CyclicStack
