import CyclicStack.Machine

/-!
# Schedules

A schedule runs a machine cycle after cycle on a grid of time: a cycle is due one period
after the one before it, and a cycle that ends too late shifts the next one to the next
point of the grid.  Between two cycles the schedule waits, and it stops when its token
is cancelled.

The clock and the moments of cancellation come from outside and are given beforehand.
-/

namespace CyclicStack

/-- The pace of a machine. -/
structure Schedule where
  /-- Time between two cycles in nanoseconds. -/
  periodNs : Nat
  /-- Number of cycles, zero for no end. -/
  cycles : Nat
deriving DecidableEq, Repr

/-- What a schedule meets outside the machine. -/
structure Surroundings where
  /-- The clock when the schedule starts, in nanoseconds. -/
  start : Nat := 0
  /-- The clock after the `n`-th cycle, in nanoseconds. -/
  clock : Nat → Nat := fun _ => 0
  /-- Whether the token is found cancelled at its `n`-th reading, the machine being as
  given.  The readings alternate: one before each cycle, one at the end of the wait
  after it. -/
  cancelled : Nat → Machine → Bool := fun _ _ => false

/-- The cycles of a schedule so far. -/
structure ScheduleStats where
  cycles : Nat := 0
  /-- Number of cycles that ended after their deadline. -/
  overruns : Nat := 0
  /-- Whether the token ended the schedule. -/
  cancelled : Bool := false
deriving DecidableEq, Repr

/-- How a schedule that did not fail ended. -/
inductive ScheduleEnd where
  | stopped (stats : ScheduleStats)
  | outOfFuel
deriving DecidableEq, Repr

namespace Schedule

def ofSettings (settings : Settings) : Schedule :=
  ⟨settings.periodNs, settings.cycles⟩

/-- The time from the clock to the next point of the grid, when the clock is `late` past
a point of it.  It is kept in 64 bits. -/
def realignment (periodNs late : Nat) : Nat :=
  (UInt64.ofNat (periodNs - late % periodNs)).toNat

/-- The deadline after a cycle: one period after the previous deadline, or, when the
clock is past that, the next point of the grid after the clock. -/
def nextDeadline (periodNs deadline now : Nat) : Nat :=
  let due := deadline + periodNs
  if due < now then
    if periodNs = 0 then now else now + realignment periodNs (now - due)
  else due

def isLate (periodNs deadline now : Nat) : Bool :=
  deadline + periodNs < now

def isComplete (s : Schedule) (cycles : Nat) : Bool :=
  s.cycles != 0 && s.cycles ≤ cycles

/-- What follows a finished cycle. -/
inductive AfterCycle where
  | stop (stats : ScheduleStats)
  | wait (stats : ScheduleStats) (deadline : Nat)
deriving DecidableEq, Repr

/-- Counts a cycle that is finished at the time `now`.  Unless it was the last one, the
schedule waits for the deadline after it. -/
def afterCycle (s : Schedule) (stats : ScheduleStats) (deadline now : Nat) :
    AfterCycle :=
  let stats := { stats with cycles := stats.cycles + 1 }
  if s.isComplete stats.cycles then .stop stats
  else
    let late := isLate s.periodNs deadline now
    let stats := { stats with overruns := stats.overruns + if late then 1 else 0 }
    .wait stats (nextDeadline s.periodNs deadline now)

/-- Runs cycles until the schedule is complete, the token is cancelled or a cycle fails.
`deadline` is that of the last cycle; `stepFuel` bounds each cycle and `fuel` their
number. -/
def runFrom (s : Schedule) (w : Surroundings) (stepFuel : Nat) (stats : ScheduleStats)
    (deadline fuel : Nat) (m : Machine) :
    EStateM.Result Failure Machine ScheduleEnd :=
  match fuel with
  | 0 => .ok .outOfFuel m
  | fuel + 1 =>
    if w.cancelled (2 * stats.cycles) m then
      .ok (.stopped { stats with cancelled := true }) m
    else
      match Machine.run stepFuel m with
      | .error failure m => .error failure m
      | .ok .outOfFuel m => .ok .outOfFuel m
      | .ok (.finished _) m =>
        let reading := 2 * stats.cycles + 1
        match s.afterCycle stats deadline (w.clock (stats.cycles + 1)) with
        | .stop stats => .ok (.stopped stats) m
        | .wait stats deadline =>
          if w.cancelled reading m then .ok (.stopped { stats with
            cancelled := true }) m
          else runFrom s w stepFuel stats deadline fuel m

/-- Fuel for a schedule: one with a number of cycles brings its own. -/
def scheduleFuel (s : Schedule) (fuel : Nat) : Nat :=
  if s.cycles = 0 then fuel else s.cycles

/-- Runs a schedule from its start. -/
def run (s : Schedule) (w : Surroundings) (stepFuel fuel : Nat) :
    Action Machine ScheduleEnd :=
  runFrom s w stepFuel {} w.start (s.scheduleFuel fuel)

end Schedule

end CyclicStack
