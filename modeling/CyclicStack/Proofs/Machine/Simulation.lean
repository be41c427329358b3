import CyclicStack.Proofs.Machine.Initialization

/-!
# Machines that run alike

Instructions reach the memory of a program through its variables only.  So if two
programs have the same variables and the same instructions, and loads and stores of
their variables keep a relation between them, then whole cycles keep it, and no result
of a cycle tells the one machine from the other.
-/

namespace CyclicStack

/-- A relation of programs that differ in their memory, which no load of a variable
notices and every store of a variable keeps. -/
structure Program.Simulation (R : Program → Program → Prop) : Prop where
  vars {p p' : Program} : R p p' → p'.vars = p.vars
  code {p p' : Program} : R p p' → p'.code = p.code
  load {p p' : Program} : R p p' → ∀ id, p'.load id = p.load id
  store {p p' : Program} : R p p' → ∀ id value,
    Action.SameOutcome R (Program.store id value p) (Program.store id value p')

namespace Program.Simulation

variable {R : Program → Program → Prop} {p p' : Program}

theorem variableName_eq (hR : Simulation R) (h : R p p') :
    p'.variableName = p.variableName := by
  funext id
  rw [variableName, variableName, hR.vars h]

theorem describe_eq (hR : Simulation R) (h : R p p') (ip : Nat) :
    p'.describe ip = p.describe ip := by
  rw [describe, describe, hR.code h, hR.variableName_eq h]

theorem inits_eq (hR : Simulation R) (h : R p p') :
    p'.inits = p.inits := by
  rw [inits, inits, hR.vars h]

end Program.Simulation

def State.Related (R : Program → Program → Prop) (s s' : State) : Prop :=
  ∃ p', R s.program p' ∧ s' = { s with program := p' }

def Machine.Related (R : Program → Program → Prop) (m m' : Machine) : Prop :=
  ∃ p', R m.program p' ∧ m' = { m with program := p' }

variable {R : Program → Program → Prop}

theorem execute_simulates (hR : Program.Simulation R) (i : Instruction) {s s' : State}
    (h : s.Related R s') :
    Action.SameOutcome (State.Related R) (execute i s) (execute i s') := by
  obtain ⟨p', hp, rfl⟩ := h
  cases i with
  | apply op =>
      simp only [execute_apply]
      cases Stack.apply op s.stack with
      | ok _ stack => exact .ok _ ⟨p', hp, rfl⟩
      | error failure stack => exact .error failure ⟨p', hp, rfl⟩
  | pushConst value =>
      simp only [execute_pushConst]
      split_ifs
      · exact .error _ ⟨p', hp, rfl⟩
      · exact .ok _ ⟨p', hp, rfl⟩
  | pushVar id =>
      simp only [execute_pushVar, hR.load hp]
      cases s.program.load id with
      | error failure => exact .error failure ⟨p', hp, rfl⟩
      | ok value =>
          dsimp only
          split_ifs
          · exact .error _ ⟨p', hp, rfl⟩
          · exact .ok _ ⟨p', hp, rfl⟩
  | pushSource source =>
      simp only [execute_pushSource]
      split_ifs
      · exact .error _ ⟨p', hp, rfl⟩
      · cases Host.read source s.host with
        | ok value host => exact .ok _ ⟨p', hp, rfl⟩
        | error failure host => exact .error failure ⟨p', hp, rfl⟩
  | popVar id =>
      simp only [execute_popVar]
      cases s.stack.words with
      | nil => exact .error _ ⟨p', hp, rfl⟩
      | cons value rest =>
          rcases (hR.store hp id value).ok_or_error with ⟨_, p₁, p₁', hok, hok', hp₁⟩ |
            ⟨failure, p₁, p₁', herror, herror', hp₁⟩
          · simp only [hok, hok']
            exact .ok _ ⟨p₁', hp₁, rfl⟩
          · simp only [herror, herror']
            exact .error failure ⟨p₁', hp₁, rfl⟩
  | popSink sink =>
      simp only [execute_popSink]
      cases s.stack.words with
      | nil => exact .error _ ⟨p', hp, rfl⟩
      | cons value rest =>
          dsimp only
          cases Host.write sink value s.host with
          | ok _ host => exact .ok _ ⟨p', hp, rfl⟩
          | error failure host => exact .error failure ⟨p', hp, rfl⟩
  | jump condition target =>
      by_cases hcondition : condition = .always
      · subst hcondition
        exact .ok _ ⟨p', hp, rfl⟩
      · simp only [execute_jump condition hcondition]
        cases s.stack.words with
        | nil => exact .error _ ⟨p', hp, rfl⟩
        | cons value rest => exact .ok _ ⟨p', hp, rfl⟩
  | label name => exact .ok _ ⟨p', hp, rfl⟩
  | halt => exact .ok _ ⟨p', hp, rfl⟩

namespace Machine

variable {m m' : Machine}

theorem step_simulates (hR : Program.Simulation R) (h : m.Related R m') :
    Action.SameOutcome (Machine.Related R) (step m) (step m') := by
  obtain ⟨p', hp, rfl⟩ := h
  simp only [step, hR.code hp]
  cases m.program.code[m.ip]? with
  | none => exact .error _ ⟨p', hp, rfl⟩
  | some i =>
      have hstate : m.toState.Related R { m.toState with program := p' } :=
        ⟨p', hp, rfl⟩
      simp only [onState, Action.zoom]
      rcases (execute_simulates hR i hstate).ok_or_error with
        ⟨flow, s, s', hok, hok', p₁, hp₁, rfl⟩ |
        ⟨failure, s, s', herror, herror', p₁, hp₁, rfl⟩
      · simp only [hok, hok']
        cases flow <;> exact .ok _ ⟨p₁, hp₁, rfl⟩
      · simp only [herror, herror', hR.describe_eq hp₁]
        exact .error _ ⟨p₁, hp₁, rfl⟩

theorem runFrom_simulates (hR : Program.Simulation R) (h : m.Related R m')
    (steps fuel : Nat) :
    Action.SameOutcome (Machine.Related R) (runFrom steps fuel m)
      (runFrom steps fuel m') := by
  induction fuel generalizing steps m m' with
  | zero => exact .ok _ h
  | succ fuel ih =>
      have hlimit : m'.reachedLimit? steps = m.reachedLimit? steps := by
        obtain ⟨p', _, rfl⟩ := h
        rfl
      cases hreached : m.reachedLimit? steps with
      | some limit =>
          rw [runFrom_over (turn_of_limit hreached),
            runFrom_over (turn_of_limit (hlimit.trans hreached))]
          exact .error _ h
      | none =>
          have hreached' := hlimit.trans hreached
          rcases (step_simulates hR h).ok_or_error with
            ⟨flow, m₁, m₁', hok, hok', hm₁⟩ |
            ⟨failure, m₁, m₁', herror, herror', hm₁⟩
          · by_cases hflow : flow = .halt
            · subst hflow
              rw [runFrom_over (turn_of_halt hreached hok),
                runFrom_over (turn_of_halt hreached' hok')]
              obtain ⟨p₁, hp₁, rfl⟩ := hm₁
              exact .ok _ ⟨p₁, hp₁, rfl⟩
            · rw [runFrom_next (turn_of_step hreached hok hflow),
                runFrom_next (turn_of_step hreached' hok' hflow)]
              exact ih hm₁ (steps + 1)
          · rw [runFrom_over (turn_of_error hreached herror),
              runFrom_over (turn_of_error hreached' herror')]
            exact .error failure hm₁

theorem storeInits_simulates (hR : Program.Simulation R) (h : m.Related R m')
    (inits : List (Nat × Word)) :
    Action.SameOutcome (Machine.Related R) (storeInits inits m)
      (storeInits inits m') := by
  induction inits generalizing m m' with
  | nil => exact .ok _ h
  | cons first rest ih =>
      obtain ⟨id, value⟩ := first
      obtain ⟨p', hp, rfl⟩ := h
      simp only [storeInits, storeInit_eq, hR.variableName_eq hp]
      rcases (hR.store hp id value).ok_or_error with ⟨_, p₁, p₁', hok, hok', hp₁⟩ |
        ⟨failure, _, _, herror, herror', _⟩
      · simp only [hok, hok']
        exact ih ⟨p₁', hp₁, rfl⟩
      · simp only [herror, herror']
        exact .error _ ⟨p', hp, rfl⟩

theorem init_simulates (hR : Program.Simulation R) (h : m.Related R m') :
    Action.SameOutcome (Machine.Related R) (init m) (init m') := by
  obtain ⟨p', hp, rfl⟩ := h
  simp only [init, hR.inits_eq hp]
  split_ifs
  · exact .ok _ ⟨p', hp, rfl⟩
  · have hrelated : m.Related R { m with program := p' } := ⟨p', hp, rfl⟩
    rcases (storeInits_simulates hR hrelated
      (m.program.inits.drop m.initsStored)).ok_or_error with
      ⟨_, m₁, m₁', hok, hok', p₁, hp₁, rfl⟩ | ⟨failure, m₁, m₁', herror, herror', hm₁⟩
    · simp only [hok, hok']
      exact .ok _ ⟨p₁, hp₁, rfl⟩
    · simp only [herror, herror']
      exact .error failure hm₁

theorem run_simulates (hR : Program.Simulation R) (h : m.Related R m') (fuel : Nat) :
    Action.SameOutcome (Machine.Related R) (run fuel m) (run fuel m') := by
  unfold run
  rcases (init_simulates hR h).ok_or_error with ⟨_, m₁, m₁', hok, hok', p₁, hp₁, rfl⟩ |
    ⟨failure, m₁, m₁', herror, herror', hm₁⟩
  · simp only [hok, hok']
    have hstart : m₁.start.Related R { m₁.start with program := p₁ } := ⟨p₁, hp₁, rfl⟩
    exact runFrom_simulates hR hstart 0 (m₁.cycleFuel fuel)
  · simp only [herror, herror']
    exact .error failure hm₁

/-- Related machines stay related, whatever number of cycles they run. -/
theorem cycles_simulate (hR : Program.Simulation R) (h : m.Related R m')
    (fuels : List Nat) :
    (fuels.foldl (fun m fuel => m.after (.run fuel)) m).Related R
      (fuels.foldl (fun m fuel => m.after (.run fuel)) m') := by
  induction fuels generalizing m m' with
  | nil => exact h
  | cons fuel rest ih =>
      apply ih
      simp only [after, Event.perform, Action.bind_run]
      rcases (run_simulates hR h fuel).ok_or_error with ⟨_, m₁, m₁', hok, hok', hm₁⟩ |
        ⟨failure, m₁, m₁', herror, herror', hm₁⟩
      · simp only [hok, hok']
        exact hm₁
      · simp only [herror, herror']
        exact hm₁

/-- No stack, no host, no instruction pointer and no variable tells the machines
apart. -/
structure Indistinguishable (m m' : Machine) : Prop where
  stack : m'.stack = m.stack
  host : m'.host = m.host
  ip : m'.ip = m.ip
  load (id : Nat) : m'.program.load id = m.program.load id

theorem Related.indistinguishable (hR : Program.Simulation R) (h : m.Related R m') :
    Indistinguishable m m' := by
  obtain ⟨p', hp, rfl⟩ := h
  exact ⟨rfl, rfl, rfl, hR.load hp⟩

/-- After any number of cycles nothing tells the machines apart, nor does what the next
cycle returns. -/
def RunAlike (m m' : Machine) : Prop :=
  ∀ fuels : List Nat,
    let a := fuels.foldl (fun m fuel => m.after (.run fuel)) m
    let a' := fuels.foldl (fun m fuel => m.after (.run fuel)) m'
    Indistinguishable a a' ∧
      ∀ fuel, Action.SameOutcome Indistinguishable (run fuel a) (run fuel a')

theorem Related.runAlike (hR : Program.Simulation R) (h : m.Related R m') :
    RunAlike m m' := by
  intro fuels a a'
  have hcycles : a.Related R a' := cycles_simulate hR h fuels
  refine ⟨hcycles.indistinguishable hR, fun fuel => ?_⟩
  exact (run_simulates hR hcycles fuel).imp fun _ _ h => h.indistinguishable hR

/-- Machines for related programs are made alike and run alike. -/
theorem new_runAlike (hR : Program.Simulation R) {p p' : Program} (h : R p p')
    (config : MachineConfig) (host : Host) :
    Alike RunAlike Eq (Machine.new p config host) (Machine.new p' config host) := by
  refine (Alike.refl _).bind ?_
  rintro stack _ rfl
  have hrelated : Machine.Related R { program := p, stack, host, config }
      { program := p', stack, host, config } := ⟨p', h, rfl⟩
  exact .ok (hrelated.runAlike hR)

end Machine

end CyclicStack
