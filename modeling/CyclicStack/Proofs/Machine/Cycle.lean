import CyclicStack.Proofs.Machine.Run

/-!
# How a cycle ends

A cycle of an initialised machine starts at the first instruction.  Where it ends does
not depend on how many instructions it may execute: this number decides only whether the
end is reached.  If an instruction fails, then the machine is left as it was before that
instruction, with the instruction pointer on it; if the cycle is finished, then the
instruction pointer is on the `halt` that finished it.
-/

namespace CyclicStack

namespace Machine

/-- The machine at the start of a cycle. -/
def start (m : Machine) : Machine :=
  { m with ip := 0 }

/-- Number of instructions that a cycle may execute. -/
def budget (m : Machine) (fuel : Nat) : Nat :=
  m.config.maxSteps.getD fuel

/-- `Ends m k result` says that the instructions from `m` on end the cycle with the
`k`-th of them: the ones before it succeed, and it is a `halt`, or it fails, or there is
none. -/
inductive Ends (m : Machine) : Nat → EStateM.Result Failure Machine CycleEnd → Prop
  | finished {k : Nat} {m' : Machine} (h : Advances k m m')
      (hhalt : step m' = .ok .halt m') :
      Ends m (k + 1) (.ok (.finished ⟨k + 1, m'.stack.size⟩) m')
  | failed {k : Nat} {m' : Machine} {failure : Failure} (h : Advances k m m')
      (hfailure : step m' = .error failure m') : Ends m (k + 1) (.error failure m')

/-- What a cycle returns that has executed all the instructions it may. -/
def exhausted (m : Machine) : EStateM.Result Failure Machine CycleEnd :=
  match m.config.maxSteps with
  | some limit => .error (.stepLimitExceeded limit) m
  | none => .ok .outOfFuel m

theorem exhausted_ne_atInstruction (m : Machine) {ip : Nat} {text : String}
    {source : Failure} {m' : Machine} :
    .error (.atInstruction ip text source) m' ≠ m.exhausted := by
  unfold exhausted
  split <;> simp

theorem exhausted_ne_finished (m : Machine) {report : CycleReport} {m' : Machine} :
    .ok (.finished report) m' ≠ m.exhausted := by
  unfold exhausted
  split <;> simp

/-! ## The instructions of a run -/

theorem Advances.trans {j k : Nat} {m m₁ m' : Machine} (h : Advances j m m₁)
    (hrest : Advances k m₁ m') :
    Advances (j + k) m m' := by
  induction h with
  | refl => rwa [Nat.zero_add]
  | step hstep hflow _ ih =>
      rw [Nat.add_right_comm]
      exact .step hstep hflow (ih hrest)

theorem Advances.split {j k : Nat} {m m' : Machine} (h : Advances (j + k) m m') :
    ∃ m₁, Advances j m m₁ ∧ Advances k m₁ m' := by
  induction j generalizing m with
  | zero => exact ⟨m, .refl m, by rwa [Nat.zero_add] at h⟩
  | succ j ih =>
      rw [Nat.add_right_comm] at h
      cases h with
      | step hstep hflow hrest =>
          obtain ⟨m₁, hbefore, hafter⟩ := ih hrest
          exact ⟨m₁, .step hstep hflow hbefore, hafter⟩

/-- The instructions before the last machine of a run were executed, and none of them is
a `halt`. -/
theorem Advances.exists_instruction {k : Nat} {m m' : Machine} (h : Advances k m m')
    {j : Nat} (hj : j < k) :
    ∃ m₁ i, Advances j m m₁ ∧ m₁.program.code[m₁.ip]? = some i ∧ i ≠ .halt := by
  obtain ⟨n, rfl⟩ := Nat.exists_eq_add_of_lt hj
  obtain ⟨m₁, hbefore, hafter⟩ := Advances.split (j := j) (k := n + 1) h
  cases hafter with
  | step hstep hflow _ =>
      obtain ⟨i, s, hi, hexecute, _⟩ := step_ok_cases hstep
      refine ⟨m₁, i, hbefore, hi, ?_⟩
      rintro rfl
      rw [execute_halt] at hexecute
      cases hexecute
      exact hflow rfl

/-- A cycle either ends within a number of instructions or goes on after them. -/
theorem ends_or_advances (n : Nat) (m : Machine) :
    (∃ k ≤ n, ∃ result, Ends m k result) ∨ ∃ m', Advances n m m' := by
  induction n with
  | zero => exact .inr ⟨m, .refl m⟩
  | succ n ih =>
      rcases ih with ⟨k, hk, hends⟩ | ⟨m₁, hadvances⟩
      · exact .inl ⟨k, Nat.le_succ_of_le hk, hends⟩
      cases hstep : step m₁ with
      | error failure m₂ =>
          obtain ⟨rfl, _⟩ := step_error_cases hstep
          exact .inl ⟨n + 1, le_rfl, _, .failed hadvances hstep⟩
      | ok flow m₂ =>
          by_cases hflow : flow = .halt
          · subst hflow
            obtain ⟨rfl, _⟩ := step_halt_cases hstep
            exact .inl ⟨n + 1, le_rfl, _, .finished hadvances hstep⟩
          · exact .inr ⟨m₂, hadvances.trans (.step hstep hflow (.refl m₂))⟩

/-! ## Cycles with a budget -/

theorem config_of_advances {k : Nat} {m m' : Machine} (h : Advances k m m') :
    m'.config = m.config := by
  refine h.invariant (P := fun m₁ => m₁.config = m.config) ?_ rfl
  intro m₁ m₂ flow hm₁ hstep _
  rw [config_of_step hstep, hm₁]

theorem reachedLimit?_of_advances {k : Nat} {m m' : Machine} (h : Advances k m m')
    (steps : Nat) :
    m'.reachedLimit? steps = m.reachedLimit? steps := by
  rw [reachedLimit?, config_of_advances h, reachedLimit?]

/-- A run goes on from where its first instructions lead. -/
theorem runFrom_of_advances {k : Nat} {m m' : Machine} (h : Advances k m m')
    {steps : Nat} (hlimit : ∀ j < k, m.reachedLimit? (steps + j) = none) (fuel : Nat) :
    runFrom steps (k + fuel) m = runFrom (steps + k) fuel m' := by
  induction h generalizing steps with
  | refl => rw [Nat.zero_add, Nat.add_zero]
  | @step k m m₁ m' flow hstep hflow hrest ih =>
      have hfirst : m.reachedLimit? steps = none := hlimit 0 (Nat.succ_pos k)
      have hothers : ∀ j < k, m₁.reachedLimit? (steps + 1 + j) = none := by
        intro j hj
        rw [reachedLimit?_of_advances (.step hstep hflow (.refl m₁)), Nat.add_assoc,
          Nat.add_comm 1]
        exact hlimit (j + 1) (Nat.succ_lt_succ hj)
      rw [Nat.add_right_comm, runFrom_next (turn_of_step hfirst hstep hflow),
        ih hothers, Nat.add_assoc, Nat.add_comm 1]

variable {m : Machine} {fuel : Nat}

theorem reachedLimit?_of_lt_budget {steps : Nat} (h : steps < m.budget fuel) :
    m.reachedLimit? steps = none := by
  unfold budget at h
  unfold reachedLimit?
  cases hlimit : m.config.maxSteps with
  | none => rfl
  | some limit =>
      rw [hlimit, Option.getD_some] at h
      simpa using h

theorem budget_le_cycleFuel (m : Machine) (fuel : Nat) :
    m.budget fuel ≤ m.cycleFuel fuel := by
  unfold budget cycleFuel
  cases m.config.maxSteps with
  | none => exact le_rfl
  | some limit => exact Nat.le_succ limit

theorem run_of_initialized (hm : m.initialized = true) (fuel : Nat) :
    run fuel m = runFrom 0 (m.cycleFuel fuel) m.start := by
  rw [run, init, if_pos hm]
  rfl

/-- A cycle whose first `k` instructions are within its budget goes on from where they
lead. -/
theorem run_of_advances (hm : m.initialized = true) {k : Nat} {m' : Machine}
    (h : Advances k m.start m') (hk : k ≤ m.budget fuel) :
    run fuel m = runFrom k (m.cycleFuel fuel - k) m' := by
  have hlimit : ∀ j < k, m.start.reachedLimit? (0 + j) = none := by
    intro j hj
    rw [Nat.zero_add]
    exact reachedLimit?_of_lt_budget (m := m) (Nat.lt_of_lt_of_le hj hk)
  have hfuel : k + (m.cycleFuel fuel - k) = m.cycleFuel fuel :=
    Nat.add_sub_cancel' (hk.trans (budget_le_cycleFuel m fuel))
  have hrun := runFrom_of_advances h hlimit (m.cycleFuel fuel - k)
  rwa [hfuel, Nat.zero_add, ← run_of_initialized hm] at hrun

/-- A cycle that ends within its budget returns what it ends with. -/
theorem run_of_ends (hm : m.initialized = true) {k : Nat}
    {result : EStateM.Result Failure Machine CycleEnd} (h : Ends m.start k result)
    (hk : k ≤ m.budget fuel) :
    run fuel m = result := by
  have hlast : ∀ {j : Nat} {m' : Machine}, Advances j m.start m' →
      j + 1 ≤ m.budget fuel →
        ∃ more, run fuel m = runFrom j (more + 1) m' ∧ m'.reachedLimit? j = none := by
    intro j m' hadvances hj
    refine ⟨m.cycleFuel fuel - (j + 1), ?_, ?_⟩
    · have hfuel := hj.trans (budget_le_cycleFuel m fuel)
      rw [run_of_advances hm hadvances (Nat.le_of_succ_le hj)]
      congr 1
      omega
    · rw [reachedLimit?_of_advances hadvances]
      exact reachedLimit?_of_lt_budget (m := m) hj
  cases h with
  | finished hadvances hhalt =>
      obtain ⟨more, hrun, hlimit⟩ := hlast hadvances hk
      rw [hrun, runFrom_over (turn_of_halt hlimit hhalt)]
  | failed hadvances hfailure =>
      obtain ⟨more, hrun, hlimit⟩ := hlast hadvances hk
      rw [hrun, runFrom_over (turn_of_error hlimit hfailure)]

/-- A cycle that goes on after all the instructions of its budget is cut off there. -/
theorem run_of_advances_budget (hm : m.initialized = true) {m' : Machine}
    (h : Advances (m.budget fuel) m.start m') :
    m'.config = m.config ∧ run fuel m = m'.exhausted := by
  have hconfig : m'.config = m.start.config := config_of_advances h
  change m'.config = m.config at hconfig
  refine ⟨hconfig, ?_⟩
  rw [run_of_advances hm h le_rfl]
  unfold budget cycleFuel exhausted
  rw [hconfig]
  cases hlimit : m.config.maxSteps with
  | none => simp only [Option.getD_none, Nat.sub_self, runFrom]
  | some limit =>
      have hreached : m'.reachedLimit? limit = some limit := by
        simp [reachedLimit?, hconfig, hlimit]
      simp only [Option.getD_some, Nat.add_sub_cancel_left,
        runFrom_over (turn_of_limit hreached)]

/-- A cycle that is not cut off returns a result exactly if it ends with it within its
budget. -/
theorem run_eq_iff (hm : m.initialized = true)
    {result : EStateM.Result Failure Machine CycleEnd}
    (hresult : ∀ m' : Machine, m'.config = m.config → result ≠ m'.exhausted) :
    run fuel m = result ↔ ∃ k ≤ m.budget fuel, Ends m.start k result := by
  constructor
  · rintro rfl
    rcases ends_or_advances (m.budget fuel) m.start with ⟨k, hk, result, hends⟩ |
      ⟨m', hadvances⟩
    · rw [run_of_ends hm hends hk]
      exact ⟨k, hk, hends⟩
    · obtain ⟨hconfig, hexhausted⟩ := run_of_advances_budget hm hadvances
      exact absurd hexhausted (hresult m' hconfig)
  · rintro ⟨k, hk, hends⟩
    exact run_of_ends hm hends hk

/-! ## The last instruction of a cycle -/

theorem step_of_execute_error {i : Instruction} {source : Failure}
    (hi : m.program.code[m.ip]? = some i)
    (hexecute : execute i m.toState = .error source m.toState) :
    step m = .error (.atInstruction m.ip (m.program.describe m.ip) source) m := by
  simp only [step, hi, onState, Action.zoom, hexecute]

theorem step_of_halt (hi : m.program.code[m.ip]? = some .halt) :
    step m = .ok .halt m := by
  simp only [step, hi, onState, Action.zoom, execute_halt]
  rfl

end Machine

open Machine

/-- A cycle stops exactly where it fails or ends.  Take a cycle of an initialised
machine.  It fails at an instruction exactly if some number of instructions within its
budget succeed without ending it and lead to a machine whose next instruction fails:
this machine is left behind, its instruction pointer is the reported one, and the report
has the failure of the instruction there and its description.  The cycle is finished
exactly if such instructions lead to a `halt`: the report counts them and the `halt`,
and none of them is a `halt`. -/
theorem cycle_stops_at_last_instruction {m : Machine} (hm : m.initialized = true)
    (fuel : Nat) :
    (∀ ip text source m',
      run fuel m = .error (.atInstruction ip text source) m' ↔
        ∃ k < m.budget fuel, Advances k m.start m' ∧ m'.ip = ip ∧
          (∃ i, m'.program.code[ip]? = some i ∧
            execute i m'.toState = .error source m'.toState) ∧
          text = m'.program.describe ip) ∧
    ∀ report m',
      run fuel m = .ok (.finished report) m' ↔
        ∃ k < m.budget fuel, Advances k m.start m' ∧
          m'.program.code[m'.ip]? = some .halt ∧
          report = ⟨k + 1, m'.stack.size⟩ ∧
          ∀ j < k, ∃ m₁ i, Advances j m.start m₁ ∧ m₁.program.code[m₁.ip]? = some i ∧
            i ≠ .halt := by
  refine ⟨?_, ?_⟩
  · intro ip text source m'
    rw [run_eq_iff hm (fun m₁ _ => m₁.exhausted_ne_atInstruction)]
    constructor
    · rintro ⟨_, hk, hends⟩
      cases hends with
      | failed hadvances hfailure =>
          obtain ⟨_, ⟨_, heq⟩ | ⟨i, _, hi, hexecute, heq⟩⟩ := step_error_cases hfailure
          · cases heq
          · cases heq
            exact ⟨_, hk, hadvances, rfl, ⟨i, hi, hexecute⟩, rfl⟩
    · rintro ⟨k, hk, hadvances, rfl, ⟨i, hi, hexecute⟩, rfl⟩
      exact ⟨k + 1, hk, .failed hadvances (step_of_execute_error hi hexecute)⟩
  · intro report m'
    rw [run_eq_iff hm (fun m₁ _ => m₁.exhausted_ne_finished)]
    constructor
    · rintro ⟨_, hk, hends⟩
      cases hends with
      | finished hadvances hhalt =>
          exact ⟨_, hk, hadvances, (step_halt_cases hhalt).2, rfl,
            fun j hj => hadvances.exists_instruction hj⟩
    · rintro ⟨k, hk, hadvances, hi, rfl, _⟩
      exact ⟨k + 1, hk, .finished hadvances (step_of_halt hi)⟩

/-- A cycle jumps over a `halt` and divides by zero at its fourth instruction: both
operands are still on the stack. -/
theorem cycle_stops_at_last_instruction_division :
    let m : Machine :=
      { program :=
          { code :=
              #[.jump .always 2, .halt, .pushConst 7, .pushConst 0, .apply .div, .halt] }
        stack := { capacity := 4 }, host := {}, config := {}, initialized := true }
    let stopped : Machine :=
      { m with stack := { capacity := 4, words := [0, 7] }, ip := 4 }
    m.initialized = true ∧
      run 10 m = .error (.atInstruction 4 "DIV" .divisionByZero) stopped ∧
      ∃ k < m.budget 10, Advances k m.start stopped ∧ stopped.ip = 4 ∧
        (∃ i, stopped.program.code[4]? = some i ∧
          execute i stopped.toState = .error .divisionByZero stopped.toState) ∧
        "DIV" = stopped.program.describe 4 := by
  intro m stopped
  have hrun : run 10 m = .error (.atInstruction 4 "DIV" .divisionByZero) stopped := rfl
  exact ⟨rfl, hrun,
    ((cycle_stops_at_last_instruction rfl 10).1 4 "DIV" _ stopped).mp hrun⟩

end CyclicStack
