import CyclicStack.Machine
import CyclicStack.Proofs.Execution.Outcomes

/-!
# Runs of a machine

A cycle is a number of instructions that succeed without ending it, followed by what
ends it: a `halt`, an instruction that fails, the step limit, or the end of the fuel.
The machine that a cycle leaves behind is the one after those instructions, since
neither a `halt` nor a failing instruction changes anything.
-/

namespace CyclicStack

namespace Machine

/-! ## One instruction -/

theorem step_ok_cases {m m' : Machine} {flow : Flow} (h : step m = .ok flow m') :
    ∃ i s, m.program.code[m.ip]? = some i ∧ execute i m.toState = .ok flow s ∧
      m' = { m with toState := s }.follow flow := by
  unfold step onState Action.zoom at h
  dsimp only at h
  split at h
  · cases h
  · next i hi =>
    cases hexecute : execute i m.toState with
    | error failure s =>
        rw [hexecute] at h
        cases h
    | ok flow' s =>
        rw [hexecute] at h
        cases h
        exact ⟨i, s, hi, hexecute, rfl⟩

/-- A failing instruction is reported with its position and its text, and changes
nothing. -/
theorem step_error_cases {m m' : Machine} {failure : Failure}
    (h : step m = .error failure m') :
    m' = m ∧
      ((m.program.code[m.ip]? = none ∧ failure = .outsideProgram m.ip) ∨
        ∃ i source, m.program.code[m.ip]? = some i ∧
          execute i m.toState = .error source m.toState ∧
          failure = .atInstruction m.ip (m.program.describe m.ip) source) := by
  unfold step onState Action.zoom at h
  dsimp only at h
  split at h
  · next hnone =>
    cases h
    exact ⟨rfl, .inl ⟨hnone, rfl⟩⟩
  · next i hi =>
    cases hexecute : execute i m.toState with
    | ok flow s =>
        rw [hexecute] at h
        cases h
    | error source s =>
        rw [hexecute] at h
        cases h
        have hsame := (execute_error_cases hexecute).1
        subst hsame
        exact ⟨rfl, .inr ⟨i, source, hi, hexecute, rfl⟩⟩

/-- Only a `halt` ends a cycle, and it changes nothing. -/
theorem step_halt_cases {m m' : Machine} (h : step m = .ok .halt m') :
    m' = m ∧ m.program.code[m.ip]? = some .halt := by
  obtain ⟨i, s, hi, hexecute, rfl⟩ := step_ok_cases h
  rcases (execute_ok_cases hexecute).2 with ⟨hflow, _⟩ | ⟨_, _, _, hflow⟩ | ⟨rfl, _⟩
  · cases hflow
  · cases hflow
  · cases hexecute
    exact ⟨rfl, hi⟩

theorem config_of_step {m m' : Machine} {flow : Flow} (h : step m = .ok flow m') :
    m'.config = m.config := by
  obtain ⟨_, _, _, _, rfl⟩ := step_ok_cases h
  cases flow <;> rfl

/-! ## Many instructions -/

/-- `Advances k m m'` says that `k` instructions lead from `m` to `m'`, none of which
ends the cycle. -/
inductive Advances : Nat → Machine → Machine → Prop
  | refl (m : Machine) : Advances 0 m m
  | step {k : Nat} {m m₁ m' : Machine} {flow : Flow} (h : step m = .ok flow m₁)
      (hflow : flow ≠ .halt) (hrest : Advances k m₁ m') : Advances (k + 1) m m'

/-- What each instruction keeps, a run keeps. -/
theorem Advances.invariant {P : Machine → Prop}
    (hstep : ∀ m m' flow, P m → Machine.step m = .ok flow m' → flow ≠ .halt → P m')
    {k : Nat} {m m' : Machine} (h : Advances k m m') (hm : P m) :
    P m' := by
  induction h with
  | refl => exact hm
  | step h hflow _ ih => exact ih (hstep _ _ _ hm h hflow)

section

variable {steps fuel : Nat} {m m₁ : Machine}

theorem turn_of_limit {limit : Nat} (h : m.reachedLimit? steps = some limit) :
    m.turn steps = .over (.error (.stepLimitExceeded limit) m) := by
  rw [turn, h]

theorem turn_of_error {failure : Failure} (hlimit : m.reachedLimit? steps = none)
    (hstep : step m = .error failure m₁) :
    m.turn steps = .over (.error failure m₁) := by
  rw [turn, hlimit, hstep]

theorem turn_of_halt (hlimit : m.reachedLimit? steps = none)
    (hstep : step m = .ok .halt m₁) :
    m.turn steps = .over (.ok (.finished ⟨steps + 1, m₁.stack.size⟩) m₁) := by
  rw [turn, hlimit, hstep]

theorem turn_of_step {flow : Flow} (hlimit : m.reachedLimit? steps = none)
    (hstep : step m = .ok flow m₁) (hflow : flow ≠ .halt) :
    m.turn steps = .next m₁ := by
  rw [turn, hlimit, hstep]
  cases flow with
  | halt => exact absurd rfl hflow
  | next | jump target => rfl

theorem runFrom_over {result : EStateM.Result Failure Machine CycleEnd}
    (h : m.turn steps = .over result) :
    runFrom steps (fuel + 1) m = result := by
  rw [runFrom, h]

theorem runFrom_next (h : m.turn steps = .next m₁) :
    runFrom steps (fuel + 1) m = runFrom (steps + 1) fuel m₁ := by
  rw [runFrom, h]

end

/-- How a cycle ends, after how many instructions, and with which machine. -/
theorem runFrom_cases (steps fuel : Nat) (m : Machine) :
    ∃ k m', Advances k m m' ∧ k ≤ fuel ∧ (∀ j < k, m.reachedLimit? (steps + j) = none) ∧
      ((k = fuel ∧ runFrom steps fuel m = .ok .outOfFuel m') ∨
        (∃ limit, m.reachedLimit? (steps + k) = some limit ∧
          runFrom steps fuel m = .error (.stepLimitExceeded limit) m') ∨
        (∃ failure, step m' = .error failure m' ∧
          runFrom steps fuel m = .error failure m') ∨
        (step m' = .ok .halt m' ∧
          runFrom steps fuel m = .ok (.finished ⟨steps + k + 1,
            m'.stack.size⟩) m')) := by
  induction fuel generalizing steps m with
  | zero => exact ⟨0, m, .refl m, le_rfl, by simp, .inl ⟨rfl, rfl⟩⟩
  | succ fuel ih =>
      cases hlimit : m.reachedLimit? steps with
      | some limit =>
          refine ⟨0, m, .refl m, Nat.zero_le _, by simp,
            .inr (.inl ⟨limit, hlimit, ?_⟩)⟩
          exact runFrom_over (turn_of_limit hlimit)
      | none =>
          cases hstep : step m with
          | error failure m₁ =>
              obtain ⟨rfl, _⟩ := step_error_cases hstep
              refine ⟨0, m₁, .refl m₁, Nat.zero_le _, by simp,
                .inr (.inr (.inl ⟨failure, hstep, ?_⟩))⟩
              exact runFrom_over (turn_of_error hlimit hstep)
          | ok flow m₁ =>
              by_cases hflow : flow = .halt
              · subst hflow
                obtain ⟨rfl, _⟩ := step_halt_cases hstep
                refine ⟨0, m₁, .refl m₁,
                  Nat.zero_le _, by simp, .inr (.inr (.inr ⟨hstep, ?_⟩))⟩
                exact runFrom_over (turn_of_halt hlimit hstep)
              · obtain ⟨k, m', hadvances, hk, hbelow, hend⟩ := ih (steps + 1) m₁
                have hsame : ∀ n, m₁.reachedLimit? n = m.reachedLimit? n := by
                  intro n
                  rw [reachedLimit?, config_of_step hstep, reachedLimit?]
                have hadd : ∀ n, steps + 1 + n = steps + (n + 1) := by
                  intro n
                  omega
                simp only [hsame, hadd] at hbelow hend
                rw [← runFrom_next (turn_of_step hlimit hstep hflow)] at hend
                refine ⟨k + 1, m', .step hstep hflow hadvances,
                  Nat.succ_le_succ hk, ?_, ?_⟩
                · intro j hj
                  cases j with
                  | zero => exact hlimit
                  | succ j => exact hbelow j (Nat.lt_of_succ_lt_succ hj)
                · simpa using hend

end Machine

end CyclicStack
