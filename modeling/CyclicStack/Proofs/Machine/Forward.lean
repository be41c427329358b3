import CyclicStack.Proofs.Machine.Limit
import CyclicStack.Proofs.Machine.Safety

/-!
# Programs without a way back

If every jump of a program leads further down, then so does every instruction that does
not end the cycle, for an instruction that does not jump leads to the next one.  The
instruction pointer grows with each instruction and never leaves the loaded code, whose
last instruction is a `halt`.  So a cycle executes no position twice and is over after
as many instructions as there are, whatever memory, stack and host hold.
-/

namespace CyclicStack

/-- Every jump leads to a position behind its own. -/
def LeadsForward (code : Array Instruction) : Prop :=
  ∀ p, ∀ hp : p < code.size, ∀ target ∈ code[p].target?, p < target

instance (code : Array Instruction) : Decidable (LeadsForward code) :=
  inferInstanceAs
    (Decidable (∀ p, ∀ hp : p < code.size, ∀ target ∈ code[p].target?, p < target))

namespace Machine

open Program

variable {program : Program} {m m' : Machine}

/-! ## The instruction pointer -/

theorem Inside.ip_lt_of_step (hforward : LeadsForward program.code)
    (h : Inside program m) {flow : Flow} (hstep : Machine.step m = .ok flow m')
    (hflow : flow ≠ .halt) :
    m.ip < m'.ip := by
  obtain ⟨i, s, hi, hexecute, rfl⟩ := step_ok_cases hstep
  rcases (execute_ok_cases hexecute).2 with ⟨rfl, _⟩ |
    ⟨condition, target, rfl, rfl⟩ | ⟨_, hhalt⟩
  · exact Nat.lt_succ_self m.ip
  · rw [h.getElem?_code, Array.getElem?_eq_getElem h.ip_lt, Option.some_inj] at hi
    exact hforward m.ip h.ip_lt target (by rw [hi]; rfl)
  · exact absurd hhalt hflow

/-- Each of the instructions of a run moves the instruction pointer on. -/
theorem Inside.ip_add_le (hp : program.WellFormed)
    (hforward : LeadsForward program.code) (h : Inside program m) {k : Nat}
    (hadvances : Advances k m m') :
    m.ip + k ≤ m'.ip := by
  induction hadvances with
  | refl => exact le_rfl
  | step hstep hflow _ ih =>
      have hfirst := h.ip_lt_of_step hforward hstep hflow
      have hrest := ih (h.step hp hstep hflow)
      omega

theorem Advances.unique {k : Nat} {m₁ m₂ : Machine} (h₁ : Advances k m m₁)
    (h₂ : Advances k m m₂) :
    m₁ = m₂ := by
  induction h₁ with
  | refl =>
      cases h₂
      rfl
  | step hstep _ _ ih =>
      cases h₂ with
      | step hstep' _ hrest' =>
          obtain ⟨-, rfl⟩ := EStateM.Result.ok.inj (hstep.symm.trans hstep')
          exact ih hrest'

/-! ## The end of a cycle -/

/-- What ends a cycle inside the code is a `halt` or an instruction that fails. -/
theorem Inside.ends_cases (hp : program.WellFormed) (h : Inside program m) {k : Nat}
    {result : EStateM.Result Failure Machine CycleEnd} (hends : Ends m k result) :
    (∃ m', result = .ok (.finished ⟨k, m'.stack.size⟩) m') ∨
      ∃ ip text source m', result = .error (.atInstruction ip text source) m' := by
  cases hends with
  | finished => exact .inl ⟨_, rfl⟩
  | failed hadvances hfailure =>
      have hinside := h.advances hp hadvances
      obtain ⟨_, ⟨hnone, _⟩ | ⟨_, _, _, _, rfl⟩⟩ := step_error_cases hfailure
      · rw [hinside.getElem?_code, Array.getElem?_eq_getElem hinside.ip_lt] at hnone
        simp at hnone
      · exact .inr ⟨_, _, _, _, rfl⟩

theorem Inside.exists_ends (hp : program.WellFormed)
    (hforward : LeadsForward program.code) (h : Inside program m) :
    ∃ k ≤ program.code.size, ∃ result, Ends m k result := by
  rcases ends_or_advances program.code.size m with hends | ⟨m', hadvances⟩
  · exact hends
  · have hle := h.ip_add_le hp hforward hadvances
    have hlt := (h.advances hp hadvances).ip_lt
    omega

end Machine

open Machine Program

/-- Programs whose jumps all lead forward always end.  Take a loaded program of this
kind and an initialised machine for it, with any contents of memory, stack and host.  In
a cycle the positions of the executed instructions increase strictly, so that none is
executed twice.  The cycle ends with a `halt` or with an instruction that fails, after
at most as many instructions as the program has: without a step limit it returns just
this, and a limit that is not below the number of instructions never cuts it off. -/
theorem forward_jumps_end {segments : Load.Segments} {text : String} {program : Program}
    {m : Machine} (hload : load segments text = .ok program)
    (hforward : LeadsForward program.code) (hm : m.initialized = true)
    (hprogram : Continues program m.program) :
    (∀ j k m₁ m₂, j < k → Advances j m.start m₁ → Advances k m.start m₂ →
      m₁.ip < m₂.ip) ∧
    (∃ k ≤ program.code.size, ∃ result, Ends m.start k result ∧
      ((∃ m', result = .ok (.finished ⟨k, m'.stack.size⟩) m') ∨
        ∃ ip text source m', result = .error (.atInstruction ip text source) m') ∧
      (m.config.maxSteps = none → ∀ fuel ≥ program.code.size, run fuel m = result)) ∧
    ∀ limit ≥ program.code.size, m.config.maxSteps = some limit →
      ∀ fuel n m', run fuel m ≠ .error (.stepLimitExceeded n) m' := by
  have hp := wellFormed_of_load hload
  have hstart : Inside program m.start := inside_start hp hprogram
  obtain ⟨k, hk, result, hends⟩ := hstart.exists_ends hp hforward
  refine ⟨?_, ⟨k, hk, result, hends, hstart.ends_cases hp hends, ?_⟩, ?_⟩
  · intro j k m₁ m₂ hjk hj hk
    obtain ⟨n, rfl⟩ := Nat.exists_eq_add_of_lt hjk
    obtain ⟨m₁', hj', hrest⟩ := Advances.split (j := j) (k := n + 1) hk
    obtain rfl := hj.unique hj'
    have hle := (hstart.advances hp hj).ip_add_le hp hforward hrest
    omega
  · intro hlimit fuel hfuel
    refine run_of_ends hm hends ?_
    rw [budget, hlimit]
    exact hk.trans hfuel
  · intro limit hlimit hmax fuel n m'
    have hbudget : k ≤ m.budget fuel := by
      rw [budget, hmax]
      exact hk.trans hlimit
    rw [run_of_ends hm hends hbudget]
    exact hends.ne_stepLimitExceeded n m'

/-- A jump over two of seven instructions, under a limit of seven. -/
theorem forward_jumps_end_skipping :
    let text := "__PROGRAM\nPUSH PID\nJZ end\nPUSH RAND\nPOP STDOUT\n$end\nADD\n"
    let program : Program :=
      { code :=
          #[.pushSource .pid, .jump .ifZero 4, .pushSource .rand, .popSink .stdout,
            .label "end", .apply .add, .halt]
        labels := [("end", 4)] }
    let m : Machine :=
      { program, stack := { capacity := 4, words := [3, 4] }, host := {}
        config := { maxSteps := some 7 }, initialized := true }
    load .none text = .ok program ∧ LeadsForward program.code ∧
      Continues program m.program ∧
      (∃ m', run 0 m = .ok (.finished ⟨5, 1⟩) m') ∧
        (∃ k ≤ 7, ∃ result, Ends m.start k result) ∧
      (∀ m₁ m₂, Advances 1 m.start m₁ → Advances 3 m.start m₂ → m₁.ip < m₂.ip) ∧
      ∀ fuel n m', run fuel m ≠ .error (.stepLimitExceeded n) m' := by
  intro text program m
  have hload : load .none text = .ok program := by decide +kernel
  have hforward : LeadsForward program.code := by decide
  obtain ⟨horder, ⟨k, hk, result, hends, _⟩, hlimit⟩ :=
    forward_jumps_end (m := m) hload hforward rfl (.refl program)
  exact ⟨hload, hforward, .refl program, ⟨_, rfl⟩, ⟨k, hk, result, hends⟩,
    fun m₁ m₂ => horder 1 3 m₁ m₂ (by decide), hlimit 7 le_rfl rfl⟩

end CyclicStack
