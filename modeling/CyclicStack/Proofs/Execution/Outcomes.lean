import CyclicStack.Proofs.Execution.Steps
import CyclicStack.Proofs.Memory.Layout
import CyclicStack.Proofs.Stack.Operators

/-!
# Outcomes of an instruction

What an instruction can do to the program and where it can lead when it succeeds, and
what it can fail with.  A failing instruction changes nothing.  The order of its parts
matters here: a source is asked after room on the stack has been made sure of, and a
word is popped after it has been stored or written, so that the last part of an
instruction cannot fail.
-/

namespace CyclicStack

/-- A failure that a program can meet while it runs: the stack, a divisor, a cell, the
host or the step limit is to blame. -/
def Failure.Expected : Failure → Prop
  | .stackFull _ | .stackEmpty | .tooFewOperands _ _
  | .divisionByZero | .cellOutOfRange _ _
  | .output _ | .clock _ | .stepLimitExceeded _ => True
  | _ => False

/-- The root of an expected failure is the failure itself. -/
theorem Failure.Expected.root {failure : Failure} (h : failure.Expected) :
    failure.root.Expected := by
  cases failure <;> first | exact h | exact h.elim

/-- The variable that an instruction names, if any, is one of `vars`, and a jump leads
to one of the first `size` positions. -/
def Instruction.Within (vars size : Nat) : Instruction → Prop
  | .pushVar id | .popVar id => id < vars
  | .jump _ target => target < size
  | _ => True

/-! ## Success -/

/-- What a successful instruction does to the program, and where it leads. -/
theorem execute_ok_cases {i : Instruction} {s s' : State} {flow : Flow}
    (h : execute i s = .ok flow s') :
    (s'.program = s.program ∨
      ∃ id value, i = .popVar id ∧ Program.store id value s.program =
        .ok () s'.program) ∧
    ((flow = .next ∧ i ≠ .halt) ∨ (∃ condition target, i = .jump condition target ∧
      flow = .jump target) ∨ (i = .halt ∧ flow = .halt)) := by
  cases i with
  | apply op =>
      rw [execute_apply] at h
      split at h
      · cases h
        exact ⟨.inl rfl, .inl ⟨rfl, by simp⟩⟩
      · cases h
  | pushConst value =>
      rw [execute_pushConst] at h
      split_ifs at h
      cases h
      exact ⟨.inl rfl, .inl ⟨rfl, by simp⟩⟩
  | pushVar id =>
      rw [execute_pushVar] at h
      split at h
      · cases h
      · split_ifs at h
        cases h
        exact ⟨.inl rfl, .inl ⟨rfl, by simp⟩⟩
  | pushSource source =>
      rw [execute_pushSource] at h
      split_ifs at h
      split at h
      · cases h
        exact ⟨.inl rfl, .inl ⟨rfl, by simp⟩⟩
      · cases h
  | popVar id =>
      rw [execute_popVar] at h
      split at h
      · cases h
      · next value rest _ =>
        split at h
        · next _ program hstore =>
          cases h
          exact ⟨.inr ⟨id, value, rfl, hstore⟩, .inl ⟨rfl, by simp⟩⟩
        · cases h
  | popSink sink =>
      rw [execute_popSink] at h
      split at h
      · cases h
      · split at h
        · cases h
          exact ⟨.inl rfl, .inl ⟨rfl, by simp⟩⟩
        · cases h
  | jump condition target =>
      by_cases hcondition : condition = .always
      · rw [hcondition, execute_jump_always] at h
        cases h
        exact ⟨.inl rfl, .inr (.inl ⟨condition, target, rfl, rfl⟩)⟩
      · rw [execute_jump condition hcondition] at h
        split at h
        · cases h
        · split_ifs at h
          · cases h
            exact ⟨.inl rfl, .inr (.inl ⟨condition, target, rfl, rfl⟩)⟩
          · cases h
            exact ⟨.inl rfl, .inl ⟨rfl, by simp⟩⟩
  | label name =>
      rw [execute_label] at h
      cases h
      exact ⟨.inl rfl, .inl ⟨rfl, by simp⟩⟩
  | halt =>
      rw [execute_halt] at h
      cases h
      exact ⟨.inl rfl, .inr (.inr ⟨rfl, rfl⟩)⟩

theorem execute_keeps {i : Instruction} {s s' : State} {flow : Flow}
    (h : execute i s = .ok flow s') :
    s'.program.layout = s.program.layout ∧ s'.program.code = s.program.code := by
  rcases (execute_ok_cases h).1 with hsame | ⟨id, value, _, hstore⟩
  · rw [hsame]
    exact ⟨rfl, rfl⟩
  · exact Program.store_keeps hstore

/-! ## Failure -/

theorem Stack.apply_error {op : Operator} {s s' : Stack} {failure : Failure}
    (h : apply op s = .error failure s') :
    s' = s ∧ failure.Expected := by
  obtain ⟨rfl, ⟨-, rfl⟩ | ⟨-, -, -, rfl⟩ | ⟨-, -, -, rfl⟩⟩ := apply_eq_error_iff.mp h
  all_goals exact ⟨rfl, trivial⟩

/-- Only the clocks can fail, and a failing clock counts as not read. -/
theorem Host.read_error {source : Source} {host host' : Host} {failure : Failure}
    (h : read source host = .error failure host') :
    host' = host ∧ failure.Expected := by
  have hclock : ∀ c, readClock c host = .error failure host' →
      host' = host ∧ failure.Expected := by
    intro c hread
    unfold readClock at hread
    split at hread
    · cases hread
    · cases hread
      exact ⟨rfl, trivial⟩
  cases source with
  | stime | mtime | ctime | ttime => exact hclock _ h
  | pid | ppid | uid | euid | rand | randf | randd => cases h

theorem Host.write_error {sink : Sink} {w : Word} {host host' : Host}
    {failure : Failure} (h : write sink w host = .error failure host') :
    host' = host ∧ failure.Expected := by
  have hline : ∀ line, writeLine line host = .error failure host' →
      host' = host ∧ failure.Expected := by
    intro line hwrite
    unfold writeLine at hwrite
    split at hwrite
    · cases hwrite
      exact ⟨rfl, trivial⟩
    · cases hwrite
  cases sink with
  | null => cases h
  | stdout | stdouts | stdoutf | stdoutd => exact hline _ h

/-- A failing instruction changes nothing.  The stack, a divisor or the host is to
blame, or the access to the variable that the instruction names. -/
theorem execute_error_cases {i : Instruction} {s s' : State} {failure : Failure}
    (h : execute i s = .error failure s') :
    s' = s ∧
      (failure.Expected ∨
        (∃ id, i = .pushVar id ∧ s.program.load id = .error failure) ∨
        ∃ id value, i = .popVar id ∧
          Program.store id value s.program = .error failure s.program) := by
  cases i with
  | apply op =>
      rw [execute_apply] at h
      split at h
      · cases h
      · next _ _ stack happly =>
        cases h
        obtain ⟨rfl, hexpected⟩ := Stack.apply_error happly
        exact ⟨rfl, .inl hexpected⟩
  | pushConst value =>
      rw [execute_pushConst] at h
      split_ifs at h
      cases h
      exact ⟨rfl, .inl trivial⟩
  | pushVar id =>
      rw [execute_pushVar] at h
      split at h
      · next _ _ hload =>
        cases h
        exact ⟨rfl, .inr (.inl ⟨id, rfl, hload⟩)⟩
      · split_ifs at h
        cases h
        exact ⟨rfl, .inl trivial⟩
  | pushSource source =>
      rw [execute_pushSource] at h
      split_ifs at h
      · cases h
        exact ⟨rfl, .inl trivial⟩
      · split at h
        · cases h
        · next _ _ host hread =>
          cases h
          obtain ⟨rfl, hexpected⟩ := Host.read_error hread
          exact ⟨rfl, .inl hexpected⟩
  | popVar id =>
      rw [execute_popVar] at h
      split at h
      · cases h
        exact ⟨rfl, .inl trivial⟩
      · next value _ _ =>
        split at h
        · cases h
        · next _ _ program hstore =>
          cases h
          have hsame := Program.store_atomic id value _ _ _ hstore
          subst hsame
          exact ⟨rfl, .inr (.inr ⟨id, value, rfl, hstore⟩)⟩
  | popSink sink =>
      rw [execute_popSink] at h
      split at h
      · cases h
        exact ⟨rfl, .inl trivial⟩
      · split at h
        · cases h
        · next _ _ host hwrite =>
          cases h
          obtain ⟨rfl, hexpected⟩ := Host.write_error hwrite
          exact ⟨rfl, .inl hexpected⟩
  | jump condition target =>
      by_cases hcondition : condition = .always
      · rw [hcondition, execute_jump_always] at h
        cases h
      · rw [execute_jump condition hcondition] at h
        split at h
        · cases h
          exact ⟨rfl, .inl trivial⟩
        · cases h
  | label name =>
      rw [execute_label] at h
      cases h
  | halt =>
      rw [execute_halt] at h
      cases h

/-- An instruction whose variable is one of the program's fails in an expected way. -/
theorem execute_error_expected {i : Instruction} {s s' : State} {failure : Failure}
    {size : Nat} (hs : s.program.Served) (hi : i.Within s.program.vars.size size)
    (h : execute i s = .error failure s') :
    failure.Expected := by
  rcases (execute_error_cases h).2 with hexpected | ⟨id, rfl, hload⟩ |
    ⟨id, value, rfl, hstore⟩
  · exact hexpected
  · obtain ⟨cell, cells, rfl⟩ := hs.load_error hi hload
    trivial
  · obtain ⟨cell, cells, rfl⟩ := hs.store_error hi hstore
    trivial

/-! ## Failing instructions -/

/-- A failing instruction leaves program, stack and host as they were: the words and the
capacity of the stack, every region and segment, the variable table, the random source
and the lines written.  So a word that could not be stored or written is still on the
stack.  A source that finds the stack full is one of these failures and draws
nothing. -/
theorem execute_failure_changes_nothing :
    (∀ i s failure s', execute i s = .error failure s' → s' = s) ∧
    ∀ source s, s.stack.capacity ≤ s.stack.size →
      execute (.pushSource source) s = .error (.stackFull s.stack.capacity) s := by
  refine ⟨fun i s failure s' h => (execute_error_cases h).1, ?_⟩
  intro source s hfull
  rw [execute_pushSource, if_pos hfull]

/-- A word is popped into a variable whose cell is out of range, and a random word is
drawn on a full stack. -/
theorem execute_failure_changes_nothing_at_pop :
    let program : Program :=
      { memory := { regions := #[⟨"m", .owned { cells := 2 }⟩] }
        vars := #[{ name := "bad", region := 0, encoding := .byte, cell := 5 }] }
    let s : State := ⟨program, { capacity := 2, words := [9, 8] }, {}⟩
    (∃ s', execute (.popVar 0) s = .error (.cellOutOfRange 5 2) s' ∧ s' = s) ∧
      execute (.pushSource .rand) s = .error (.stackFull 2) s :=
  ⟨⟨_, rfl, execute_failure_changes_nothing.1 (.popVar 0) _
    (.cellOutOfRange 5 2) _ rfl⟩,
    execute_failure_changes_nothing.2 _ _ (by decide)⟩

end CyclicStack
