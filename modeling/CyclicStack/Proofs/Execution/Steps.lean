import CyclicStack.Execution
import CyclicStack.Proofs.Outcome

/-!
# What each instruction does

This file writes the execution of every kind of instruction as one case distinction on
the state it starts from.  Whatever is proved about instructions later rests on these
equations, and none of those proofs unfolds the actions that an instruction is composed
of.
-/

namespace CyclicStack

namespace State

def withWords (s : State) (words : List Word) : State :=
  { s with stack := { s.stack with words } }

end State

open State

theorem execute_apply (op : Operator) (s : State) :
    execute (.apply op) s =
      match Stack.apply op s.stack with
      | .ok _ stack => .ok .next { s with stack }
      | .error failure stack => .error failure { s with stack } := by
  simp only [execute, Action.bind_run, onStack, Action.zoom]
  cases Stack.apply op s.stack <;> rfl

theorem execute_pushConst (value : Word) (s : State) :
    execute (.pushConst value) s =
      if s.stack.capacity ≤ s.stack.size then .error (.stackFull s.stack.capacity) s
      else .ok .next (s.withWords (value :: s.stack.words)) := by
  simp only [execute, Action.bind_run, onStack, Action.zoom, Stack.push]
  split_ifs <;> rfl

theorem execute_pushVar (id : Nat) (s : State) :
    execute (.pushVar id) s =
      match s.program.load id with
      | .error failure => .error failure s
      | .ok value =>
        if s.stack.capacity ≤ s.stack.size then .error (.stackFull s.stack.capacity) s
        else .ok .next (s.withWords (value :: s.stack.words)) := by
  simp only [execute, Action.bind_run, Action.get_run, Action.lift_run]
  cases s.program.load id with
  | error failure => rfl
  | ok value =>
      simp only [onStack, Action.zoom, Stack.push]
      split_ifs <;> rfl

theorem execute_pushSource (source : Source) (s : State) :
    execute (.pushSource source) s =
      if s.stack.capacity ≤ s.stack.size then .error (.stackFull s.stack.capacity) s
      else
        match Host.read source s.host with
        | .ok value host => .ok .next { s.withWords (value :: s.stack.words) with host }
        | .error failure host => .error failure { s with host } := by
  simp only [execute, Action.bind_run, onStack, onHost, Action.zoom, Stack.requireRoom]
  split_ifs with hfull
  · rfl
  · cases hread : Host.read source s.host with
    | error failure host => simp only [hread]
    | ok value host =>
        simp only [hread, Stack.push, if_neg hfull]
        rfl

theorem execute_popVar (id : Nat) (s : State) :
    execute (.popVar id) s =
      match s.stack.words with
      | [] => .error .stackEmpty s
      | value :: rest =>
        match Program.store id value s.program with
        | .ok _ program => .ok .next { s.withWords rest with program }
        | .error failure program => .error failure { s with program } := by
  simp only [execute, Action.bind_run, onStack, onProgram, Action.zoom, Stack.peek]
  cases hwords : s.stack.words with
  | nil => rfl
  | cons value rest =>
      cases hstore : Program.store id value s.program with
      | error failure program => simp only [hstore]
      | ok _ program =>
          simp only [hstore, Stack.pop, hwords]
          rfl

theorem execute_popSink (sink : Sink) (s : State) :
    execute (.popSink sink) s =
      match s.stack.words with
      | [] => .error .stackEmpty s
      | value :: rest =>
        match Host.write sink value s.host with
        | .ok _ host => .ok .next { s.withWords rest with host }
        | .error failure host => .error failure { s with host } := by
  simp only [execute, Action.bind_run, onStack, onHost, Action.zoom, Stack.peek]
  cases hwords : s.stack.words with
  | nil => rfl
  | cons value rest =>
      cases hwrite : Host.write sink value s.host with
      | error failure host => simp only [hwrite]
      | ok _ host =>
          simp only [hwrite, Stack.pop, hwords]
          rfl

def Condition.holds : Condition → Word → Bool
  | .always, _ => true
  | .ifZero, w => !w.isTrue
  | .ifNotZero, w => w.isTrue

theorem execute_jump_always (target : Nat) (s : State) :
    execute (.jump .always target) s = .ok (.jump target) s :=
  rfl

theorem execute_jump (condition : Condition) (hcondition : condition ≠ .always)
    (target : Nat) (s : State) :
    execute (.jump condition target) s =
      match s.stack.words with
      | [] => .error .stackEmpty s
      | value :: rest =>
        .ok (if condition.holds value then .jump target else .next)
          (s.withWords rest) := by
  cases condition with
  | always => exact absurd rfl hcondition
  | ifZero | ifNotZero =>
      simp only [execute, Action.bind_run, onStack, Action.zoom,
        Condition.test, Stack.pop]
      cases hwords : s.stack.words with
      | nil => rfl
      | cons value rest =>
          simp only [Condition.holds, Action.pure_run]
          split_ifs with hholds <;> simp only [hholds] <;> rfl

theorem execute_label (name : String) (s : State) :
    execute (.label name) s = .ok .next s :=
  rfl

theorem execute_halt (s : State) :
    execute .halt s = .ok .halt s :=
  rfl

end CyclicStack
