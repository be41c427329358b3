import CyclicStack.Proofs.Machine.Run

/-!
# Histories of a machine

Between its cycles a machine is initialised, others write into its segments and
variables, variables are moved to other cells and instructions are appended.  A history
is a list of such events, each of which may fail, and the next one happens to the
machine that is left behind.
-/

namespace CyclicStack

namespace Machine

/-! ## Initial values -/

theorem storeInit_eq (id : Nat) (value : Word) (m : Machine) :
    storeInit id value m =
      match Program.store id value m.program with
      | .ok _ program => .ok () { m with program }
      | .error failure _ => .error (.atInit (m.program.variableName id) failure) m := by
  unfold storeInit Action.report onState State.onProgram Action.zoom
  dsimp only
  cases hstore : Program.store id value m.program with
  | ok _ program => rfl
  | error failure program =>
      have hsame := Program.store_atomic id value _ _ _ hstore
      subst hsame
      rfl

/-- Initial values are stored one after the other, up to the first that cannot be
stored. -/
theorem storeInits_cases (inits : List (Nat × Word)) (m : Machine) :
    (∃ m', storeInits inits m = .ok () m') ∨
    ∃ done id value rest m' failure p, inits = done ++ (id, value) :: rest ∧
      storeInits done m = .ok () m' ∧ Program.store id value m'.program =
        .error failure p ∧
      storeInits inits m =
        .error (.atInit (m'.program.variableName id) failure) m' := by
  induction inits generalizing m with
  | nil => exact .inl ⟨m, rfl⟩
  | cons first rest ih =>
      obtain ⟨id, value⟩ := first
      cases hstore : Program.store id value m.program with
      | error failure p =>
          refine .inr ⟨[], id, value, rest, m, failure, p, rfl, rfl, hstore, ?_⟩
          simp only [storeInits, storeInit_eq, hstore]
      | ok _ program =>
          have hnext : ∀ others, storeInits ((id, value) :: others) m =
              storeInits others
                { m with program, initsStored := m.initsStored + 1 } := by
            intro others
            simp only [storeInits, storeInit_eq, hstore]
          simp only [hnext]
          rcases ih { m with program, initsStored := m.initsStored + 1 } with hok |
            ⟨done, id', value', rest', m', failure, p, rfl, hdone, hfailure, herror⟩
          · exact .inl hok
          · exact .inr ⟨(id, value) :: done, id', value', rest', m', failure, p, rfl,
              by rw [hnext, hdone], hfailure, herror⟩

/-- What each store of an initial value keeps, initialisation keeps. -/
theorem program_of_storeInits {P : Program → Prop}
    (hstore : ∀ id value p p', P p → Program.store id value p = .ok () p' → P p')
    {inits : List (Nat × Word)} {m m' : Machine} (h : storeInits inits m = .ok () m')
    (hm : P m.program) :
    P m'.program := by
  induction inits generalizing m with
  | nil =>
      cases h
      exact hm
  | cons first rest ih =>
      obtain ⟨id, value⟩ := first
      simp only [storeInits, storeInit_eq] at h
      cases hfirst : Program.store id value m.program with
      | error failure p =>
          rw [hfirst] at h
          cases h
      | ok _ program =>
          rw [hfirst] at h
          exact ih h (hstore id value _ _ hm hfirst)

theorem init_cases (m : Machine) :
    (m.initialized = true ∧ init m = .ok () m) ∨
    (m.initialized = false ∧ ∃ m',
      storeInits (m.program.inits.drop m.initsStored) m = .ok () m' ∧
        init m = .ok () { m' with initialized := true }) ∨
    (m.initialized = false ∧ ∃ failure m',
      storeInits (m.program.inits.drop m.initsStored) m = .error failure m' ∧
        init m = .error failure m') := by
  unfold init
  split_ifs with hinitialized
  · exact .inl ⟨hinitialized, rfl⟩
  · rw [Bool.not_eq_true] at hinitialized
    split
    · next _ m' hok => exact .inr (.inl ⟨hinitialized, m', hok, rfl⟩)
    · next failure m' herror =>
        exact .inr (.inr ⟨hinitialized, failure, m', herror, rfl⟩)

/-! ## Events -/

/-- Something that happens to a machine. -/
inductive Event where
  | init
  | run (fuel : Nat)
  | store (id : Nat) (value : Word)
  | poke (segment offset : Nat) (patch : Bytes)
  | move (id cell : Nat)
  | append (instruction : Instruction)

namespace Event

def change (f : Program → Program) : Action Machine Unit := fun m =>
  .ok () { m with program := f m.program }

/-- What an event does. -/
def perform : Event → Action Machine Unit
  | .init => Machine.init
  | .run fuel => do
    let _ ← Machine.run fuel
  | .store id value => onState (State.onProgram (Program.store id value))
  | .poke segment offset patch =>
    change fun p => { p with memory := p.memory.poke segment offset patch }
  | .move id cell => change fun p => p.moveVariable id cell
  | .append i => change fun p => p.append i

/-- A value that is stored from outside goes to one of the first `vars` variables. -/
def Declared (vars : Nat) : Event → Prop
  | .store id _ => id < vars
  | _ => True

end Event

/-- The machine that an event leaves behind, whether it succeeds or fails. -/
def after (m : Machine) (event : Event) : Machine :=
  match event.perform m with
  | .ok _ m' => m'
  | .error _ m' => m'

/-- The machines that occur while something happens to `m`: with some of the initial
values stored, and with some instructions of a cycle executed. -/
inductive Occurs (m : Machine) : Machine → Prop
  | initializing {k : Nat} {m' : Machine}
      (h : storeInits ((m.program.inits.drop m.initsStored).take k) m = .ok () m') :
      Occurs m m'
  | running {k : Nat} {m₁ m' : Machine} (hinit : init m = .ok () m₁)
      (h : Advances k { m₁ with ip := 0 } m') : Occurs m m'

end Machine

end CyclicStack
