import CyclicStack.Proofs.Execution.Locality
import CyclicStack.Proofs.Machine.Initialization

/-!
# Depths of the stack that are known in advance

A program text can be given a depth for each position, such that every instruction finds
its operands and, if the stack grows, room, and leads to positions of the depth that it
leaves.  This file shows that such an assignment is right: the stack has the assigned
depth whenever a position is reached, so no instruction fails for the stack.  The stack
is never cleared, so this holds of the next cycle as well if each `halt` has the depth
of the first position.

One instruction keeps the assignment, because its effect on the depth is known in
advance.  Nothing is asked of positions that no cycle reaches.
-/

namespace CyclicStack

/-- The positions that the instruction at position `p` can lead to. -/
def Instruction.successors (p : Nat) : Instruction → List Nat
  | .jump .always target => [target]
  | .jump .ifZero target | .jump .ifNotZero target => [p + 1, target]
  | .halt => []
  | _ => [p + 1]

/-- The positions that a cycle can reach. -/
inductive Reachable (code : Array Instruction) : Nat → Prop
  | first : Reachable code 0
  | next {p q : Nat} {i : Instruction} (h : Reachable code p) (hi : code[p]? = some i)
      (hq : q ∈ i.successors p) : Reachable code q

/-- An assignment of depths that suits a code on a stack of the given capacity. -/
structure Balanced (code : Array Instruction) (capacity : Nat)
    (depth : Nat → Nat) : Prop where
  operands : ∀ p i, Reachable code p → code[p]? = some i → i.operands ≤ depth p
  room : ∀ p i, Reachable code p → code[p]? = some i → i.grows → depth p < capacity
  successor : ∀ p i q, Reachable code p → code[p]? = some i → q ∈ i.successors p →
    (depth q : Int) = depth p + i.effect

/-- It is enough that an assignment suits every position, reachable or not. -/
theorem balanced_of_forall {code : Array Instruction} {capacity : Nat}
    {depth : Nat → Nat}
    (h : ∀ p (hp : p < code.size), code[p].operands ≤ depth p ∧
      (code[p].grows → depth p < capacity) ∧
      ∀ q ∈ code[p].successors p, (depth q : Int) = depth p + code[p].effect) :
    Balanced code capacity depth := by
  have hall : ∀ p i, code[p]? = some i → i.operands ≤ depth p ∧
      (i.grows → depth p < capacity) ∧
        ∀ q ∈ i.successors p, (depth q : Int) = depth p + i.effect := by
    intro p i hi
    obtain ⟨hp, rfl⟩ := Array.getElem?_eq_some_iff.mp hi
    exact h p hp
  exact ⟨fun p i _ hi => (hall p i hi).1, fun p i _ hi => (hall p i hi).2.1,
    fun p i q _ hi hq => (hall p i hi).2.2 q hq⟩

namespace Machine

variable {code : Array Instruction} {capacity : Nat} {depth : Nat →
  Nat} {m m' : Machine}

/-! ## One instruction -/

/-- An instruction that does not end the cycle leads to one of its successors. -/
theorem follow_successor {i : Instruction} {s s' : State} {flow : Flow}
    (h : execute i s = .ok flow s') (hflow : flow ≠ .halt) (m : Machine) :
    ∃ q ∈ i.successors m.ip, m.follow flow = { m with ip := q } := by
  rcases (execute_ok_cases h).2 with ⟨rfl, hne⟩ |
    ⟨condition, target, rfl, rfl⟩ | ⟨_, hhalt⟩
  · refine ⟨m.ip + 1, ?_, rfl⟩
    by_cases hjump : ∃ target, i = .jump .always target
    · obtain ⟨target, rfl⟩ := hjump
      rw [execute_jump_always] at h
      cases h
    · rcases i with _ | _ | _ | _ | _ | _ | ⟨_ | _ | _, target⟩ | _ | _ <;>
        simp_all [Instruction.successors]
  · refine ⟨target, ?_, rfl⟩
    rcases condition with _ | _ | _ <;> simp [Instruction.successors]
  · exact absurd hhalt hflow

/-- The machine is at a position that its code can reach, with a stack of the depth
assigned to it. -/
structure AtDepth (code : Array Instruction) (capacity : Nat) (depth : Nat → Nat)
    (m : Machine) :
    Prop where
  code_eq : m.program.code = code
  capacity_eq : m.stack.capacity = capacity
  reachable : Reachable code m.ip
  size_eq : m.stack.size = depth m.ip

theorem AtDepth.step (hcode : Balanced code capacity depth)
    (h : AtDepth code capacity depth m) {flow : Flow}
    (hstep : Machine.step m = .ok flow m') (hflow : flow ≠ .halt) :
    AtDepth code capacity depth m' := by
  obtain ⟨i, s, hi, hexecute, rfl⟩ := step_ok_cases hstep
  rw [h.code_eq] at hi
  obtain ⟨q, hq, hfollow⟩ := follow_successor hexecute hflow { m with toState := s }
  obtain ⟨taken, given, htaken, hgiven, hreplaces, _⟩ := execute_local hexecute
  rw [hfollow]
  refine ⟨?_, ?_, h.reachable.next hi hq, ?_⟩
  · exact (execute_keeps hexecute).2.trans h.code_eq
  · exact hreplaces.capacity.trans h.capacity_eq
  · have hdepth := hcode.successor _ _ _ h.reachable hi hq
    have hsize := hreplaces.size_add
    rw [h.size_eq] at hsize
    change s.stack.size = depth q
    change (depth q : Int) = depth m.ip + i.effect at hdepth
    omega

theorem AtDepth.step_error (hcode : Balanced code capacity depth)
    (h : AtDepth code capacity depth m) {failure : Failure}
    (hstep : Machine.step m = .error failure m') :
    ¬failure.OfStack := by
  obtain ⟨_, ⟨_, rfl⟩ | ⟨i, source, hi, hexecute, rfl⟩⟩ := step_error_cases hstep
  · exact id
  · intro hfailure
    rw [h.code_eq] at hi
    have hoperands := hcode.operands _ _ h.reachable hi
    have hroom := hcode.room _ _ h.reachable hi
    rw [← h.size_eq] at hoperands hroom
    rw [← h.capacity_eq] at hroom
    rcases execute_stack_failure hexecute hfailure with hmissing | ⟨hgrows, hfull⟩
    · omega
    · exact absurd (hroom hgrows) (Nat.not_lt.mpr hfull)

theorem AtDepth.advances (hcode : Balanced code capacity depth)
    (h : AtDepth code capacity depth m) {k : Nat} (hadvances : Advances k m m') :
    AtDepth code capacity depth m' :=
  hadvances.invariant (fun _ _ _ hm hstep hflow => hm.step hcode hstep hflow) h

/-! ## Cycles -/

/-- In the next cycle the stack has the assigned depth before each instruction, and the
cycle does not fail for the stack. -/
structure KeepsDepths (depth : Nat → Nat) (m : Machine) : Prop where
  size_eq : ∀ k m₁ m', init m = .ok () m₁ → Advances k m₁.start m' →
    m'.stack.size = depth m'.ip
  not_ofStack : ∀ fuel failure m', run fuel m = .error failure m' → ¬failure.OfStack

/-- `Completes n m m'` says that `n` cycles lead from `m` to `m'`, all of which are
finished. -/
inductive Completes : Nat → Machine → Machine → Prop
  | refl (m : Machine) : Completes 0 m m
  | cycle {n fuel : Nat} {m m₁ m' : Machine} {report : CycleReport}
      (h : run fuel m = .ok (.finished report) m₁) (hrest : Completes n m₁ m') :
      Completes (n + 1) m m'

theorem not_ofStack_of_init {failure : Failure} (h : init m = .error failure m') :
    ¬failure.OfStack := by
  rcases init_cases m with ⟨_, hok⟩ | ⟨_, _, _, hok⟩ | ⟨_, source, m₁, hstored, herror⟩
  · rw [hok] at h
    cases h
  · rw [hok] at h
    cases h
  · rw [herror] at h
    cases h
    rcases storeInits_cases (m.program.inits.drop m.initsStored) m with ⟨_, hok⟩ |
      ⟨_, _, _, _, _, _, _, _, _, hstore, hfailed⟩
    · rw [hok] at hstored
      cases hstored
    · rw [hfailed] at hstored
      cases hstored
      exact fun hfailure => Program.not_ofStack_of_store hstore hfailure

theorem atDepth_start (hsize : m.stack.size = depth 0) {m₁ : Machine}
    (hinit : init m = .ok () m₁) :
    AtDepth m.program.code m.stack.capacity depth m₁.start := by
  obtain ⟨hstack, _, hcode⟩ := init_keeps hinit
  refine ⟨hcode, ?_, .first, ?_⟩
  · exact congrArg Stack.capacity hstack
  · exact (congrArg Stack.size hstack).trans hsize

theorem keepsDepths_of_balanced (hcode : Balanced m.program.code m.stack.capacity depth)
    (hsize : m.stack.size = depth 0) :
    KeepsDepths depth m := by
  refine ⟨?_, ?_⟩
  · intro k m₁ m' hinit hadvances
    exact ((atDepth_start hsize hinit).advances hcode hadvances).size_eq
  · intro fuel failure m' hrun
    rcases run_error_cases hrun with hinit |
      ⟨m₁, k, hinit, hadvances, hstep | ⟨limit, rfl⟩⟩
    · exact not_ofStack_of_init hinit
    · exact ((atDepth_start hsize hinit).advances hcode hadvances).step_error
        hcode hstep
    · exact id

/-- A finished cycle leaves the code and the capacity, and the depth of the `halt` that
finished it. -/
theorem depth_of_finished (hcode : Balanced m.program.code m.stack.capacity depth)
    (hsize : m.stack.size = depth 0) {fuel : Nat} {report : CycleReport}
    (h : run fuel m = .ok (.finished report) m') :
    AtDepth m.program.code m.stack.capacity depth m' ∧
      m.program.code[m'.ip]? = some .halt := by
  obtain ⟨m₁, k, hinit, _, hadvances, hhalt, _⟩ := run_finished_cases h
  have hat := (atDepth_start hsize hinit).advances hcode hadvances
  exact ⟨hat, hat.code_eq ▸ (step_halt_cases hhalt).2⟩

end Machine

open Machine

/-- Depths that suit a code are the depths of the stack.  Take a machine whose code has
a suitable assignment of depths, with as many words on the stack as are assigned to the
first position.  In its next cycle the stack has the assigned depth whenever an
instruction is about to be executed, and the cycle does not fail for the stack.  If
every `halt` has the depth of the first position, then the same holds after any number
of finished cycles. -/
theorem assigned_depths_are_kept {m : Machine} {depth : Nat → Nat}
    (hcode : Balanced m.program.code m.stack.capacity depth)
    (hsize : m.stack.size = depth 0) :
    KeepsDepths depth m ∧
      ((∀ p, Reachable m.program.code p → m.program.code[p]? = some .halt →
        depth p = depth 0) →
        ∀ n m', Completes n m m' → KeepsDepths depth m') := by
  refine ⟨keepsDepths_of_balanced hcode hsize, ?_⟩
  intro hhalts n m' hcycles
  induction hcycles with
  | refl => exact keepsDepths_of_balanced hcode hsize
  | cycle hrun _ ih =>
      obtain ⟨hat, hhalt⟩ := depth_of_finished hcode hsize hrun
      apply ih
      · rwa [hat.code_eq, hat.capacity_eq]
      · rw [hat.size_eq, hhalts _ hat.reachable hhalt]
      · rwa [hat.code_eq]

/-- A loop counts down to zero on top of a word that lies on the stack from the start.
Two cycles of it are finished on a stack that has room for no word more. -/
theorem assigned_depths_are_kept_countdown :
    let code : Array Instruction :=
      #[.pushConst 2, .label "top", .pushConst 1, .apply .sub, .apply .dup,
        .jump .ifNotZero 1, .popSink .null, .halt]
    let depth : Nat → Nat := fun p => [1, 2, 2, 3, 2, 3, 2, 1].getD p 0
    let m : Machine :=
      { program := { code }, stack := { capacity := 3, words := [7] }, host := {},
        config := {} }
    Balanced code 3 depth ∧ m.stack.size = depth 0 ∧
      (∀ p, Reachable code p → code[p]? = some .halt → depth p = depth 0) ∧
      KeepsDepths depth m ∧ ∃ m', Completes 2 m m' ∧ m'.stack.words = [7] ∧
        KeepsDepths depth m' := by
  intro code depth m
  have hcode : Balanced code 3 depth := balanced_of_forall (by decide)
  have hhalts : ∀ p, Reachable code p → code[p]? = some .halt → depth p = depth 0 := by
    intro p _ hp
    have hlt : p < 8 := (Array.getElem?_eq_some_iff.mp hp).1
    interval_cases p <;> simp_all [code, depth]
  obtain ⟨hkept, hcycles⟩ := assigned_depths_are_kept (m := m) hcode rfl
  let m' : Machine := { m with initialized := true, ip := 7 }
  have hfirst : run 20 m = .ok (.finished ⟨13, 1⟩) m' := rfl
  have hsecond : run 20 m' = .ok (.finished ⟨13, 1⟩) m' := rfl
  have hcompletes : Completes 2 m m' := .cycle hfirst (.cycle hsecond (.refl m'))
  exact ⟨hcode, rfl, hhalts, hkept, m', hcompletes, rfl, hcycles hhalts 2 m' hcompletes⟩

end CyclicStack
