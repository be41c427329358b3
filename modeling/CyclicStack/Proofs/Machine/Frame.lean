import CyclicStack.Proofs.Execution.Locality
import CyclicStack.Proofs.Machine.Initialization

/-!
# Words below the stack of a cycle

The stack outlives a cycle, so a cycle may start above words that earlier ones have
left.  A cycle that is finished without them is finished above them in the same way: no
instruction looks below its operands, and none is told how deep the stack is, as long as
there is room.
-/

namespace CyclicStack

/-- The stack above the words `base`, with another capacity. -/
def Stack.above (base : List Word) (capacity : Nat) (s : Stack) : Stack :=
  ⟨capacity, s.words ++ base⟩

theorem Stack.Replaces.above {taken given : List Word} {s s' : Stack}
    (h : Replaces taken given s s') (base : List Word) (capacity : Nat) :
    Replaces taken given (s.above base capacity) (s'.above base capacity) := by
  obtain ⟨rest, hwords, rfl⟩ := h
  refine ⟨rest ++ base, ?_, ?_⟩
  · simp [Stack.above, hwords]
  · simp [Stack.above]

theorem Stack.size_above (base : List Word) (capacity : Nat) (s : Stack) :
    (s.above base capacity).size = s.size + base.length :=
  List.length_append

namespace Machine

/-- The machine with its stack above the words `base`, in a stack of another
capacity. -/
def above (base : List Word) (capacity : Nat) (m : Machine) : Machine :=
  { m with
    stack := m.stack.above base capacity
    config := { m.config with stackSize := capacity } }

variable {m m' : Machine} {base : List Word} {capacity : Nat}

/-- A successful instruction does the same above other words. -/
theorem step_above {flow : Flow} (h : step m = .ok flow m')
    (hcapacity : m.stack.capacity + base.length ≤ capacity) :
    step (m.above base capacity) = .ok flow (m'.above base capacity) ∧
      m'.stack.capacity = m.stack.capacity := by
  obtain ⟨i, s, hi, hexecute, rfl⟩ := step_ok_cases h
  obtain ⟨taken, given, _, _, hreplaces, hroom, hlocal⟩ := execute_local hexecute
  have habove : execute i (m.above base capacity).toState =
      .ok flow { s with stack := s.stack.above base capacity } := by
    apply hlocal _ _ (hreplaces.above base capacity)
    intro hgrows
    have hsize := hroom hgrows
    rw [Stack.size_above]
    change m.stack.size + base.length < capacity
    omega
  have hi : (m.above base capacity).program.code[(m.above base capacity).ip]? =
      some i := hi
  constructor
  · simp only [step, hi, onState, Action.zoom, habove]
    cases flow <;> rfl
  · have hkept := hreplaces.capacity
    cases flow <;> exact hkept

theorem Advances.above {k : Nat} (h : Advances k m m')
    (hcapacity : m.stack.capacity + base.length ≤ capacity) :
    Advances k (m.above base capacity) (m'.above base capacity) ∧
      m'.stack.capacity = m.stack.capacity := by
  induction h with
  | refl m => exact ⟨.refl _, rfl⟩
  | step hstep hflow _ ih =>
      obtain ⟨hfirst, hkept⟩ := step_above hstep hcapacity
      obtain ⟨hrest, hkept'⟩ := ih (hkept ▸ hcapacity)
      exact ⟨.step hfirst hflow hrest, hkept'.trans hkept⟩

theorem storeInits_above {inits : List (Nat × Word)}
    (h : storeInits inits m = .ok () m') (base : List Word) (capacity : Nat) :
    storeInits inits (m.above base capacity) = .ok () (m'.above base capacity) := by
  induction inits generalizing m with
  | nil =>
      cases h
      rfl
  | cons first rest ih =>
      obtain ⟨id, value⟩ := first
      have hprogram : (m.above base capacity).program = m.program := rfl
      simp only [storeInits, storeInit_eq, hprogram] at h ⊢
      cases hstore : Program.store id value m.program with
      | error failure p =>
          rw [hstore] at h
          cases h
      | ok _ program =>
          rw [hstore] at h
          exact ih h

/-- Initialisation does not look at the stack. -/
theorem init_above (h : init m = .ok () m') (base : List Word) (capacity : Nat) :
    init (m.above base capacity) = .ok () (m'.above base capacity) := by
  rcases init_cases m with ⟨hm, hok⟩ | ⟨hm, m₁, hstored, hok⟩ | ⟨_, _, _, _, herror⟩
  · rw [hok] at h
    cases h
    exact if_pos hm
  · rw [hok] at h
    cases h
    have hm : ¬(m.above base capacity).initialized = true := by simpa [above] using hm
    have hstored : storeInits ((m.above base capacity).program.inits.drop
        (m.above base capacity).initsStored) (m.above base capacity) =
          .ok () (m₁.above base capacity) :=
      storeInits_above hstored base capacity
    rw [init, if_neg hm, hstored]
    rfl
  · rw [herror] at h
    cases h

end Machine

open Machine

/-- Words left on the stack do not influence a cycle.  If a cycle is finished, then it
is finished above any other words as well, on a stack that has room for them in
addition: after the same number of instructions, with the same program, the same host
and the same instruction pointer, and with the same words on the stack, above the
others. -/
theorem finished_cycle_above_other_words {m m' : Machine} {fuel : Nat}
    {report : CycleReport} (h : run fuel m = .ok (.finished report) m')
    (base : List Word) {capacity : Nat}
    (hcapacity : m.stack.capacity + base.length ≤ capacity) :
    run fuel (m.above base capacity) =
      .ok (.finished ⟨report.steps, report.depth + base.length⟩)
        (m'.above base capacity) := by
  obtain ⟨m₁, k, hinit, hk, hadvances, hhalt, rfl⟩ := run_finished_cases h
  have hinit' := init_above hinit base capacity
  have hstart : m₁.start.stack.capacity + base.length ≤ capacity := by
    have hstack : m₁.start.stack = m.stack := (init_keeps hinit).1
    rwa [hstack]
  obtain ⟨hadvances', hkept⟩ := hadvances.above hstart
  obtain ⟨hhalt', _⟩ := step_above hhalt (hkept ▸ hstart)
  have hends : Ends (m₁.above base capacity).start (k + 1) _ :=
    .finished hadvances' hhalt'
  rw [← run_of_init hinit', run_of_ends (initialized_of_init hinit') hends hk]
  simp only [Machine.above, Stack.size_above]

/-- A cycle stores an initial value, of which its cell keeps one byte, prints the double
of this byte and leaves a random word on the stack.  Above two other words it does the
same, on a stack of just the capacity that it needs. -/
theorem finished_cycle_above_other_words_doubling :
    let m : Machine :=
      { program :=
          { memory := { regions := #[⟨"m", .owned { cells := 1 }⟩] }
            vars := #[{ name := "x", region := 0, encoding := .byte, cell := 0,
                        init := some 300 }]
            code := #[.pushVar 0, .apply .dup, .apply .add, .popSink .stdout,
              .pushSource .rand, .halt] }
        stack := { capacity := 2 }, host := { draws := fun n => UInt64.ofNat (60 + n) }
        config := { stackSize := 2 } }
    ∃ m', run 20 m = .ok (.finished ⟨6, 1⟩) m' ∧ m'.stack.words = [60] ∧
      m'.host.drawn = 1 ∧
      m'.host.lines = #["88"] ∧ m.stack.capacity + [8, 9].length ≤ 4 ∧
      run 20 (m.above [8, 9] 4) = .ok (.finished ⟨6, 3⟩) (m'.above [8, 9] 4) := by
  intro m
  have hview :
      (match run 20 m with
        | .ok (.finished report) m' =>
          some (report, m'.stack.words, m'.host.drawn, m'.host.lines)
        | _ => none) = some (⟨6, 1⟩, [60], 1, #["88"]) := by
    decide +kernel
  split at hview
  · next report m' hrun =>
    obtain ⟨rfl, hwords, hdrawn, hlines⟩ := by simpa using hview
    exact ⟨m', hrun, hwords, hdrawn, hlines, by decide,
      finished_cycle_above_other_words hrun [8, 9] (by decide)⟩
  · cases hview

end CyclicStack
