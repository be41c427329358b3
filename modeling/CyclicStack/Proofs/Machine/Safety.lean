import CyclicStack.Proofs.Load.WellFormed
import CyclicStack.Proofs.Machine.History

/-!
# Loaded programs run safely

Whatever happens to a machine, its program continues the one that was loaded: the layout
stays, and so do the instructions that were there, since new ones are appended behind
them.  A cycle starts at the first instruction, and the loaded instructions lead only to
one another, up to the last one, which is a `halt`.  So only loaded instructions are
executed, and they fail in expected ways only.
-/

namespace CyclicStack

namespace Program

/-- The program `p` has the layout of `p₀`, and begins with its instructions. -/
structure Continues (p₀ p : Program) : Prop where
  layout : p.layout = p₀.layout
  code : ∀ (k : Nat) (i : Instruction), p₀.code[k]? = some i → p.code[k]? = some i

variable {p₀ p p' : Program}

theorem Continues.refl (p : Program) :
    Continues p p :=
  ⟨rfl, fun _ _ h => h⟩

theorem Continues.keeps (h : Continues p₀ p)
    (hkeeps : p'.layout = p.layout ∧ p'.code = p.code) :
    Continues p₀ p' :=
  ⟨hkeeps.1.trans h.layout, hkeeps.2 ▸ h.code⟩

theorem Continues.append (h : Continues p₀ p) (i : Instruction) :
    Continues p₀ (p.append i) := by
  refine ⟨(layout_append p i).trans h.layout, ?_⟩
  intro k j hj
  have hk := (Array.getElem?_eq_some_iff.mp (h.code k j hj)).1
  rw [Program.append, Array.getElem?_push, if_neg hk.ne, h.code k j hj]

theorem Continues.served (h : Continues p₀ p) (hp : p₀.WellFormed) :
    p.Served :=
  served_of_layout_eq h.layout hp.served

theorem Continues.size_vars (h : Continues p₀ p) :
    p.vars.size = p₀.vars.size :=
  size_vars_of_layout_eq h.layout

theorem id_lt_of_mem_inits {id : Nat} {value : Word} (h : (id, value) ∈ p.inits) :
    id < p.vars.size := by
  obtain ⟨⟨v, k⟩, hmem, hinit⟩ := List.mem_filterMap.mp h
  obtain ⟨w, _, heq⟩ := Option.map_eq_some_iff.mp hinit
  cases heq
  simpa using List.snd_lt_of_mem_zipIdx hmem

end Program

open Program

namespace Machine

variable {p₀ : Program} {m m' : Machine}

/-! ## One instruction -/

/-- The machine is about to execute an instruction of `p₀`. -/
structure Inside (p₀ : Program) (m : Machine) : Prop where
  continues : Continues p₀ m.program
  ip_lt : m.ip < p₀.code.size

theorem Inside.getElem?_code (h : Inside p₀ m) :
    m.program.code[m.ip]? = p₀.code[m.ip]? := by
  have hloaded := Array.getElem?_eq_getElem h.ip_lt
  rw [hloaded, h.continues.code _ _ hloaded]

/-- A step that does not end the cycle leads to another instruction of the program. -/
theorem Inside.step (hp : p₀.WellFormed) (h : Inside p₀ m) {flow : Flow}
    (hstep : Machine.step m = .ok flow m') (hflow : flow ≠ .halt) :
    Inside p₀ m' := by
  obtain ⟨i, s, hi, hexecute, rfl⟩ := step_ok_cases hstep
  rw [h.getElem?_code] at hi
  have hcontinues := h.continues.keeps (execute_keeps hexecute)
  rcases (execute_ok_cases hexecute).2 with
    ⟨rfl, hne⟩ | ⟨condition, target, rfl, rfl⟩ | ⟨_, hhalt⟩
  · refine ⟨hcontinues, ?_⟩
    obtain ⟨n, hsize, hlast⟩ := hp.last
    -- the last position holds a `halt`, so it is not the one just executed
    have hip : m.ip ≠ n := by
      intro heq
      rw [heq, hlast] at hi
      cases hi
      exact hne rfl
    have hlt := h.ip_lt
    change m.ip + 1 < p₀.code.size
    omega
  · exact ⟨hcontinues, hp.within _ _ hi⟩
  · exact absurd hhalt hflow

theorem Inside.step_error (hp : p₀.WellFormed) (h : Inside p₀ m) {failure : Failure}
    (hstep : Machine.step m = .error failure m') :
    failure.root.Expected := by
  obtain ⟨_, ⟨hnone, _⟩ | ⟨i, source, hi, hexecute, rfl⟩⟩ := step_error_cases hstep
  · rw [h.getElem?_code, Array.getElem?_eq_getElem h.ip_lt] at hnone
    cases hnone
  · rw [h.getElem?_code] at hi
    have hwithin := hp.within _ _ hi
    rw [← h.continues.size_vars] at hwithin
    exact (execute_error_expected (h.continues.served hp) hwithin hexecute).root

theorem Inside.advances (hp : p₀.WellFormed) (h : Inside p₀ m) {k : Nat}
    (hadvances : Advances k m m') :
    Inside p₀ m' :=
  hadvances.invariant (fun _ _ _ hm hstep hflow => hm.step hp hstep hflow) h

/-! ## Initialisation and cycles -/

theorem continues_of_storeInits (h : Continues p₀ m.program) {inits : List (Nat × Word)}
    (hinits : storeInits inits m = .ok () m') :
    Continues p₀ m'.program :=
  program_of_storeInits (P := Continues p₀) (fun _ _ _ _ hp hstore =>
    hp.keeps (store_keeps hstore))
    hinits h

theorem storeInits_error (hp : p₀.WellFormed) (h : Continues p₀ m.program)
    {inits : List (Nat × Word)} (hids : ∀ init ∈ inits, init.1 < p₀.vars.size)
    {failure : Failure} (hinits : storeInits inits m = .error failure m') :
    Continues p₀ m'.program ∧ failure.root.Expected := by
  rcases storeInits_cases inits m with ⟨m₁, hok⟩ |
    ⟨done, id, value, rest, m₁, source, p, rfl, hdone, hstore, herror⟩
  · rw [hok] at hinits
    cases hinits
  · rw [herror] at hinits
    cases hinits
    have hcontinues := continues_of_storeInits h hdone
    have hid : id < m'.program.vars.size := by
      rw [hcontinues.size_vars]
      exact hids (id, value) (by simp)
    obtain ⟨cell, cells, rfl⟩ := (hcontinues.served hp).store_error hid hstore
    exact ⟨hcontinues, trivial⟩

theorem init_safe (hp : p₀.WellFormed) (h : Continues p₀ m.program) :
    (∃ m', init m = .ok () m' ∧ Continues p₀ m'.program) ∨
    ∃ failure m', init m = .error failure m' ∧ Continues p₀ m'.program ∧
      failure.root.Expected := by
  have hids : ∀ init ∈ m.program.inits.drop m.initsStored, init.1 < p₀.vars.size := by
    intro init hinit
    rw [← h.size_vars]
    exact id_lt_of_mem_inits (List.mem_of_mem_drop hinit)
  rcases init_cases m with ⟨_, hok⟩ | ⟨_, m', hinits, hok⟩ |
    ⟨_, failure, m', hinits, herror⟩
  · exact .inl ⟨m, hok, h⟩
  · have hcontinues : Continues p₀ m'.program := continues_of_storeInits h hinits
    exact .inl ⟨_, hok, hcontinues⟩
  · exact .inr ⟨failure, m', herror, storeInits_error hp h hids hinits⟩

/-- A cycle starts at the first of the loaded instructions. -/
theorem inside_start (hp : p₀.WellFormed) (h : Continues p₀ m.program) :
    Inside p₀ { m with ip := 0 } := by
  obtain ⟨n, hsize, _⟩ := hp.last
  refine ⟨h, ?_⟩
  change 0 < p₀.code.size
  omega

theorem runFrom_safe (hp : p₀.WellFormed) (h : Inside p₀ m) (steps fuel : Nat) :
    (∃ cycle m', runFrom steps fuel m = .ok cycle m' ∧ Continues p₀ m'.program) ∨
    ∃ failure m', runFrom steps fuel m = .error failure m' ∧ Continues p₀ m'.program ∧
      failure.root.Expected := by
  obtain ⟨k, m', hadvances, _, _, hend⟩ := runFrom_cases steps fuel m
  have hinside := h.advances hp hadvances
  rcases hend with ⟨_, hrun⟩ | ⟨limit, _, hrun⟩ | ⟨failure, hstep, hrun⟩ | ⟨_, hrun⟩
  · exact .inl ⟨_, m', hrun, hinside.continues⟩
  · exact .inr ⟨_, m', hrun, hinside.continues, trivial⟩
  · exact .inr ⟨failure, m', hrun, hinside.continues, hinside.step_error hp hstep⟩
  · exact .inl ⟨_, m', hrun, hinside.continues⟩

theorem run_safe (hp : p₀.WellFormed) (h : Continues p₀ m.program) (fuel : Nat) :
    (∃ cycle m', run fuel m = .ok cycle m' ∧ Continues p₀ m'.program) ∨
    ∃ failure m', run fuel m = .error failure m' ∧ Continues p₀ m'.program ∧
      failure.root.Expected := by
  unfold run
  rcases init_safe hp h with ⟨m₁, hinit, hcontinues⟩ | ⟨failure, m₁, hinit, hsafe⟩
  · simp only [hinit]
    exact runFrom_safe hp (inside_start hp hcontinues) 0 _
  · simp only [hinit]
    exact .inr ⟨failure, m₁, rfl, hsafe⟩

/-! ## Histories -/

theorem perform_safe (hp : p₀.WellFormed) (h : Continues p₀ m.program) (event : Event)
    (hevent : event.Declared p₀.vars.size) :
    (∃ m', event.perform m = .ok () m' ∧ Continues p₀ m'.program) ∨
    ∃ failure m', event.perform m = .error failure m' ∧ Continues p₀ m'.program ∧
      failure.root.Expected := by
  cases event with
  | init => exact init_safe hp h
  | run fuel =>
      simp only [Event.perform, Action.bind_run]
      rcases run_safe hp h fuel with ⟨cycle, m', hrun, hsafe⟩ |
        ⟨failure, m', hrun, hsafe⟩
      · simp only [hrun]
        exact .inl ⟨m', rfl, hsafe⟩
      · simp only [hrun]
        exact .inr ⟨failure, m', rfl, hsafe⟩
  | store id value =>
      simp only [Event.perform, onState, State.onProgram, Action.zoom]
      cases hstore : Program.store id value m.program with
      | ok _ p => exact .inl ⟨_, rfl, h.keeps (store_keeps hstore)⟩
      | error failure p =>
          have hsame := store_atomic id value _ _ _ hstore
          subst hsame
          have hid : id < m.program.vars.size := by
            rw [h.size_vars]
            exact hevent
          obtain ⟨cell, cells, rfl⟩ := (h.served hp).store_error hid hstore
          exact .inr ⟨_, _, rfl, h, trivial⟩
  | poke segment offset patch =>
      exact .inl ⟨_, rfl, h.keeps ⟨layout_poke m.program segment offset patch, rfl⟩⟩
  | move id cell =>
      exact .inl ⟨_, rfl, h.keeps ⟨layout_moveVariable m.program id cell, rfl⟩⟩
  | append i => exact .inl ⟨_, rfl, h.append i⟩

theorem continues_after (hp : p₀.WellFormed) (h : Continues p₀ m.program)
    {event : Event} (hevent : event.Declared p₀.vars.size) :
    Continues p₀ (m.after event).program := by
  unfold after
  rcases perform_safe hp h event hevent with ⟨m', hperform, hcontinues⟩ |
    ⟨failure, m', hperform, hcontinues, _⟩
  · rw [hperform]
    exact hcontinues
  · rw [hperform]
    exact hcontinues

/-- Every history leaves a program behind that continues the loaded one. -/
theorem continues_foldl_after (hp : p₀.WellFormed) (h : Continues p₀ m.program)
    {events : List Event} (hevents : ∀ event ∈ events, event.Declared p₀.vars.size) :
    Continues p₀ (events.foldl after m).program := by
  induction events generalizing m with
  | nil => exact h
  | cons event rest ih =>
      rw [List.foldl_cons]
      apply ih
      · exact continues_after hp h (hevents event List.mem_cons_self)
      · intro other hother
        exact hevents other (List.mem_cons_of_mem event hother)

/-- All instructions of a cycle are executed inside the loaded code. -/
theorem inside_of_running (hp : p₀.WellFormed) (h : Continues p₀ m.program) {k : Nat}
    {m₁ : Machine} (hinit : init m = .ok () m₁)
    (hadvances : Advances k { m₁ with ip := 0 } m') :
    Inside p₀ m' := by
  rcases init_safe hp h with ⟨m₂, hok, hcontinues⟩ | ⟨failure, m₂, herror, _⟩
  · rw [hok] at hinit
    cases hinit
    exact (inside_start hp hcontinues).advances hp hadvances
  · rw [herror] at hinit
    cases hinit

theorem continues_of_occurs (hp : p₀.WellFormed) (h : Continues p₀ m.program)
    (hoccurs : Occurs m m') :
    Continues p₀ m'.program := by
  cases hoccurs with
  | initializing hinits => exact continues_of_storeInits h hinits
  | running hinit hadvances => exact (inside_of_running hp h hinit hadvances).continues

end Machine

open Machine

/-- Loaded programs run safely.  Take a machine for a loaded program and any history of
it in which values are stored from outside into declared variables only.  Every
instruction that it executes next is one of those that were loaded; at every moment of
initialisation and of a cycle the regions have the cells that they were loaded with and
the accesses to all variables are guarded; and whatever happens next, a failure has an
expected root. -/
theorem loaded_program_is_safe {segments : Load.Segments} {text : String}
    {program : Program} {config : MachineConfig} {host : Host} {m₀ : Machine}
    {events : List Event} (hload : load segments text = .ok program)
    (hnew : Machine.new program config host = .ok m₀)
    (hevents : ∀ event ∈ events, event.Declared program.vars.size) :
    let m := events.foldl after m₀
    (∀ k m₁ m', init m = .ok () m₁ → Advances k { m₁ with ip := 0 } m' →
      m'.ip < program.code.size ∧ m'.program.code[m'.ip]? = program.code[m'.ip]?) ∧
    (∀ m', Occurs m m' →
      (∀ region, m'.program.memory.cellsAt region = program.memory.cellsAt region) ∧
      ∀ id < program.vars.size, m'.program.Guarded id) ∧
    ∀ (event : Event) (failure : Failure) (m' : Machine),
      event.Declared program.vars.size →
      event.perform m = .error failure m' → failure.root.Expected := by
  intro m
  have hp := wellFormed_of_load hload
  have hm₀ : m₀.program = program := by
    obtain ⟨stack, _, h⟩ := bind_eq_ok_iff.mp hnew
    cases h
    rfl
  have hm : Continues program m.program :=
    continues_foldl_after hp (hm₀ ▸ Continues.refl m₀.program) hevents
  refine ⟨?_, ?_, ?_⟩
  · intro k m₁ m' hinit hadvances
    have hinside := inside_of_running hp hm hinit hadvances
    exact ⟨hinside.ip_lt, hinside.getElem?_code⟩
  · intro m' hoccurs
    have hcontinues := continues_of_occurs hp hm hoccurs
    have hblank : m'.program.memory.blank = program.memory.blank :=
      congrArg Program.memory hcontinues.layout
    refine ⟨Memory.cellsAt_of_blank_eq hblank, ?_⟩
    intro id hid
    exact (hcontinues.served hp).guarded (hcontinues.size_vars ▸ hid)
  · intro event failure m' hevent herror
    rcases perform_safe hp hm event hevent with ⟨m₂, hok, _⟩ |
      ⟨failure', m₂, hfailed, _, hroot⟩
    · rw [hok] at herror
      cases herror
    · rw [hfailed] at herror
      cases herror
      exact hroot

/-- A loop without end copies a word into a bit of a segment of two cells.  It is cut
off once; then the segment is overwritten, a jump to nowhere is appended and the bit is
moved to a cell that does not exist, so that the next cycle fails for this cell. -/
theorem loaded_program_is_safe_endless_loop :
    let segments := Load.Segments.ofList [⟨"seg", [0, 0, 0, 0, 0]⟩]
    let text := "__MEM\nshm seg s 2\nlocal m 3\n__VAR\ns@1.9 be1 flag\nm@2 le16 x\n" ++
      "__INIT\nx 70000\n__PROGRAM\n$top\nPUSH x\nPOP flag\nJ top\n"
    let program : Program :=
      { memory :=
          { segments := segments.existing
            regions := #[⟨"s", .shared 0 2⟩, ⟨"m", .owned { cells := 3 }⟩] }
        vars :=
          #[{ name := "flag", region := 0, encoding := .be1, cell := 1,
              subIndex := some 9 },
            { name := "x", region := 1, encoding := .le16, cell := 2,
              init := some 70000 }]
        code := #[.label "top", .pushVar 1, .popVar 0, .jump .always 0, .halt]
        labels := [("top", 0)] }
    let m₀ : Machine :=
      { program, stack := { capacity := 2 }, host := {}
        config := { stackSize := 2, maxSteps := some 6 } }
    let events : List Event :=
      [.run 0, .store 1 5, .poke 0 2 [255, 255, 255],
       .append (.jump .always 99), .move 0 7]
    load segments text = .ok program ∧
      Machine.new program { stackSize := 2, maxSteps := some 6 } {} = .ok m₀ ∧
      (∀ event ∈ events, event.Declared program.vars.size) ∧
      (∃ failure m', Event.perform (.run 0) m₀ = .error failure m' ∧
        failure.root = .stepLimitExceeded 6) ∧
      (∃ failure m', Event.perform (.run 0) (events.foldl after m₀) =
        .error failure m' ∧
        failure.root = .cellOutOfRange 7 2 ∧ failure.root.Expected) ∧
      ∀ id < 2, (events.foldl after m₀).program.Guarded id := by
  intro segments text program m₀ events
  have hload : load segments text = .ok program := by
    decide +kernel
  have hevents : ∀ event ∈ events, event.Declared program.vars.size := by
    simp [events, Event.Declared, program]
  have hnew : Machine.new program { stackSize := 2, maxSteps := some 6 } {} =
      .ok m₀ := rfl
  have hsafe := loaded_program_is_safe hload hnew hevents
  have hfails : ∀ (m : Machine) (root : Failure),
      (match Event.perform (.run 0) m with
        | .error failure _ => some failure.root
        | .ok _ _ => none) = some root →
      ∃ failure m', Event.perform (.run 0) m = .error failure m' ∧
        failure.root = root := by
    intro m root h
    split at h
    · next failure m' hrun => exact ⟨failure, m', hrun, Option.some.inj h⟩
    · cases h
  obtain ⟨failure, m', hrun, hroot⟩ :=
    hfails (events.foldl after m₀) (.cellOutOfRange 7 2)
    (by decide +kernel)
  refine ⟨hload, hnew, hevents, hfails m₀ _ (by decide +kernel),
    ⟨failure, m', hrun, hroot, hsafe.2.2 (.run 0) failure m' trivial hrun⟩, ?_⟩
  exact (hsafe.2.1 _ (.initializing (k := 0) rfl)).2

end CyclicStack
