import CyclicStack.Proofs.Machine.Cycle
import CyclicStack.Proofs.Machine.History

/-!
# Initial values are stored once

A machine keeps no record of the initial values it has stored but their number, and on
each call it skips as many entries of a list that it builds anew.  This file gives an
account of a history: each event of it with the initial values that the event stores,
and with what these stores make of the program.  Whatever happens between two calls, the
list that is built anew is the same, and the values of the account are the part of it
that the number counts.
-/

namespace CyclicStack

namespace Program

/-! ## The list of initial values -/

theorem inits_layout (p : Program) :
    p.layout.inits = p.inits := by
  simp only [inits, layout, Array.toList_map, List.zipIdx_map, List.filterMap_map]
  rfl

theorem inits_of_layout_eq {p p' : Program} (h : p'.layout = p.layout) :
    p'.inits = p.inits := by
  rw [← inits_layout, h, inits_layout]

theorem mem_inits_iff {p : Program} {id : Nat} {value : Word} :
    (id, value) ∈ p.inits ↔ ∃ v, p.vars[id]? = some v ∧ v.init = some value := by
  constructor
  · intro h
    obtain ⟨⟨v, k⟩, hmem, hinit⟩ := List.mem_filterMap.mp h
    obtain ⟨w, hw, heq⟩ := Option.map_eq_some_iff.mp hinit
    cases heq
    exact ⟨v, by simpa using List.mem_zipIdx_iff_getElem?.mp hmem, hw⟩
  · rintro ⟨v, hv, hinit⟩
    refine List.mem_filterMap.mpr ⟨(v, id), ?_, ?_⟩
    · rw [List.mem_zipIdx_iff_getElem?]
      simpa using hv
    · simp [hinit]

/-- The initial values stand in the order in which their variables are declared. -/
theorem pairwise_inits (p : Program) :
    p.inits.Pairwise fun first second => first.1 < second.1 := by
  rw [inits, List.pairwise_filterMap]
  have hzip : p.vars.toList.zipIdx.Pairwise fun first second => first.2 < second.2 := by
    rw [← List.pairwise_map (f := Prod.snd), List.zipIdx_map_snd]
    exact List.pairwise_lt_range'
  refine hzip.imp ?_
  rintro ⟨v, k⟩ ⟨v', k'⟩ hlt init hinit init' hinit'
  obtain ⟨w, _, rfl⟩ := Option.map_eq_some_iff.mp hinit
  obtain ⟨w', _, rfl⟩ := Option.map_eq_some_iff.mp hinit'
  exact hlt

/-- A program of the same layout has variables of the same names. -/
theorem variableName_of_layout_eq {p p' : Program} (h : p'.layout = p.layout)
    (id : Nat) :
    p'.variableName id = p.variableName id := by
  have hvars : p'.layout.vars[id]? = p.layout.vars[id]? := by
    rw [h]
  simp only [layout, Array.getElem?_map] at hvars
  unfold variableName
  cases hv : p.vars[id]? <;> cases hv' : p'.vars[id]? <;> simp_all

/-! ## Stores one after the other -/

/-- The program `p'` is what becomes of `p` when values are stored in variables, one
after the other. -/
inductive Stores : List (Nat × Word) → Program → Program → Prop
  | nil (p : Program) : Stores [] p p
  | cons {id : Nat} {value : Word} {rest : List (Nat × Word)} {p p₁ p' : Program}
      (h : Program.store id value p = .ok () p₁) (hrest : Stores rest p₁ p') :
      Stores ((id, value) :: rest) p p'

theorem Stores.unique {inits : List (Nat × Word)} {p p' p'' : Program}
    (h : Stores inits p p') (h' : Stores inits p p'') :
    p' = p'' := by
  induction h with
  | nil =>
      cases h'
      rfl
  | cons hstore _ ih =>
      cases h' with
      | cons hstore' hrest =>
          rw [hstore] at hstore'
          cases hstore'
          exact ih hrest

theorem Stores.left {inits rest : List (Nat × Word)} {p p' : Program}
    (h : Stores (inits ++ rest) p p') :
    ∃ p₁, Stores inits p p₁ ∧ Stores rest p₁ p' := by
  induction inits generalizing p with
  | nil => exact ⟨p, .nil p, h⟩
  | cons first inits ih =>
      cases h with
      | cons hstore hrest =>
          obtain ⟨p₁, hinits, hrest⟩ := ih hrest
          exact ⟨p₁, .cons hstore hinits, hrest⟩

/-- A store that fails ends the stores of a list. -/
theorem Stores.not_append {done rest : List (Nat × Word)} {p p₁ p₂ p' : Program}
    {id : Nat} {value : Word} {failure : Failure} (h : Stores done p p₁)
    (hstore : Program.store id value p₁ = .error failure p₂) :
    ¬Stores (done ++ (id, value) :: rest) p p' := by
  intro hall
  obtain ⟨p₃, hdone, hrest⟩ := hall.left
  obtain rfl := h.unique hdone
  cases hrest with
  | cons hstore' _ =>
      rw [hstore] at hstore'
      cases hstore'

theorem Stores.layout_eq {inits : List (Nat × Word)} {p p' : Program}
    (h : Stores inits p p') :
    p'.layout = p.layout := by
  induction h with
  | nil => rfl
  | cons hstore _ ih => exact ih.trans (store_keeps hstore).1

theorem Stores.code_eq {inits : List (Nat × Word)} {p p' : Program}
    (h : Stores inits p p') :
    p'.code = p.code := by
  induction h with
  | nil => rfl
  | cons hstore _ ih => exact ih.trans (store_keeps hstore).2

end Program

namespace Machine

/-! ## The account of a history -/

/-- Between `m` and `m'` the given initial values are stored, and nothing else
happens. -/
structure Initializes (m : Machine) (stored : List (Nat × Word))
    (m' : Machine) : Prop where
  stores : Program.Stores stored m.program m'.program
  count : m'.initsStored = m.initsStored + stored.length
  others : m'.stack = m.stack ∧ m'.host = m.host ∧ m'.config = m.config ∧ m'.ip = m.ip

/-- What an event does, with the initial values that it stores.  Only a machine that
counts as initialised executes instructions, and it starts with the first one. -/
inductive Event.Does : Event → Machine → List (Nat × Word) → Machine → Prop
  | init {m m' : Machine} {stored : List (Nat × Word)} (h : Initializes m stored m') :
      Does .init m stored m'
  | aborted {m m' : Machine} {stored : List (Nat × Word)} {fuel : Nat}
      (h : Initializes m stored m') (hm' : m'.initialized = false) :
      Does (.run fuel) m stored m'
  | cycle {m m₁ m' : Machine} {stored : List (Nat × Word)} {fuel k : Nat}
      (h : Initializes m stored m₁) (hm₁ : m₁.initialized = true)
      (hadvances : Advances k m₁.start m') : Does (.run fuel) m stored m'
  | other {event : Event} {m : Machine} (hinit : event ≠ .init)
      (hrun : ∀ fuel, event ≠ .run fuel) : Does event m [] (m.after event)

/-- The account of a history: all initial values that it stores, in the order of their
stores. -/
inductive Course : List Event → Machine → List (Nat × Word) → Machine → Prop
  | nil (m : Machine) : Course [] m [] m
  | cons {event : Event} {events : List Event} {m m₁ m' : Machine}
      {stored log : List (Nat × Word)} (h : event.Does m stored m₁)
      (hrest : Course events m₁ log m') : Course (event :: events) m (stored ++ log) m'

variable {m m' : Machine}

theorem storeInits_eq_ok_iff {inits : List (Nat × Word)} :
    storeInits inits m = .ok () m' ↔
      ∃ p, Program.Stores inits m.program p ∧
        m' = { m with program := p, initsStored := m.initsStored + inits.length } := by
  induction inits generalizing m with
  | nil =>
      constructor
      · intro h
        cases h
        exact ⟨_, .nil _, rfl⟩
      · rintro ⟨p, hstores, rfl⟩
        cases hstores
        rfl
  | cons first rest ih =>
      obtain ⟨id, value⟩ := first
      simp only [storeInits, storeInit_eq]
      cases hstore : Program.store id value m.program with
      | error failure p =>
          refine iff_of_false (by simp) ?_
          rintro ⟨p', hstores, -⟩
          cases hstores with
          | cons hstore' _ =>
              rw [hstore] at hstore'
              cases hstore'
      | ok _ program =>
          simp only [ih]
          have hcount : m.initsStored + 1 + rest.length =
              m.initsStored + ((id, value) :: rest).length := by
            rw [List.length_cons, Nat.add_assoc, Nat.add_comm 1]
          rw [hcount]
          constructor
          · rintro ⟨p, hstores, rfl⟩
            exact ⟨p, .cons hstore hstores, rfl⟩
          · rintro ⟨p, hstores, rfl⟩
            cases hstores with
            | cons hstore' hrest =>
                rw [hstore] at hstore'
                cases hstore'
                exact ⟨p, hrest, rfl⟩

/-- A failure names the variable of the first store that fails; the stores before it are
done. -/
theorem exists_of_storeInits_error {inits : List (Nat × Word)} {failure : Failure}
    (h : storeInits inits m = .error failure m') :
    ∃ done id value rest p source p', inits = done ++ (id, value) :: rest ∧
      Program.Stores done m.program p ∧ Program.store id value p = .error source p' ∧
      failure = .atInit (p.variableName id) source ∧
      m' = { m with program := p, initsStored := m.initsStored + done.length } := by
  rcases storeInits_cases inits m with ⟨m₁, hall⟩ |
    ⟨done, id, value, rest, m₁, source, p', hsplit, hdone, hstore, hfailed⟩
  · rw [h] at hall
    cases hall
  · obtain ⟨p, hstores, rfl⟩ := storeInits_eq_ok_iff.mp hdone
    rw [h] at hfailed
    cases hfailed
    exact ⟨done, id, value, rest, p, source, p', hsplit, hstores, hstore, rfl, rfl⟩

/-! ## One call -/

def remaining (m : Machine) : List (Nat × Word) :=
  m.program.inits.drop m.initsStored

/-- What a call of `init` does with the initial values that are left: it stores them
all, or it stores those before one that cannot be stored, is left with this one and the
others, and names its variable. -/
theorem init_outcome (hm : m.initialized = true → m.remaining = []) :
    (∃ p, Program.Stores m.remaining m.program p ∧
      init m = .ok ()
        { m with
          program := p
          initsStored := m.initsStored + m.remaining.length
          initialized := true }) ∨
    ∃ done id value rest p source p', m.remaining = done ++ (id, value) :: rest ∧
      m.initialized = false ∧ Program.Stores done m.program p ∧
      Program.store id value p = .error source p' ∧
      init m = .error (.atInit (p.variableName id) source)
        { m with program := p, initsStored := m.initsStored + done.length } := by
  rcases init_cases m with ⟨hinitialized, hok⟩ | ⟨_, m', hstored, hok⟩ |
    ⟨hinitialized, failure, m', hstored, herror⟩
  · refine .inl ⟨m.program, ?_, ?_⟩
    · rw [hm hinitialized]
      exact .nil _
    · rw [hok, hm hinitialized, ← hinitialized]
      rfl
  · obtain ⟨p, hstores, rfl⟩ := storeInits_eq_ok_iff.mp hstored
    exact .inl ⟨p, hstores, hok⟩
  · obtain ⟨done, id, value, rest, p, source, p', hremaining, hstores, hstore, rfl,
      rfl⟩ := exists_of_storeInits_error hstored
    exact .inr ⟨done, id, value, rest, p, source, p', hremaining, hinitialized, hstores,
      hstore, herror⟩

theorem init_eq_error_iff (hm : m.initialized = true → m.remaining = []) :
    (∃ failure m', init m = .error failure m') ↔
      ¬∃ p, Program.Stores m.remaining m.program p := by
  rcases init_outcome hm with ⟨p, hstores, hinit⟩ |
    ⟨done, id, value, rest, p, source, p', hsplit, _, hdone, hstore, hinit⟩
  · exact iff_of_false (by simp [hinit]) (not_not_intro ⟨p, hstores⟩)
  · refine iff_of_true ⟨_, _, hinit⟩ ?_
    rintro ⟨p₁, hstores⟩
    rw [hsplit] at hstores
    exact hdone.not_append hstore hstores

theorem initialized_of_init (h : init m = .ok () m') :
    m'.initialized = true := by
  rcases init_cases m with ⟨hinitialized, hok⟩ | ⟨_, _, _, hok⟩ | ⟨_, _, _, _, herror⟩
  · rw [hok] at h
    cases h
    exact hinitialized
  · rw [hok] at h
    cases h
    rfl
  · rw [herror] at h
    cases h

/-- A cycle after a successful call of `init` is the cycle without that call. -/
theorem run_of_init (h : init m = .ok () m') (fuel : Nat) :
    run fuel m' = run fuel m := by
  rw [run_of_initialized (initialized_of_init h), run, h]
  rfl

/-- A cycle whose initialisation fails has executed nothing. -/
theorem run_of_init_error {failure : Failure} (h : init m = .error failure m')
    (fuel : Nat) :
    run fuel m = .error failure m' := by
  rw [run, h]

/-- A cycle is finished by a `halt` that some instructions after the initialisation lead
to. -/
theorem run_finished_cases {fuel : Nat} {report : CycleReport}
    (h : run fuel m = .ok (.finished report) m') :
    ∃ m₁ k, init m = .ok () m₁ ∧ k < m₁.budget fuel ∧ Advances k m₁.start m' ∧
      step m' = .ok .halt m' ∧ report = ⟨k + 1, m'.stack.size⟩ := by
  cases hinit : init m with
  | error failure m₁ =>
      rw [run_of_init_error hinit] at h
      cases h
  | ok _ m₁ =>
      rw [← run_of_init hinit, run_eq_iff (initialized_of_init hinit)
        fun m₂ _ => m₂.exhausted_ne_finished] at h
      obtain ⟨_, hk, hends⟩ := h
      cases hends with
      | finished hadvances hhalt => exact ⟨m₁, _, rfl, hk, hadvances, hhalt, rfl⟩

/-- A cycle fails because its initialisation does, or because an instruction does after
some others, or because it is cut off. -/
theorem run_error_cases {fuel : Nat} {failure : Failure}
    (h : run fuel m = .error failure m') :
    init m = .error failure m' ∨
      ∃ m₁ k, init m = .ok () m₁ ∧ Advances k m₁.start m' ∧
        (step m' = .error failure m' ∨
          ∃ limit, failure = .stepLimitExceeded limit) := by
  cases hinit : init m with
  | error failure' m₁ =>
      rw [run_of_init_error hinit] at h
      cases h
      exact .inl rfl
  | ok _ m₁ =>
      rw [← run_of_init hinit, run_of_initialized (initialized_of_init hinit)] at h
      obtain ⟨k, m₂, hadvances, _, _, hend⟩ :=
        runFrom_cases 0 (m₁.cycleFuel fuel) m₁.start
      rw [h] at hend
      refine .inr ⟨m₁, k, rfl, ?_⟩
      rcases hend with ⟨_, hend⟩ | ⟨limit, _, hend⟩ | ⟨_, hstep, hend⟩ | ⟨_, hend⟩
      · cases hend
      · cases hend
        exact ⟨hadvances, .inr ⟨limit, rfl⟩⟩
      · cases hend
        exact ⟨hadvances, .inl hstep⟩
      · cases hend

/-- Initialisation leaves stack, host and instructions alone. -/
theorem init_keeps (h : init m = .ok () m') :
    m'.stack = m.stack ∧ m'.host = m.host ∧ m'.program.code = m.program.code := by
  rcases init_cases m with ⟨_, hok⟩ | ⟨_, m₁, hstored, hok⟩ | ⟨_, _, _, _, herror⟩
  · rw [hok] at h
    cases h
    exact ⟨rfl, rfl, rfl⟩
  · rw [hok] at h
    cases h
    obtain ⟨p, hstores, rfl⟩ := storeInits_eq_ok_iff.mp hstored
    exact ⟨rfl, rfl, hstores.code_eq⟩
  · rw [herror] at h
    cases h

/-! ## Histories -/

/-- What holds of a machine `m` that has come about from `m₀` by a history.  It has
counted some of the initial values; a machine that counts as initialised has counted all
of them, and one that does not has executed nothing. -/
structure Counted (m₀ m : Machine) : Prop where
  layout : m.program.layout = m₀.program.layout
  stored_le : m.initsStored ≤ m₀.program.inits.length
  complete : m.initialized = true → m.initsStored = m₀.program.inits.length
  untouched : m.initialized = false →
    m.stack = m₀.stack ∧ m.ip = m₀.ip ∧ m.host = m₀.host

variable {m₀ : Machine}

theorem Counted.remaining_eq (h : Counted m₀ m) :
    m.remaining = m₀.program.inits.drop m.initsStored := by
  rw [remaining, Program.inits_of_layout_eq h.layout]

theorem Counted.remaining_eq_nil (h : Counted m₀ m) (hm : m.initialized = true) :
    m.remaining = [] := by
  rw [h.remaining_eq, h.complete hm, List.drop_length]

theorem Counted.initsStored_add (h : Counted m₀ m) :
    m.initsStored + m.remaining.length = m₀.program.inits.length := by
  rw [h.remaining_eq, List.length_drop]
  exact Nat.add_sub_cancel' h.stored_le

/-- What changes nothing but the program, and keeps its layout, keeps the count. -/
theorem Counted.of_program (h : Counted m₀ m) {p : Program}
    (hp : p.layout = m.program.layout) :
    Counted m₀ { m with program := p } :=
  ⟨hp.trans h.layout, h.stored_le, h.complete, h.untouched⟩

/-- The values that a call stores are the next ones of the list. -/
theorem Counted.take_append (h : Counted m₀ m) {done rest : List (Nat × Word)}
    (hremaining : m.remaining = done ++ rest) :
    m₀.program.inits.take m.initsStored ++ done =
      m₀.program.inits.take (m.initsStored + done.length) := by
  rw [List.take_add, ← h.remaining_eq, hremaining, List.take_left]

/-- The variable of a value that is left is declared, and has kept its name. -/
theorem Counted.exists_variable (h : Counted m₀ m) {done rest : List (Nat × Word)}
    {id : Nat} {value : Word} (hremaining : m.remaining = done ++ (id, value) :: rest)
    {p : Program} (hp : p.layout = m.program.layout) :
    ∃ v, m₀.program.vars[id]? = some v ∧ p.variableName id = v.name := by
  have hmem : (id, value) ∈ m₀.program.inits := by
    apply List.mem_of_mem_drop (i := m.initsStored)
    rw [← h.remaining_eq, hremaining]
    simp
  obtain ⟨v, hv, _⟩ := Program.mem_inits_iff.mp hmem
  refine ⟨v, hv, ?_⟩
  rw [Program.variableName_of_layout_eq (hp.trans h.layout), Program.variableName, hv]

/-- A call of `init` stores initial values that are left, and nothing else. -/
theorem Counted.init (h : Counted m₀ m) :
    ∃ stored, Initializes m stored (m.after .init) ∧ Counted m₀ (m.after .init) ∧
      m₀.program.inits.take m.initsStored ++ stored =
        m₀.program.inits.take (m.after .init).initsStored := by
  rcases init_outcome h.remaining_eq_nil with ⟨p, hstores, hinit⟩ |
    ⟨done, id, value, rest, p, source, p', hremaining, hm, hstores, _, hinit⟩
  · simp only [after, Event.perform, hinit]
    refine ⟨m.remaining, ⟨hstores, rfl, rfl, rfl, rfl, rfl⟩, ?_, ?_⟩
    · exact ⟨hstores.layout_eq.trans h.layout, h.initsStored_add.le,
        fun _ => h.initsStored_add, by simp⟩
    · exact h.take_append (List.append_nil _).symm
  · simp only [after, Event.perform, hinit]
    have hle := h.initsStored_add
    rw [hremaining, List.length_append] at hle
    refine ⟨done, ⟨hstores, rfl, rfl, rfl, rfl, rfl⟩, ?_, h.take_append hremaining⟩
    exact ⟨hstores.layout_eq.trans h.layout, by dsimp only; omega, by simp [hm],
      fun _ => h.untouched hm⟩

/-- The instructions of a cycle store no initial values. -/
theorem Counted.advances (h : Counted m₀ m) (hm : m.initialized = true) {k : Nat}
    (hadvances : Advances k m.start m') :
    Counted m₀ m' ∧ m'.initsStored = m.initsStored := by
  have hstart : Counted m₀ m.start ∧ m.start.initialized = true ∧
      m.start.initsStored = m.initsStored :=
    ⟨⟨h.layout, h.stored_le, h.complete, by simp [start, hm]⟩, hm, rfl⟩
  have hkept := hadvances.invariant
    (P := fun m₁ => Counted m₀ m₁ ∧ m₁.initialized = true ∧
      m₁.initsStored = m.initsStored) ?_ hstart
  · exact ⟨hkept.1, hkept.2.2⟩
  rintro m₁ m₂ flow ⟨hcounted, hinitialized, hcount⟩ hstep _
  obtain ⟨i, s, _, hexecute, rfl⟩ := step_ok_cases hstep
  have hlayout := (execute_keeps hexecute).1.trans hcounted.layout
  cases flow with
  | next | jump target | halt =>
      exact ⟨⟨hlayout, hcounted.stored_le, hcounted.complete,
        by simp [follow, hinitialized]⟩, hinitialized, hcount⟩

/-- A cycle leaves behind what its initialisation does, if that fails, or what some of
its instructions do after that. -/
theorem after_run_cases (m : Machine) (fuel : Nat) :
    ((∃ failure m₁, Machine.init m = .error failure m₁) ∧
        m.after (.run fuel) = m.after .init) ∨
      ∃ m₁ k, Machine.init m = .ok () m₁ ∧
        Advances k m₁.start (m.after (.run fuel)) := by
  cases hinit : Machine.init m with
  | error failure m₁ =>
      refine .inl ⟨⟨failure, m₁, rfl⟩, ?_⟩
      simp only [after, Event.perform, Action.bind_run, run_of_init_error hinit, hinit]
  | ok _ m₁ =>
      right
      refine ⟨m₁, ?_⟩
      obtain ⟨k, m', hadvances, _, _, hend⟩ :=
        runFrom_cases 0 (m₁.cycleFuel fuel) m₁.start
      have hrun : run fuel m = runFrom 0 (m₁.cycleFuel fuel) m₁.start := by
        rw [run, hinit]
        rfl
      refine ⟨k, rfl, ?_⟩
      rcases hend with ⟨_, hend⟩ | ⟨_, _, hend⟩ | ⟨_, _, hend⟩ | ⟨_, hend⟩
      all_goals
        simp only [after, Event.perform, Action.bind_run, hrun, hend]
        exact hadvances

theorem initialized_of_init_error {failure : Failure}
    (h : Machine.init m = .error failure m') :
    m'.initialized = false := by
  rcases init_cases m with ⟨_, hok⟩ | ⟨_, _, _, hok⟩ | ⟨hm, _, m₁, hstored, herror⟩
  · rw [hok] at h
    cases h
  · rw [hok] at h
    cases h
  · rw [herror] at h
    cases h
    obtain ⟨_, _, _, _, _, _, _, _, _, _, _, rfl⟩ := exists_of_storeInits_error hstored
    exact hm

/-- The account of one event, and the values that it adds to those that were counted. -/
theorem Counted.after (h : Counted m₀ m) (event : Event) :
    ∃ stored, event.Does m stored (m.after event) ∧ Counted m₀ (m.after event) ∧
      m₀.program.inits.take m.initsStored ++ stored =
        m₀.program.inits.take (m.after event).initsStored := by
  -- What happens from outside changes the program alone, and keeps its layout.
  have hother : ∀ {p : Program}, event ≠ .init → (∀ fuel, event ≠ .run fuel) →
      p.layout = m.program.layout → m.after event = { m with program := p } →
      ∃ stored, event.Does m stored (m.after event) ∧ Counted m₀ (m.after event) ∧
        m₀.program.inits.take m.initsStored ++ stored =
          m₀.program.inits.take (m.after event).initsStored := by
    intro p hinit hrun hlayout hafter
    refine ⟨[], .other hinit hrun, ?_, ?_⟩
    · rw [hafter]
      exact h.of_program hlayout
    · rw [hafter, List.append_nil]
  cases event with
  | init =>
      obtain ⟨stored, hinitializes, hcounted⟩ := h.init
      exact ⟨stored, .init hinitializes, hcounted⟩
  | run fuel =>
      obtain ⟨stored, hinitializes, hcounted, htake⟩ := h.init
      rcases after_run_cases m fuel with ⟨⟨failure, m₁, hinit⟩, hafter⟩ |
        ⟨m₁, k, hinit, hadvances⟩
      · have hm₁ : m.after .init = m₁ := by
          simp only [Machine.after, Event.perform, hinit]
        rw [hafter]
        refine ⟨stored, .aborted hinitializes ?_, hcounted, htake⟩
        rw [hm₁]
        exact initialized_of_init_error hinit
      · have hm₁ : m.after .init = m₁ := by
          simp only [Machine.after, Event.perform, hinit]
        rw [hm₁] at hinitializes hcounted htake
        have hinitialized := initialized_of_init hinit
        obtain ⟨hcounted', hcount⟩ := hcounted.advances hinitialized hadvances
        refine ⟨stored, .cycle hinitializes hinitialized hadvances, hcounted', ?_⟩
        rw [hcount, htake]
  | store id value =>
      cases hstore : Program.store id value m.program with
      | ok _ p =>
          refine hother (by simp) (by simp) (Program.store_keeps hstore).1 ?_
          simp only [Machine.after, Event.perform, onState, State.onProgram,
            Action.zoom, hstore]
      | error failure p =>
          obtain rfl := Program.store_atomic id value _ _ _ hstore
          refine hother (by simp) (by simp) rfl ?_
          simp only [Machine.after, Event.perform, onState, State.onProgram,
            Action.zoom, hstore]
  | poke segment offset patch =>
      exact hother (by simp) (by simp)
        (Program.layout_poke m.program segment offset patch) rfl
  | move id cell =>
      exact hother (by simp) (by simp)
        (Program.layout_moveVariable m.program id cell) rfl
  | append i => exact hother (by simp) (by simp) (Program.layout_append m.program i) rfl

theorem Counted.course (h : Counted m₀ m) (events : List Event) :
    ∃ log, Course events m log (events.foldl Machine.after m) ∧
      Counted m₀ (events.foldl Machine.after m) ∧
      m₀.program.inits.take m.initsStored ++ log =
        m₀.program.inits.take (events.foldl Machine.after m).initsStored := by
  induction events generalizing m with
  | nil => exact ⟨[], .nil m, h, List.append_nil _⟩
  | cons event rest ih =>
      obtain ⟨stored, hdoes, hcounted, htake⟩ := h.after event
      obtain ⟨log, hcourse, hcounted', htake'⟩ := ih hcounted
      refine ⟨stored ++ log, .cons hdoes hcourse, hcounted', ?_⟩
      rw [← List.append_assoc, htake, List.foldl_cons, htake']

theorem counted_of_new {program : Program} {config : MachineConfig} {host : Host}
    (h : Machine.new program config host = .ok m₀) :
    m₀.program = program ∧ m₀.initsStored = 0 ∧ Counted m₀ m₀ := by
  obtain ⟨stack, _, h⟩ := bind_eq_ok_iff.mp h
  cases h
  exact ⟨rfl, rfl, rfl, Nat.zero_le _, nofun, fun _ => ⟨rfl, rfl, rfl⟩⟩

/-- Values that have been counted stay counted. -/
theorem Counted.initsStored_after (h : Counted m₀ m)
    (hm : m.initsStored = m₀.program.inits.length) (events : List Event) :
    (events.foldl Machine.after m).initsStored = m₀.program.inits.length := by
  obtain ⟨log, _, hcounted, htake⟩ := h.course events
  have hlength := congrArg List.length htake
  rw [hm, List.take_length, List.length_append, List.length_take] at hlength
  have hle := hcounted.stored_le
  omega

/-- A call of `init` that has nothing left to store changes nothing but the flag. -/
theorem Counted.init_of_complete (h : Counted m₀ m)
    (hm : m.initsStored = m₀.program.inits.length) :
    Machine.init m = .ok () { m with initialized := true } := by
  have hremaining : m.remaining = [] := by rw [h.remaining_eq, hm, List.drop_length]
  rcases init_outcome h.remaining_eq_nil with ⟨p, hstores, hinit⟩ |
    ⟨done, _, _, _, _, _, _, hsplit, _⟩
  · rw [hremaining] at hstores
    cases hstores
    rw [hinit, hremaining]
    rfl
  · rw [hremaining] at hsplit
    simp at hsplit

end Machine

open Machine

/-- Initial values are stored exactly once.  Take a machine for a program and any
history of it.  The initial values are those of the variables that declare one, in the
order of declaration.  The history has an account, in which the values that were stored
are a first part of them.  A call of `init` stores the others, each in its turn, and
then counts as done; if one of these stores fails, then the call fails and names the
variable, and this is the one that the next call begins with.  A cycle goes on from
there with the first instruction, or it fails as `init` does.  As long as some values
are not stored, stack, instruction pointer and host are as at first; and once all of
them are, a call of `init` stores nothing, and a cycle is its instructions, whatever
happens in between. -/
theorem initial_values_are_stored_once {program : Program} {config : MachineConfig}
    {host : Host} {m₀ : Machine} (hnew : Machine.new program config host = .ok m₀)
    (events : List Event) :
    let m := events.foldl after m₀
    let inits := program.inits
    let left := inits.drop m.initsStored
    (inits.Pairwise (fun first second => first.1 < second.1) ∧
      ∀ id value, (id, value) ∈ inits ↔
        ∃ v, program.vars[id]? = some v ∧ v.init = some value) ∧
    (m.initsStored ≤ inits.length ∧ Course events m₀ (inits.take m.initsStored) m) ∧
    ((∃ p, Program.Stores left m.program p ∧
        let m' : Machine :=
          { m with program := p, initsStored := inits.length, initialized := true }
        init m = .ok () m' ∧
          ∀ fuel, run fuel m = runFrom 0 (m.cycleFuel fuel) { m' with ip := 0 } ∧
            run fuel m' = run fuel m) ∨
      ∃ done id value rest v p source p',
        left = done ++ (id, value) :: rest ∧ Program.Stores done m.program p ∧
        Program.store id value p = .error source p' ∧ program.vars[id]? = some v ∧
        let m' : Machine :=
          { m with program := p, initsStored := m.initsStored + done.length }
        init m = .error (.atInit v.name source) m' ∧
          inits.drop m'.initsStored = (id, value) :: rest ∧
          ∀ fuel, run fuel m = .error (.atInit v.name source) m') ∧
    ((∃ failure m', init m = .error failure m') ↔
      ¬∃ p, Program.Stores left m.program p) ∧
    (m.initsStored < inits.length →
      m.initialized = false ∧ m.stack = m₀.stack ∧ m.ip = m₀.ip ∧ m.host = m₀.host) ∧
    (m.initsStored = inits.length → ∀ later : List Event,
      let m' := later.foldl after m
      m'.initsStored = inits.length ∧
        init m' = .ok () { m' with initialized := true } ∧
        ∀ fuel, run fuel m' =
          runFrom 0 (m'.cycleFuel fuel) { m' with initialized := true, ip := 0 }) := by
  intro m inits left
  obtain ⟨rfl, hzero, hstart⟩ := counted_of_new hnew
  obtain ⟨log, hcourse, hcounted, htake⟩ := hstart.course events
  have hlog : log = inits.take m.initsStored := by
    rwa [hzero, List.take_zero, List.nil_append] at htake
  have hremaining : m.remaining = left := hcounted.remaining_eq
  have houtcome := init_outcome hcounted.remaining_eq_nil
  rw [hcounted.initsStored_add, hremaining] at houtcome
  refine ⟨⟨Program.pairwise_inits _, fun _ _ => Program.mem_inits_iff⟩,
    ⟨hcounted.stored_le, hlog ▸ hcourse⟩, ?_, ?_, ?_, ?_⟩
  · rcases houtcome with ⟨p, hstores, hinit⟩ |
      ⟨done, id, value, rest, p, source, p', hsplit, _, hstores, hstore, hinit⟩
    · refine .inl ⟨p, hstores, hinit, fun fuel => ⟨?_, run_of_init hinit fuel⟩⟩
      rw [run, hinit]
      rfl
    · obtain ⟨v, hv, hname⟩ :=
        hcounted.exists_variable (hremaining.trans hsplit) hstores.layout_eq
      rw [hname] at hinit
      refine .inr ⟨done, id, value, rest, v, p, source, p', hsplit, hstores, hstore, hv,
        hinit, ?_, run_of_init_error hinit⟩
      change inits.drop (m.initsStored + done.length) = (id, value) :: rest
      rw [← List.drop_drop]
      change left.drop done.length = (id, value) :: rest
      rw [hsplit, List.drop_left]
  · rw [← hremaining]
    exact init_eq_error_iff hcounted.remaining_eq_nil
  · intro hlt
    have hm : m.initialized = false := by
      rw [← Bool.not_eq_true]
      intro hm
      exact absurd (hcounted.complete hm) hlt.ne
    exact ⟨hm, hcounted.untouched hm⟩
  · intro hall later m'
    obtain ⟨_, _, hcounted', _⟩ := hcounted.course later
    have hall' : m'.initsStored = inits.length := hcounted.initsStored_after hall later
    have hinit := hcounted'.init_of_complete hall'
    refine ⟨hall', hinit, fun fuel => ?_⟩
    rw [run, hinit]
    rfl

/-- The second of three variables lies outside its region, so that two calls fail there;
the first variable is overwritten from outside between them and is not stored again.
After the second variable has been moved, a cycle stores the other two values, and
nothing is stored after that. -/
theorem initial_values_are_stored_once_after_failures :
    let program : Program :=
      { memory := { regions := #[⟨"m", .owned { cells := 3 }⟩] }
        vars :=
          #[{ name := "a", region := 0, encoding := .le64, cell := 0, init := some 1 },
            { name := "b", region := 0, encoding := .le64, cell := 5, init := some 2 },
            { name := "c", region := 0, encoding := .le64, cell := 1, init := some 3 }]
        code := #[.halt] }
    let m₀ : Machine :=
      { program, stack := { capacity := 32 }, host := {}, config := {} }
    let failing : List Event := [.init, .store 0 9, .run 5]
    let events : List Event := failing ++ [.move 1 2, .run 5]
    let m := events.foldl after m₀
    Machine.new program {} {} = .ok m₀ ∧
      Course failing m₀ [(0, 1)] (failing.foldl after m₀) ∧
      (failing.foldl after m₀).stack = m₀.stack ∧
      Course events m₀ [(0, 1), (1, 2), (2, 3)] m ∧
      m.program.load 0 = .ok 9 ∧ m.program.load 1 = .ok 2 ∧ m.program.load 2 = .ok 3 ∧
      ∀ later : List Event, init (later.foldl after m) =
        .ok () { later.foldl after m with initialized := true } := by
  intro program m₀ failing events m
  have hnew : Machine.new program {} {} = .ok m₀ := rfl
  have hone : (failing.foldl after m₀).initsStored = 1 := by decide +kernel
  have hthree : m.initsStored = 3 := by decide +kernel
  have hinits : program.inits = [(0, 1), (1, 2), (2, 3)] := by decide +kernel
  obtain ⟨_, ⟨_, hfailing⟩, _, _, huntouched, _⟩ :=
    initial_values_are_stored_once hnew failing
  obtain ⟨_, ⟨_, hall⟩, _, _, _, hdone⟩ := initial_values_are_stored_once hnew events
  rw [hone, hinits] at hfailing
  rw [hone, hinits] at huntouched
  rw [hinits] at hdone
  change Course events m₀ (program.inits.take m.initsStored) m at hall
  rw [hthree, hinits] at hall
  exact ⟨hnew, hfailing, (huntouched (by decide)).2.1, hall, by decide +kernel,
    by decide +kernel, by decide +kernel, fun later => (hdone hthree later).2.1⟩

end CyclicStack
