import CyclicStack.Proofs.Load.Blame

/-!
# The names of a loaded program and their values

A name of a loaded program stands for one region, constant, variable, source or sink, so
that no look-up depends on the order in which it is made.  The value of a constant and
the initial value of a variable come from the only line about them; a constant always
has one.

The values are followed through the lines: what a draft holds for a name is what the
lines read so far assign to it.  A further line changes this for its own name, which no
other constant or variable has.
-/

namespace CyclicStack

namespace Load

open Text

/-! ## What lines assign to a name -/

/-- The lines that give a value to a name. -/
def initLines (lines : List Line) (name : String) : List Line :=
  lines.filter (initName? · = some name)

/-- What lines assign to a name whose literals are read in the given way: nothing, or
the value on the only line about it. -/
inductive Assigned (lines : List Line) (name : String)
    (read? : List Char → Option Word) :
    Option Word → Prop
  | nothing (h : initLines lines name = []) : Assigned lines name read? none
  | value {line : Line} {literal : String} {value : Word}
      (h : initLines lines name = [line])
      (hwords : line.words = [name, literal])
      (hread : read? literal.toList = some value) :
      Assigned lines name read? (some value)

section

variable {lines : List Line} {line : Line} {name other literal : String}
  {read? : List Char → Option Word} {value : Word} {held : Option Word}

theorem initName?_of_words (h : line.words = [name, literal]) :
    initName? line = some name := by
  rw [initName?, h]

theorem initLines_concat_self (h : initName? line = some name) :
    initLines (lines ++ [line]) name = initLines lines name ++ [line] := by
  simp [initLines, h]

theorem initLines_concat_of_ne (h : initName? line = some other) (hne : name ≠ other) :
    initLines (lines ++ [line]) name = initLines lines name := by
  simp [initLines, h, hne.symm]

theorem Assigned.concat_of_ne (h : Assigned lines name read? held)
    (hline : initName? line = some other) (hne : name ≠ other) :
    Assigned (lines ++ [line]) name read? held := by
  have hlines := @initLines_concat_of_ne lines line name other hline hne
  cases h with
  | nothing h => exact .nothing (hlines.trans h)
  | value h hwords hread => exact .value (hlines.trans h) hwords hread

theorem Assigned.concat (h : Assigned lines name read? none)
    (hwords : line.words = [name, literal])
    (hread : read? literal.toList = some value) :
    Assigned (lines ++ [line]) name read? (some value) := by
  cases h with
  | nothing h =>
      refine .value ?_ hwords hread
      rw [initLines_concat_self (initName?_of_words hwords), h, List.nil_append]

end

/-! ## Values in a draft -/

namespace Draft

/-- The draft holds what the lines assign. -/
structure Holds (lines : List Line) (d : Draft) : Prop where
  constants : ∀ c ∈ d.constants, Assigned lines c.name c.domain.read? c.value
  vars : ∀ v ∈ d.program.vars, Assigned lines v.name variableValue? v.init

variable {d d' : Draft} {lines : List Line} {line : Line} {name : String}

theorem Sound.ne_name (hd : d.Sound) {c : Constant} (hc : c ∈ d.constants)
    {v : Variable} (hv : v ∈ d.program.vars) :
    c.name ≠ v.name :=
  (List.nodup_append.mp hd.nodup).2.2 _ (List.mem_map_of_mem hc) _
    (List.mem_map_of_mem (Array.mem_toList_iff.mpr hv))

theorem Sound.eq_of_constant? (hd : d.Sound) {c c' : Constant}
    (hc : d.constant? name = some c) (hc' : c' ∈ d.constants) (hname : c'.name = name) :
    c' = c :=
  List.inj_on_of_nodup_map (List.nodup_append.mp hd.nodup).1 hc'
    (List.mem_of_find?_eq_some hc)
    (hname.trans (name_of_constant? hc).symm)

theorem Sound.variableId?_eq_some_iff (hd : d.Sound) {id : Nat} :
    d.program.variableId? name = some id ↔ ∃ v, d.program.vars[id]? = some v ∧
      v.name = name :=
  findIdx?_key_eq_some_iff (List.nodup_append.mp hd.nodup).2.1

theorem Holds.setConstant (hsound : d.Sound) (hd : d.Holds lines) {c : Constant}
    (hc : d.constant? name = some c) (hnew : c.value = none) {literal : String}
    {value : Word} (hread : c.domain.read? literal.toList = some value)
    (hwords : line.words = [name, literal]) :
    (d.setConstant name value).Holds (lines ++ [line]) := by
  have hline := initName?_of_words hwords
  have hmem := List.mem_of_find?_eq_some hc
  refine ⟨?_, ?_⟩
  · intro c' hc'
    obtain ⟨old, hold, rfl⟩ := List.mem_map.mp hc'
    split_ifs with hname
    · -- The constant that was found is the only one of its name, so the literal is read
      -- in its domain.
      obtain rfl := hsound.eq_of_constant? hc hold hname
      have hassigned := hd.constants old hold
      rw [hnew] at hassigned
      exact hassigned.concat (hname ▸ hwords) hread
    · exact (hd.constants old hold).concat_of_ne hline hname
  · intro v hv
    rw [← name_of_constant? hc] at hline
    exact (hd.vars v hv).concat_of_ne hline (hsound.ne_name hmem hv).symm

theorem Holds.setInit (hsound : d.Sound) (hd : d.Holds lines)
    (hconstant : d.constant? name = none) {id : Nat}
    (hid : d.program.variableId? name = some id) {v : Variable}
    (hv : d.program.vars[id]? = some v) (hnew : v.init = none) {literal : String}
    {value : Word} (hread : variableValue? literal.toList = some value)
    (hwords : line.words = [name, literal]) :
    (d.setInit id value).Holds (lines ++ [line]) := by
  have hline := initName?_of_words hwords
  obtain ⟨_, hv', hname⟩ := hsound.variableId?_eq_some_iff.mp hid
  obtain rfl := Option.some.inj (hv.symm.trans hv')
  refine ⟨?_, ?_⟩
  · intro c hc
    have hne : c.name ≠ name := by
      simpa using List.find?_eq_none.mp hconstant c hc
    exact (hd.constants c hc).concat_of_ne hline hne
  · intro w hw
    obtain ⟨k, hk⟩ := Array.mem_iff_getElem?.mp hw
    by_cases hkid : id = k
    · rw [Draft.setInit, Array.getElem?_modify, if_pos hkid, ← hkid, hv,
        Option.map_some] at hk
      obtain rfl := Option.some.inj hk
      have hassigned := hd.vars v (Array.mem_of_getElem? hv)
      rw [hnew] at hassigned
      exact hassigned.concat (hname ▸ hwords) hread
    · rw [Draft.setInit, Array.getElem?_modify, if_neg hkid] at hk
      refine (hd.vars w (Array.mem_of_getElem? hk)).concat_of_ne hline ?_
      intro heq
      have hidk := hsound.variableId?_eq_some_iff.mpr ⟨w, hk, heq⟩
      exact hkid (Option.some.inj (hid.symm.trans hidk))

theorem Holds.addInit (hsound : d.Sound) (hd : d.Holds lines)
    (h : d.addInit line = .ok d') :
    d'.Holds (lines ++ [line]) := by
  obtain ⟨name, literal, hwords, hinit⟩ := addInit_eq_ok_iff.mp h
  cases hinit with
  | constant hc hnew hread => exact hd.setConstant hsound hc hnew hread hwords
  | var hconstant hid hv hnew hread =>
      exact hd.setInit hsound hconstant hid hv hnew hread hwords

/-- A declaration gives no value to anything. -/
theorem Holds.declare (hd : d.Holds []) (h : d.declare line = .ok d') :
    d'.Holds [] := by
  rcases declare_cases h with ⟨name, domain, _, _, rfl⟩ | ⟨v, _, _, hinit, _, rfl⟩
  · refine ⟨?_, hd.vars⟩
    intro c hc
    rcases List.mem_append.mp hc with hold | hnew
    · exact hd.constants c hold
    · obtain rfl := List.mem_singleton.mp hnew
      exact .nothing rfl
  · refine ⟨hd.constants, ?_⟩
    intro w hw
    rcases Array.mem_push.mp hw with hold | rfl
    · exact hd.vars w hold
    · exact hinit ▸ .nothing rfl

/-! ## Constants by their declarations -/

/-- There is a constant for each line that declares one, in the domain of its tag. -/
def HasConstants (lines : List Line) (d : Draft) : Prop :=
  ∀ line ∈ lines, ∀ tag name, line.words = ["const", tag, name] →
    ∃ c ∈ d.constants, c.name = name ∧ Domain.ofTag? tag = some c.domain

theorem mem_constants_of_declare (h : d.declare line = .ok d') {c : Constant}
    (hc : c ∈ d.constants) :
    c ∈ d'.constants := by
  rcases declare_cases h with ⟨_, _, _, _, rfl⟩ | ⟨_, _, _, _, _, rfl⟩
  · exact List.mem_append_left _ hc
  · exact hc

theorem exists_constant_of_declare (h : d.declare line = .ok d') {tag : String}
    (hwords : line.words = ["const", tag, name]) :
    ∃ c ∈ d'.constants, c.name = name ∧ Domain.ofTag? tag = some c.domain := by
  rw [Draft.declare, hwords] at h
  simp only [↓reduceIte] at h
  unfold declareConstant at h
  split at h
  · next domain hdomain =>
    obtain ⟨_, _, h⟩ := bind_eq_ok_iff.mp h
    obtain rfl := Except.ok.inj h
    exact ⟨{ name, domain }, by simp, rfl, hdomain⟩
  · simp at h

theorem HasConstants.declare (hd : d.HasConstants lines) (h : d.declare line = .ok d') :
    d'.HasConstants (lines ++ [line]) := by
  intro other hother tag name hwords
  rcases List.mem_append.mp hother with hold | hnew
  · obtain ⟨c, hc, hname, hdomain⟩ := hd other hold tag name hwords
    exact ⟨c, mem_constants_of_declare h hc, hname, hdomain⟩
  · obtain rfl := List.mem_singleton.mp hnew
    exact exists_constant_of_declare h hwords

theorem HasConstants.addInit (hd : d.HasConstants lines) (h : d.addInit line = .ok d') :
    d'.HasConstants lines := by
  obtain ⟨name, value, _, hconstants⟩ := constants_of_addInit h
  intro other hother tag declared hwords
  obtain ⟨c, hc, hname, hdomain⟩ := hd other hother tag declared hwords
  rw [hconstants]
  refine ⟨_, List.mem_map_of_mem hc, ?_⟩
  split_ifs
  · exact ⟨hname, hdomain⟩
  · exact ⟨hname, hdomain⟩

/-! ## Drafts by the lines of their sections -/

/-- What is known of a draft once the given declarations and initial values have been
read. -/
structure Describes (vars inits : List Line) (d : Draft) : Prop where
  sound : d.Sound
  regions : (d.program.memory.regions.toList.map (·.name)).Nodup
  holds : d.Holds inits
  constants : d.HasConstants vars

theorem Describes.declareMemory {refusal : Refusal} (hd : d.Describes [] [])
    (h : d.declareMemory refusal line = .ok d') :
    d'.Describes [] [] := by
  have hsound := hd.sound.declareMemory h
  obtain ⟨name, storage, hnew, rfl⟩ := declareMemory_cases h
  refine ⟨hsound, ?_, ⟨hd.holds.constants, hd.holds.vars⟩, hd.constants⟩
  have hfresh : name ∉ d.program.memory.regions.toList.map (·.name) := by
    simpa [Memory.regionIndex?] using hnew
  simp only [addRegion, Program.addRegion, Array.toList_push, List.map_append,
    List.map_cons, List.map_nil]
  exact List.nodup_append.mpr ⟨hd.regions, List.nodup_singleton _, by
    rintro other hother _ hname rfl
    exact hfresh (List.mem_singleton.mp hname ▸ hother)⟩

theorem Describes.declare {vars : List Line} (hd : d.Describes vars [])
    (h : d.declare line = .ok d') :
    d'.Describes (vars ++ [line]) [] :=
  ⟨hd.sound.declare h, memory_of_declare h ▸ hd.regions, hd.holds.declare h,
   hd.constants.declare h⟩

theorem Describes.addInit {vars inits : List Line} (hd : d.Describes vars inits)
    (h : d.addInit line = .ok d') :
    d'.Describes vars (inits ++ [line]) :=
  ⟨hd.sound.addInit h, memory_of_addInit h ▸ hd.regions, hd.holds.addInit hd.sound h,
    hd.constants.addInit h⟩

end Draft

theorem describes_of_draft {segments : Segments} {placed : List Placed} {d : Draft}
    (h : draft segments placed = .ok d) :
    d.Describes (linesOf placed .vars) (linesOf placed .inits) := by
  obtain ⟨settings, _, h⟩ := bind_eq_ok_iff.mp h
  obtain ⟨d₁, hmemory, h⟩ := bind_eq_ok_iff.mp h
  obtain ⟨d₂, hvars, hinits⟩ := bind_eq_ok_iff.mp h
  have hempty : Draft.Describes [] []
      { program := { settings, memory := { segments := segments.existing } } } :=
    ⟨⟨List.nodup_nil, by simp [Draft.declared], by simp⟩, List.nodup_nil,
     ⟨by simp, by simp⟩,
      by simp [Draft.HasConstants]⟩
  have hfirst : d₁.Describes [] [] := foldlM_invariant (Draft.Describes [] [])
    (fun _ _ _ hd hstep => hd.declareMemory (mapError_eq_ok_iff.mp hstep))
      hempty hmemory
  have hsecond : d₂.Describes (linesOf placed .vars) [] :=
    eachLine_invariant (Draft.Describes · [])
      (fun _ _ _ _ hd hstep => hd.declare hstep) hfirst hvars
  exact eachLine_invariant (Draft.Describes (linesOf placed .vars))
    (fun _ _ _ _ hd hstep => hd.addInit hstep) hsecond hinits

theorem mem_of_constantValues {d : Draft} {values : List (String × Word)}
    (h : d.constantValues = .ok values) {c : Constant} (hc : c ∈ d.constants) :
    ∃ value, c.value = some value ∧ (c.name, value) ∈ values := by
  obtain ⟨k, hk⟩ := List.mem_iff_getElem?.mp hc
  obtain ⟨entry, hentry, hvalue⟩ := exists_getElem?_of_forall₂ (mapM_eq_ok_iff.mp h) hk
  split at hvalue
  · next value hsome =>
    obtain rfl := Except.ok.inj hvalue
    exact ⟨value, hsome, List.mem_of_getElem? hentry⟩
  · cases hvalue

/-! ## Lines of the program -/

def operand? (operations : List String) (line : Line) : Option String :=
  match line.first, line.more with
  | .word operation, [operand] =>
    if operation ∈ operations then some operand.text else none
  | _, _ => none

theorem exists_of_operand? {operations : List String} {line : Line} {name : String}
    (h : operand? operations line = some name) :
    ∃ operation ∈ operations, ∃ operand : Token, operand.text = name ∧
      line = ⟨line.number, .word operation, [operand]⟩ := by
  obtain ⟨number, first, more⟩ := line
  unfold operand? at h
  split at h
  · next operation operand hfirst hmore =>
    split_ifs at h with hmem
    obtain rfl : first = .word operation := hfirst
    obtain rfl : more = [operand] := hmore
    exact ⟨operation, hmem, operand, Option.some.inj h, rfl⟩
  · cases h

section

variable {names : Names} {line : Line} {name : String}

theorem Names.Unambiguous.not_constant_of_pops (h : names.Unambiguous) {i : Instruction}
    (hpops : names.Pops name i) :
    name ∉ names.constants.map Prod.fst := by
  rw [← lookup_eq_none_iff_not_mem]
  cases hpops with
  | var hv => exact h.lookup_variable hv
  | sink sink => exact (h.not_declared_of_isReserved (isReserved_sink sink)).1

theorem Reads.not_constant (h : names.Unambiguous) {statement : Statement}
    (hreads : Reads names line statement)
    (hline : operand? ["POP", "S"] line = some name) :
    name ∉ names.constants.map Prod.fst := by
  obtain ⟨operation, hoperation, operand, rfl, hshape⟩ := exists_of_operand? hline
  rw [hshape] at hreads
  have hread := (ofOperation_eq_ok_iff h line.number).mpr hreads
  have hpop : ∃ i, names.pop operand.text = .ok i := by
    simp only [List.mem_cons, List.not_mem_nil, or_false] at hoperation
    rcases hoperation with rfl | rfl
    · obtain ⟨i, hi, _⟩ := map_eq_ok_iff.mp hread
      exact ⟨i, hi⟩
    · obtain ⟨i, hi, _⟩ := map_eq_ok_iff.mp hread
      exact ⟨i, hi⟩
  obtain ⟨i, hi⟩ := hpop
  exact h.not_constant_of_pops (h.pop_eq_ok_iff.mp hi)

theorem Assembled.getElem?_of_constant (h : names.Unambiguous) {lines : List Line}
    {code : Array Instruction} {labels : List (String × Nat)}
    (hcode : Assembled names lines code labels) {k : Nat} (hk : lines[k]? = some line)
    (hline : operand? ["PUSH", "L"] line = some name) {value : Word}
    (hvalue : (name, value) ∈ names.constants) :
    code[k]? = some (.pushConst value) := by
  obtain ⟨statement, i, hreads, hmeans, hi⟩ := hcode.meaning k line hk
  obtain ⟨operation, hoperation, operand, rfl, hshape⟩ := exists_of_operand? hline
  have hpush : Reads names line (.ready (.pushConst value)) := by
    rw [hshape]
    exact .push (by simpa using hoperation) (.constant hvalue)
  rw [hpush.unique h hreads] at hmeans
  cases hmeans
  exact hi

end

/-! ## Loaded programs -/

/-- Regions have different names, as have constants and variables, none of which has the
name of a source or a sink: each is found by its name. -/
structure DistinctNames (names : Names) (program : Program) : Prop where
  regions : (program.memory.regions.toList.map (·.name)).Nodup
  declared : names.declared.Nodup
  sources : ∀ source : Source, source.name ∉ names.declared
  sinks : ∀ sink : Sink, sink.name ∉ names.declared
  regionIndex? : ∀ i r, program.memory.regions[i]? = some r →
    program.memory.regionIndex? r.name = some i
  variableId? : ∀ i v, program.vars[i]? = some v → program.variableId? v.name = some i

/-- The tables of the names may be searched in any order. -/
structure Names.SearchedInAnyOrder (names : Names) : Prop where
  push : ∀ tables name, tables.Perm names.pushTables →
    Names.lookUp tables name = names.push name
  pop : ∀ tables name, tables.Perm names.popTables →
    Names.lookUp tables name = names.pop name

/-- Variables start with what the only line about them says, if there is one.  There is
one about each constant, and wherever the constant is pushed, it is the value on this
line. -/
structure ValuesFromLines (placed : List Placed) (program : Program) : Prop where
  vars : ∀ v ∈ program.vars,
    Assigned (linesOf placed .inits) v.name variableValue? v.init
  constants : ∀ declaration ∈ linesOf placed .vars, ∀ tag name,
    declaration.words = ["const", tag, name] →
      ∃ domain value, Domain.ofTag? tag = some domain ∧
        Assigned (linesOf placed .inits) name domain.read? (some value) ∧
        ∀ (k : Nat) (line : Line), (linesOf placed .program)[k]? = some line →
          operand? ["PUSH", "L"] line = some name →
            program.code[k]? = some (.pushConst value)

theorem Names.Unambiguous.searchedInAnyOrder {names : Names} (h : names.Unambiguous) :
    names.SearchedInAnyOrder where
  push _ name hperm :=
    ((h.foundOnce_pushTables name).lookUp_perm hperm).trans lookUp_pushTables
  pop _ name hperm :=
    ((h.foundOnce_popTables name).lookUp_perm hperm).trans lookUp_popTables

end Load

open Text in
/-- The names of a loaded program are unambiguous, and their values come from single
lines. -/
theorem loaded_names_are_unambiguous {segments : Load.Segments} {text : String}
    {program : Program} (h : load segments text = .ok program) :
    ∃ (placed : List Placed) (names : Load.Names), sections text.toList = .ok placed ∧
      names.vars = program.vars ∧
      names.constants.map Prod.fst =
        (linesOf placed .vars).filterMap Load.constantName? ∧
      Load.assemble names (linesOf placed .program) = .ok (program.code,
        program.labels) ∧
      Load.DistinctNames names program ∧ names.SearchedInAnyOrder ∧
      (∀ line ∈ linesOf placed .program, ∀ name,
        Load.operand? ["POP", "S"] line = some name →
        name ∉ names.constants.map Prod.fst) ∧
      Load.ValuesFromLines placed program := by
  obtain ⟨placed, hplaced, h⟩ := bind_eq_ok_iff.mp h
  obtain ⟨d, hdraft, h⟩ := bind_eq_ok_iff.mp h
  obtain ⟨constants, hconstants, h⟩ := bind_eq_ok_iff.mp h
  obtain ⟨⟨code, labels⟩, hassemble, h⟩ := bind_eq_ok_iff.mp h
  obtain rfl := Except.ok.inj h
  rw [mapError_eq_ok_iff] at hconstants
  have hd := Load.describes_of_draft hdraft
  have hnames := hd.sound.unambiguous hconstants
  have hassembled := Load.assembled_of_assemble hnames hassemble
  refine ⟨placed, ⟨constants, d.program.vars⟩, hplaced, rfl, ?_, hassemble, ?_,
    hnames.searchedInAnyOrder, ?_, hd.holds.vars, ?_⟩
  · rw [← Load.names_of_constantValues hconstants, (Load.valued_of_draft hdraft).names]
  · refine ⟨hd.regions, hnames.nodup, fun source =>
      hnames.not_mem_declared (isReserved_source source),
      fun sink => hnames.not_mem_declared (isReserved_sink sink), ?_, ?_⟩
    · intro i r hr
      exact (findIdx?_key_eq_some_iff hd.regions).mpr ⟨r, hr, rfl⟩
    · intro i v hv
      exact hd.sound.variableId?_eq_some_iff.mpr ⟨v, hv, rfl⟩
  · intro line hline name hname
    obtain ⟨k, hk⟩ := List.mem_iff_getElem?.mp hline
    obtain ⟨statement, _, hreads, _⟩ := hassembled.meaning k line hk
    exact hreads.not_constant hnames hname
  · intro declaration hdeclaration tag name hwords
    obtain ⟨c, hc, rfl, htag⟩ := hd.constants declaration hdeclaration tag name hwords
    obtain ⟨value, hvalue, hmem⟩ := Load.mem_of_constantValues hconstants hc
    refine ⟨c.domain, value, htag, hvalue ▸ hd.holds.constants c hc, ?_⟩
    intro k line hk hline
    exact hassembled.getElem?_of_constant hnames hk hline hmem

open Text in
/-- A constant is declared between two variables and given its value before one of
them. -/
theorem loaded_names_are_unambiguous_three_names :
    let text :=
      "__MEM\nlocal m 2\nlocal n 1\n__VAR\nm@1 le16 x\nconst i c\nn@0 le64 y\n" ++
      "__INIT\nc -1\ny 2.0\n__PROGRAM\nPUSH c\nPOP x\nL y\nS STDOUTD\n"
    let program : Program :=
      { memory := { regions := #[⟨"m", .owned { cells := 2 }⟩,
        ⟨"n", .owned { cells := 1 }⟩] }
        vars :=
          #[{ name := "x", region := 0, encoding := .le16, cell := 1 },
            { name := "y", region := 1, encoding := .le64, cell := 0,
              init := some 0x4000000000000000 }]
        code :=
          #[.pushConst 0xFFFFFFFFFFFFFFFF, .popVar 0, .pushVar 1,
            .popSink .stdoutd, .halt] }
    load .none text = .ok program ∧
      ∃ (placed : List Placed) (names : Load.Names), sections text.toList = .ok placed ∧
        names.declared = ["c", "x", "y"] ∧ Load.DistinctNames names program ∧
        names.SearchedInAnyOrder ∧ Load.ValuesFromLines placed program := by
  intro text program
  have hload : load .none text = .ok program := by decide +kernel
  obtain ⟨placed, names, hplaced, hvars, hconstants, _, hdistinct, horder,
    _, hvalues⟩ :=
    loaded_names_are_unambiguous hload
  have hnames : (sections text.toList).toOption.map
      (fun placed => (linesOf placed .vars).filterMap Load.constantName?) =
        some ["c"] := by
    decide +kernel
  rw [hplaced] at hnames
  have hdeclared : names.declared = ["c", "x", "y"] := by
    rw [Load.Names.declared, hconstants.trans (Option.some.inj hnames), hvars]
    rfl
  exact ⟨hload, placed, names, hplaced, hdeclared, hdistinct, horder, hvalues⟩

end CyclicStack
