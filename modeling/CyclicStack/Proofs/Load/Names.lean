import CyclicStack.Proofs.Load.Draft

/-!
# What names stand for

The names of a sound draft are unambiguous: each one stands for a constant, a variable,
a source or a sink, and for one of them only.  So the instruction found by a push or a
pop is described by what the name stands for, and the order in which the tables of the
names are searched does not matter.
-/

namespace CyclicStack

/-- A key that no two elements share finds the element that has it. -/
theorem find?_key_eq_some_iff {α : Type} {key : α → String} {all : List α}
    {name : String} {a : α} (hall : ∀ a, a ∈ all) (hnodup : (all.map key).Nodup) :
    all.find? (key · == name) = some a ↔ key a = name := by
  refine ⟨fun h => by simpa using List.find?_some h, fun h => ?_⟩
  cases hfind : all.find? (key · == name) with
  | none => exact absurd (beq_iff_eq.mpr h) (List.find?_eq_none.mp hfind a (hall a))
  | some b =>
      have hb : key b = name := by simpa using List.find?_some hfind
      rw [List.inj_on_of_nodup_map hnodup (hall b) (hall a) (hb.trans h.symm)]

/-- A key that no two elements share finds the position of the element that has it. -/
theorem findIdx?_key_eq_some_iff {α : Type} {key : α → String} {items : Array α}
    {name : String} {i : Nat} (hnodup : (items.toList.map key).Nodup) :
    items.findIdx? (key · == name) = some i ↔ ∃ a, items[i]? = some a ∧
      key a = name := by
  constructor
  · intro hfind
    obtain ⟨hlt, hname, _⟩ := Array.findIdx?_eq_some_iff_getElem.mp hfind
    exact ⟨_, Array.getElem?_eq_getElem hlt, by simpa using hname⟩
  · rintro ⟨a, ha, rfl⟩
    obtain ⟨hi, rfl⟩ := Array.getElem?_eq_some_iff.mp ha
    refine Array.findIdx?_eq_some_iff_getElem.mpr ⟨hi, beq_self_eq_true _, ?_⟩
    intro j hj hsame
    have hkeys : (items.toList.map key)[j]? = (items.toList.map key)[i]? := by
      simpa [hi, hj.trans hi] using hsame
    have hlength : j < (items.toList.map key).length := by
      simpa using hj.trans hi
    exact hj.ne ((List.getElem?_inj hlength hnodup).mp hkeys)

theorem Source.ofName?_eq_some_iff {name : String} {source : Source} :
    Source.ofName? name = some source ↔ source.name = name :=
  find?_key_eq_some_iff (by intro a; cases a <;> decide) (by decide)

theorem Sink.ofName?_eq_some_iff {name : String} {sink : Sink} :
    Sink.ofName? name = some sink ↔ sink.name = name :=
  find?_key_eq_some_iff (by intro a; cases a <;> decide) (by decide)

theorem Operator.ofMnemonic?_eq_some_iff {name : String} {op : Operator} :
    Operator.ofMnemonic? name = some op ↔
      op.mnemonic = name ∨ name = "ATAN2" ∧ op = .atanxy := by
  have hfind : Operator.all.find? (·.mnemonic == name) = some op ↔ op.mnemonic = name :=
    find?_key_eq_some_iff (by intro a; cases a <;> decide) (by decide +kernel)
  have hother : op.mnemonic ≠ "ATAN2" := by
    cases op <;> decide
  unfold ofMnemonic?
  split_ifs with hname
  · subst hname
    simp [hother, eq_comm]
  · simp [hfind, hname]

theorem isReserved_source (source : Source) :
    isReserved source.name = true := by
  simp [isReserved, Source.ofName?_eq_some_iff.mpr rfl]

theorem isReserved_sink (sink : Sink) :
    isReserved sink.name = true := by
  simp [isReserved, Sink.ofName?_eq_some_iff.mpr rfl]

theorem lookup_eq_some_iff_mem {β : Type} {entries : List (String × β)} {name : String}
    {b : β} (h : (entries.map Prod.fst).Nodup) :
    entries.lookup name = some b ↔ (name, b) ∈ entries := by
  induction entries with
  | nil => simp
  | cons entry rest ih =>
      obtain ⟨key, c⟩ := entry
      rw [List.map_cons, List.nodup_cons] at h
      rw [List.lookup_cons, List.mem_cons]
      by_cases hkey : name = key
      · subst hkey
        have hrest : (name, b) ∉ rest :=
          fun hmem => h.1 (List.mem_map.mpr ⟨_, hmem, rfl⟩)
        simp [hrest, eq_comm]
      · have hne : (name == key) = false := beq_eq_false_iff_ne.mpr hkey
        simp [hne, hkey, ih h.2]

theorem lookup_eq_none_iff_not_mem {β : Type} {entries : List (String × β)}
    {name : String} :
    entries.lookup name = none ↔ name ∉ entries.map Prod.fst := by
  rw [List.lookup_eq_none_iff]
  simp only [List.mem_map, not_exists, not_and, bne_iff_ne]
  exact ⟨fun h p hp heq => h p hp heq.symm, fun h p hp heq => h p hp heq.symm⟩

namespace Load

namespace Names

def declared (names : Names) : List String :=
  names.constants.map Prod.fst ++ names.vars.toList.map (·.name)

/-- No two constants or variables share a name, and none of them has the name of a
source or a sink. -/
structure Unambiguous (names : Names) : Prop where
  nodup : names.declared.Nodup
  not_reserved : ∀ name ∈ names.declared, isReserved name = false

/-- The instructions that push what a name stands for. -/
inductive Pushes (names : Names) : String → Instruction → Prop
  | constant {name : String} {value : Word} (h : (name, value) ∈ names.constants) :
      Pushes names name (.pushConst value)
  | var {id : Nat} {v : Variable} (h : names.vars[id]? = some v) :
      Pushes names v.name (.pushVar id)
  | source (source : Source) : Pushes names source.name (.pushSource source)

/-- The instructions that pop into what a name stands for. -/
inductive Pops (names : Names) : String → Instruction → Prop
  | var {id : Nat} {v : Variable} (h : names.vars[id]? = some v) :
      Pops names v.name (.popVar id)
  | sink (sink : Sink) : Pops names sink.name (.popSink sink)

variable {names : Names} {name : String}

theorem variableId?_eq_none_iff :
    names.variableId? name = none ↔ name ∉ names.vars.toList.map (·.name) := by
  simp [variableId?]

theorem name_mem_of_getElem? {id : Nat} {v : Variable} (h : names.vars[id]? = some v) :
    v.name ∈ names.vars.toList.map (·.name) :=
  List.mem_map_of_mem (Array.mem_toList_iff.mpr (Array.mem_of_getElem? h))

theorem Unambiguous.lookup_eq_some_iff (h : names.Unambiguous) {value : Word} :
    names.constants.lookup name = some value ↔ (name, value) ∈ names.constants :=
  lookup_eq_some_iff_mem (List.nodup_append.mp h.nodup).1

theorem Unambiguous.variableId?_eq_some_iff (h : names.Unambiguous) {id : Nat} :
    names.variableId? name = some id ↔ ∃ v, names.vars[id]? = some v ∧ v.name = name :=
  findIdx?_key_eq_some_iff (List.nodup_append.mp h.nodup).2.1

theorem Unambiguous.lookup_variable (h : names.Unambiguous) {id : Nat} {v : Variable}
    (hv : names.vars[id]? = some v) :
    names.constants.lookup v.name = none := by
  rw [lookup_eq_none_iff_not_mem]
  intro hmem
  exact (List.nodup_append.mp h.nodup).2.2 _ hmem _ (name_mem_of_getElem? hv) rfl

theorem Unambiguous.not_mem_declared (h : names.Unambiguous)
    (hname : isReserved name = true) :
    name ∉ names.declared := by
  intro hmem
  rw [h.not_reserved name hmem] at hname
  cases hname

theorem Unambiguous.not_declared_of_isReserved (h : names.Unambiguous)
    (hname : isReserved name = true) :
    names.constants.lookup name = none ∧ names.variableId? name = none := by
  have hnot := h.not_mem_declared hname
  rw [declared, List.mem_append, not_or] at hnot
  exact ⟨lookup_eq_none_iff_not_mem.mpr hnot.1, variableId?_eq_none_iff.mpr hnot.2⟩

/-- A push finds what the name stands for. -/
theorem Unambiguous.push_eq_ok_iff (h : names.Unambiguous) {i : Instruction} :
    names.push name = .ok i ↔ names.Pushes name i := by
  constructor
  · intro hpush
    unfold push at hpush
    split at hpush
    · next value _ _ hlookup =>
      cases hpush
      exact .constant (h.lookup_eq_some_iff.mp hlookup)
    · next id _ _ hid =>
      cases hpush
      obtain ⟨v, hv, rfl⟩ := h.variableId?_eq_some_iff.mp hid
      exact .var hv
    · next source _ _ hsource =>
      cases hpush
      rw [← Source.ofName?_eq_some_iff.mp hsource]
      exact .source source
    · cases hpush
  · intro hpushes
    unfold push
    cases hpushes with
    | constant hmem => simp only [h.lookup_eq_some_iff.mpr hmem]
    | var hv =>
        simp only [h.lookup_variable hv, h.variableId?_eq_some_iff.mpr ⟨_, hv, rfl⟩]
    | source source =>
        obtain ⟨hconstant, hvariable⟩ :=
          h.not_declared_of_isReserved (isReserved_source source)
        simp only [hconstant, hvariable, Source.ofName?_eq_some_iff.mpr rfl]

/-- A pop finds what the name stands for, and no constant. -/
theorem Unambiguous.pop_eq_ok_iff (h : names.Unambiguous) {i : Instruction} :
    names.pop name = .ok i ↔ names.Pops name i := by
  constructor
  · intro hpop
    unfold pop at hpop
    split at hpop
    · next id _ _ hid =>
      cases hpop
      obtain ⟨v, hv, rfl⟩ := h.variableId?_eq_some_iff.mp hid
      exact .var hv
    · cases hpop
    · next sink _ _ hsink =>
      cases hpop
      rw [← Sink.ofName?_eq_some_iff.mp hsink]
      exact .sink sink
    · cases hpop
  · intro hpops
    unfold pop
    cases hpops with
    | var hv => simp only [h.variableId?_eq_some_iff.mpr ⟨_, hv, rfl⟩]
    | sink sink =>
        obtain ⟨hconstant, hvariable⟩ :=
          h.not_declared_of_isReserved (isReserved_sink sink)
        simp only [hconstant, hvariable, Sink.ofName?_eq_some_iff.mpr rfl]

/-! ## The order of the tables -/

/-- A table gives for some names what is done with them. -/
abbrev Table := String → Option (Except Cause Instruction)

def lookUp (tables : List Table) (name : String) : Except Cause Instruction :=
  (tables.findSome? (· name)).getD (.error (.unknownName name))

def pushTables (names : Names) : List Table :=
  [fun name => (names.constants.lookup name).map (.ok <| .pushConst ·),
    fun name => (names.variableId? name).map (.ok <| .pushVar ·),
    fun name => (Source.ofName? name).map (.ok <| .pushSource ·)]

/-- The tables that a pop looks a name up in.  A constant is found there to be
refused. -/
def popTables (names : Names) : List Table :=
  [fun name => (names.variableId? name).map (.ok <| .popVar ·),
    fun name => (names.constants.lookup name).map fun _ =>
      .error (.constantTarget name),
    fun name => (Sink.ofName? name).map (.ok <| .popSink ·)]

theorem lookUp_pushTables : lookUp names.pushTables name = names.push name := by
  unfold push
  cases hconstant : names.constants.lookup name <;>
    cases hid : names.variableId? name <;>
    cases hsource : Source.ofName? name <;>
      simp [lookUp, pushTables, hconstant, hid, hsource]

theorem lookUp_popTables : lookUp names.popTables name = names.pop name := by
  unfold pop
  cases hconstant : names.constants.lookup name <;>
    cases hid : names.variableId? name <;>
    cases hsink : Sink.ofName? name <;> simp [lookUp, popTables, hconstant, hid, hsink]

/-- At most one of the tables has the name. -/
def FoundOnce (tables : List Table) (name : String) : Prop :=
  tables.Pairwise fun first second => first name = none ∨ second name = none

theorem FoundOnce.lookUp_perm {tables tables' : List Table} (h : FoundOnce tables name)
    (hperm : tables'.Perm tables) :
    lookUp tables' name = lookUp tables name := by
  unfold lookUp
  congr 1
  induction hperm with
  | nil => rfl
  | cons table _ ih => simp only [List.findSome?_cons, ih (List.pairwise_cons.mp h).2]
  | swap first second rest =>
      rcases (List.pairwise_cons.mp h).1 second List.mem_cons_self
        with hnone | hnone <;> simp [List.findSome?_cons, hnone]
  | trans _ hsecond ih ih' =>
      exact (ih ((hsecond.pairwise_iff Or.symm).mpr h)).trans (ih' h)

theorem Unambiguous.constant_or_variable (h : names.Unambiguous) (name : String) :
    names.constants.lookup name = none ∨ names.variableId? name = none := by
  rw [lookup_eq_none_iff_not_mem, variableId?_eq_none_iff, ← not_and_or]
  rintro ⟨hconstant, hvariable⟩
  exact (List.nodup_append.mp h.nodup).2.2 name hconstant name hvariable rfl

theorem Unambiguous.declared_or_reserved (h : names.Unambiguous) (name : String) :
    (names.constants.lookup name = none ∧ names.variableId? name = none) ∨
      (Source.ofName? name = none ∧ Sink.ofName? name = none) := by
  by_cases hname : isReserved name = true
  · exact .inl (h.not_declared_of_isReserved hname)
  · exact .inr (by simpa [isReserved] using hname)

theorem foundOnce_triple {first second third : Table} :
    FoundOnce [first, second, third] name ↔
      (first name = none ∨ second name = none) ∧
      (first name = none ∨ third name = none) ∧
        (second name = none ∨ third name = none) := by
  simp [FoundOnce, and_assoc]

theorem Unambiguous.foundOnce_pushTables (h : names.Unambiguous) (name : String) :
    FoundOnce names.pushTables name := by
  rw [pushTables, foundOnce_triple]
  simp only [Option.map_eq_none_iff]
  rcases h.declared_or_reserved name with ⟨hconstant, hvariable⟩ | ⟨hsource, _⟩
  · exact ⟨.inl hconstant, .inl hconstant, .inl hvariable⟩
  · exact ⟨h.constant_or_variable name, .inr hsource, .inr hsource⟩

theorem Unambiguous.foundOnce_popTables (h : names.Unambiguous) (name : String) :
    FoundOnce names.popTables name := by
  rw [popTables, foundOnce_triple]
  simp only [Option.map_eq_none_iff]
  rcases h.declared_or_reserved name with ⟨hconstant, hvariable⟩ | ⟨_, hsink⟩
  · exact ⟨.inl hvariable, .inl hvariable, .inl hconstant⟩
  · exact ⟨(h.constant_or_variable name).symm, .inr hsink, .inr hsink⟩

end Names

theorem names_of_constantValues {d : Draft} {values : List (String × Word)}
    (h : d.constantValues = .ok values) :
    d.constants.map (·.name) = values.map Prod.fst := by
  rw [← List.forall₂_eq_eq_eq, List.forall₂_map_left_iff, List.forall₂_map_right_iff]
  refine (mapM_eq_ok_iff.mp h).imp ?_
  intro c entry hentry
  split at hentry
  · cases hentry
    rfl
  · cases hentry

theorem Draft.Sound.unambiguous {d : Draft} (hd : d.Sound)
    {values : List (String × Word)} (h : d.constantValues = .ok values) :
    Names.Unambiguous ⟨values, d.program.vars⟩ := by
  have hdeclared : Names.declared ⟨values, d.program.vars⟩ = d.declared := by
    simp only [Names.declared, Draft.declared, names_of_constantValues h]
  exact ⟨hdeclared ▸ hd.nodup, hdeclared ▸ hd.not_reserved⟩

end Load

end CyclicStack
