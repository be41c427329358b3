import CyclicStack.Proofs.Load.Names

/-!
# Correctness of the assembler

A line of the program section reads as a statement, which is an instruction or a jump to
a named label.  This file says which lines do, what instruction a statement means once
the code is known, and when a list of lines can be assembled.  The assembler succeeds
exactly on those lists, and its code consists of the meanings of the lines in their
order.

The listing that the first pass builds is described by the lines it has read: its labels
are at the positions of the lines that declare them.  One line keeps this description,
so all of them do, and the second pass needs no other fact about the first.
-/

namespace CyclicStack

namespace Load

/-! ## Lines, statements and their meanings -/

/-- The line is a single label of the given name. -/
def Declares (line : Text.Line) (name : String) : Prop :=
  line.first = .label name ∧ line.more = []

/-- The statement that a line reads as. -/
inductive Reads (names : Names) : Text.Line → Statement → Prop
  | label {number : Nat} {name : String} (h : name ≠ "") :
      Reads names ⟨number, .label name, []⟩ (.ready (.label name))
  | operator {number : Nat} (op : Operator) :
      Reads names ⟨number, .word op.mnemonic, []⟩ (.ready (.apply op))
  | atan2 {number : Nat} :
      Reads names ⟨number, .word "ATAN2", []⟩ (.ready (.apply .atanxy))
  | push {number : Nat} {word : String} {operand : Text.Token} {i : Instruction}
      (hword : word = "PUSH" ∨ word = "L") (h : names.Pushes operand.text i) :
      Reads names ⟨number, .word word, [operand]⟩ (.ready i)
  | pop {number : Nat} {word : String} {operand : Text.Token} {i : Instruction}
      (hword : word = "POP" ∨ word = "S") (h : names.Pops operand.text i) :
      Reads names ⟨number, .word word, [operand]⟩ (.ready i)
  | jump {number : Nat} (condition : Condition) (operand : Text.Token) :
      Reads names ⟨number, .word condition.mnemonic,
        [operand]⟩ (.branch condition operand.text)

/-- The labels of the lines suit the statement at a position: the label that it declares
is declared by no other line, and the label that it jumps to by some line. -/
def Resolves (lines : List Text.Line) (k : Nat) : Statement → Prop
  | .ready (.label name) =>
    ∀ (j : Nat) (line : Text.Line), lines[j]? = some line → Declares line name → j = k
  | .ready _ => True
  | .branch _ name =>
    ∃ (j : Nat) (line : Text.Line), lines[j]? = some line ∧ Declares line name

/-- The line at a position can be assembled. -/
def Acceptable (names : Names) (lines : List Text.Line) (k : Nat)
    (line : Text.Line) : Prop :=
  ∃ statement, Reads names line statement ∧ Resolves lines k statement

/-- What a statement means in a code: a jump leads to the label that it names. -/
inductive Means (code : Array Instruction) : Statement → Instruction → Prop
  | ready (i : Instruction) : Means code (.ready i) i
  | branch {condition : Condition} {name : String} {target : Nat}
      (h : code[target]? = some (.label name)) :
      Means code (.branch condition name) (.jump condition target)

/-- The code of a list of lines: the meaning of each line at its place and a final
`halt`, with a table of the labels in it. -/
structure Assembled (names : Names) (lines : List Text.Line) (code : Array Instruction)
    (labels : List (String × Nat)) : Prop where
  size : code.size = lines.length + 1
  last : code[lines.length]? = some .halt
  meaning : ∀ (k : Nat) (line : Text.Line), lines[k]? = some line →
    ∃ statement i, Reads names line statement ∧ Means code statement i ∧
      code[k]? = some i
  labels : ∀ (name : String) (k : Nat), labels.lookup name = some k ↔
    code[k]? = some (.label name)

/-! ## Reading one line -/

variable {names : Names}

theorem Names.Pushes.ne_label {name label : String} {i : Instruction}
    (h : names.Pushes name i) :
    i ≠ .label label := by
  cases h <;> simp

theorem Names.Pops.ne_label {name label : String} {i : Instruction}
    (h : names.Pops name i) :
    i ≠ .label label := by
  cases h <;> simp

theorem reads_label_iff {line : Text.Line} {name : String} :
    Reads names line (.ready (.label name)) ↔ Declares line name ∧ name ≠ "" := by
  constructor
  · intro h
    generalize hstatement : Statement.ready (.label name) = statement at h
    cases h with
    | label hname =>
        cases hstatement
        exact ⟨⟨rfl, rfl⟩, hname⟩
    | push _ h =>
        cases hstatement
        exact absurd rfl h.ne_label
    | pop _ h =>
        cases hstatement
        exact absurd rfl h.ne_label
    | operator | atan2 | jump => cases hstatement
  · rintro ⟨⟨hfirst, hmore⟩, hname⟩
    obtain ⟨number, first, more⟩ := line
    cases hfirst
    cases hmore
    exact .label hname

theorem Reads.of_declares {line : Text.Line} {name : String} {statement : Statement}
    (h : Reads names line statement) (hline : Declares line name) :
    statement = .ready (.label name) := by
  obtain ⟨hfirst, hmore⟩ := hline
  cases h with
  | label => cases hfirst; rfl
  | operator | atan2 => cases hfirst
  | push | pop | jump => cases hmore

theorem label?_eq_some_iff {statement : Statement} {name : String} :
    statement.label? = some name ↔ statement = .ready (.label name) := by
  unfold Statement.label?
  split
  · simp
  · next hnot =>
    constructor
    · intro h
      cases h
    · intro h
      exact absurd h (hnot name)

theorem ofOperation_eq_ok_iff (hnames : names.Unambiguous) (number : Nat)
    {operation : String} {operand : Text.Token} {statement : Statement} :
    Statement.ofOperation names operation operand.text = .ok statement ↔
      Reads names ⟨number, .word operation, [operand]⟩ statement := by
  constructor
  · intro h
    unfold Statement.ofOperation at h
    split at h
    · obtain ⟨i, hpush, rfl⟩ := map_eq_ok_iff.mp h
      exact .push (by simp) (hnames.push_eq_ok_iff.mp hpush)
    · obtain ⟨i, hpush, rfl⟩ := map_eq_ok_iff.mp h
      exact .push (by simp) (hnames.push_eq_ok_iff.mp hpush)
    · obtain ⟨i, hpop, rfl⟩ := map_eq_ok_iff.mp h
      exact .pop (by simp) (hnames.pop_eq_ok_iff.mp hpop)
    · obtain ⟨i, hpop, rfl⟩ := map_eq_ok_iff.mp h
      exact .pop (by simp) (hnames.pop_eq_ok_iff.mp hpop)
    · cases h
      exact .jump .always operand
    · cases h
      exact .jump .ifZero operand
    · cases h
      exact .jump .ifNotZero operand
    · cases h
  · intro h
    cases h with
    | push hword h =>
        have hpush : Statement.ready <$> names.push operand.text = .ok (.ready _) :=
          map_eq_ok_iff.mpr ⟨_, hnames.push_eq_ok_iff.mpr h, rfl⟩
        rcases hword with rfl | rfl <;> exact hpush
    | pop hword h =>
        have hpop : Statement.ready <$> names.pop operand.text = .ok (.ready _) :=
          map_eq_ok_iff.mpr ⟨_, hnames.pop_eq_ok_iff.mpr h, rfl⟩
        rcases hword with rfl | rfl <;> exact hpop
    | jump condition operand => cases condition <;> rfl

/-- A line is read as the statement that it reads as, unless it declares a label once
more. -/
theorem ofLine_eq_ok_iff (hnames : names.Unambiguous) {labels : List (String × Nat)}
    {line : Text.Line} {statement : Statement} :
    Statement.ofLine names labels line = .ok statement ↔
      Reads names line statement ∧ ∀ name, Declares line name →
        labels.lookup name = none := by
  obtain ⟨number, first, more⟩ := line
  unfold Statement.ofLine
  dsimp only
  split
  · next name =>
    have hdeclares : ∀ other, Declares ⟨number, .label name, []⟩ other ↔
        name = other := by
      simp [Declares]
    simp only [hdeclares, forall_eq']
    split_ifs with hempty hseen
    · constructor
      · intro h
        cases h
      · rintro ⟨h, _⟩
        cases h.of_declares ⟨rfl, rfl⟩
        exact absurd hempty (reads_label_iff.mp h).2
    · constructor
      · intro h
        cases h
      · rintro ⟨_, hnone⟩
        rw [hnone] at hseen
        cases hseen
    · constructor
      · intro h
        cases h
        exact ⟨.label hempty, Option.not_isSome_iff_eq_none.mp hseen⟩
      · rintro ⟨h, _⟩
        rw [h.of_declares ⟨rfl, rfl⟩]
  · next operation operand =>
    rw [ofOperation_eq_ok_iff hnames number]
    simp [Declares]
  · next mnemonic =>
    simp only [Declares, reduceCtorEq, false_implies, implies_true, and_true]
    split
    · next op hop =>
      constructor
      · intro h
        cases h
        rcases Operator.ofMnemonic?_eq_some_iff.mp hop with rfl | ⟨rfl, rfl⟩
        · exact .operator op
        · exact .atan2
      · intro h
        have hread : ∃ op', statement = .ready (.apply op') ∧
            Operator.ofMnemonic? mnemonic = some op' := by
          cases h with
          | operator op =>
              exact ⟨op, rfl, Operator.ofMnemonic?_eq_some_iff.mpr (.inl rfl)⟩
          | atan2 =>
              exact ⟨_, rfl, Operator.ofMnemonic?_eq_some_iff.mpr (.inr ⟨rfl, rfl⟩)⟩
        obtain ⟨op', rfl, hop'⟩ := hread
        rw [hop] at hop'
        cases hop'
        rfl
    · next hnone =>
      constructor
      · intro h
        cases h
      · intro h
        cases h with
        | operator op =>
            rw [Operator.ofMnemonic?_eq_some_iff.mpr (.inl rfl)] at hnone
            cases hnone
        | atan2 => cases hnone
  · next hlabel hoperation hmnemonic =>
    constructor
    · intro h
      cases h
    · rintro ⟨h, _⟩
      cases h with
      | label => exact absurd rfl (hlabel _ rfl)
      | push | pop | jump => exact absurd rfl (hoperation _ _ rfl)
      | operator | atan2 => exact absurd rfl (hmnemonic _ rfl)

/-- A line reads in one way only. -/
theorem Reads.unique (hnames : names.Unambiguous) {line : Text.Line}
    {statement other : Statement} (h : Reads names line statement)
    (hother : Reads names line other) :
    other = statement := by
  have hline : Statement.ofLine names [] line = .ok statement :=
    (ofLine_eq_ok_iff hnames).mpr ⟨h, fun _ _ => rfl⟩
  rw [(ofLine_eq_ok_iff hnames).mpr ⟨hother, fun _ _ => rfl⟩] at hline
  cases hline
  rfl

/-! ## The first pass -/

/-- The listing of a list of lines: the statement of each line at its place, and each
label at the position of the line that declares it. -/
structure Lists (names : Names) (lines : List Text.Line) (l : Listing) : Prop where
  size : l.statements.size = lines.length
  reads : ∀ (k : Nat) (line : Text.Line), lines[k]? = some line →
    ∃ statement, Reads names line statement ∧ l.statements[k]? = some (line, statement)
  labels : ∀ (name : String) (k : Nat), l.labels.lookup name = some k ↔
    ∃ line, lines[k]? = some line ∧ Declares line name

theorem getElem?_concat_eq_some_iff {α : Type} {items : List α} {last a : α} {k : Nat} :
    (items ++ [last])[k]? = some a ↔ items[k]? = some a ∨ k = items.length ∧
      last = a := by
  rw [List.getElem?_append]
  split_ifs with hk
  · simp [hk.ne]
  · rw [List.getElem?_eq_none (Nat.not_lt.mp hk), List.getElem?_singleton]
    split_ifs with hlast
    · have hlength : k = items.length := by omega
      simp [hlength]
    · have hlength : k ≠ items.length := by omega
      simp [hlength]

theorem add_eq_ok_iff (hnames : names.Unambiguous) {l l' : Listing} {line : Text.Line} :
    l.add names line = .ok l' ↔
      ∃ statement, Reads names line statement ∧
        (∀ name, Declares line name → l.labels.lookup name = none) ∧
        l' = ⟨l.statements.push (line, statement),
          match statement.label? with
          | some name => l.labels ++ [(name, l.statements.size)]
          | none => l.labels⟩ := by
  unfold Listing.add
  rw [bind_eq_ok_iff]
  constructor
  · rintro ⟨statement, hline, h⟩
    cases h
    obtain ⟨hreads, hfresh⟩ := (ofLine_eq_ok_iff hnames).mp hline
    exact ⟨statement, hreads, hfresh, rfl⟩
  · rintro ⟨statement, hreads, hfresh, rfl⟩
    exact ⟨statement, (ofLine_eq_ok_iff hnames).mpr ⟨hreads, hfresh⟩, rfl⟩

theorem Lists.add (hnames : names.Unambiguous) {lines : List Text.Line}
    {line : Text.Line} {l l' : Listing} (hl : Lists names lines l)
    (h : l.add names line = .ok l') :
    Lists names (lines ++ [line]) l' := by
  obtain ⟨statement, hreads, hfresh, rfl⟩ := (add_eq_ok_iff hnames).mp h
  refine ⟨by simp [hl.size], ?_, ?_⟩
  · intro k other hk
    rcases getElem?_concat_eq_some_iff.mp hk with hold | ⟨rfl, rfl⟩
    · obtain ⟨st, hst, hget⟩ := hl.reads k other hold
      have hne : k ≠ l.statements.size := by
        rintro rfl
        simp at hget
      exact ⟨st, hst, by simpa [Array.getElem?_push, hne] using hget⟩
    · exact ⟨statement, hreads, by rw [← hl.size, Array.getElem?_push_size]⟩
  · intro name k
    simp only [getElem?_concat_eq_some_iff, or_and_right, exists_or, ← hl.labels]
    cases hlabel : statement.label? with
    | none =>
        have hnot : ¬Declares line name := by
          intro hline
          rw [label?_eq_some_iff.mpr (hreads.of_declares hline)] at hlabel
          cases hlabel
        simp [hnot]
    | some label =>
        have hstatement := label?_eq_some_iff.mp hlabel
        subst hstatement
        have hline := (reads_label_iff.mp hreads).1
        dsimp only
        rw [List.lookup_append]
        by_cases hname : name = label
        · subst hname
          simp [hfresh name hline, hline, hl.size, eq_comm]
        · have hnot : ¬Declares line name := by
            intro hother
            cases hreads.of_declares hother
            exact hname rfl
          have hsingle : [(label, l.statements.size)].lookup name = none := by
            simp [List.lookup_cons, beq_eq_false_iff_ne.mpr hname]
          simp [hnot, hsingle]

theorem Lists.empty : Lists names [] {} :=
  ⟨rfl, by simp, by simp⟩

theorem eachLine_cons_eq_ok_iff {σ : Type} {f : σ → Text.Line → Except Cause σ}
    {s s' : σ} {line : Text.Line} {rest : List Text.Line} :
    eachLine f s (line :: rest) = .ok s' ↔ ∃ t, f s line = .ok t ∧
      eachLine f t rest = .ok s' := by
  unfold eachLine
  simp only [List.foldlM_cons, bind_eq_ok_iff, mapError_eq_ok_iff]

/-- What holds of the lines read so far, and is kept by one more line, holds of all
lines in the end. -/
theorem eachLine_invariant {σ : Type} {f : σ → Text.Line → Except Cause σ}
    (P : List Text.Line → σ → Prop)
    (hstep : ∀ done s line s', P done s → f s line = .ok s' → P (done ++ [line]) s')
    {done rest : List Text.Line} {s s' : σ} (hs : P done s)
    (h : eachLine f s rest = .ok s') :
    P (done ++ rest) s' := by
  induction rest generalizing done s with
  | nil =>
      obtain rfl : s = s' := Except.ok.inj h
      simpa using hs
  | cons line rest ih =>
      obtain ⟨next, hnext, h⟩ := eachLine_cons_eq_ok_iff.mp h
      simpa using ih (hstep done s line next hs hnext) h

theorem Lists.eachLine (hnames : names.Unambiguous) {done rest : List Text.Line}
    {l l' : Listing} (hl : Lists names done l)
    (h : eachLine (Listing.add names) l rest = .ok l') :
    Lists names (done ++ rest) l' :=
  eachLine_invariant (Lists names) (fun _ _ _ _ hs hadd => hs.add hnames hadd) hl h

/-- Lines that can be assembled are all read: at each of them the labels above are other
ones. -/
theorem exists_eachLine (hnames : names.Unambiguous) {done rest : List Text.Line}
    {l : Listing}
    (hl : Lists names done l)
    (h : ∀ k line, (done ++ rest)[k]? = some line →
      Acceptable names (done ++ rest) k line) :
    ∃ l', eachLine (Listing.add names) l rest = .ok l' := by
  induction rest generalizing done l with
  | nil => exact ⟨l, rfl⟩
  | cons line rest ih =>
      obtain ⟨statement, hreads, hresolves⟩ := h done.length line (by simp)
      have hfresh : ∀ name, Declares line name → l.labels.lookup name = none := by
        intro name hline
        rw [hreads.of_declares hline] at hresolves
        by_contra hseen
        obtain ⟨j, hj⟩ := Option.ne_none_iff_exists'.mp hseen
        obtain ⟨other, hother, hdeclares⟩ := (hl.labels name j).mp hj
        have hlt : j < done.length := (List.getElem?_eq_some_iff.mp hother).1
        have hsame := hresolves j other
          (by rw [List.getElem?_append_left hlt, hother]) hdeclares
        omega
      have hadd := (add_eq_ok_iff hnames).mpr ⟨statement, hreads, hfresh, rfl⟩
      obtain ⟨l', hl'⟩ := ih (hl.add hnames hadd) (by simpa using h)
      exact ⟨l', eachLine_cons_eq_ok_iff.mpr ⟨_, hadd, hl'⟩⟩

/-! ## The second pass -/

theorem statementLink_eq_ok_iff {labels : List (String × Nat)} {statement : Statement}
    {i : Instruction} :
    statement.link labels = .ok i ↔
      statement = .ready i ∨ ∃ condition name target,
        statement = .branch condition name ∧ i = .jump condition target ∧
          labels.lookup name = some target := by
  cases statement with
  | ready instruction => simp [Statement.link]
  | branch condition name =>
      unfold Statement.link
      dsimp only
      split
      · next target hlookup => simp [hlookup, eq_comm]
      · next hlookup => simp [hlookup]

theorem listingLink_eq_ok_iff {l : Listing} {code : Array Instruction} :
    l.link = .ok code ↔
      ∃ instructions : List Instruction, code =
        (instructions ++ [Instruction.halt]).toArray ∧
        List.Forall₂ (fun entry i => entry.2.link l.labels = .ok i) l.statements.toList
          instructions := by
  unfold Listing.link
  simp only [bind_eq_ok_iff, mapM_eq_ok_iff, mapError_eq_ok_iff, List.push_toArray]
  constructor
  · rintro ⟨instructions, hlinked, h⟩
    cases h
    exact ⟨instructions, rfl, hlinked⟩
  · rintro ⟨instructions, rfl, hlinked⟩
    exact ⟨instructions, hlinked, rfl⟩

section

variable {lines : List Text.Line} {l : Listing} {code : Array Instruction}

theorem Lists.size_code (hl : Lists names lines l) (h : l.link = .ok code) :
    code.size = lines.length + 1 ∧ code[lines.length]? = some .halt := by
  obtain ⟨instructions, rfl, hlinked⟩ := listingLink_eq_ok_iff.mp h
  have hlength : instructions.length = lines.length := by
    rw [← hlinked.length_eq, Array.length_toList, hl.size]
  refine ⟨by simp [hlength], ?_⟩
  rw [List.getElem?_toArray, getElem?_concat_eq_some_iff]
  exact .inr ⟨hlength.symm, rfl⟩

theorem Lists.exists_getElem?_code (hl : Lists names lines l) (h : l.link = .ok code)
    {k : Nat} {line : Text.Line} (hline : lines[k]? = some line) :
    ∃ statement i, Reads names line statement ∧ statement.link l.labels = .ok i ∧
      code[k]? = some i := by
  obtain ⟨instructions, rfl, hlinked⟩ := listingLink_eq_ok_iff.mp h
  obtain ⟨statement, hreads, hget⟩ := hl.reads k line hline
  obtain ⟨i, hi, hlink⟩ :=
    exists_getElem?_of_forall₂ hlinked (Array.getElem?_toList ▸ hget)
  refine ⟨statement, i, hreads, hlink, ?_⟩
  rw [List.getElem?_toArray, getElem?_concat_eq_some_iff]
  exact .inl hi

/-- A label is in the code where a line declares it. -/
theorem Lists.getElem?_label_iff (hl : Lists names lines l) (h : l.link = .ok code)
    {name : String} {k : Nat} :
    code[k]? = some (.label name) ↔ ∃ line, lines[k]? = some line ∧
      Declares line name := by
  obtain ⟨hsize, hlast⟩ := hl.size_code h
  constructor
  · intro hcode
    have hlt : k < lines.length := by
      have hbound : k < code.size := (Array.getElem?_eq_some_iff.mp hcode).1
      have hne : k ≠ lines.length := by
        rintro rfl
        rw [hlast] at hcode
        cases hcode
      omega
    have hline := List.getElem?_eq_getElem hlt
    obtain ⟨statement, i, hreads, hlink, hi⟩ := hl.exists_getElem?_code h hline
    rw [hcode] at hi
    cases hi
    rcases statementLink_eq_ok_iff.mp hlink with rfl | ⟨_, _, _, _, hjump, _⟩
    · exact ⟨_, hline, (reads_label_iff.mp hreads).1⟩
    · cases hjump
  · rintro ⟨line, hline, hdeclares⟩
    obtain ⟨statement, i, hreads, hlink, hi⟩ := hl.exists_getElem?_code h hline
    rw [hreads.of_declares hdeclares] at hlink
    cases hlink
    exact hi

theorem Lists.assembled (hl : Lists names lines l) (h : l.link = .ok code) :
    Assembled names lines code l.labels := by
  obtain ⟨hsize, hlast⟩ := hl.size_code h
  have hlabels : ∀ (name : String) (k : Nat), l.labels.lookup name = some k ↔
      code[k]? = some (.label name) := by
    intro name k
    rw [hl.labels, hl.getElem?_label_iff h]
  refine ⟨hsize, hlast, ?_, hlabels⟩
  intro k line hline
  obtain ⟨statement, i, hreads, hlink, hi⟩ := hl.exists_getElem?_code h hline
  refine ⟨statement, i, hreads, ?_, hi⟩
  rcases statementLink_eq_ok_iff.mp hlink with rfl |
    ⟨condition, name, target, rfl, rfl, hlookup⟩
  · exact .ready i
  · exact .branch ((hlabels name target).mp hlookup)

theorem Lists.acceptable (hl : Lists names lines l) (h : l.link = .ok code) {k : Nat}
    {line : Text.Line} (hline : lines[k]? = some line) :
    Acceptable names lines k line := by
  obtain ⟨statement, i, hreads, hlink, hi⟩ := hl.exists_getElem?_code h hline
  refine ⟨statement, hreads, ?_⟩
  unfold Resolves
  split
  · next name =>
    intro j other hother hdeclares
    have hj := (hl.labels name j).mpr ⟨other, hother, hdeclares⟩
    have hk := (hl.labels name k).mpr ⟨line, hline, (reads_label_iff.mp hreads).1⟩
    rw [hj] at hk
    cases hk
    rfl
  · trivial
  · next condition name =>
    rcases statementLink_eq_ok_iff.mp hlink with hready |
      ⟨_, _, target, hbranch, _, hlookup⟩
    · cases hready
    · cases hbranch
      obtain ⟨other, hother, hdeclares⟩ := (hl.labels name target).mp hlookup
      exact ⟨target, other, hother, hdeclares⟩

theorem Lists.exists_link (hnames : names.Unambiguous) (hl : Lists names lines l)
    (h : ∀ k line, lines[k]? = some line → Acceptable names lines k line) :
    ∃ code, l.link = .ok code := by
  have hentries : ∀ entry ∈ l.statements.toList,
      ∃ i, entry.2.link l.labels = .ok i := by
    intro entry hentry
    obtain ⟨k, hk, rfl⟩ := List.getElem_of_mem hentry
    have hlt : k < lines.length := by
      simpa [hl.size] using hk
    have hline := List.getElem?_eq_getElem hlt
    obtain ⟨statement, hreads, hget⟩ := hl.reads k _ hline
    obtain ⟨other, hother, hresolves⟩ := h k _ hline
    cases hreads.unique hnames hother
    rw [← Array.getElem?_toList, List.getElem?_eq_getElem hk] at hget
    rw [Option.some.inj hget]
    cases statement with
    | ready i => exact ⟨i, rfl⟩
    | branch condition name =>
        obtain ⟨target, hdeclared⟩ := hresolves
        exact ⟨.jump condition target, statementLink_eq_ok_iff.mpr
          (.inr ⟨condition, name, target, rfl, rfl,
            (hl.labels name target).mpr hdeclared⟩)⟩
  obtain ⟨instructions, hlinked⟩ := exists_mapM_eq_ok hentries
  exact ⟨_, listingLink_eq_ok_iff.mpr ⟨instructions, rfl, mapM_eq_ok_iff.mp hlinked⟩⟩

end

/-! ## Both passes -/

theorem assemble_eq_ok_iff {lines : List Text.Line} {code : Array Instruction}
    {labels : List (String × Nat)} :
    assemble names lines = .ok (code, labels) ↔
      ∃ l, eachLine (Listing.add names) {} lines = .ok l ∧ l.link = .ok code ∧
        l.labels = labels := by
  unfold assemble
  simp only [bind_eq_ok_iff]
  constructor
  · rintro ⟨l, hl, _, hlink, h⟩
    cases h
    exact ⟨l, hl, hlink, rfl⟩
  · rintro ⟨l, hl, hlink, rfl⟩
    exact ⟨l, hl, code, hlink, rfl⟩

theorem assembled_of_assemble (hnames : names.Unambiguous) {lines : List Text.Line}
    {code : Array Instruction} {labels : List (String × Nat)}
    (h : assemble names lines = .ok (code, labels)) :
    Assembled names lines code labels := by
  obtain ⟨l, hl, hlink, rfl⟩ := assemble_eq_ok_iff.mp h
  exact (Lists.empty.eachLine hnames hl).assembled hlink

theorem exists_assemble_iff (hnames : names.Unambiguous) (lines : List Text.Line) :
    (∃ result, assemble names lines = .ok result) ↔
      ∀ k line, lines[k]? = some line → Acceptable names lines k line := by
  constructor
  · rintro ⟨⟨code, labels⟩, h⟩ k line hline
    obtain ⟨l, hl, hlink, _⟩ := assemble_eq_ok_iff.mp h
    exact (Lists.empty.eachLine hnames hl).acceptable hlink hline
  · intro h
    obtain ⟨l, hl⟩ := exists_eachLine hnames Lists.empty h
    obtain ⟨code, hlink⟩ := Lists.exists_link hnames (Lists.empty.eachLine hnames hl) h
    exact ⟨(code, l.labels), assemble_eq_ok_iff.mpr ⟨l, hl, hlink, rfl⟩⟩

/-- The assembler is correct.  After the sections in front of it have been read and all
constants have values, a program section is assembled exactly if each of its lines can
be: a label that no other line declares, an operator, a push or a pop of something that
its operand names, or a jump to a label that some line declares.  The code then has the
meaning of each line at its place and ends with `halt`, and the labels are those in the
code. -/
theorem assemble_correct {segments : Segments} {placed : List Text.Placed} {d : Draft}
    {constants : List (String × Word)} (hdraft : draft segments placed = .ok d)
    (hconstants : d.constantValues = .ok constants) (lines : List Text.Line) :
    ((∃ result, assemble ⟨constants, d.program.vars⟩ lines = .ok result) ↔
      ∀ k line, lines[k]? = some line → Acceptable ⟨constants,
        d.program.vars⟩ lines k line) ∧
    ∀ code labels, assemble ⟨constants, d.program.vars⟩ lines = .ok (code, labels) →
      Assembled ⟨constants, d.program.vars⟩ lines code labels := by
  have hnames := (sound_of_draft hdraft).unambiguous hconstants
  exact ⟨exists_assemble_iff hnames lines, fun _ _ h => assembled_of_assemble hnames h⟩

/-- A loop with a jump in each direction, in which a constant, a variable, a source and
a sink are used, is assembled; with its first label repeated at the end it is not. -/
theorem assemble_correct_loop :
    let word (number : Nat) (first : String) (more : List Text.Token) : Text.Line :=
      ⟨number, .word first, more⟩
    let placed : List Text.Placed :=
      [⟨.memory, word 2 "local" [.word "m", .word "4"]⟩,
        ⟨.vars, word 4 "m@3" [.word "byte", .word "x"]⟩,
        ⟨.vars, word 5 "const" [.word "i", .label "one"]⟩,
        ⟨.inits, ⟨7, .label "one", [.word "-1"]⟩⟩]
    let lines : List Text.Line :=
      [⟨9, .label "top", []⟩, word 10 "L" [.label "one"], word 11 "S" [.word "x"],
        word 12 "PUSH" [.word "RAND"], word 13 "JZ" [.word "end"],
        word 14 "PUSH" [.word "x"],
        word 15 "ATAN2" [], word 16 "POP" [.word "STDOUTS"], word 17 "J" [.word "top"],
        ⟨18, .label "end", []⟩]
    let names : Names :=
      ⟨[("$one", 0xFFFFFFFFFFFFFFFF)],
       #[{ name := "x", region := 0, encoding := .byte, cell := 3 }]⟩
    let code : Array Instruction :=
      #[.label "top", .pushConst 0xFFFFFFFFFFFFFFFF, .popVar 0, .pushSource .rand,
        .jump .ifZero 9, .pushVar 0, .apply .atanxy, .popSink .stdouts, .jump .always 0,
          .label "end", .halt]
    (∃ d, draft Segments.none placed = .ok d ∧ d.constantValues = .ok names.constants ∧
      d.program.vars = names.vars) ∧
    Assembled names lines code [("top", 0), ("end", 9)] ∧
    ¬∀ k line, (lines ++ [⟨19, .label "top", []⟩])[k]? = some line →
      Acceptable names (lines ++ [⟨19, .label "top", []⟩]) k line := by
  intro word placed lines names code
  have hdraft : draft Segments.none placed =
      .ok ⟨{ memory := { regions := #[⟨"m", .owned { cells := 4 }⟩] }
             vars := names.vars },
        [⟨"$one", .signed, some 0xFFFFFFFFFFFFFFFF⟩]⟩ := by
    decide +kernel
  have hcorrect := assemble_correct hdraft rfl
  refine ⟨⟨_, hdraft, rfl, rfl⟩, (hcorrect lines).2 code _ (by decide +kernel), ?_⟩
  intro hall
  obtain ⟨result, hresult⟩ := (hcorrect _).1.mpr hall
  have hrefused : assemble names (lines ++ [⟨19, .label "top", []⟩]) =
      .error ⟨.duplicateLabel "top", some ⟨19, "$top"⟩⟩ := by
    decide +kernel
  cases hrefused.symm.trans hresult

end Load

end CyclicStack
