import CyclicStack.Proofs.Execution.Outcomes

/-!
# What an instruction sees of the stack

An instruction takes its operands from the top of the stack and puts its results in
their place.  It looks at no word below its operands, and at the depth of the stack only
when the stack grows.  So a successful instruction is described by the words that it
replaces and those that it puts in their place: on every other stack with the same
operands on top it does the same, as long as there is room.
-/

namespace CyclicStack

/-! ## Operands of an instruction -/

namespace Instruction

def operands : Instruction → Nat
  | .apply op => op.operands
  | .popVar _ | .popSink _ | .jump .ifZero _ | .jump .ifNotZero _ => 1
  | .pushConst _ | .pushVar _ | .pushSource _ | .jump .always _ | .label _ | .halt => 0

/-- Whether an instruction leaves more words on the stack than it finds there. -/
def grows : Instruction → Bool
  | .pushConst _ | .pushVar _ | .pushSource _ | .apply .dup => true
  | _ => false

/-- By how much an instruction changes the number of words on the stack. -/
def effect : Instruction → Int
  | .pushConst _ | .pushVar _ | .pushSource _ | .apply .dup => 1
  | .apply op => 1 - op.operands
  | .popVar _ | .popSink _ | .jump .ifZero _ | .jump .ifNotZero _ => -1
  | .jump .always _ | .label _ | .halt => 0

theorem grows_apply (op : Operator) :
    (Instruction.apply op).grows = decide (op = .dup) := by
  cases op <;> rfl

theorem effect_apply (op : Operator) :
    (Instruction.apply op).effect =
      if op = .dup then 1 else 1 - (op.operands : Int) := by
  cases op <;> rfl

theorem pops_one_of_ne_always {condition : Condition} (h : condition ≠ .always)
    (target : Nat) :
    (jump condition target).operands = 1 ∧ (jump condition target).effect = -1 ∧
      (jump condition target).grows = false := by
  cases condition with
  | always => exact absurd rfl h
  | ifZero | ifNotZero => exact ⟨rfl, rfl, rfl⟩

end Instruction

/-! ## Success -/

/-- A successful operator replaces its operands, and does so on every stack that has
them on top. -/
theorem Stack.apply_local {op : Operator} {s s' : Stack} (h : apply op s = .ok () s') :
    ∃ taken given, taken.length = op.operands ∧ given.length =
      (if op = .dup then 2 else 1) ∧
      Replaces taken given s s' ∧ (op = .dup → s.size < s.capacity) ∧
      ∀ t t', Replaces taken given t t' → (op = .dup → t.size < t.capacity) →
        apply op t = .ok () t' := by
  obtain ⟨taken, w, hlength, hresult, hroom, hreplaces⟩ := apply_eq_ok_iff.mp h
  refine ⟨taken, op.given taken w, hlength, ?_, hreplaces, hroom, fun t t' ht hroom' =>
    apply_eq_ok_iff.mpr ⟨taken, w, hlength, hresult, hroom', ht⟩⟩
  by_cases hop : op = .dup
  · subst hop
    simp [Operator.given, hlength, Operator.operands]
  · simp [Operator.given, hop]

open Stack Instruction

/-- A successful instruction replaces its operands.  On every stack that has them on
top, and room if the stack grows, it does the same. -/
theorem execute_local {i : Instruction} {s s' : State} {flow : Flow}
    (h : execute i s = .ok flow s') :
    ∃ taken given, taken.length = i.operands ∧
      (given.length : Int) = i.operands + i.effect ∧
      Replaces taken given s.stack s'.stack ∧
      (i.grows → s.stack.size < s.stack.capacity) ∧
      ∀ t t', Replaces taken given t t' → (i.grows → t.size < t.capacity) →
        execute i { s with stack := t } = .ok flow { s' with stack := t' } := by
  cases i with
  | apply op =>
      rw [execute_apply] at h
      split at h
      · next _ stack happly =>
        cases h
        obtain ⟨taken, given, htaken, hgiven, hreplaces, hroom, hlocal⟩ :=
          apply_local happly
        simp only [grows_apply, effect_apply, decide_eq_true_eq]
        refine ⟨taken, given, htaken, ?_, hreplaces, hroom, ?_⟩
        · rw [hgiven]
          split_ifs with hop
          · subst hop
            rfl
          · simp [operands]
        · intro t t' ht hgrows
          rw [execute_apply]
          simp only [hlocal t t' ht hgrows]
      · cases h
  | pushConst value =>
      rw [execute_pushConst] at h
      split_ifs at h with hfull
      cases h
      refine ⟨[], [value], rfl, rfl, ⟨_, rfl, rfl⟩, fun _ => Nat.not_le.mp hfull, ?_⟩
      rintro t _ ⟨rest, hwords, rfl⟩ hroom
      simp [execute_pushConst, hroom rfl, State.withWords, hwords]
  | pushVar id =>
      rw [execute_pushVar] at h
      split at h
      · cases h
      · next value hload =>
        split_ifs at h with hfull
        cases h
        refine ⟨[], [value], rfl, rfl, ⟨_, rfl, rfl⟩, fun _ => Nat.not_le.mp hfull, ?_⟩
        rintro t _ ⟨rest, hwords, rfl⟩ hroom
        simp [execute_pushVar, hload, hroom rfl, State.withWords, hwords]
  | pushSource source =>
      rw [execute_pushSource] at h
      split_ifs at h with hfull
      split at h
      · next value host hread =>
        cases h
        refine ⟨[], [value], rfl, rfl, ⟨_, rfl, rfl⟩, fun _ => Nat.not_le.mp hfull, ?_⟩
        rintro t _ ⟨rest, hwords, rfl⟩ hroom
        simp [execute_pushSource, hread, hroom rfl, State.withWords, hwords]
      · cases h
  | popVar id =>
      rw [execute_popVar] at h
      split at h
      · cases h
      · next value rest hwords =>
        split at h
        · next _ program hstore =>
          cases h
          refine ⟨[value], [], rfl, rfl, ⟨rest, hwords, rfl⟩, nofun, ?_⟩
          rintro t _ ⟨rest', hwords', rfl⟩ _
          simp [execute_popVar, hwords', hstore, State.withWords]
        · cases h
  | popSink sink =>
      rw [execute_popSink] at h
      split at h
      · cases h
      · next value rest hwords =>
        split at h
        · next _ host hwrite =>
          cases h
          refine ⟨[value], [], rfl, rfl, ⟨rest, hwords, rfl⟩, nofun, ?_⟩
          rintro t _ ⟨rest', hwords', rfl⟩ _
          simp [execute_popSink, hwords', hwrite, State.withWords]
        · cases h
  | jump condition target =>
      by_cases hcondition : condition = .always
      · subst hcondition
        rw [execute_jump_always] at h
        cases h
        refine ⟨[], [], rfl, rfl, replaces_nil_iff.mpr rfl, nofun, ?_⟩
        intro t t' ht _
        rw [execute_jump_always, replaces_nil_iff.mp ht]
      · rw [execute_jump condition hcondition] at h
        split at h
        · cases h
        · next value rest hwords =>
          cases h
          obtain ⟨hoperands, heffect, hgrows⟩ := pops_one_of_ne_always hcondition target
          refine ⟨[value], [], hoperands.symm, by simp [hoperands, heffect],
            ⟨rest, hwords, rfl⟩, by simp [hgrows], ?_⟩
          rintro t _ ⟨rest', hwords', rfl⟩ _
          simp [execute_jump condition hcondition, hwords', State.withWords]
  | label name =>
      rw [execute_label] at h
      cases h
      refine ⟨[], [], rfl, rfl, replaces_nil_iff.mpr rfl, nofun, ?_⟩
      intro t t' ht _
      rw [execute_label, replaces_nil_iff.mp ht]
  | halt =>
      rw [execute_halt] at h
      cases h
      refine ⟨[], [], rfl, rfl, replaces_nil_iff.mpr rfl, nofun, ?_⟩
      intro t t' ht _
      rw [execute_halt, replaces_nil_iff.mp ht]

/-! ## Failures of the stack -/

/-- The stack is to blame, below the wrappers that say where: it is full, or it has too
few words. -/
def Failure.OfStack (failure : Failure) : Prop :=
  match failure.root with
  | .stackFull _ | .stackEmpty | .tooFewOperands _ _ => True
  | _ => False

theorem not_ofStack_of_checkCell {cells cell : Nat} {failure : Failure}
    (h : checkCell cells cell = .error failure) :
    ¬failure.OfStack := by
  unfold checkCell at h
  split_ifs at h
  cases h
  exact id

theorem not_ofStack_of_liftEncoding {α : Type} {x : Except EncodingError α}
    {failure : Failure} (h : liftEncoding x = .error failure) :
    ¬failure.OfStack := by
  cases x with
  | ok a => cases h
  | error e =>
      cases h
      exact id

theorem Words.not_ofStack_of_check {words : Words} {cell : Nat} {sub : Option Nat}
    {failure : Failure} (h : words.check cell sub = .error failure) :
    ¬failure.OfStack := by
  unfold check at h
  split_ifs at h
  · cases h
    exact id
  · exact not_ofStack_of_checkCell h

/-- An access to memory does not fail for the stack. -/
theorem Program.not_ofStack_of_load {p : Program} {id : Nat} {failure : Failure}
    (h : p.load id = .error failure) :
    ¬failure.OfStack := by
  unfold load Memory.load at h
  split at h
  · cases h
    exact False.elim
  · split at h
    · cases h
      exact False.elim
    · rcases bind_eq_error_iff.mp h with hcheck | ⟨_, _, hget⟩
      · exact Words.not_ofStack_of_check hcheck
      · cases hget
    · rcases bind_eq_error_iff.mp h with hcell | ⟨_, _, hdecode⟩
      · exact not_ofStack_of_checkCell hcell
      · exact not_ofStack_of_liftEncoding hdecode

theorem Program.not_ofStack_of_store {p p' : Program} {id : Nat} {value : Word}
    {failure : Failure} (h : store id value p = .error failure p') :
    ¬failure.OfStack := by
  unfold store at h
  split at h
  · cases h
    exact False.elim
  · obtain ⟨_, h, _⟩ := Action.zoom_eq_error_iff.mp h
    unfold Memory.store at h
    split at h
    · cases h
      exact False.elim
    · obtain ⟨_, h, _⟩ := Action.zoom_eq_error_iff.mp h
      unfold Words.store at h
      split at h
      · cases h
      · next hcheck =>
        cases h
        exact Words.not_ofStack_of_check hcheck
    · obtain ⟨_, h, _⟩ := Action.zoom_eq_error_iff.mp h
      unfold Window.store at h
      split at h
      · next hcell =>
        cases h
        exact not_ofStack_of_checkCell hcell
      · split at h
        · next hencode =>
          cases h
          exact not_ofStack_of_liftEncoding hencode
        · cases h

theorem Host.not_ofStack_of_read {source : Source} {host host' : Host}
    {failure : Failure} (h : read source host = .error failure host') :
    ¬failure.OfStack := by
  have hclock : ∀ c, readClock c host = .error failure host' → ¬failure.OfStack := by
    intro c hread
    unfold readClock at hread
    split at hread
    · cases hread
    · cases hread
      exact id
  cases source with
  | stime | mtime | ctime | ttime => exact hclock _ h
  | pid | ppid | uid | euid | rand | randf | randd => cases h

theorem Host.not_ofStack_of_write {sink : Sink} {w : Word} {host host' : Host}
    {failure : Failure} (h : write sink w host = .error failure host') :
    ¬failure.OfStack := by
  have hline : ∀ line, writeLine line host = .error failure host' →
      ¬failure.OfStack := by
    intro line hwrite
    unfold writeLine at hwrite
    split at hwrite
    · cases hwrite
      exact id
    · cases hwrite
  cases sink with
  | null => cases h
  | stdout | stdouts | stdoutf | stdoutd => exact hline _ h

theorem Stack.apply_stack_failure {op : Operator} {s s' : Stack} {failure : Failure}
    (h : apply op s = .error failure s') (hfailure : failure.OfStack) :
    s.size < op.operands ∨ op = .dup ∧ s.capacity ≤ s.size := by
  obtain ⟨-, ⟨hmissing, -⟩ | ⟨-, -, -, rfl⟩ | ⟨-, hop, hfull, -⟩⟩ :=
    apply_eq_error_iff.mp h
  · exact .inl hmissing
  · exact hfailure.elim
  · exact .inr ⟨hop, hfull⟩

/-- An instruction fails for the stack only if its operands are missing, or if the stack
grows and is full. -/
theorem execute_stack_failure {i : Instruction} {s s' : State} {failure : Failure}
    (h : execute i s = .error failure s') (hfailure : failure.OfStack) :
    s.stack.size < i.operands ∨ i.grows ∧ s.stack.capacity ≤ s.stack.size := by
  have hempty : s.stack.words = [] → s.stack.size < 1 := by
    intro hwords
    simp [size, hwords]
  cases i with
  | apply op =>
      rw [execute_apply] at h
      split at h
      · cases h
      · next happly =>
        cases h
        simpa [operands, grows_apply] using apply_stack_failure happly hfailure
  | pushConst value =>
      rw [execute_pushConst] at h
      split_ifs at h with hfull
      exact .inr ⟨rfl, hfull⟩
  | pushVar id =>
      rw [execute_pushVar] at h
      split at h
      · next hload =>
        cases h
        exact absurd hfailure (Program.not_ofStack_of_load hload)
      · split_ifs at h with hfull
        exact .inr ⟨rfl, hfull⟩
  | pushSource source =>
      rw [execute_pushSource] at h
      split_ifs at h with hfull
      · exact .inr ⟨rfl, hfull⟩
      · split at h
        · cases h
        · next hread =>
          cases h
          exact absurd hfailure (Host.not_ofStack_of_read hread)
  | popVar id =>
      rw [execute_popVar] at h
      split at h
      · next hwords => exact .inl (hempty hwords)
      · split at h
        · cases h
        · next hstore =>
          cases h
          exact absurd hfailure (Program.not_ofStack_of_store hstore)
  | popSink sink =>
      rw [execute_popSink] at h
      split at h
      · next hwords => exact .inl (hempty hwords)
      · split at h
        · cases h
        · next hwrite =>
          cases h
          exact absurd hfailure (Host.not_ofStack_of_write hwrite)
  | jump condition target =>
      by_cases hcondition : condition = .always
      · rw [hcondition, execute_jump_always] at h
        cases h
      · rw [execute_jump condition hcondition] at h
        split at h
        · next hwords =>
          rw [(pops_one_of_ne_always hcondition target).1]
          exact .inl (hempty hwords)
        · cases h
  | label name =>
      rw [execute_label] at h
      cases h
  | halt =>
      rw [execute_halt] at h
      cases h

end CyclicStack
