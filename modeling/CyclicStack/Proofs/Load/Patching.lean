import Mathlib.Data.List.Basic
import CyclicStack.Load.Assembly

/-!
# Assembling by patching

An assembler that works in place makes one instruction of each line at once.  A jump
leads to the start for the time being and is noted down as pending, with its line and
its label.  When all labels are known, the pending jumps are patched one after the
other, until one of them names an undefined label.

`Load.assemble` keeps statements with named labels instead and links them at the end.  A
listing determines the state of the other assembler: its code, in which the jumps are
open, and the jumps that are pending.  One line keeps the two in step, and linking a
statement is patching the jump that is pending for it.  So both give the same code and
the same errors for all lines.
-/

namespace CyclicStack

namespace Load

/-- The state of an assembler that works in place. -/
structure Pass where
  /-- The instructions so far.  Every jump among them leads to the start. -/
  code : Array Instruction := #[]
  labels : List (String × Nat) := []
  /-- The jumps so far: where they stand, on which line, and which label they name. -/
  pending : List (Nat × Text.Line × String) := []

namespace Pass

/-- The instruction of an operation and its operand, before the labels are known. -/
def resolve (names : Names) (operation operand : String) : Except Cause Instruction :=
  match operation with
  | "PUSH" | "L" => names.push operand
  | "POP" | "S" => names.pop operand
  | "J" => .ok (.jump .always 0)
  | "JZ" => .ok (.jump .ifZero 0)
  | "JNZ" => .ok (.jump .ifNotZero 0)
  | _ => .error (.unknownInstruction operation)

def add (names : Names) (p : Pass) (line : Text.Line) : Except Cause Pass :=
  let position := p.code.size
  match line.first, line.more with
  | .label name, [] =>
    if name = "" then .error .emptyLabel
    else if (p.labels.lookup name).isSome then .error (.duplicateLabel name)
    else
      .ok { p with
        code := p.code.push (.label name)
        labels := p.labels ++ [(name, position)] }
  | .word operation, [operand] =>
    match resolve names operation operand.text with
    | .error cause => .error cause
    | .ok i =>
      .ok { p with
        code := p.code.push i
        pending :=
          if i.target?.isSome then p.pending ++ [(position, line, operand.text)]
          else p.pending }
  | .word mnemonic, [] =>
    match Operator.ofMnemonic? mnemonic with
    | some op => .ok { p with code := p.code.push (.apply op) }
    | none => .error (.unknownInstruction mnemonic)
  | first, _ => .error (.unknownInstruction first.text)

/-- Sets the target of a jump and leaves any other instruction alone. -/
def retarget (target : Nat) : Instruction → Instruction
  | .jump condition _ => .jump condition target
  | i => i

def patch (labels : List (String × Nat)) :
    List (Nat × Text.Line × String) → Array Instruction →
      Except Error (Array Instruction)
  | [], code => .ok code
  | (position, line, label) :: rest, code =>
    match labels.lookup label with
    | some target => patch labels rest (code.modify position (retarget target))
    | none => .error (line.blame (.undefinedLabel label))

end Pass

def assembleInPlace (names : Names) (lines : List Text.Line) :
    Except Error (Array Instruction × List (String × Nat)) := do
  let p ← eachLine (Pass.add names) {} lines
  let code ← Pass.patch p.labels p.pending (p.code.push .halt)
  return (code, p.labels)

/-! ## Listings as states of the other assembler -/

namespace Statement

/-- The instruction of a statement before the labels are known. -/
def unlinked : Statement → Instruction
  | .ready i => i
  | .branch condition _ => .jump condition 0

end Statement

/-- The jumps among statements, the first of which stands at `position`. -/
def pendingFrom (position : Nat) :
    List (Text.Line × Statement) → List (Nat × Text.Line × String)
  | [] => []
  | (_, .ready _) :: rest => pendingFrom (position + 1) rest
  | (line, .branch _ label) :: rest =>
    (position, line, label) :: pendingFrom (position + 1) rest

def unlinkedCode (statements : List (Text.Line × Statement)) : List Instruction :=
  statements.map fun (_, statement) => statement.unlinked

def Listing.toPass (l : Listing) : Pass where
  code := (unlinkedCode l.statements.toList).toArray
  labels := l.labels
  pending := pendingFrom 0 l.statements.toList

theorem pendingFrom_append (position : Nat)
    (statements more : List (Text.Line × Statement)) :
    pendingFrom position (statements ++ more) =
      pendingFrom position statements ++
        pendingFrom (position + statements.length) more := by
  induction statements generalizing position with
  | nil => rfl
  | cons entry rest ih =>
      obtain ⟨line, statement⟩ := entry
      rw [List.length_cons, ← Nat.add_assoc, Nat.add_right_comm]
      cases statement with
      | ready i => exact ih (position + 1)
      | branch condition label =>
          exact congrArg ((position, line, label) :: ·) (ih (position + 1))

/-! ## One line -/

variable {names : Names}

/-- What a name stands for is neither a jump nor a label. -/
theorem push_ok {name : String} {i : Instruction} (h : names.push name = .ok i) :
    i.target? = none ∧ (Statement.ready i).label? = none := by
  unfold Names.push at h
  split at h <;> cases h <;> exact ⟨rfl, rfl⟩

theorem pop_ok {name : String} {i : Instruction} (h : names.pop name = .ok i) :
    i.target? = none ∧ (Statement.ready i).label? = none := by
  unfold Names.pop at h
  split at h <;> cases h <;> exact ⟨rfl, rfl⟩

/-- Both assemblers make the same of an operation: both refuse it, both make an
instruction of it that is neither a jump nor a label, or the one keeps the label of a
jump that the other leaves open. -/
theorem resolve_cases (names : Names) (operation operand : String) :
    (∃ cause, Statement.ofOperation names operation operand = .error cause ∧
      Pass.resolve names operation operand = .error cause) ∨
    (∃ i, Statement.ofOperation names operation operand = .ok (.ready i) ∧
      Pass.resolve names operation operand = .ok i ∧
      i.target? = none ∧ (Statement.ready i).label? = none) ∨
    ∃ condition, Statement.ofOperation names operation operand =
      .ok (.branch condition operand) ∧
      Pass.resolve names operation operand = .ok (.jump condition 0) := by
  have hname : ∀ x : Except Cause Instruction,
      (∀ i, x = .ok i → i.target? = none ∧ (Statement.ready i).label? = none) →
      (∃ cause, Statement.ready <$> x = .error cause ∧ x = .error cause) ∨
      (∃ i, Statement.ready <$> x = .ok (.ready i) ∧ x = .ok i ∧
        i.target? = none ∧ (Statement.ready i).label? = none) := by
    rintro (cause | i) h
    · exact .inl ⟨cause, rfl, rfl⟩
    · exact .inr ⟨i, rfl, rfl, h i rfl⟩
  unfold Statement.ofOperation
  split
  · exact (hname _ fun _ => push_ok).imp_right .inl
  · exact (hname _ fun _ => push_ok).imp_right .inl
  · exact (hname _ fun _ => pop_ok).imp_right .inl
  · exact (hname _ fun _ => pop_ok).imp_right .inl
  · exact .inr (.inr ⟨.always, rfl, rfl⟩)
  · exact .inr (.inr ⟨.ifZero, rfl, rfl⟩)
  · exact .inr (.inr ⟨.ifNotZero, rfl, rfl⟩)
  · exact .inl ⟨_, rfl, by simp [Pass.resolve, *]⟩

theorem map_toPass_add {l : Listing} {line : Text.Line} {statement : Statement}
    (h : Statement.ofLine names l.labels line = .ok statement) :
    (l.add names line).map Listing.toPass =
      .ok ⟨l.toPass.code.push statement.unlinked,
        l.labels ++ (statement.label?.map (·, l.statements.size)).toList,
        l.toPass.pending ++ pendingFrom l.statements.size [(line, statement)]⟩ := by
  rw [Listing.add, h]
  refine congrArg Except.ok ?_
  cases statement.label? <;> simp [Listing.toPass, unlinkedCode, pendingFrom_append]

theorem map_toPass_add_of_error {l : Listing} {line : Text.Line} {cause : Cause}
    (h : Statement.ofLine names l.labels line = .error cause) :
    (l.add names line).map Listing.toPass = .error cause := by
  rw [Listing.add, h]
  rfl

/-- One line keeps the two assemblers in step. -/
theorem add_toPass (names : Names) (l : Listing) (line : Text.Line) :
    Pass.add names l.toPass line = (l.add names line).map Listing.toPass := by
  have hsize : l.toPass.code.size = l.statements.size := by
    simp [Listing.toPass, unlinkedCode]
  obtain ⟨number, first, more⟩ := line
  unfold Pass.add
  rw [hsize, show l.toPass.labels = l.labels from rfl]
  rcases first with header | name | word <;> rcases more with _ | ⟨operand, _ | more⟩
  case label.nil =>
    dsimp only
    split_ifs with hempty hknown
    · refine (map_toPass_add_of_error ?_).symm
      simp [Statement.ofLine, hempty]
    · refine (map_toPass_add_of_error ?_).symm
      simp [Statement.ofLine, hempty, hknown]
    · have hstatement : Statement.ofLine names l.labels ⟨number, .label name, []⟩ =
          .ok (.ready (.label name)) := by
        simp [Statement.ofLine, hempty, hknown]
      rw [map_toPass_add hstatement]
      simp [Statement.label?, Statement.unlinked, pendingFrom]
  case word.nil =>
    dsimp only
    cases hop : Operator.ofMnemonic? word with
    | none =>
        refine (map_toPass_add_of_error ?_).symm
        simp [Statement.ofLine, hop]
    | some op =>
        have hstatement : Statement.ofLine names l.labels ⟨number, .word word, []⟩ =
            .ok (.ready (.apply op)) := by
          simp [Statement.ofLine, hop]
        rw [map_toPass_add hstatement]
        simp [Statement.label?, Statement.unlinked, pendingFrom]
  case word.cons.nil =>
    have hline : Statement.ofLine names l.labels ⟨number, .word word, [operand]⟩ =
      Statement.ofOperation names word operand.text := rfl
    dsimp only
    obtain ⟨cause, hstatement, hinstruction⟩ |
      ⟨i, hstatement, hinstruction, hjump, hlabel⟩ |
      ⟨condition, hstatement, hinstruction⟩ := resolve_cases names word operand.text
    · rw [hinstruction, map_toPass_add_of_error (hline.trans hstatement)]
    · rw [hinstruction, map_toPass_add (hline.trans hstatement)]
      simp [hlabel, hjump, Statement.unlinked, pendingFrom]
    · rw [hinstruction, map_toPass_add (hline.trans hstatement)]
      simp [Statement.label?, Instruction.target?, Statement.unlinked, pendingFrom]
  all_goals rfl

theorem eachLine_toPass {σ τ : Type} {f : σ → Text.Line → Except Cause σ}
    {g : τ → Text.Line → Except Cause τ} {φ : σ → τ}
    (h : ∀ s line, g (φ s) line = (f s line).map φ) (s : σ) (lines : List Text.Line) :
    eachLine g (φ s) lines = (eachLine f s lines).map φ := by
  unfold eachLine
  induction lines generalizing s with
  | nil => rfl
  | cons line rest ih =>
      rw [List.foldlM_cons, List.foldlM_cons, h]
      cases f s line with
      | error cause => rfl
      | ok s' => exact ih s'

/-! ## Patching -/

def linkAll (labels : List (String × Nat)) (statements : List (Text.Line × Statement)) :
    Except Error (List Instruction) :=
  statements.mapM fun (line, statement) => (statement.link labels).mapError line.blame

section

variable {labels : List (String × Nat)} {line : Text.Line} {statement : Statement}
  {rest : List (Text.Line × Statement)}

/-- Linking a statement behind finished instructions is patching the jump that is
pending for it. -/
theorem patch_cons {i : Instruction} (h : statement.link labels = .ok i)
    (done tail : List Instruction) :
    Pass.patch labels (pendingFrom done.length ((line, statement) :: rest))
        (done ++ statement.unlinked :: tail).toArray =
      Pass.patch labels (pendingFrom (done.length + 1) rest)
        (done ++ i :: tail).toArray := by
  cases statement with
  | ready instruction =>
      obtain rfl : instruction = i := Except.ok.inj h
      rfl
  | branch condition label =>
      rw [Statement.link] at h
      split at h
      · next target htarget =>
        obtain rfl : Instruction.jump condition target = i := Except.ok.inj h
        rw [pendingFrom, Pass.patch, htarget]
        simp [Statement.unlinked, Pass.retarget, List.modify_eq_set_getElem?]
      · cases h

theorem patch_cons_error {cause : Cause} (h : statement.link labels = .error cause)
    (position : Nat) (code : Array Instruction) :
    Pass.patch labels (pendingFrom position ((line, statement) :: rest)) code =
      .error (line.blame cause) := by
  cases statement with
  | ready instruction => cases h
  | branch condition label =>
      rw [Statement.link] at h
      split at h
      · cases h
      · next hnone =>
        obtain rfl : Cause.undefinedLabel label = cause := Except.error.inj h
        rw [pendingFrom, Pass.patch, hnone]

theorem linkAll_cons {i : Instruction} (h : statement.link labels = .ok i) :
    linkAll labels ((line, statement) :: rest) =
      (linkAll labels rest).map (i :: ·) := by
  simp only [linkAll, List.mapM_cons, h]
  rfl

theorem linkAll_cons_error {cause : Cause} (h : statement.link labels = .error cause) :
    linkAll labels ((line, statement) :: rest) = .error (line.blame cause) := by
  simp only [linkAll, List.mapM_cons, h]
  rfl

end

/-- Patching the jumps behind finished instructions is linking the statements there. -/
theorem patch_pendingFrom (labels : List (String × Nat)) (done : List Instruction)
    (statements : List (Text.Line × Statement)) :
    Pass.patch labels (pendingFrom done.length statements)
        (done ++ (unlinkedCode statements ++ [Instruction.halt])).toArray =
      (linkAll labels statements).map fun code =>
        (done ++ (code ++ [Instruction.halt])).toArray := by
  induction statements generalizing done with
  | nil => rfl
  | cons entry rest ih =>
      obtain ⟨line, statement⟩ := entry
      rw [unlinkedCode, List.map_cons, List.cons_append]
      cases hlink : statement.link labels with
      | error cause =>
          rw [patch_cons_error hlink, linkAll_cons_error hlink]
          rfl
      | ok i =>
          have hrest := ih (done ++ [i])
          simp only [List.length_append, List.length_singleton,
            List.append_assoc] at hrest
          rw [patch_cons hlink, linkAll_cons hlink]
          refine hrest.trans ?_
          cases linkAll labels rest <;> rfl

theorem link_eq_linkAll (l : Listing) :
    l.link = (linkAll l.labels l.statements.toList).map fun code =>
      (code ++ [Instruction.halt]).toArray := by
  rw [Listing.link]
  change (linkAll l.labels l.statements.toList >>= _) = _
  cases linkAll l.labels l.statements.toList with
  | error e => rfl
  | ok code => exact congrArg Except.ok (by simp)

/-- Both assemblers give the same code and the same error for every list of lines. -/
theorem assembleInPlace_eq_assemble (names : Names) (lines : List Text.Line) :
    assembleInPlace names lines = assemble names lines := by
  have hempty : Listing.toPass {} = {} := rfl
  have hpass := eachLine_toPass (add_toPass names) {} lines
  rw [hempty] at hpass
  unfold assembleInPlace assemble
  rw [hpass]
  cases eachLine (Listing.add names) {} lines with
  | error e => rfl
  | ok l =>
      have hcode : l.toPass.code.push .halt =
          ([] ++ (unlinkedCode l.statements.toList ++ [Instruction.halt])).toArray := by
        simp [Listing.toPass]
      have hpatch : Pass.patch l.labels (pendingFrom 0 l.statements.toList)
          (l.toPass.code.push .halt) = l.link := by
        rw [hcode, link_eq_linkAll]
        exact patch_pendingFrom l.labels [] l.statements.toList
      change (Pass.patch l.labels (pendingFrom 0 l.statements.toList)
        (l.toPass.code.push .halt) >>= _) = _
      rw [hpatch]
      rfl

end Load

end CyclicStack
