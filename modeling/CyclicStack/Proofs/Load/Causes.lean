import CyclicStack.Load
import CyclicStack.Proofs.Outcome

/-!
# Which section raises which error

Each section has a reader of its own, and most causes of a load error are raised by one
reader only.  A few are shared: a numeral can be wrong in three sections, a name unknown
in two.  What stops a text from being divided into sections at all, and a constant
without a value, are raised by no reader.
-/

namespace CyclicStack

namespace Load

open Text

@[simp] def Cause.sections : Cause → List Header
  | .unknownSetting _ | .duplicateSetting _ | .malformed "setting" => [.settings]
  | .unknownMemoryKind _ | .duplicateMemory _ | .regionTooLarge _ | .memory _
  | .malformed "memory" => [.memory]
  | .unknownMemory _ | .invalidAddress _ _ | .unknownConstType _ | .reservedName _
  | .duplicateName _ _ | .malformed "declaration" => [.vars]
  | .duplicateInit _ | .malformed _ => [.inits]
  | .unknownInstruction _ | .constantTarget _ | .emptyLabel | .duplicateLabel _
  | .undefinedLabel _ => [.program]
  | .invalidLiteral _ _ => [.settings, .memory, .inits]
  | .encoding _ => [.memory, .vars]
  | .unknownName _ => [.inits, .program]
  | .unreadable _ _ | .unrecognized _ | .duplicateSection _ | .outsideSection
  | .uninitializedConstant _ => []

@[simp] def Cause.RaisedIn (header : Header) (cause : Cause) : Prop :=
  header ∈ cause.sections

/-- All causes for which a computation can fail are of a kind. -/
def FailsWith {α : Type} (P : Cause → Prop) (x : Except Cause α) : Prop :=
  ∀ cause, x = .error cause → P cause

namespace FailsWith

variable {α β ε : Type} {P : Cause → Prop}

theorem ok (a : α) :
    FailsWith P (.ok a) := by
  simp [FailsWith]

theorem error {cause : Cause} (h : P cause) :
    FailsWith P (.error cause : Except Cause α) := by
  rintro _ ⟨⟩
  exact h

theorem bind {x : Except Cause α} {f : α → Except Cause β} (hx : FailsWith P x)
    (hf : ∀ a, FailsWith P (f a)) :
    FailsWith P (x >>= f) := by
  intro cause h
  rcases bind_eq_error_iff.mp h with herror | ⟨a, _, herror⟩
  · exact hx cause herror
  · exact hf a cause herror

theorem map {x : Except Cause α} (hx : FailsWith P x) (f : α → β) :
    FailsWith P (f <$> x) := by
  rw [← bind_pure_comp]
  exact hx.bind fun a => ok (f a)

theorem mapError {x : Except ε α} {f : ε → Cause} (h : ∀ e, P (f e)) :
    FailsWith P (x.mapError f) := by
  cases x with
  | ok a => exact ok a
  | error e => exact error (h e)

end FailsWith

/-! ## Settings and memory -/

theorem unsigned_failsWith {header : Header}
    (h : header ∈ [Header.settings, .memory, .inits]) (literal : String) :
    FailsWith (Cause.RaisedIn header) (unsigned literal) := by
  unfold unsigned
  split
  · exact .ok _
  · exact .error h

theorem addSetting_failsWith (d : SettingsDraft) (line : Line) :
    FailsWith (Cause.RaisedIn .settings) (addSetting d line) := by
  have hunsigned := @unsigned_failsWith .settings (by decide)
  unfold addSetting
  split
  · split_ifs
    · exact .error (by simp)
    · exact (hunsigned _).bind fun _ => .ok _
    · exact (hunsigned _).bind fun _ => .ok _
    · exact .error (by simp)
  · exact .error (by simp)

namespace Draft

theorem checkNewRegion_failsWith (d : Draft) (name : String) :
    FailsWith (Cause.RaisedIn .memory) (d.checkNewRegion name) := by
  unfold checkNewRegion
  split_ifs
  · exact .error (by simp)
  · exact .ok _

theorem declareMemory_failsWith (refusal : Refusal) (d : Draft) (line : Line) :
    FailsWith (Cause.RaisedIn .memory) (d.declareMemory refusal line) := by
  have hunsigned := @unsigned_failsWith .memory (by decide)
  unfold declareMemory
  split
  · refine (checkNewRegion_failsWith d _).bind fun _ =>
      (hunsigned _).bind fun cells => ?_
    split
    · exact .ok _
    · exact .error (by simp)
  · refine (checkNewRegion_failsWith d _).bind fun _ =>
      (hunsigned _).bind fun cellSize => ?_
    refine (FailsWith.mapError (by simp)).bind fun _ => ?_
    split
    · exact .ok _
    · exact .error (by simp)
  · split_ifs <;> exact .error (by simp)
  · exact .error (by simp)

/-! ## Declarations -/

theorem checkNewName_failsWith (d : Draft) (name : String) :
    FailsWith (Cause.RaisedIn .vars) (d.checkNewName name) := by
  unfold checkNewName
  split_ifs
  · exact .error (by simp)
  · exact .error (by simp)
  · exact .error (by simp)
  · exact .ok _

theorem addressNumber_failsWith (address reason : String) (literal : List Char) :
    FailsWith (Cause.RaisedIn .vars) (addressNumber address reason literal) := by
  unfold addressNumber
  split
  · exact .ok _
  · exact .error (by simp)

theorem addressSubIndex_failsWith (address : String) (sub : Option (List Char)) :
    FailsWith (Cause.RaisedIn .vars) (addressSubIndex address sub) := by
  cases sub with
  | none => exact .ok _
  | some sub => exact (addressNumber_failsWith address _ sub).map some

theorem encodingAt_failsWith (d : Draft) (region : Nat) (address tag : String)
    (sub : Option Nat) :
    FailsWith (Cause.RaisedIn .vars) (d.encodingAt region address tag sub) := by
  have hencoding : ∀ {α : Type} (x : Except EncodingError α),
      FailsWith (Cause.RaisedIn .vars) (x.mapError Cause.encoding) :=
    fun _ => .mapError (by simp)
  unfold encodingAt
  split
  · refine (hencoding _).bind fun e => ?_
    split_ifs
    · exact .error (by simp)
    · exact .error (by simp)
    · exact (hencoding _).bind fun _ => .ok _
  · unfold ownedEncoding
    split_ifs
    · exact .error (by simp)
    · exact .ok _

theorem locate_failsWith (d : Draft) (address tag name : String) :
    FailsWith (Cause.RaisedIn .vars) (d.locate address tag name) := by
  unfold locate
  split
  · dsimp only
    split
    · refine (addressNumber_failsWith _ _ _).bind fun _ => ?_
      refine (addressSubIndex_failsWith _ _).bind fun _ => ?_
      exact (encodingAt_failsWith d _ _ _ _).bind fun _ => .ok _
    · exact .error (by simp)
  · exact .error (by simp)

theorem declare_failsWith (d : Draft) (line : Line) :
    FailsWith (Cause.RaisedIn .vars) (d.declare line) := by
  unfold declare
  split
  · split_ifs
    · unfold declareConstant
      split
      · exact (checkNewName_failsWith d _).bind fun _ => .ok _
      · exact .error (by simp)
    · exact (locate_failsWith d _ _ _).bind fun _ =>
        (checkNewName_failsWith d _).bind fun _ => .ok _
  · exact .error (by simp)

/-! ## Initial values -/

theorem addInit_failsWith (d : Draft) (line : Line) :
    FailsWith (Cause.RaisedIn .inits) (d.addInit line) := by
  unfold addInit
  split
  · split
    · unfold initConstant
      split_ifs
      · exact .error (by simp)
      · split
        · exact .ok _
        · exact .error (by simp)
    · unfold initVariable
      split
      · split
        · split
          · split_ifs
            · exact .error (by simp)
            · exact .ok _
          · exact .error (by simp)
        · exact .error (by simp)
      · exact .error (by simp)
  · exact .error (by simp)

end Draft

/-! ## Instructions -/

/-- The causes for which a line of the program section is refused when it is read.
Whether a label exists is not known before all lines have been read. -/
@[simp] def Cause.OfStatement (cause : Cause) : Prop :=
  cause.RaisedIn .program ∧ ∀ name, cause ≠ .undefinedLabel name

theorem add_failsWith (names : Names) (l : Listing) (line : Line) :
    FailsWith Cause.OfStatement (l.add names line) := by
  have hoperation : ∀ operation operand,
      FailsWith Cause.OfStatement (Statement.ofOperation names operation operand) := by
    intro operation operand
    have hpush : FailsWith Cause.OfStatement (names.push operand) := by
      unfold Names.push
      split
      · exact .ok _
      · exact .ok _
      · exact .ok _
      · exact .error (by simp)
    have hpop : FailsWith Cause.OfStatement (names.pop operand) := by
      unfold Names.pop
      split
      · exact .ok _
      · exact .error (by simp)
      · exact .ok _
      · exact .error (by simp)
    unfold Statement.ofOperation
    split
    · exact hpush.map _
    · exact hpush.map _
    · exact hpop.map _
    · exact hpop.map _
    · exact .ok _
    · exact .ok _
    · exact .ok _
    · exact .error (by simp)
  have hline : FailsWith Cause.OfStatement (Statement.ofLine names l.labels line) := by
    unfold Statement.ofLine
    split
    · split_ifs
      · exact .error (by simp)
      · exact .error (by simp)
      · exact .ok _
    · exact hoperation _ _
    · split
      · exact .ok _
      · exact .error (by simp)
    · exact .error (by simp)
  exact hline.bind fun _ => .ok _

end Load

end CyclicStack
