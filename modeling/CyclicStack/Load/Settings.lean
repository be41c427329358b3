import CyclicStack.Program
import CyclicStack.Text.Numeral
import CyclicStack.Text.Section

/-!
# Loading the settings

Each setting is a line of a key and an unsigned number, and is given at most once.
-/

namespace CyclicStack

namespace Load

/-- Runs over the lines of a section; an error is reported at its line. -/
def eachLine {σ : Type} (f : σ → Text.Line → Except Cause σ) (s : σ)
    (lines : List Text.Line) :
    Except Error σ :=
  lines.foldlM (fun s line => (f s line).mapError line.blame) s

def unsigned (literal : String) : Except Cause Nat :=
  match Text.unsigned? literal.toList with
  | some w => .ok w.toNat
  | none => .error (.invalidLiteral literal "unsigned integer")

/-- The settings read so far and the keys that they came from. -/
structure SettingsDraft where
  settings : Settings := {}
  seen : List String := []
deriving DecidableEq, Repr

def addSetting (d : SettingsDraft) (line : Text.Line) : Except Cause SettingsDraft :=
  match line.words with
  | [key, value] =>
    if key ∈ d.seen then .error (.duplicateSetting key)
    else if key = "CYCLE_MS" then do
      let cycleMs ← unsigned value
      return ⟨{ d.settings with cycleMs }, key :: d.seen⟩
    else if key = "CYCLES" then do
      let cycles ← unsigned value
      return ⟨{ d.settings with cycles }, key :: d.seen⟩
    else .error (.unknownSetting key)
  | _ => .error (.malformed "setting")

def settings (lines : List Text.Line) : Except Error Settings := do
  let d ← eachLine addSetting {} lines
  return d.settings

end Load

end CyclicStack
