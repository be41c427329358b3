import CyclicStack.Proofs.Execution.Outcomes
import CyclicStack.Proofs.Load.Assembly

/-!
# Loaded programs are well-formed

What loading checks, it checks for good: the variables of a loaded program fit its
memory, its instructions name variables that exist and jump to positions that exist, and
its last instruction is a `halt`.
-/

namespace CyclicStack

namespace Program

/-- A program that a machine can run safely. -/
structure WellFormed (p : Program) : Prop where
  served : p.Served
  within : ∀ (k : Nat) (i : Instruction), p.code[k]? = some i →
    i.Within p.vars.size p.code.size
  last : ∃ n, p.code.size = n + 1 ∧ p.code[n]? = some .halt

end Program

namespace Load

theorem Reads.within {names : Names} {line : Text.Line} {i : Instruction} (size : Nat)
    (h : Reads names line (.ready i)) :
    i.Within names.vars.size size := by
  have hlt : ∀ {id : Nat} {v : Variable}, names.vars[id]? = some v →
      id < names.vars.size :=
    fun hv => (Array.getElem?_eq_some_iff.mp hv).1
  cases h with
  | label | operator | atan2 => trivial
  | push _ h =>
      generalize Text.Token.text _ = name at h
      cases h with
      | constant | source => trivial
      | var hv => exact hlt hv
  | pop _ h =>
      generalize Text.Token.text _ = name at h
      cases h with
      | sink => trivial
      | var hv => exact hlt hv

theorem Assembled.within {names : Names} {lines : List Text.Line}
    {code : Array Instruction} {labels : List (String × Nat)}
    (h : Assembled names lines code labels) {k : Nat} {i : Instruction}
    (hi : code[k]? = some i) :
    i.Within names.vars.size code.size := by
  have hk : k < code.size := (Array.getElem?_eq_some_iff.mp hi).1
  rw [h.size] at hk
  rcases Nat.lt_succ_iff_lt_or_eq.mp hk with hline | rfl
  · obtain ⟨statement, i', hreads, hmeans, hi'⟩ :=
      h.meaning k _ (List.getElem?_eq_getElem hline)
    rw [hi] at hi'
    cases hi'
    cases hmeans with
    | ready => exact hreads.within code.size
    | branch htarget => exact (Array.getElem?_eq_some_iff.mp htarget).1
  · rw [h.last] at hi
    cases hi
    trivial

end Load

theorem wellFormed_of_load {segments : Load.Segments} {text : String} {p : Program}
    (h : load segments text = .ok p) :
    p.WellFormed := by
  obtain ⟨placed, _, h⟩ := bind_eq_ok_iff.mp h
  obtain ⟨d, hdraft, h⟩ := bind_eq_ok_iff.mp h
  obtain ⟨constants, hconstants, h⟩ := bind_eq_ok_iff.mp h
  obtain ⟨⟨code, labels⟩, hassemble, h⟩ := bind_eq_ok_iff.mp h
  cases h
  have hsound := Load.sound_of_draft hdraft
  have hassembled := Load.assembled_of_assemble
    (hsound.unambiguous (mapError_eq_ok_iff.mp hconstants)) hassemble
  refine ⟨?_, fun k i hi => hassembled.within hi, ⟨_, hassembled.size, hassembled.last⟩⟩
  intro id v hv
  exact hsound.fits v (Array.mem_of_getElem? hv)

end CyclicStack
