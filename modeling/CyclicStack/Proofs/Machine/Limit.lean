import CyclicStack.Proofs.Machine.Cycle

/-!
# Cycles with a step limit

No instruction looks at the step limit.  So a cycle with a limit goes the same way as
the cycle without one, and the limit only decides how far: a cycle that ends with an
instruction within the limit ends as it would without, and any other is cut off after
exactly as many instructions as the limit says.
-/

namespace CyclicStack

namespace Machine

def withLimit (limit : Option Nat) (m : Machine) : Machine :=
  { m with config := { m.config with maxSteps := limit } }

/-- A result with another step limit in the machine that is left behind. -/
def relimit (limit : Option Nat) :
    EStateM.Result Failure Machine CycleEnd → EStateM.Result Failure Machine CycleEnd
  | .ok cycle m => .ok cycle (m.withLimit limit)
  | .error failure m => .error failure (m.withLimit limit)

@[simp] theorem relimit_relimit (limit limit' : Option Nat)
    (result : EStateM.Result Failure Machine CycleEnd) :
    relimit limit (relimit limit' result) = relimit limit result := by
  cases result <;> rfl

/-! ## The limit plays no part in an instruction -/

variable {m m' : Machine}

theorem follow_withLimit (limit : Option Nat) (m : Machine) (flow : Flow) :
    (m.withLimit limit).follow flow = (m.follow flow).withLimit limit := by
  cases flow <;> rfl

theorem step_withLimit_of_ok {flow : Flow} (h : step m = .ok flow m')
    (limit : Option Nat) :
    step (m.withLimit limit) = .ok flow (m'.withLimit limit) := by
  obtain ⟨i, s, hi, hexecute, rfl⟩ := step_ok_cases h
  rw [← follow_withLimit]
  have hi : (m.withLimit limit).program.code[(m.withLimit limit).ip]? = some i := hi
  have hexecute : execute i (m.withLimit limit).toState = .ok flow s := hexecute
  simp only [step, hi, onState, Action.zoom, hexecute]
  rfl

theorem step_withLimit_of_error {failure : Failure} (h : step m = .error failure m)
    (limit : Option Nat) :
    step (m.withLimit limit) = .error failure (m.withLimit limit) := by
  obtain ⟨_, ⟨hnone, rfl⟩ | ⟨i, source, hi, hexecute, rfl⟩⟩ := step_error_cases h
  · have hnone : (m.withLimit limit).program.code[(m.withLimit limit).ip]? =
        none := hnone
    simp only [step, hnone]
    rfl
  · exact step_of_execute_error (m := m.withLimit limit) hi hexecute

theorem Advances.withLimit {k : Nat} (h : Advances k m m') (limit : Option Nat) :
    Advances k (m.withLimit limit) (m'.withLimit limit) := by
  induction h with
  | refl m => exact .refl _
  | step hstep hflow _ ih => exact .step (step_withLimit_of_ok hstep limit) hflow ih

theorem Ends.withLimit {k : Nat} {result : EStateM.Result Failure Machine CycleEnd}
    (h : Ends m k result) (limit : Option Nat) :
    Ends (m.withLimit limit) k (relimit limit result) := by
  cases h with
  | finished hadvances hhalt =>
      exact .finished (hadvances.withLimit limit) (step_withLimit_of_ok hhalt limit)
  | failed hadvances hfailure =>
      exact .failed (hadvances.withLimit limit) (step_withLimit_of_error hfailure limit)

/-- A cycle that ends is not cut off. -/
theorem Ends.ne_stepLimitExceeded {k : Nat}
    {result : EStateM.Result Failure Machine CycleEnd} (h : Ends m k result)
    (limit : Nat) (m' : Machine) :
    result ≠ .error (.stepLimitExceeded limit) m' := by
  rintro rfl
  cases h with
  | failed _ hfailure =>
      obtain ⟨_, ⟨_, heq⟩ | ⟨_, _, _, _, heq⟩⟩ := step_error_cases hfailure
      · cases heq
      · cases heq

/-- Before the instruction that ends a cycle the cycle goes on. -/
theorem Ends.exists_advances {k n : Nat}
    {result : EStateM.Result Failure Machine CycleEnd} (h : Ends m k result)
    (hn : n < k) :
    ∃ m', Advances n m m' := by
  have hbefore : ∀ {j : Nat} {m₁ : Machine}, Advances j m m₁ → n < j + 1 →
      ∃ m', Advances n m m' := by
    intro j m₁ hadvances hj
    obtain ⟨more, rfl⟩ := Nat.exists_eq_add_of_le (Nat.le_of_lt_succ hj)
    obtain ⟨m', hadvances, _⟩ := hadvances.split
    exact ⟨m', hadvances⟩
  cases h with
  | finished hadvances _ => exact hbefore hadvances hn
  | failed hadvances _ => exact hbefore hadvances hn

/-! ## Cycles with and without a limit -/

/-- A cycle that goes on after as many instructions as its limit says is cut off
there. -/
theorem run_withLimit_of_advances (hm : m.initialized = true) {limit : Nat}
    (h : Advances limit (m.withLimit none).start m') (fuel : Nat) :
    run fuel (m.withLimit (some limit)) =
      .error (.stepLimitExceeded limit) (m'.withLimit (some limit)) :=
  (run_of_advances_budget (m := m.withLimit (some limit)) hm
    (h.withLimit (some limit))).2

/-- A cycle that ends within its limit ends as it would without a limit. -/
theorem run_withLimit_of_ends (hm : m.initialized = true) {k limit : Nat}
    {result : EStateM.Result Failure Machine CycleEnd}
    (h : Ends (m.withLimit none).start k result) (hk : k ≤ limit) (fuel : Nat) :
    run fuel (m.withLimit (some limit)) = relimit (some limit) result :=
  run_of_ends (m := m.withLimit (some limit)) hm (h.withLimit (some limit)) hk

/-- Without a limit, a cycle returns a result exactly if it ends with one of the
instructions that its fuel lasts for. -/
theorem run_withLimit_none_eq_iff (hm : m.initialized = true) {fuel : Nat}
    {result : EStateM.Result Failure Machine CycleEnd}
    (hresult : ∀ m', result ≠ .ok .outOfFuel m') :
    run fuel (m.withLimit none) = result ↔
      ∃ k ≤ fuel, Ends (m.withLimit none).start k result := by
  refine run_eq_iff (m := m.withLimit none) hm ?_
  intro m₁ hconfig
  rw [exhausted, hconfig]
  exact hresult m₁

end Machine

open Machine

/-- A step limit only cuts cycles off.  Compare the cycle of an initialised machine
without a limit with the cycle under a limit.  If the former ends with its `k`-th
instruction, then the latter returns the same result and leaves the same machine if `k`
is within the limit, and is cut off otherwise; it is also cut off if the former does not
end within the limit.  Whenever it is cut off, exactly as many instructions as the limit
says were executed, the machine is the one after these, and from it the cycle without a
limit goes on.  So a cycle that is not cut off returns the same under every larger limit
and without one. -/
theorem step_limit_only_cuts_off {m : Machine} (hm : m.initialized = true)
    (limit : Nat) :
    let free := m.withLimit none
    let limited := m.withLimit (some limit)
    (∀ fuel result, (∀ m', result ≠ .ok .outOfFuel m') →
      (run fuel free = result ↔ ∃ k ≤ fuel, Ends free.start k result)) ∧
    (∀ k result, Ends free.start k result → ∀ fuel,
      (k ≤ limit → run fuel limited = relimit (some limit) result) ∧
      (limit < k → ∃ m', run fuel limited = .error (.stepLimitExceeded limit) m')) ∧
    ((∀ k ≤ limit, ∀ result, ¬Ends free.start k result) → ∀ fuel,
      ∃ m', run fuel limited = .error (.stepLimitExceeded limit) m') ∧
    (∀ fuel n m', run fuel limited = .error (.stepLimitExceeded n) m' →
      n = limit ∧ ∃ m₁, Advances limit free.start m₁ ∧ m' = m₁.withLimit (some limit) ∧
        ∀ more, run (limit + more) free = runFrom limit more m₁) ∧
    ∀ fuel result, run fuel limited = result →
      (∀ n m', result ≠ .error (.stepLimitExceeded n) m') →
        (∀ larger ≥ limit, ∀ fuel',
          run fuel' (m.withLimit (some larger)) = relimit (some larger) result) ∧
        ∃ k ≤ limit, ∀ fuel' ≥ k, run fuel' free = relimit none result := by
  intro free limited
  refine ⟨fun fuel result => run_withLimit_none_eq_iff hm, ?_, ?_, ?_, ?_⟩
  · intro k result hends fuel
    refine ⟨fun hk => run_withLimit_of_ends hm hends hk fuel, ?_⟩
    intro hk
    obtain ⟨m', hadvances⟩ := hends.exists_advances hk
    exact ⟨_, run_withLimit_of_advances hm hadvances fuel⟩
  · intro hendless fuel
    rcases ends_or_advances limit free.start with ⟨k, hk, result, hends⟩ |
      ⟨m', hadvances⟩
    · exact absurd hends (hendless k hk result)
    · exact ⟨_, run_withLimit_of_advances hm hadvances fuel⟩
  · intro fuel n m' hrun
    rcases ends_or_advances limit free.start with ⟨k, hk, result, hends⟩ |
      ⟨m₁, hadvances⟩
    · rw [run_withLimit_of_ends hm hends hk] at hrun
      exact absurd hrun ((hends.withLimit (some limit)).ne_stepLimitExceeded n m')
    · rw [run_withLimit_of_advances hm hadvances] at hrun
      cases hrun
      refine ⟨rfl, m₁, hadvances, rfl, ?_⟩
      intro more
      have hrun : run (limit + more) free = _ :=
        run_of_advances (m := free) hm hadvances (Nat.le_add_right limit more)
      rwa [show free.cycleFuel (limit + more) - limit = more from
        Nat.add_sub_cancel_left limit more] at hrun
  · rintro fuel _ rfl hresult
    rcases ends_or_advances limit free.start with ⟨k, hk, result, hends⟩ |
      ⟨m₁, hadvances⟩
    · rw [run_withLimit_of_ends hm hends hk]
      simp only [relimit_relimit]
      refine ⟨fun larger hlarger fuel' => ?_, k, hk, fun fuel' hfuel' => ?_⟩
      · exact run_withLimit_of_ends hm hends (hk.trans hlarger) fuel'
      · exact run_of_ends (m := free) hm (hends.withLimit none) hfuel'
    · exact absurd (run_withLimit_of_advances hm hadvances fuel) (hresult _ _)

/-- A loop is left when it finds a zero on the stack, in its third round.  The cycle
ends with its seventh instruction, so a limit of seven leaves it as it is, and a limit
of six cuts it off at the `halt`. -/
theorem step_limit_only_cuts_off_loop :
    let m : Machine :=
      { program := { code := #[.label "top", .jump .ifNotZero 0, .halt] }
        stack := { capacity := 4, words := [1, 1, 0] }, host := {}, config := {}
        initialized := true }
    let free := m.withLimit none
    let last : Machine := { free with stack := { capacity := 4 }, ip := 2 }
    m.initialized = true ∧
      (∃ k ≤ 7, Ends free.start k (.ok (.finished ⟨7, 0⟩) last)) ∧
      run 0 (m.withLimit (some 7)) = .ok (.finished ⟨7, 0⟩) (last.withLimit (some 7)) ∧
      run 0 (m.withLimit (some 6)) =
        .error (.stepLimitExceeded 6) (last.withLimit (some 6)) ∧
      ∃ m₁, Advances 6 free.start m₁ ∧ last.withLimit (some 6) =
        m₁.withLimit (some 6) := by
  intro m free last
  have hm : m.initialized = true := rfl
  obtain ⟨hfree, hends, _⟩ := step_limit_only_cuts_off hm 7
  obtain ⟨k, hk, hlast⟩ := (hfree 7 (.ok (.finished ⟨7, 0⟩) last) (by simp)).mp rfl
  have hcut : run 0 (m.withLimit (some 6)) =
      .error (.stepLimitExceeded 6) (last.withLimit (some 6)) := rfl
  obtain ⟨_, m₁, hadvances, hsame, _⟩ :=
    (step_limit_only_cuts_off hm 6).2.2.2.1 0 6 _ hcut
  exact ⟨hm, ⟨k, hk, hlast⟩, (hends k _ hlast 0).1 hk, hcut, m₁, hadvances, hsame⟩

end CyclicStack
