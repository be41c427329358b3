import CyclicStack.Proofs.Schedule.Cycles

/-!
# Deadlines stay on the grid of time

The deadlines of a schedule are points of the grid that its start and its period span.
A cycle in time moves the deadline by one point.  A late one moves it past the clock, to
the next point, however late it is.

The way to that point is kept in 64 bits.  It is at most a period, and the period of a
schedule with a late cycle is less than the time that has passed since the start, so
nothing is lost as long as the clock stays in 64 bits itself.
-/

namespace CyclicStack

namespace Schedule

/-! ## One deadline -/

section

variable {periodNs deadline now : Nat}

theorem nextDeadline_of_le (h : now ≤ deadline + periodNs) :
    nextDeadline periodNs deadline now = deadline + periodNs :=
  if_neg (not_lt.mpr h)

theorem nextDeadline_of_lt (hperiod : 0 < periodNs) (h : deadline + periodNs < now) :
    nextDeadline periodNs deadline now =
      now + realignment periodNs (now - (deadline + periodNs)) := by
  rw [nextDeadline, if_pos h, if_neg hperiod.ne']

theorem le_nextDeadline (periodNs deadline now : Nat) :
    now ≤ nextDeadline periodNs deadline now := by
  unfold nextDeadline
  dsimp only
  split_ifs <;> omega

theorem lt_nextDeadline (hperiod : 0 < periodNs) :
    deadline < nextDeadline periodNs deadline now := by
  unfold nextDeadline
  dsimp only
  split_ifs <;> omega

/-- A way of at most a period that fits in 64 bits is kept as it is. -/
theorem realignment_eq (late : Nat) (hperiod : periodNs < 2 ^ 64) :
    realignment periodNs late = periodNs - late % periodNs := by
  have hlt : periodNs - late % periodNs < UInt64.size := by
    have hsize : UInt64.size = 2 ^ 64 := rfl
    omega
  exact UInt64.toNat_ofNat_of_lt hlt

/-- From a clock that is `late` past a point of the grid, the way leads to a point of
it. -/
theorem late_add_realignment (late : Nat) (hpos : 0 < periodNs)
    (hperiod : periodNs < 2 ^ 64) :
    late + realignment periodNs late = (late / periodNs + 1) * periodNs := by
  have hmod : late % periodNs < periodNs := Nat.mod_lt late hpos
  have hdiv : periodNs * (late / periodNs) + late % periodNs = late :=
    Nat.div_add_mod late periodNs
  rw [realignment_eq late hperiod, Nat.add_mul, Nat.one_mul,
    Nat.mul_comm (late / periodNs)]
  omega

/-- A deadline moves by whole periods. -/
theorem exists_nextDeadline_eq (hpos : 0 < periodNs)
    (hperiod : deadline + periodNs < now → periodNs < 2 ^ 64) :
    ∃ k, nextDeadline periodNs deadline now = deadline + k * periodNs := by
  by_cases hlate : deadline + periodNs < now
  · refine ⟨(now - (deadline + periodNs)) / periodNs + 1 + 1, ?_⟩
    have hway := late_add_realignment (now - (deadline + periodNs)) hpos (hperiod hlate)
    rw [nextDeadline_of_lt hpos hlate, Nat.succ_mul, ← hway]
    omega
  · exact ⟨1, by rw [nextDeadline_of_le (not_lt.mp hlate), Nat.one_mul]⟩

end

/-! ## All deadlines -/

section

variable {s : Schedule} {w : Surroundings}

theorem start_le_deadlineAfter (hperiod : 0 < s.periodNs) (c : Nat) :
    w.start ≤ deadlineAfter s w c := by
  induction c with
  | zero => exact le_rfl
  | succ c ih => exact ih.trans (lt_nextDeadline hperiod).le

/-- After a late cycle the period fits in 64 bits, since the clock has gone further than
that. -/
theorem periodNs_lt_of_late (hperiod : 0 < s.periodNs) {c : Nat}
    (hclock : w.clock (c + 1) < w.start + 2 ^ 64)
    (hlate : deadlineAfter s w c + s.periodNs < w.clock (c + 1)) :
    s.periodNs < 2 ^ 64 := by
  have hstart := start_le_deadlineAfter (w := w) hperiod c
  omega

theorem exists_deadlineAfter_eq (hperiod : 0 < s.periodNs)
    (hclock : ∀ c, w.clock (c + 1) < w.start + 2 ^ 64) (c : Nat) :
    ∃ j, deadlineAfter s w c = w.start + j * s.periodNs := by
  induction c with
  | zero => exact ⟨0, by rw [deadlineAfter, Nat.zero_mul, Nat.add_zero]⟩
  | succ c ih =>
      obtain ⟨j, hj⟩ := ih
      obtain ⟨k, hk⟩ :=
        exists_nextDeadline_eq hperiod (periodNs_lt_of_late hperiod (hclock c))
      exact ⟨j + k, by rw [deadlineAfter, hk, hj, Nat.add_mul, Nat.add_assoc]⟩

end

/-- The deadlines of a schedule are points of its grid, each of them a later point than
the one before.  They are not before the clock that they are compared with.  A cycle in
time moves the deadline by one period, and after a late one the way from the clock to
the deadline is exact in 64 bits and no longer than a period. -/
theorem deadlines_stay_on_grid (s : Schedule) (w : Surroundings)
    (hperiod : 0 < s.periodNs) (hclock : ∀ c, w.clock (c + 1) < w.start + 2 ^ 64) :
    (∀ stepFuel m₀ c m fuel, Reaches s w stepFuel m₀ c m →
      runFrom s w stepFuel {} w.start (c + fuel) m₀ =
        runFrom s w stepFuel ⟨c, overrunsAfter s w c, false⟩
          (deadlineAfter s w c) fuel m) ∧
    ∃ j : Nat → Nat, StrictMono j ∧ ∀ c,
      deadlineAfter s w c = w.start + j c * s.periodNs ∧
      w.clock (c + 1) ≤ deadlineAfter s w (c + 1) ∧
      (w.clock (c + 1) ≤ deadlineAfter s w c + s.periodNs →
        deadlineAfter s w (c + 1) = deadlineAfter s w c + s.periodNs) ∧
      (deadlineAfter s w c + s.periodNs < w.clock (c + 1) →
        let offset := s.periodNs -
          (w.clock (c + 1) - (deadlineAfter s w c + s.periodNs)) % s.periodNs
        (UInt64.ofNat offset).toNat = offset ∧
          deadlineAfter s w (c + 1) = w.clock (c + 1) + offset) := by
  refine ⟨fun stepFuel m₀ c m fuel h => runFrom_of_reaches h fuel, ?_⟩
  choose j hj using exists_deadlineAfter_eq hperiod hclock
  refine ⟨j, strictMono_nat_of_lt_succ fun c => ?_, fun c =>
    ⟨hj c, le_nextDeadline _ _ _, ?_, ?_⟩⟩
  · have hlt : deadlineAfter s w c < deadlineAfter s w (c + 1) :=
      lt_nextDeadline hperiod
    rw [hj c, hj (c + 1)] at hlt
    exact Nat.lt_of_mul_lt_mul_right (Nat.lt_of_add_lt_add_left hlt)
  · exact nextDeadline_of_le
  · intro hlate
    have hexact := realignment_eq (w.clock (c + 1) - (deadlineAfter s w c + s.periodNs))
      (periodNs_lt_of_late hperiod (hclock c) hlate)
    exact ⟨hexact, by rw [deadlineAfter, nextDeadline_of_lt hperiod hlate, hexact]⟩

/-- The first cycle is in time, the second ends on a point of the grid, two periods
late, and the third is in time again. -/
theorem deadlines_stay_on_grid_late_by_periods :
    let s : Schedule := ⟨10, 0⟩
    let w : Surroundings := { start := 3, clock := fun n => if n = 1 then 5 else 43 }
    deadlineAfter s w 1 = 13 ∧ deadlineAfter s w 2 = 53 ∧ deadlineAfter s w 3 = 63 ∧
      ∃ j : Nat → Nat, StrictMono j ∧ ∀ c, deadlineAfter s w c = 3 + j c * 10 := by
  intro s w
  have hclock : ∀ c, w.clock (c + 1) < w.start + 2 ^ 64 := by
    intro c
    dsimp only [w]
    split_ifs <;> omega
  obtain ⟨_, j, hmono, hj⟩ := deadlines_stay_on_grid s w (by decide) hclock
  exact ⟨by decide, by decide, by decide, j, hmono, fun c => (hj c).1⟩

end Schedule

end CyclicStack
