import Mathlib
import CyclicStack.Schedule

/-!
# A schedule runs whole cycles

A schedule ends between two cycles: when it is complete, when its token is found
cancelled, or when a cycle fails.  So the machine that it leaves behind is the one after
so many finished cycles, or the one that a failing cycle has left after them.

The token is read before each cycle and at the end of the wait after it, and a cancelled
token stays cancelled.  Hence a cancellation is found by the first reading that follows
it, unless the schedule has ended by then, and the number of that reading bounds the
number of cycles that are started.
-/

namespace CyclicStack

namespace Machine

def finishCycle? (stepFuel : Nat) (m : Machine) : Option Machine :=
  match run stepFuel m with
  | .ok (.finished _) m' => some m'
  | _ => none

/-- The machine after `n` cycles, if all of them are finished. -/
def afterCycles? (stepFuel : Nat) (m : Machine) : Nat → Option Machine
  | 0 => some m
  | n + 1 => (afterCycles? stepFuel m n).bind (finishCycle? stepFuel)

theorem finishCycle?_eq_some_iff {stepFuel : Nat} {m m' : Machine} :
    finishCycle? stepFuel m = some m' ↔
      ∃ report, run stepFuel m = .ok (.finished report) m' := by
  unfold finishCycle?
  split
  · next hrun => simp [hrun]
  · next hnot =>
    refine ⟨nofun, ?_⟩
    rintro ⟨report, hrun⟩
    exact (hnot report m' hrun).elim

theorem afterCycles?_succ {stepFuel n : Nat} {m m₁ m' : Machine} {report : CycleReport}
    (h : afterCycles? stepFuel m n = some m₁)
    (hrun : run stepFuel m₁ = .ok (.finished report) m') :
    afterCycles? stepFuel m (n + 1) = some m' := by
  rw [afterCycles?, h, Option.bind_some]
  exact finishCycle?_eq_some_iff.mpr ⟨report, hrun⟩

end Machine

open Machine

namespace Schedule

/-- The token is found cancelled at its `i`-th reading.  By then the machine has run
`(i + 1) / 2` cycles. -/
def FoundCancelled (w : Surroundings) (stepFuel : Nat) (m : Machine) (i : Nat) : Prop :=
  ∃ m', afterCycles? stepFuel m ((i + 1) / 2) = some m' ∧ w.cancelled i m' = true

variable {s : Schedule} {w : Surroundings} {stepFuel : Nat} {m₀ m : Machine}

theorem not_foundCancelled_iff {i c : Nat} (hm : afterCycles? stepFuel m₀ c = some m)
    (hi : (i + 1) / 2 = c) :
    ¬FoundCancelled w stepFuel m₀ i ↔ w.cancelled i m = false := by
  simp [FoundCancelled, hi, hm]

/-- The schedule is about to read its token for another cycle, after `c` finished
ones. -/
structure Reaches (s : Schedule) (w : Surroundings) (stepFuel : Nat) (m₀ : Machine)
    (c : Nat) (m : Machine) : Prop where
  after : afterCycles? stepFuel m₀ c = some m
  pending : s.isComplete c = false
  quiet : ∀ i < 2 * c, ¬FoundCancelled w stepFuel m₀ i

theorem reaches_start (hopen : s.isComplete 0 = false) :
    Reaches s w stepFuel m₀ 0 m₀ :=
  ⟨rfl, hopen, by omega⟩

/-- A cycle is started after `c` finished ones. -/
structure Starts (s : Schedule) (w : Surroundings) (stepFuel : Nat) (m₀ : Machine)
    (c : Nat) (m : Machine) : Prop extends Reaches s w stepFuel m₀ c m where
  granted : w.cancelled (2 * c) m = false

theorem Starts.quiet_le {c : Nat} (h : Starts s w stepFuel m₀ c m) :
    ∀ i ≤ 2 * c, ¬FoundCancelled w stepFuel m₀ i := by
  intro i hi hfound
  rcases Nat.lt_or_eq_of_le hi with hlt | rfl
  · exact h.quiet i hlt hfound
  · exact (not_foundCancelled_iff h.after (by omega)).mpr h.granted hfound

/-! ## One turn of the loop -/

theorem isComplete_succ_eq_true_iff {c : Nat} (h : s.isComplete c = false) :
    s.isComplete (c + 1) = true ↔ s.cycles = c + 1 := by
  simp only [isComplete, Bool.and_eq_false_iff, Bool.and_eq_true, bne_iff_ne,
    bne_eq_false_iff_eq, decide_eq_false_iff_not, decide_eq_true_eq] at h ⊢
  omega

theorem isComplete_of_succ {c : Nat} (h : s.isComplete (c + 1) = false) :
    s.isComplete c = false := by
  simp only [isComplete, Bool.and_eq_false_iff, bne_eq_false_iff_eq,
    decide_eq_false_iff_not] at h ⊢
  omega

theorem Starts.next {c : Nat} {m' : Machine} {report : CycleReport}
    (h : Starts s w stepFuel m₀ c m)
    (hrun : Machine.run stepFuel m = .ok (.finished report) m')
    (hopen : s.isComplete (c + 1) = false)
    (hquiet : w.cancelled (2 * c + 1) m' = false) :
    Reaches s w stepFuel m₀ (c + 1) m' := by
  have hafter := afterCycles?_succ h.after hrun
  refine ⟨hafter, hopen, ?_⟩
  intro i hi hfound
  by_cases hlast : i = 2 * c + 1
  · subst hlast
    exact (not_foundCancelled_iff hafter (by omega)).mpr hquiet hfound
  · exact h.quiet_le i (by omega) hfound

/-- The way back: what is reached after a cycle was reached by a cycle. -/
theorem Reaches.exists_starts {c : Nat} {m' : Machine}
    (h : Reaches s w stepFuel m₀ (c + 1) m') :
    ∃ m report, Starts s w stepFuel m₀ c m ∧
      Machine.run stepFuel m = .ok (.finished report) m' ∧
        w.cancelled (2 * c + 1) m' = false := by
  obtain ⟨m, hm, hcycle⟩ := Option.bind_eq_some_iff.mp h.after
  obtain ⟨report, hrun⟩ := finishCycle?_eq_some_iff.mp hcycle
  have hgranted : w.cancelled (2 * c) m = false :=
    (not_foundCancelled_iff hm (by omega)).mp (h.quiet _ (by omega))
  have hquiet : w.cancelled (2 * c + 1) m' = false :=
    (not_foundCancelled_iff h.after (by omega)).mp (h.quiet _ (by omega))
  exact ⟨m, report, ⟨⟨hm, isComplete_of_succ h.pending,
    fun i hi => h.quiet i (by omega)⟩, hgranted⟩, hrun, hquiet⟩

section

variable {stats : ScheduleStats} {deadline fuel : Nat}

theorem runFrom_of_cancelled (h : w.cancelled (2 * stats.cycles) m = true) :
    runFrom s w stepFuel stats deadline (fuel + 1) m =
      .ok (.stopped { stats with cancelled := true }) m := by
  rw [runFrom, if_pos h]

theorem runFrom_of_granted (h : w.cancelled (2 * stats.cycles) m = false) :
    runFrom s w stepFuel stats deadline (fuel + 1) m =
      match Machine.run stepFuel m with
      | .error failure m => .error failure m
      | .ok .outOfFuel m => .ok .outOfFuel m
      | .ok (.finished _) m =>
        if s.isComplete (stats.cycles + 1) then
          .ok (.stopped { stats with cycles := stats.cycles + 1 }) m
        else
          let now := w.clock (stats.cycles + 1)
          let overruns :=
            stats.overruns + if isLate s.periodNs deadline now then 1 else 0
          if w.cancelled (2 * stats.cycles + 1) m then
            .ok (.stopped ⟨stats.cycles + 1, overruns, true⟩) m
          else
            runFrom s w stepFuel ⟨stats.cycles + 1, overruns, stats.cancelled⟩
              (nextDeadline s.periodNs deadline now) fuel m := by
  rw [runFrom, if_neg (by simp [h])]
  rcases Machine.run stepFuel m with ⟨_ | _, m'⟩ | ⟨failure, m'⟩
  · -- The cycle is finished, and the schedule goes on as it is decided after it.
    cases hlast : s.isComplete (stats.cycles + 1) <;> simp [afterCycle, hlast]
  · rfl
  · rfl

end

/-! ## All turns of the loop -/

/-- How a schedule can end: between two cycles, or in a cycle that fails or does not
end. -/
inductive Ends (s : Schedule) (w : Surroundings) (stepFuel : Nat) (m₀ : Machine) :
    EStateM.Result Failure Machine ScheduleEnd → Prop
  | cancelledBefore {c overruns : Nat} {m : Machine} (h : Reaches s w stepFuel m₀ c m)
      (hcancelled : w.cancelled (2 * c) m = true) :
      Ends s w stepFuel m₀ (.ok (.stopped ⟨c, overruns, true⟩) m)
  | complete {c overruns : Nat} {m m' : Machine} {report : CycleReport}
      (h : Starts s w stepFuel m₀ c m)
      (hrun : Machine.run stepFuel m = .ok (.finished report) m')
      (hcycles : s.cycles = c + 1) :
      Ends s w stepFuel m₀ (.ok (.stopped ⟨c + 1, overruns, false⟩) m')
  | cancelledAfter {c overruns : Nat} {m m' : Machine} {report : CycleReport}
      (h : Starts s w stepFuel m₀ c m)
      (hrun : Machine.run stepFuel m = .ok (.finished report) m')
      (hopen : s.isComplete (c + 1) = false)
      (hcancelled : w.cancelled (2 * c + 1) m' = true) :
      Ends s w stepFuel m₀ (.ok (.stopped ⟨c + 1, overruns, true⟩) m')
  | failed {c : Nat} {m m' : Machine} {failure : Failure}
      (h : Starts s w stepFuel m₀ c m)
      (hrun : Machine.run stepFuel m = .error failure m') :
      Ends s w stepFuel m₀ (.error failure m')
  | outOfFuel (m : Machine) : Ends s w stepFuel m₀ (.ok .outOfFuel m)

theorem ends_of_reaches {stats : ScheduleStats} (hstats : stats.cancelled = false)
    (h : Reaches s w stepFuel m₀ stats.cycles m) (deadline fuel : Nat) :
    Ends s w stepFuel m₀ (runFrom s w stepFuel stats deadline fuel m) := by
  induction fuel generalizing stats deadline m with
  | zero => exact .outOfFuel m
  | succ fuel ih =>
      obtain ⟨c, overruns, cancelled⟩ := stats
      obtain rfl : cancelled = false := hstats
      by_cases hcancelled : w.cancelled (2 * c) m = true
      · rw [runFrom_of_cancelled hcancelled]
        exact .cancelledBefore h hcancelled
      · rw [Bool.not_eq_true] at hcancelled
        have hstarts : Starts s w stepFuel m₀ c m := ⟨h, hcancelled⟩
        rw [runFrom_of_granted hcancelled]
        split
        · next failure m' hrun => exact .failed hstarts hrun
        · next m' _ => exact .outOfFuel m'
        · next report m' hrun =>
          split_ifs with hcomplete hwait
          · exact .complete hstarts hrun
              ((isComplete_succ_eq_true_iff h.pending).mp hcomplete)
          · exact .cancelledAfter hstarts hrun (by simpa using hcomplete) hwait
          · exact ih rfl (hstarts.next hrun (by simpa using hcomplete)
              (by simpa using hwait)) _

/-- The deadline after `c` finished cycles. -/
def deadlineAfter (s : Schedule) (w : Surroundings) : Nat → Nat
  | 0 => w.start
  | c + 1 => nextDeadline s.periodNs (deadlineAfter s w c) (w.clock (c + 1))

/-- How many of the first `c` cycles have ended after their deadline. -/
def overrunsAfter (s : Schedule) (w : Surroundings) : Nat → Nat
  | 0 => 0
  | c + 1 =>
    overrunsAfter s w c + if isLate s.periodNs (deadlineAfter s w c)
      (w.clock (c + 1)) then 1 else 0

/-- The loop gets wherever a schedule can get, and what it carries there is known. -/
theorem runFrom_of_reaches {c : Nat} (h : Reaches s w stepFuel m₀ c m) (fuel : Nat) :
    runFrom s w stepFuel {} w.start (c + fuel) m₀ =
      runFrom s w stepFuel ⟨c, overrunsAfter s w c, false⟩
        (deadlineAfter s w c) fuel m := by
  induction c generalizing m fuel with
  | zero =>
      obtain rfl : m₀ = m := by simpa [afterCycles?] using h.after
      rw [Nat.zero_add]
      rfl
  | succ c ih =>
      obtain ⟨m₁, report, hstarts, hrun, hquiet⟩ := h.exists_starts
      have hloop := ih hstarts.toReaches (fuel + 1)
      rw [Nat.add_right_comm, Nat.add_assoc, hloop,
        runFrom_of_granted hstarts.granted, hrun]
      simp only [h.pending, hquiet, Bool.false_eq_true, if_false]
      rfl

/-! ## The whole schedule -/

theorem isComplete_zero (s : Schedule) :
    s.isComplete 0 = false := by
  simp [isComplete]

theorem ends_of_run (s : Schedule) (w : Surroundings) (stepFuel fuel : Nat)
    (m : Machine) :
    Ends s w stepFuel m (s.run w stepFuel fuel m) :=
  ends_of_reaches rfl (reaches_start s.isComplete_zero) w.start (s.scheduleFuel fuel)

/-- A schedule whose token is not found cancelled before its last cycle is started runs
all its cycles. -/
theorem run_of_afterCycles? {m' : Machine} (hcycles : s.cycles ≠ 0)
    (hafter : afterCycles? stepFuel m₀ s.cycles = some m')
    (hquiet : ∀ i, FoundCancelled w stepFuel m₀ i → s.cycles ≤ (i + 1) / 2)
    (fuel : Nat) :
    ∃ overruns, s.run w stepFuel fuel m₀ =
      .ok (.stopped ⟨s.cycles, overruns, false⟩) m' := by
  obtain ⟨c, hc⟩ := Nat.exists_eq_add_one_of_ne_zero hcycles
  rw [hc] at hafter hquiet
  obtain ⟨m, hm, hcycle⟩ := Option.bind_eq_some_iff.mp hafter
  obtain ⟨report, hrun⟩ := finishCycle?_eq_some_iff.mp hcycle
  have hnot : ∀ i ≤ 2 * c, ¬FoundCancelled w stepFuel m₀ i := by
    intro i hi hfound
    have hbound := hquiet i hfound
    omega
  have hopen : s.isComplete c = false := by
    simp [isComplete, hc]
  have hcomplete : s.isComplete (c + 1) = true := by
    simp [isComplete, hc]
  have hreaches : Reaches s w stepFuel m₀ c m := ⟨hm, hopen, fun i hi => hnot i hi.le⟩
  have hgranted : w.cancelled (2 * c) m = false :=
    (not_foundCancelled_iff hm (by omega)).mp (hnot _ le_rfl)
  have hloop := runFrom_of_reaches hreaches 1
  refine ⟨overrunsAfter s w c, ?_⟩
  rw [run, scheduleFuel, if_neg hcycles, hc, hloop, runFrom_of_granted hgranted, hrun]
  simp only [hcomplete, if_true]

theorem isComplete_of_lt_scheduleFuel {c fuel : Nat} (h : c < s.scheduleFuel fuel) :
    s.isComplete c = false := by
  unfold scheduleFuel at h
  split_ifs at h with hcycles
  · simp [isComplete, hcycles]
  · simp [isComplete, h]

/-- A schedule ends where its token is found cancelled for the first time. -/
theorem run_of_firstCancelled {i : Nat} {m' : Machine} {fuel : Nat}
    (hafter : afterCycles? stepFuel m₀ ((i + 1) / 2) = some m')
    (hcancelled : w.cancelled i m' = true)
    (hfirst : ∀ j < i, ¬FoundCancelled w stepFuel m₀ j)
    (hfuel : (i + 1) / 2 < s.scheduleFuel fuel) :
    ∃ overruns, s.run w stepFuel fuel m₀ =
      .ok (.stopped ⟨(i + 1) / 2, overruns, true⟩) m' := by
  have hopen := isComplete_of_lt_scheduleFuel hfuel
  obtain ⟨rest, hrest⟩ := Nat.exists_eq_add_of_lt hfuel
  rw [run, hrest]
  obtain ⟨c, rfl | rfl⟩ : ∃ c, i = 2 * c ∨ i = 2 * c + 1 := ⟨i / 2, by omega⟩
  · -- The token is found cancelled before a cycle.
    rw [show (2 * c + 1) / 2 = c by omega] at hafter hopen ⊢
    have hreaches : Reaches s w stepFuel m₀ c m' := ⟨hafter, hopen, hfirst⟩
    have hloop := runFrom_of_reaches hreaches (rest + 1)
    refine ⟨overrunsAfter s w c, ?_⟩
    rw [Nat.add_assoc, hloop, runFrom_of_cancelled hcancelled]
  · -- The token is found cancelled at the end of the wait after a cycle.
    rw [show (2 * c + 1 + 1) / 2 = c + 1 by omega] at hafter hopen ⊢
    obtain ⟨m, hm, hcycle⟩ := Option.bind_eq_some_iff.mp hafter
    obtain ⟨report, hrun⟩ := finishCycle?_eq_some_iff.mp hcycle
    have hgranted : w.cancelled (2 * c) m = false :=
      (not_foundCancelled_iff hm (by omega)).mp (hfirst _ (by omega))
    have hreaches : Reaches s w stepFuel m₀ c m :=
      ⟨hm, isComplete_of_succ hopen, fun j hj => hfirst j (by omega)⟩
    have hloop := runFrom_of_reaches hreaches (rest + 1 + 1)
    rw [show c + 1 + rest + 1 = c + (rest + 1 + 1) by omega, hloop,
      runFrom_of_granted hgranted, hrun]
    simp only [hopen, hcancelled, Bool.false_eq_true, if_false, if_true]
    exact ⟨_, rfl⟩

theorem Ends.stopped {stats : ScheduleStats} {m' : Machine}
    (h : Ends s w stepFuel m₀ (.ok (.stopped stats) m')) :
    afterCycles? stepFuel m₀ stats.cycles = some m' ∧
      (∀ i, FoundCancelled w stepFuel m₀ i → stats.cycles ≤ (i + 1) / 2) ∧
      if stats.cancelled then
        s.isComplete stats.cycles = false ∧
          ∃ i, (i + 1) / 2 = stats.cycles ∧ FoundCancelled w stepFuel m₀ i
      else s.cycles ≠ 0 ∧ s.cycles = stats.cycles := by
  -- No reading before the last cycle has found the token cancelled.
  have hbound : ∀ {c : Nat} {m : Machine}, Starts s w stepFuel m₀ c m →
      ∀ i, FoundCancelled w stepFuel m₀ i → c + 1 ≤ (i + 1) / 2 := by
    intro c m hstarts i hfound
    have hlt : ¬i ≤ 2 * c := fun hi => hstarts.quiet_le i hi hfound
    omega
  cases h with
  | @cancelledBefore c _ _ hreaches hcancelled =>
      have hhalf : (2 * c + 1) / 2 = c := by omega
      have hreadings : ∀ i, FoundCancelled w stepFuel m₀ i → c ≤ (i + 1) / 2 := by
        intro i hfound
        have hlt : ¬i < 2 * c := fun hi => hreaches.quiet i hi hfound
        omega
      exact ⟨hreaches.after, hreadings, hreaches.pending, 2 * c, hhalf, m',
        by rw [hhalf, hreaches.after], hcancelled⟩
  | complete hstarts hrun hcycles =>
      exact ⟨afterCycles?_succ hstarts.after hrun,
        hbound hstarts, by simp [hcycles], hcycles⟩
  | @cancelledAfter c _ _ _ _ hstarts hrun hopen hcancelled =>
      have hhalf : (2 * c + 1 + 1) / 2 = c + 1 := by omega
      have hafter := afterCycles?_succ hstarts.after hrun
      exact ⟨hafter, hbound hstarts, hopen, 2 * c + 1, hhalf,
        m', by rw [hhalf, hafter], hcancelled⟩

theorem Ends.error {failure : Failure} {m' : Machine}
    (h : Ends s w stepFuel m₀ (.error failure m')) :
    ∃ k m, afterCycles? stepFuel m₀ k = some m ∧
      Machine.run stepFuel m = .error failure m' ∧
      s.isComplete k = false ∧ ∀ i, FoundCancelled w stepFuel m₀ i →
        k < (i + 1) / 2 := by
  cases h with
  | @failed c m _ _ hstarts hrun =>
      refine ⟨c, m, hstarts.after, hrun, hstarts.pending, ?_⟩
      intro i hfound
      have hlt : ¬i ≤ 2 * c := fun hi => hstarts.quiet_le i hi hfound
      omega

end Schedule

open Schedule

/-- A schedule runs whole cycles, and as many as it should.

If it stops, its machine is the one after as many finished cycles as it reports.  It
stops early only where its token is found cancelled, and a cycle that fails is its last
one.  No cycle is started after a reading of the token at which it is cancelled, and
whatever the token, the schedule goes on until one of these things happens. -/
theorem schedule_runs_whole_cycles (s : Schedule) (w : Surroundings)
    (stepFuel fuel : Nat) (m : Machine) :
    (∀ stats m', s.run w stepFuel fuel m = .ok (.stopped stats) m' →
      afterCycles? stepFuel m stats.cycles = some m' ∧
      (s.cycles ≠ 0 →
        stats.cycles ≤ s.cycles ∧ (stats.cancelled = false ↔ stats.cycles = s.cycles)) ∧
      (s.cycles = 0 → stats.cancelled = true) ∧
      (stats.cancelled = true →
        ∃ i, (i + 1) / 2 = stats.cycles ∧ FoundCancelled w stepFuel m i) ∧
      ∀ i, FoundCancelled w stepFuel m i → stats.cycles ≤ (i + 1) / 2) ∧
    (∀ failure m', s.run w stepFuel fuel m = .error failure m' →
      ∃ k mₖ, afterCycles? stepFuel m k = some mₖ ∧
        Machine.run stepFuel mₖ = .error failure m' ∧ (s.cycles ≠ 0 → k < s.cycles) ∧
        ∀ i, FoundCancelled w stepFuel m i → k < (i + 1) / 2) ∧
    (w.cancelled 0 m = true → 0 < s.scheduleFuel fuel →
      s.run w stepFuel fuel m = .ok (.stopped { cancelled := true }) m) ∧
    (∀ i m', afterCycles? stepFuel m ((i + 1) / 2) = some m' → w.cancelled i m' = true →
      (∀ j < i, ¬FoundCancelled w stepFuel m j) → (i + 1) / 2 < s.scheduleFuel fuel →
      ∃ overruns, s.run w stepFuel fuel m =
        .ok (.stopped ⟨(i + 1) / 2, overruns, true⟩) m') ∧
    ∀ m', s.cycles ≠ 0 → afterCycles? stepFuel m s.cycles = some m' →
      (∀ i, FoundCancelled w stepFuel m i → s.cycles ≤ (i + 1) / 2) →
      ∃ overruns, s.run w stepFuel fuel m =
        .ok (.stopped ⟨s.cycles, overruns, false⟩) m' := by
  have hends := ends_of_run s w stepFuel fuel m
  refine ⟨?_, ?_, ?_, ?_, ?_⟩
  · intro stats m' hrun
    rw [hrun] at hends
    obtain ⟨hafter, hbound, hstop⟩ := hends.stopped
    refine ⟨hafter, ?_⟩
    cases hcancelled : stats.cancelled with
    | true =>
        rw [hcancelled, if_pos rfl] at hstop
        obtain ⟨hopen, hfound⟩ := hstop
        simp [isComplete] at hopen
        refine ⟨fun hcycles => ?_, fun _ => rfl, fun _ => hfound, hbound⟩
        have hlt := hopen hcycles
        exact ⟨hlt.le, by simp, fun heq => absurd heq hlt.ne⟩
    | false =>
        rw [hcancelled] at hstop
        obtain ⟨hcycles, heq⟩ := hstop
        exact ⟨fun _ => ⟨heq.ge, by simp [heq]⟩,
          fun hzero => absurd hzero hcycles, by simp, hbound⟩
  · intro failure m' hrun
    rw [hrun] at hends
    obtain ⟨k, mₖ, hafter, hfailed, hopen, hbound⟩ := hends.error
    exact ⟨k, mₖ, hafter, hfailed, by simpa [isComplete] using hopen, hbound⟩
  · intro hcancelled hfuel
    obtain ⟨rest, hrest⟩ := Nat.exists_eq_add_one_of_ne_zero hfuel.ne'
    rw [Schedule.run, hrest]
    exact runFrom_of_cancelled hcancelled
  · intro i m' hafter hcancelled hfirst hfuel
    exact run_of_firstCancelled hafter hcancelled hfirst hfuel
  · intro m' hcycles hafter hquiet
    exact run_of_afterCycles? hcycles hafter hquiet fuel

/-- The token is cancelled during the second cycle, by the line that the cycle writes:
the cycle is finished and the third one is not started. -/
theorem schedule_runs_whole_cycles_second_line :
    let m : Machine :=
      { program := { code := #[.pushConst 7, .popSink .stdout, .halt] },
        stack := { capacity := 2 },
        host := {}, config := {} }
    let s : Schedule := ⟨1000, 3⟩
    let w : Surroundings := { cancelled := fun _ m => m.host.lines.size = 2 }
    ∃ stats m', s.run w 9 0 m = .ok (.stopped stats) m' ∧ stats.cycles = 2 ∧
      stats.cancelled = true ∧ m'.host.lines = #["7", "7"] ∧
        afterCycles? 9 m 2 = some m' := by
  intro m s w
  obtain ⟨hstopped, _, _, hfirst, _⟩ := schedule_runs_whole_cycles s w 9 0 m
  have hquiet : ∀ j < 3, ¬FoundCancelled w 9 m j := by
    intro j hj
    interval_cases j
    · exact (not_foundCancelled_iff (c := 0) rfl rfl).mpr rfl
    · exact (not_foundCancelled_iff (c := 1) rfl rfl).mpr rfl
    · exact (not_foundCancelled_iff (c := 1) rfl rfl).mpr rfl
  obtain ⟨overruns, hrun⟩ := hfirst 3 _ rfl rfl hquiet (by decide)
  exact ⟨_, _, hrun, rfl, rfl, rfl, (hstopped _ _ hrun).1⟩

end CyclicStack
