import Mathlib
import CyclicStack.Stack

/-!
# Operators on the stack

What an operator does to a stack of any size is one equation.  If the stack is too short
it says so; otherwise the operands make a word, which takes their place.  Only a
division can fail to make a word, and only the operator that duplicates its operand can
fail for want of room, since it leaves the operand where it is.

How many operands an operator has is written down twice, in a table and in the effect of
each operator.  The two agree, and only the table is used after that.

All other facts about operators are read off the equation, and the bounds on the size of
a stack follow for every sequence of actions on it.
-/

namespace CyclicStack

/-! ## The table of operands -/

namespace Effect

def operands : Effect → Nat
  | .unary _ | .duplicate => 1
  | .binary _ | .quotient _ => 2

def isDuplicate : Effect → Bool
  | .duplicate => true
  | _ => false

def isQuotient : Effect → Bool
  | .quotient _ => true
  | _ => false

end Effect

namespace Operator

theorem operands_effect (op : Operator) :
    op.effect.operands = op.operands := by
  cases op <;> rfl

theorem isDuplicate_effect (op : Operator) :
    op.effect.isDuplicate = decide (op = .dup) := by
  cases op <;> rfl

def divides (op : Operator) : Bool :=
  op ∈ [div, divs, mod, mods]

theorem isQuotient_effect (op : Operator) :
    op.effect.isQuotient = op.divides := by
  cases op <;> rfl

theorem operands_pos (op : Operator) :
    0 < op.operands := by
  cases op <;> decide

end Operator

/-! ## The word that operands make -/

namespace Effect

/-- The word that operands make, the operands given from left to right. -/
def result? : Effect → List Word → Option Word
  | .unary f, [w] => some (f w)
  | .binary f, [l, r] => some (f l r)
  | .quotient f, [l, r] => if r = 0 then none else some (f l r)
  | .duplicate, [w] => some w
  | _, _ => none

theorem result?_eq_none_iff {e : Effect} {operands : List Word}
    (h : operands.length = e.operands) :
    e.result? operands = none ↔ e.isQuotient = true ∧ operands.getLast? = some 0 := by
  cases e with
  | unary f =>
      obtain ⟨w, rfl⟩ := List.length_eq_one_iff.mp h
      simp [result?, isQuotient]
  | binary f =>
      obtain ⟨l, r, rfl⟩ := List.length_eq_two.mp h
      simp [result?, isQuotient]
  | quotient f =>
      obtain ⟨l, r, rfl⟩ := List.length_eq_two.mp h
      simp [result?, isQuotient]
  | duplicate =>
      obtain ⟨w, rfl⟩ := List.length_eq_one_iff.mp h
      simp [result?, isQuotient]

end Effect

namespace Operator

/-- The word that an operator makes of its operands, given from left to right. -/
def result? (op : Operator) (operands : List Word) : Option Word :=
  op.effect.result? operands

theorem result?_eq_none_iff {op : Operator} {operands : List Word}
    (h : operands.length = op.operands) :
    op.result? operands = none ↔ op.divides = true ∧ operands.getLast? = some 0 := by
  rw [← op.isQuotient_effect]
  exact Effect.result?_eq_none_iff (h.trans op.operands_effect.symm)

theorem eq_singleton_of_result?_dup {taken : List Word} {w : Word}
    (hlength : taken.length = dup.operands) (h : dup.result? taken.reverse = some w) :
    taken = [w] := by
  obtain ⟨w', rfl⟩ := List.length_eq_one_iff.mp hlength
  have hword : dup.result? [w'] = some w' := rfl
  simpa [hword] using h

/-- What an operator that makes the word `w` leaves in the place of its operands. -/
def given (op : Operator) (taken : List Word) (w : Word) : List Word :=
  if op = .dup then w :: taken else [w]

end Operator

namespace Stack

/-! ## Words replaced on top of a stack -/

/-- The stack `s'` is `s` with the words `taken` on top replaced by `given`. -/
def Replaces (taken given : List Word) (s s' : Stack) : Prop :=
  ∃ rest, s.words = taken ++ rest ∧ s' = { s with words := given ++ rest }

theorem Replaces.size_add {taken given : List Word} {s s' : Stack}
    (h : Replaces taken given s s') :
    s'.size + taken.length = s.size + given.length := by
  obtain ⟨rest, hwords, rfl⟩ := h
  simp only [size, hwords, List.length_append]
  omega

theorem Replaces.capacity {taken given : List Word} {s s' : Stack}
    (h : Replaces taken given s s') :
    s'.capacity = s.capacity := by
  obtain ⟨rest, _, rfl⟩ := h
  rfl

theorem replaces_nil_iff {s s' : Stack} :
    Replaces [] [] s s' ↔ s' = s := by
  simp [Replaces]

/-! ## One operator -/

/-- What an operator does. -/
theorem apply_eq (op : Operator) (s : Stack) :
    apply op s =
      if s.size < op.operands then .error (.tooFewOperands op.operands s.size) s
      else
        match op.result? (s.words.take op.operands).reverse with
        | none => .error .divisionByZero s
        | some w =>
          if op = .dup ∧ s.capacity ≤ s.size then .error (.stackFull s.capacity) s
          else
            .ok ()
              { s with
                words := op.given (s.words.take op.operands) w ++
                  s.words.drop op.operands } := by
  have hoperands := op.operands_effect
  have hdup := op.isDuplicate_effect
  obtain ⟨capacity, words⟩ := s
  unfold Operator.result? apply
  -- `apply` is split by the effect of the operator here only; all that follows goes
  -- through the equation.
  cases heffect : op.effect with
  | unary f =>
      have hne : op ≠ .dup := by simpa [heffect, Effect.isDuplicate] using hdup
      have hone : op.operands = 1 := by rw [← hoperands, heffect, Effect.operands]
      rcases words with _ | ⟨w, rest⟩
      · simp [unary, size, hone]
      · simp [unary, size, hone, hne, Effect.result?, Operator.given]
  | binary f =>
      have hne : op ≠ .dup := by simpa [heffect, Effect.isDuplicate] using hdup
      have htwo : op.operands = 2 := by rw [← hoperands, heffect, Effect.operands]
      rcases words with _ | ⟨r, _ | ⟨l, rest⟩⟩
      · simp [binary, size, htwo]
      · simp [binary, size, htwo]
      · simp [binary, size, htwo, hne, Effect.result?, Operator.given]
  | quotient f =>
      have hne : op ≠ .dup := by simpa [heffect, Effect.isDuplicate] using hdup
      have htwo : op.operands = 2 := by rw [← hoperands, heffect, Effect.operands]
      rcases words with _ | ⟨r, _ | ⟨l, rest⟩⟩
      · simp [quotient, size, htwo]
      · simp [quotient, size, htwo]
      · by_cases hzero : r = 0
        · simp [quotient, size, htwo, Effect.result?, hzero]
        · simp [quotient, size, htwo, hne, Effect.result?, hzero, Operator.given]
  | duplicate =>
      obtain rfl : op = .dup := by simpa [heffect, Effect.isDuplicate] using hdup
      rcases words with _ | ⟨w, rest⟩
      · simp [duplicate, size, Operator.operands]
      · by_cases hfull : capacity ≤ rest.length + 1
        · simp [duplicate, push, size, Operator.operands, Effect.result?, hfull]
        · simp [duplicate, push, size, Operator.operands, Effect.result?, hfull,
            Operator.given]

/-- What an operator does to two operands, the right one being the top. -/
theorem apply_of_operands_eq_two {op : Operator} (h : op.operands = 2) (capacity : Nat)
    (l r : Word) (rest : List Word) :
    apply op ⟨capacity, r :: l :: rest⟩ =
      (op.result? [l, r]).elim (.error .divisionByZero ⟨capacity, r :: l :: rest⟩)
        fun w => .ok () ⟨capacity, w :: rest⟩ := by
  have hne : op ≠ .dup := by
    rintro rfl
    exact absurd h (by decide)
  have hwords : ((r :: l :: rest).take op.operands).reverse = [l, r] := by simp [h]
  rw [apply_eq, hwords]
  cases op.result? [l, r] with
  | none => simp [size, h]
  | some w => simp [size, h, hne, Operator.given]

theorem length_taken {op : Operator} {s : Stack} (h : op.operands ≤ s.size) :
    (s.words.take op.operands).length = op.operands := by
  rw [List.length_take]
  exact min_eq_left h

theorem result?_taken_eq_none_iff {op : Operator} {s : Stack}
    (h : op.operands ≤ s.size) :
    op.result? (s.words.take op.operands).reverse = none ↔
      op.divides = true ∧ s.words.head? = some 0 := by
  have hlength : (s.words.take op.operands).reverse.length = op.operands := by
    rw [List.length_reverse, length_taken h]
  rw [Operator.result?_eq_none_iff hlength, List.getLast?_reverse, List.head?_take,
    if_neg op.operands_pos.ne']

/-- When an operator fails, and with which failure. -/
theorem apply_eq_error_iff {op : Operator} {s s' : Stack} {failure : Failure} :
    apply op s = .error failure s' ↔
      s' = s ∧
        (s.size < op.operands ∧ failure = .tooFewOperands op.operands s.size ∨
          op.operands ≤ s.size ∧ op.divides = true ∧ s.words.head? = some 0 ∧
            failure = .divisionByZero ∨
          op.operands ≤ s.size ∧ op = .dup ∧ s.capacity ≤ s.size ∧
            failure = .stackFull s.capacity) := by
  rw [apply_eq]
  constructor
  · intro h
    by_cases hsize : s.size < op.operands
    · rw [if_pos hsize] at h
      injection h with hfailure hsame
      exact ⟨hsame.symm, .inl ⟨hsize, hfailure.symm⟩⟩
    · have hle := Nat.not_lt.mp hsize
      rw [if_neg hsize] at h
      split at h
      · next hnone =>
        obtain ⟨hdivides, hzero⟩ := (result?_taken_eq_none_iff hle).mp hnone
        injection h with hfailure hsame
        exact ⟨hsame.symm, .inr (.inl ⟨hle, hdivides, hzero, hfailure.symm⟩)⟩
      · split_ifs at h with hfull
        injection h with hfailure hsame
        exact ⟨hsame.symm, .inr (.inr ⟨hle, hfull.1, hfull.2, hfailure.symm⟩)⟩
  · rintro ⟨rfl, ⟨hsize, rfl⟩ | ⟨hle, hdivides, hzero, rfl⟩ | ⟨hle, rfl, hfull, rfl⟩⟩
    · rw [if_pos hsize]
    · have hnone := (result?_taken_eq_none_iff hle).mpr ⟨hdivides, hzero⟩
      rw [if_neg hle.not_gt, hnone]
    · have hsome : Operator.dup.result? (s'.words.take Operator.dup.operands).reverse ≠
          none := by
        rw [Ne, result?_taken_eq_none_iff hle]
        exact fun h => absurd h.1 (by decide)
      obtain ⟨w, hw⟩ := Option.ne_none_iff_exists'.mp hsome
      rw [if_neg hle.not_gt, hw]
      simp [hfull]

/-- When an operator succeeds, what it replaces, and by what. -/
theorem apply_eq_ok_iff {op : Operator} {s s' : Stack} :
    apply op s = .ok () s' ↔
      ∃ taken w, taken.length = op.operands ∧ op.result? taken.reverse = some w ∧
        (op = .dup → s.size < s.capacity) ∧ Replaces taken (op.given taken w) s s' := by
  rw [apply_eq]
  constructor
  · intro h
    by_cases hsize : s.size < op.operands
    · simp [hsize] at h
    · have hlength := length_taken (Nat.not_lt.mp hsize)
      rw [if_neg hsize] at h
      split at h
      · simp at h
      · next w hw =>
        split_ifs at h with hfull
        injection h with _ hs
        refine ⟨s.words.take op.operands, w, hlength, hw, fun hop => ?_,
          s.words.drop op.operands, (List.take_append_drop _ _).symm, hs.symm⟩
        exact Nat.not_le.mp fun hle => hfull ⟨hop, hle⟩
  · rintro ⟨taken, w, hlength, hw, hroom, rest, hwords, rfl⟩
    have hsize : ¬s.size < op.operands := by
      simp [size, hwords, hlength]
    have hfull : ¬(op = .dup ∧ s.capacity ≤ s.size) := fun h => (hroom h.1).not_ge h.2
    rw [if_neg hsize, hwords, List.take_left' hlength, List.drop_left' hlength, hw]
    simp only [hfull, if_false]

/-! ## Sequences of actions -/

/-- Something that happens to a stack. -/
inductive Event where
  | push (w : Word)
  | pop
  | duplicate
  | clear
  | apply (op : Operator)

/-- What an event does. -/
def Event.perform : Event → Action Stack Unit
  | .push w => Stack.push w
  | .pop => do
    let _ ← Stack.pop
  | .duplicate => Stack.duplicate
  | .clear => Stack.clear
  | .apply op => Stack.apply op

/-- The stack that an event leaves behind, whether it succeeds or fails. -/
def after (s : Stack) (event : Event) : Stack :=
  match event.perform s with
  | .ok _ s' => s'
  | .error _ s' => s'

/-- The stack `s'` has other words on top than `s`, and at most one more of them if
there is room. -/
def Adjusts (s s' : Stack) : Prop :=
  ∃ taken given, Replaces taken given s s' ∧
    (given.length ≤ taken.length ∨ given.length ≤ taken.length + 1 ∧
      s.size < s.capacity)

theorem Adjusts.size_le {s s' : Stack} (h : Adjusts s s') (hs : s.size ≤ s.capacity) :
    s'.capacity = s.capacity ∧ s'.size ≤ s'.capacity := by
  obtain ⟨taken, given, hreplaces, hlength⟩ := h
  have hsize := hreplaces.size_add
  have hcapacity := hreplaces.capacity
  omega

theorem adjusts_refl (s : Stack) : Adjusts s s :=
  ⟨[], [], replaces_nil_iff.mpr rfl, .inl le_rfl⟩

theorem adjusts_apply {op : Operator} {s s' : Stack} (h : apply op s = .ok () s') :
    Adjusts s s' := by
  obtain ⟨taken, w, hlength, -, hroom, hreplaces⟩ := apply_eq_ok_iff.mp h
  refine ⟨taken, op.given taken w, hreplaces, ?_⟩
  by_cases hop : op = .dup
  · exact .inr ⟨by simp [Operator.given, hop], hroom hop⟩
  · have hpos := op.operands_pos
    exact .inl (by simp [Operator.given, hop]; omega)

theorem adjusts_after_apply (op : Operator) (s : Stack) :
    Adjusts s (s.after (.apply op)) := by
  cases happly : apply op s with
  | ok _ s' =>
      simpa [after, Event.perform, happly] using adjusts_apply happly
  | error failure s' =>
      obtain ⟨rfl, -⟩ := apply_eq_error_iff.mp happly
      simpa [after, Event.perform, happly] using adjusts_refl s'

theorem adjusts_after (s : Stack) (event : Event) :
    Adjusts s (s.after event) := by
  cases event with
  | push w =>
      by_cases hfull : s.capacity ≤ s.size
      · simpa [after, Event.perform, push, hfull] using adjusts_refl s
      · simp only [after, Event.perform, push, hfull, if_false]
        exact ⟨[], [w], ⟨s.words, rfl, rfl⟩, .inr ⟨le_rfl, Nat.not_le.mp hfull⟩⟩
  | pop =>
      obtain ⟨capacity, _ | ⟨w, rest⟩⟩ := s
      · exact adjusts_refl _
      · exact ⟨[w], [], ⟨rest, rfl, rfl⟩, .inl (by simp)⟩
  | duplicate => exact adjusts_after_apply .dup s
  | clear => exact ⟨s.words, [], ⟨[], by simp, rfl⟩, .inl (by simp)⟩
  | apply op => exact adjusts_after_apply op s

/-- No sequence of actions changes the capacity, or exceeds it. -/
theorem size_le_capacity_after {s : Stack} (h : s.size ≤ s.capacity)
    (events : List Event) :
    (events.foldl after s).capacity = s.capacity ∧
    (events.foldl after s).size ≤ s.capacity := by
  induction events generalizing s with
  | nil => exact ⟨rfl, h⟩
  | cons event rest ih =>
      obtain ⟨hcapacity, hsize⟩ := (adjusts_after s event).size_le h
      simpa [hcapacity] using ih hsize

theorem eq_of_ofCapacity {capacity : Nat} {s : Stack}
    (h : ofCapacity capacity = .ok s) :
    s = { capacity } := by
  unfold ofCapacity at h
  split_ifs at h
  exact (Except.ok.inj h).symm

end Stack

/-! ## The main result -/

/-- An operator fails exactly if an operand is missing, if it divides by zero or if it
duplicates the top of a full stack, and leaves the stack as it is then.  Otherwise one
word that depends on the operands only takes their place, the rightmost operand being
the top, except that a duplicated operand stays.  No sequence of actions on a stack
changes its capacity or exceeds it. -/
theorem operators_respect_their_arity :
    (∀ (op : Operator) (s s' : Stack) (failure : Failure),
      Stack.apply op s = .error failure s' ↔
        s' = s ∧
          (s.size < op.operands ∧ failure = .tooFewOperands op.operands s.size ∨
            op.operands ≤ s.size ∧ op ∈ [.div, .divs, .mod, .mods] ∧
              s.words.head? = some 0 ∧
              failure = .divisionByZero ∨
            op.operands ≤ s.size ∧ op = .dup ∧ s.capacity ≤ s.size ∧
              failure = .stackFull s.capacity)) ∧
    (∀ (op : Operator) (s s' : Stack),
      Stack.apply op s = .ok () s' ↔
        ∃ taken w, taken.length = op.operands ∧ op.result? taken.reverse = some w ∧
          (op ≠ .dup → Stack.Replaces taken [w] s s') ∧
          (op = .dup → s.size < s.capacity ∧ taken = [w] ∧
            Stack.Replaces [w] [w, w] s s')) ∧
    (∀ (s : Stack) (events : List Stack.Event), s.size ≤ s.capacity →
      (events.foldl Stack.after s).capacity = s.capacity ∧
        (events.foldl Stack.after s).size ≤ s.capacity) ∧
    (∀ (capacity : Nat) (s : Stack) (events : List Stack.Event),
      Stack.ofCapacity capacity = .ok s →
        (events.foldl Stack.after s).capacity = capacity ∧
          (events.foldl Stack.after s).size ≤ capacity) := by
  refine ⟨fun op s s' failure => ?_, fun op s s' => ?_, fun s events h => ?_,
    fun capacity s events h => ?_⟩
  · simpa only [Operator.divides, decide_eq_true_eq] using Stack.apply_eq_error_iff
  · rw [Stack.apply_eq_ok_iff]
    refine exists_congr fun taken => exists_congr fun w =>
      and_congr_right fun hlength =>
      and_congr_right fun hresult => ?_
    by_cases hop : op = .dup
    · subst hop
      obtain rfl := Operator.eq_singleton_of_result?_dup hlength hresult
      simp [Operator.given]
    · simp [Operator.given, hop]
  · exact Stack.size_le_capacity_after h events
  · obtain rfl := Stack.eq_of_ofCapacity h
    have hempty : Stack.size { capacity } ≤ capacity := Nat.zero_le capacity
    exact Stack.size_le_capacity_after hempty events

theorem operators_respect_their_arity_full_stack :
    let full : Stack := ⟨2, [3, 10]⟩
    let events : List Stack.Event :=
      [.push 1, .apply .sub, .duplicate, .duplicate, .apply .div]
    Stack.apply .dup full = .error (.stackFull 2) full ∧
    Stack.apply .sub full = .ok () ⟨2, [7]⟩ ∧
    (∃ taken w, taken.length = 2 ∧ Operator.sub.result? taken.reverse = some w ∧
      Stack.Replaces taken [w] full ⟨2, [7]⟩) ∧
    (events.foldl Stack.after full).size ≤ 2 ∧
    Stack.ofCapacity 64 = .ok { capacity := 64 } ∧
    (events.foldl Stack.after { capacity := 64 }).size ≤ 64 := by
  obtain ⟨hfails, hreplaces, hwithin, hfresh⟩ := operators_respect_their_arity
  have hdup := (hfails .dup ⟨2, [3, 10]⟩ ⟨2, [3, 10]⟩ (.stackFull 2)).mpr
    ⟨rfl, .inr (.inr (by decide))⟩
  have hsub : Stack.apply .sub ⟨2, [3, 10]⟩ = .ok () ⟨2, [7]⟩ := rfl
  obtain ⟨taken, w, hlength, hresult, hother, -⟩ := (hreplaces _ _ _).mp hsub
  exact ⟨hdup, hsub, ⟨taken, w, hlength, hresult, hother (by decide)⟩,
    (hwithin _ _ (by decide)).2, rfl, (hfresh 64 _ _ rfl).2⟩

end CyclicStack
