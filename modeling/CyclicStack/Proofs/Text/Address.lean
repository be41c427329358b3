import Mathlib
import CyclicStack.Text.Address

/-!
# Addresses are divided in one way

The first `@` ends the memory, and the first point after it ends the cell; what follows
the point is the sub-index, whatever it holds.  So a text is an address in at most one
way, and the parts that reading gives put together are the text again.

Reading cuts where a separator stands for the first time.  A part without its separator
in it is therefore found as a whole, and this is the only fact about texts that both
directions use.
-/

namespace CyclicStack

namespace Text

namespace Address

/-- The parts that an address can have.  A cell may have an `@` in it, a memory may have
points in it, and a sub-index may be any text. -/
@[mk_iff]
structure WellFormed (a : Address) : Prop where
  memory_ne_nil : a.memory ≠ []
  at_notMem_memory : '@' ∉ a.memory
  cell_ne_nil : a.cell ≠ []
  point_notMem_cell : '.' ∉ a.cell

/-! ## Cutting at the first separator -/

section

variable {sep : Char} {part rest : List Char}

theorem takeWhile_part (h : sep ∉ part) :
    (part ++ sep :: rest).takeWhile (· != sep) = part := by
  rw [List.takeWhile_append_of_pos fun c hc =>
    bne_iff_ne.mpr (ne_of_mem_of_not_mem hc h), List.takeWhile_cons_of_neg (by simp),
    List.append_nil]

theorem dropWhile_part (h : sep ∉ part) :
    (part ++ sep :: rest).dropWhile (· != sep) = sep :: rest := by
  rw [List.dropWhile_append_of_pos fun c hc =>
    bne_iff_ne.mpr (ne_of_mem_of_not_mem hc h), List.dropWhile_cons_of_neg (by simp)]

theorem notMem_takeWhile (sep : Char) (s : List Char) :
    sep ∉ s.takeWhile (· != sep) := by
  intro hmem
  simpa using List.mem_takeWhile_imp hmem

/-- What is left after a cut is nothing, or it starts with the separator. -/
theorem dropWhile_eq_nil_or_cons (sep : Char) (s : List Char) :
    s.dropWhile (· != sep) = [] ∨ ∃ rest, s.dropWhile (· != sep) = sep :: rest := by
  cases hdrop : s.dropWhile (· != sep) with
  | nil => exact .inl rfl
  | cons c rest =>
      have hstop := List.head?_dropWhile_not (· != sep) s
      rw [hdrop] at hstop
      obtain rfl : c = sep := by simpa using hstop
      exact .inr ⟨rest, rfl⟩

end

/-! ## Reading and writing -/

theorem parse?_text {a : Address} (h : a.WellFormed) :
    parse? a.text = some a := by
  obtain ⟨memory, cell, sub⟩ := a
  obtain ⟨hmemory, hat, hcell, hpoint⟩ := h
  dsimp only at hmemory hat hcell hpoint
  cases sub with
  | none =>
      have hall : ∀ c ∈ cell, (c != '.') = true :=
        fun c hc => bne_iff_ne.mpr (ne_of_mem_of_not_mem hc hpoint)
      simp [parse?, text, takeWhile_part hat, dropWhile_part hat,
        List.takeWhile_eq_self_iff.mpr hall, List.dropWhile_eq_nil_iff.mpr hall,
        hmemory, hcell]
  | some sub =>
      simp [parse?, text, takeWhile_part hat, dropWhile_part hat, takeWhile_part hpoint,
        dropWhile_part hpoint, hmemory, hcell]

theorem wellFormed_of_parse? {s : List Char} {a : Address} (h : parse? s = some a) :
    a.WellFormed ∧ a.text = s := by
  have hsplit := List.takeWhile_append_dropWhile (p := (· != '@')) (l := s)
  rcases dropWhile_eq_nil_or_cons '@' s with hdrop | ⟨rest, hdrop⟩
  · simp [parse?, hdrop] at h
  · have hsplit' := List.takeWhile_append_dropWhile (p := (· != '.')) (l := rest)
    simp only [parse?, hdrop] at h
    split_ifs at h with hempty
    simp only [Bool.or_eq_true, List.isEmpty_iff, not_or] at hempty
    rw [hdrop] at hsplit
    rcases dropWhile_eq_nil_or_cons '.' rest with hdrop' | ⟨sub, hdrop'⟩
    · rw [hdrop', List.append_nil] at hsplit'
      rw [hdrop'] at h
      obtain rfl := Option.some.inj h
      refine ⟨⟨hempty.1, notMem_takeWhile '@' s, hempty.2,
        notMem_takeWhile '.' rest⟩, ?_⟩
      simpa [text, hsplit'] using hsplit
    · rw [hdrop'] at h hsplit'
      obtain rfl := Option.some.inj h
      refine ⟨⟨hempty.1, notMem_takeWhile '@' s, hempty.2,
        notMem_takeWhile '.' rest⟩, ?_⟩
      simpa [text, hsplit'] using hsplit

theorem parse?_eq_some_iff {s : List Char} {a : Address} :
    parse? s = some a ↔ a.WellFormed ∧ a.text = s := by
  constructor
  · exact wellFormed_of_parse?
  · rintro ⟨h, rfl⟩
    exact parse?_text h

theorem text_injOn {a b : Address} (ha : a.WellFormed) (hb : b.WellFormed)
    (h : a.text = b.text) :
    a = b := by
  have hread := parse?_text ha
  rw [h, parse?_text hb] at hread
  exact (Option.some.inj hread).symm

/-- A text is read as a memory, a cell and a sub-index if and only if these are parts of
an address and the text is made of them.  The parts are the only ones that the text is
made of, and a text that is made of no such parts is refused. -/
theorem addresses_divide_uniquely (s : List Char) :
    (∀ memory cell : List Char, ∀ sub : Option (List Char),
      parse? s = some ⟨memory, cell, sub⟩ ↔
        memory ≠ [] ∧ '@' ∉ memory ∧ cell ≠ [] ∧ '.' ∉ cell ∧
          match sub with
          | none => s = memory ++ '@' :: cell
          | some tail => s = memory ++ '@' :: cell ++ '.' :: tail) ∧
    (∀ a, parse? s = some a → a.text = s) ∧
    (∀ a b : Address, a.WellFormed → b.WellFormed → a.text = s → b.text = s → a = b) ∧
    (parse? s = none ↔ ∀ a : Address, a.WellFormed → a.text ≠ s) := by
  refine ⟨?_, fun a h => (parse?_eq_some_iff.mp h).2, ?_, ?_⟩
  · intro memory cell sub
    rw [parse?_eq_some_iff, wellFormed_iff]
    simp only [and_assoc, eq_comm (b := s)]
    cases sub <;> simp [text]
  · intro a b ha hb htext htext'
    exact text_injOn ha hb (htext.trans htext'.symm)
  · rw [Option.eq_none_iff_forall_ne_some]
    simp only [ne_eq, parse?_eq_some_iff, not_and]

/-- The memory has a point in it, the cell an `@`, and the sub-index both. -/
theorem addresses_divide_uniquely_repeated_separators :
    let a : Address := ⟨"io.1".toList, "3@x".toList, some "2.@".toList⟩
    a.WellFormed ∧ a.text = "io.1@3@x.2.@".toList ∧
      ∀ b : Address, b.WellFormed → b.text = "io.1@3@x.2.@".toList → b = a := by
  intro a
  have ha : a.WellFormed := ⟨by decide, by decide, by decide, by decide⟩
  obtain ⟨_, _, hunique, _⟩ := addresses_divide_uniquely "io.1@3@x.2.@".toList
  exact ⟨ha, by decide, fun b hb htext => hunique b a hb ha htext (by decide)⟩

end Address

end Text

end CyclicStack
