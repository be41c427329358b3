import CyclicStack.Program
import CyclicStack.Proofs.Outcome

/-!
# Stores into memory

A store into a region changes the words or the segment below that region, and a store
that fails changes nothing.  Both are shown level by level: for private words, for
windows on segments, for memories and for the variables of a program.
-/

namespace CyclicStack

namespace Words

theorem store_atomic (cell : Nat) (e : Encoding) (sub : Option Nat) (value : Word) :
    Action.Atomic (store cell e sub value) := by
  intro words failure words' h
  unfold store at h
  cases hcheck : words.check cell sub with
  | ok _ =>
      rw [hcheck] at h
      cases h
  | error _ =>
      rw [hcheck] at h
      cases h
      rfl

end Words

namespace Window

theorem store_atomic (cellSize cell : Nat) (e : Encoding) (sub : Option Nat)
    (value : Word) :
    Action.Atomic (store cellSize cell e sub value) := by
  intro bytes failure bytes' h
  unfold store at h
  cases hcell : checkCell (cells cellSize bytes) cell with
  | error _ =>
      rw [hcell] at h
      cases h
      rfl
  | ok _ =>
      rw [hcell] at h
      cases hencode :
          liftEncoding ((cellAt cellSize bytes cell).encode e (sub.getD 0) value) with
      | error _ =>
          rw [hencode] at h
          cases h
          rfl
      | ok updated =>
          rw [hencode] at h
          cases h

end Window

namespace Memory

/-- Putting back the words of a region changes nothing. -/
theorem setWords_self {m : Memory} {region : Nat} {name : String} {words : Words}
    (h : m.regions[region]? = some ⟨name, .owned words⟩) :
    m.setWords region words = m := by
  have hregions :
      m.regions.modify region (fun r => { r with storage := .owned words }) =
        m.regions := by
    apply Array.ext_getElem?
    intro k
    rw [Array.getElem?_modify]
    split_ifs with hk
    · rw [← hk, h]
      rfl
    · rfl
  rw [setWords, hregions]

/-- Putting back the bytes of a segment changes nothing. -/
theorem setSegmentBytes_self (m : Memory) (segment : Nat) :
    m.setSegmentBytes segment (m.segmentBytes segment) = m := by
  have hsegments :
      m.segments.modify segment (fun s => { s with bytes := m.segmentBytes segment }) =
        m.segments := by
    apply Array.ext_getElem?
    intro k
    rw [Array.getElem?_modify]
    split_ifs with hk
    · subst hk
      unfold segmentBytes
      cases m.segments[segment]? <;> rfl
    · rfl
  rw [setSegmentBytes, hsegments]

theorem store_atomic (region cell : Nat) (e : Encoding) (sub : Option Nat)
    (value : Word) :
    Action.Atomic (store region cell e sub value) := by
  intro m failure m' h
  unfold store at h
  split at h
  · cases h
    rfl
  · next _ name words hregion =>
    exact (Words.store_atomic cell e sub value).zoom_error (setWords_self hregion) h
  · next _ name segment cellSize hregion =>
    exact (Window.store_atomic cellSize cell e sub value).zoom_error
      (setSegmentBytes_self m segment) h

end Memory

namespace Program

theorem store_atomic (id : Nat) (value : Word) :
    Action.Atomic (store id value) := by
  intro p failure p' h
  unfold store at h
  split at h
  · cases h
    rfl
  · next _ v _ =>
    exact (Memory.store_atomic v.region v.cell v.encoding v.subIndex
      value).zoom_error rfl h

end Program

end CyclicStack
