import CyclicStack.Proofs.Text.Placement

/-!
# Lines that change places within their sections

The lines of some sections of a text are put in another order, and all else stays where
it is.  The headers then stand where they stood, so the text is still divided in the
same way: the sections whose lines were moved hold the same lines with other numbers, in
another order, and the other sections are unchanged.
-/

namespace CyclicStack

namespace Text

/-- The line at a position is in the section of a header. -/
structure InSection (raws : List (List Char)) (k : Nat) (header : Header) : Prop where
  below : Below raws k header
  no_header : NoHeaderAt raws k

/-- The lines of a text are put in other places: line `k` becomes line `σ k`, with its
tokens as they were.  A line that moves stays in its section, which is one of the given
ones. -/
structure Rearranges (headers : List Header) (σ : Equiv.Perm Nat)
    (raws raws' : List (List Char)) :
    Prop where
  tokenize_eq : ∀ k, raws'[σ k]?.map tokenize = raws[k]?.map tokenize
  moved : ∀ k, σ k ≠ k →
    ∃ header ∈ headers, InSection raws k header ∧ InSection raws (σ k) header

def Line.relocate (σ : Equiv.Perm Nat) (line : Line) : Line :=
  { line with number := σ (line.number - 1) + 1 }

theorem Line.eq_of_relocate_eq {σ : Equiv.Perm Nat} {line other : Line}
    (hline : 1 ≤ line.number) (hother : 1 ≤ other.number)
    (h : line.relocate σ = other.relocate σ) :
    line = other := by
  obtain ⟨number, first, more⟩ := line
  obtain ⟨number', first', more'⟩ := other
  simp only [relocate, Line.mk.injEq, Nat.add_right_cancel_iff,
    EmbeddingLike.apply_eq_iff_eq] at *
  exact ⟨by omega, h.2⟩

/-! ## Positions by their tokens -/

section

variable {raws raws' : List (List Char)} {k : Nat} {header : Header}

theorem opensAt_iff :
    OpensAt raws k header ↔ raws[k]?.map tokenize = some (.ok [.header header]) := by
  rw [OpensAt, Option.map_eq_some_iff]

theorem isAt_iff {line : Line} :
    line.IsAt raws k ↔ line.number = k + 1 ∧
      raws[k]?.map tokenize = some (.ok line.tokens) ∧
      ∀ other, line.tokens ≠ [.header other] := by
  rw [Option.map_eq_some_iff]
  exact ⟨fun h => ⟨h.number, h.tokens, h.not_header⟩, fun h => ⟨h.1, h.2.1, h.2.2⟩⟩

theorem noHeaderAt_iff :
    NoHeaderAt raws k ↔ ∀ other, ¬OpensAt raws k other := by
  unfold NoHeaderAt OpensAt
  constructor
  · rintro h other ⟨raw, hraw, hother⟩
    exact h raw hraw other hother
  · intro h raw hraw other hother
    exact h other ⟨raw, hraw, hother⟩

theorem below_iff :
    Below raws k header ↔
      ∃ j < k, OpensAt raws j header ∧
        ∀ i, j < i → i < k → ∀ other, ¬OpensAt raws i other := by
  simp only [Below, noHeaderAt_iff]
  constructor
  · rintro ⟨j, raw, hj, hraw, htokens, hbetween⟩
    exact ⟨j, hj, ⟨raw, hraw, htokens⟩, hbetween⟩
  · rintro ⟨j, hj, ⟨raw, hraw, htokens⟩, hbetween⟩
    exact ⟨j, raw, hj, hraw, htokens, hbetween⟩

/-! ## Headers stay in place -/

variable {headers : List Header} {σ : Equiv.Perm Nat}

theorem Rearranges.apply_eq_of_opensAt (h : Rearranges headers σ raws raws')
    (hk : OpensAt raws k header) :
    σ k = k := by
  by_contra hne
  obtain ⟨_, _, hsection, _⟩ := h.moved k hne
  exact noHeaderAt_iff.mp hsection.no_header header hk

theorem Rearranges.opensAt_iff (h : Rearranges headers σ raws raws') :
    OpensAt raws' k header ↔ OpensAt raws k header := by
  have hmoved : ∀ k, OpensAt raws' (σ k) header ↔ OpensAt raws k header := by
    intro k
    rw [Text.opensAt_iff, Text.opensAt_iff, h.tokenize_eq]
  constructor
  · -- The line was a header before it was moved, and headers are not moved.
    intro hk
    rw [← σ.apply_symm_apply k, hmoved] at hk
    have hfixed := h.apply_eq_of_opensAt hk
    rw [σ.apply_symm_apply] at hfixed
    rwa [← hfixed] at hk
  · intro hk
    have hk' := (hmoved k).mpr hk
    rwa [h.apply_eq_of_opensAt hk] at hk'

theorem Rearranges.below_iff (h : Rearranges headers σ raws raws') :
    Below raws' k header ↔ Below raws k header := by
  simp only [Text.below_iff, h.opensAt_iff]

theorem Rearranges.below_apply_iff (h : Rearranges headers σ raws raws') :
    Below raws (σ k) header ↔ Below raws k header := by
  by_cases hfixed : σ k = k
  · rw [hfixed]
  · obtain ⟨other, _, hk, hk'⟩ := h.moved k hfixed
    constructor
    · intro hbelow
      rw [hbelow.unique hk'.below]
      exact hk.below
    · intro hbelow
      rw [hbelow.unique hk.below]
      exact hk'.below

theorem Rearranges.inSection_iff (h : Rearranges headers σ raws raws') :
    InSection raws' k header ↔ InSection raws k header := by
  constructor
  · rintro ⟨hbelow, hno⟩
    rw [noHeaderAt_iff] at hno
    exact ⟨h.below_iff.mp hbelow, noHeaderAt_iff.mpr fun other =>
      h.opensAt_iff.not.mp (hno other)⟩
  · rintro ⟨hbelow, hno⟩
    rw [noHeaderAt_iff] at hno
    exact ⟨h.below_iff.mpr hbelow, noHeaderAt_iff.mpr fun other =>
      h.opensAt_iff.not.mpr (hno other)⟩

theorem Rearranges.isAt_relocate {line : Line} (h : Rearranges headers σ raws raws')
    (hline : line.IsAt raws k) :
    (line.relocate σ).IsAt raws' (σ k) := by
  rw [isAt_iff] at hline ⊢
  obtain ⟨hnumber, htokens, hcontent⟩ := hline
  refine ⟨?_, (h.tokenize_eq k).trans htokens, hcontent⟩
  rw [Line.relocate, hnumber, Nat.add_sub_cancel]

/-- Every line stands where a line of the text was put. -/
theorem Rearranges.exists_isAt {line : Line} (h : Rearranges headers σ raws raws')
    (hline : line.IsAt raws' (σ k)) :
    ∃ old : Line, old.IsAt raws k ∧ old.relocate σ = line := by
  rw [isAt_iff] at hline
  obtain ⟨hnumber, htokens, hcontent⟩ := hline
  refine ⟨{ line with number := k + 1 }, isAt_iff.mpr ⟨rfl, ?_, hcontent⟩, ?_⟩
  · exact (h.tokenize_eq k).symm.trans htokens
  · rw [Line.relocate, Nat.add_sub_cancel, ← hnumber]

end

/-! ## Every order of the lines of a section -/

section

variable {headers : List Header} {header : Header} {σ τ : Equiv.Perm Nat}

theorem Rearranges.refl (raws : List (List Char)) :
    Rearranges headers 1 raws raws :=
  ⟨fun _ => rfl, fun _ h => absurd rfl h⟩

theorem Rearranges.trans {raws raws' raws'' : List (List Char)}
    (h : Rearranges headers σ raws raws') (h' : Rearranges headers τ raws' raws'') :
    Rearranges headers (τ * σ) raws raws'' := by
  refine ⟨fun k => (h'.tokenize_eq (σ k)).trans (h.tokenize_eq k), ?_⟩
  intro k hk
  rw [Equiv.Perm.mul_apply] at hk ⊢
  by_cases hσ : σ k = k
  · rw [hσ] at hk ⊢
    obtain ⟨header, hheader, hfrom, hto⟩ := h'.moved k hk
    exact ⟨header, hheader, h.inSection_iff.mp hfrom, h.inSection_iff.mp hto⟩
  · obtain ⟨header, hheader, hfrom, hto⟩ := h.moved k hσ
    refine ⟨header, hheader, hfrom, ?_⟩
    by_cases hτ : τ (σ k) = σ k
    · rwa [hτ]
    · obtain ⟨other, _, hfrom', hto'⟩ := h'.moved (σ k) hτ
      rw [hto.below.unique (h.inSection_iff.mp hfrom').below]
      exact h.inSection_iff.mp hto'

theorem rearranges_swap (hheader : header ∈ headers) {front back : List (List Char)}
    {a b : List Char} (ha : InSection (front ++ a :: b :: back) front.length header)
    (hb : InSection (front ++ a :: b :: back) (front.length + 1) header) :
    Rearranges headers (Equiv.swap front.length (front.length + 1))
      (front ++ a :: b :: back)
      (front ++ b :: a :: back) := by
  refine ⟨?_, ?_⟩
  · intro k
    rw [Equiv.swap_apply_def]
    split_ifs with hk hk'
    · simp [hk]
    · simp [hk']
    · by_cases hlt : k < front.length
      · rw [List.getElem?_append_left hlt, List.getElem?_append_left hlt]
      · obtain ⟨i, rfl⟩ : ∃ i, k = front.length + (i + 2) :=
          ⟨k - front.length - 2, by omega⟩
        simp [List.getElem?_append_right]
  · intro k hk
    rw [Equiv.swap_apply_def] at hk ⊢
    split_ifs at hk ⊢ with hk₁ hk₂
    · exact ⟨header, hheader, hk₁ ▸ ha, hb⟩
    · exact ⟨header, hheader, hk₂ ▸ hb, ha⟩
    · exact absurd rfl hk

/-- Neighbouring lines can be exchanged, so the lines of a section can be put in any
order. -/
theorem exists_rearranges_of_inSection (hheader : header ∈ headers)
    {front body body' back : List (List Char)} (hperm : body.Perm body')
    (hbody : ∀ i < body.length, InSection (front ++
      (body ++ back)) (front.length + i) header) :
    ∃ σ, Rearranges headers σ (front ++ (body ++ back)) (front ++ (body' ++ back)) := by
  induction hperm generalizing front with
  | nil => exact ⟨1, .refl _⟩
  | @cons a rest rest' _ ih =>
      have hrest : ∀ i < rest.length,
          InSection (front ++ [a] ++ (rest ++ back))
            ((front ++ [a]).length + i) header := by
        intro i hi
        have hnext := hbody (i + 1) (Nat.succ_lt_succ hi)
        rw [Nat.add_comm i, ← Nat.add_assoc] at hnext
        simpa using hnext
      simpa using ih hrest
  | swap a b rest =>
      exact ⟨_, rearranges_swap hheader (hbody 0 (by simp)) (hbody 1 (by simp))⟩
  | trans hfirst _ ih ih' =>
      obtain ⟨σ, hσ⟩ := ih hbody
      obtain ⟨τ, hτ⟩ :=
        ih' fun i hi => hσ.inSection_iff.mpr (hbody i (hfirst.length_eq ▸ hi))
      exact ⟨τ * σ, hσ.trans hτ⟩

theorem Block.inSection (b : Block) (above below : List (List Char)) {i : Nat}
    (hi : i < b.body.length) :
    InSection (above ++ [b.opening] ++ (b.body ++ below))
      (above.length + 1 + i) b.header := by
  have hno : ∀ j < b.body.length,
      NoHeaderAt (above ++ [b.opening] ++ (b.body ++ below))
        (above.length + 1 + j) := by
    intro j hj raw hraw other hother
    have hbody : b.body[j]? = some raw := by
      have happend : (b.body ++ below)[j]? = some raw := by
        simpa [List.getElem?_append_right, Nat.add_assoc, Nat.add_comm 1] using hraw
      rwa [List.getElem?_append_left hj] at happend
    obtain ⟨tokens, htokens, hcontent⟩ :=
      exists_tokens_of_isBodyLine (b.readable raw (List.mem_of_getElem? hbody))
    exact hcontent other (Except.ok.inj (htokens.symm.trans hother))
  refine ⟨⟨above.length, b.opening, by omega, by simp, b.opens, ?_⟩, hno i hi⟩
  intro j hlow hhigh
  obtain ⟨j, rfl⟩ := Nat.exists_eq_add_of_lt hlow
  rw [Nat.add_right_comm]
  exact hno j (by omega)

/-- The lines below the header of a block may be written in any order. -/
theorem Block.exists_rearranges (b : Block) (hheader : b.header ∈ headers)
    {body : List (List Char)} (hperm : b.body.Perm body)
    (above below : List (List Char)) :
    ∃ σ, Rearranges headers σ (above ++ [b.opening] ++ (b.body ++ below))
      (above ++ [b.opening] ++ (body ++ below)) :=
  exists_rearranges_of_inSection hheader hperm fun i hi => by
    simpa using b.inSection above below hi

end

/-! ## The sections of the two texts -/

section

variable {text text' : List Char} {placed placed' : List Placed} {headers : List Header}
  {σ : Equiv.Perm Nat}

theorem Rearranges.exists_sections (h : Rearranges headers σ (lines text) (lines text'))
    (hplaced : sections text = .ok placed) :
    ∃ placed', sections text' = .ok placed' := by
  obtain ⟨hreadable, hdistinct, hopened⟩ := exists_sections_iff.mp ⟨placed, hplaced⟩
  refine exists_sections_iff.mpr ⟨?_, ?_, ?_⟩
  · intro raw' hraw'
    obtain ⟨k, hk⟩ := List.mem_iff_getElem?.mp hraw'
    have htokens := h.tokenize_eq (σ.symm k)
    rw [σ.apply_symm_apply, hk, Option.map_some] at htokens
    obtain ⟨raw, hraw, heq⟩ := Option.map_eq_some_iff.mp htokens.symm
    rw [← heq]
    exact hreadable raw (List.mem_of_getElem? hraw)
  · intro j k header hj hk
    exact hdistinct j k header (h.opensAt_iff.mp hj) (h.opensAt_iff.mp hk)
  · intro k line hline
    rw [← σ.apply_symm_apply k] at hline
    obtain ⟨old, hold, _⟩ := h.exists_isAt hline
    obtain ⟨header, _, hbelow⟩ := exists_below_of_isAt hplaced hold
    rw [← h.below_apply_iff, σ.apply_symm_apply, Text.below_iff] at hbelow
    obtain ⟨j, hj, hopens, _⟩ := hbelow
    exact ⟨j, hj, header, h.opensAt_iff.mpr hopens⟩

theorem Rearranges.mem_linesOf_iff (h : Rearranges headers σ (lines text) (lines text'))
    (hplaced : sections text = .ok placed) (hplaced' : sections text' = .ok placed')
    {header : Header} {line : Line} :
    line ∈ linesOf placed' header ↔
      ∃ old ∈ linesOf placed header, old.relocate σ = line := by
  simp only [mem_linesOf_sections_iff hplaced, mem_linesOf_sections_iff hplaced',
    h.below_iff]
  constructor
  · rintro ⟨k, hline, hbelow⟩
    rw [← σ.apply_symm_apply k] at hline hbelow
    obtain ⟨old, hold, heq⟩ := h.exists_isAt hline
    exact ⟨old, ⟨_, hold, h.below_apply_iff.mp hbelow⟩, heq⟩
  · rintro ⟨old, ⟨k, hold, hbelow⟩, rfl⟩
    exact ⟨σ k, h.isAt_relocate hold, h.below_apply_iff.mpr hbelow⟩

theorem nodup_linesOf (hplaced : sections text = .ok placed) (header : Header) :
    (linesOf placed header).Nodup :=
  (pairwise_number_linesOf hplaced header).imp fun hlt heq =>
    hlt.ne (congrArg Line.number heq)

/-- A section has the lines that it had, with other numbers and in another order. -/
theorem Rearranges.perm_linesOf (h : Rearranges headers σ (lines text) (lines text'))
    (hplaced : sections text = .ok placed) (hplaced' : sections text' = .ok placed')
    (header : Header) :
    ((linesOf placed header).map (·.relocate σ)).Perm (linesOf placed' header) := by
  have hnumber : ∀ line ∈ linesOf placed header, 1 ≤ line.number := by
    intro line hline
    obtain ⟨k, hk, _⟩ := (mem_linesOf_sections_iff hplaced).mp hline
    rw [hk.number]
    exact Nat.succ_pos k
  refine (List.perm_ext_iff_of_nodup ?_ (nodup_linesOf hplaced' header)).mpr ?_
  · refine (nodup_linesOf hplaced header).map_on ?_
    intro line hline other hother
    exact Line.eq_of_relocate_eq (hnumber line hline) (hnumber other hother)
  · intro line
    rw [List.mem_map, h.mem_linesOf_iff hplaced hplaced']

/-- A section whose lines were not moved is as it was. -/
theorem Rearranges.linesOf_eq (h : Rearranges headers σ (lines text) (lines text'))
    (hplaced : sections text = .ok placed) (hplaced' : sections text' = .ok placed')
    {header : Header} (hheader : header ∉ headers) :
    linesOf placed' header = linesOf placed header := by
  have hfixed : ∀ line ∈ linesOf placed header, line.relocate σ = line := by
    intro line hline
    obtain ⟨k, hk, hbelow⟩ := (mem_linesOf_sections_iff hplaced).mp hline
    have hσ : σ k = k := by
      by_contra hne
      obtain ⟨other, hother, hsection, _⟩ := h.moved k hne
      exact hheader (hbelow.unique hsection.below ▸ hother)
    rw [Line.relocate, hk.number, Nat.add_sub_cancel, hσ, ← hk.number]
  have hperm := h.perm_linesOf hplaced hplaced' header
  rw [List.map_congr_left hfixed, List.map_id'] at hperm
  refine hperm.symm.eq_of_pairwise ?_ (pairwise_number_linesOf hplaced' header)
    (pairwise_number_linesOf hplaced header)
  intro line other _ _ hlt hgt
  exact absurd hlt hgt.asymm

end

end Text

end CyclicStack
