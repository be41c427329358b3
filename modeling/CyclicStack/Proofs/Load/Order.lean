import CyclicStack.Proofs.Load.Interpretation

/-!
# The order of the sections

A text whose sections are written in another order loads as before.  What refuses the
one text refuses the other, at the same line of the same section: only the number of
that line changes, by as much as the section has moved.
-/

namespace CyclicStack

namespace Text

/-- Line `number` of the blocks, counted below `lead` lines, is line `number'` of the
blocks in another order: the same line of the same block. -/
def Moves (lead : Nat) (blocks blocks' : List Block) (number number' : Nat) : Prop :=
  ∃ before b after before' after' j, blocks = before ++ b :: after ∧
    blocks' = before' ++ b :: after' ∧ j < b.lines.length ∧
    number = lead + (before.flatMap (·.lines)).length + j + 1 ∧
    number' = lead + (before'.flatMap (·.lines)).length + j + 1

theorem linesOf_perm (lead : Nat) {blocks blocks' : List Block}
    (hperm : blocks'.Perm blocks) (hdistinct : (blocks.map (·.header)).Nodup)
    (header : Header) :
    List.Forall₂
      (fun line line' => line.SameTokens line' ∧
        Moves lead blocks blocks' line.number line'.number)
      (linesOf (placeBlocks (lead + 1) blocks) header)
      (linesOf (placeBlocks (lead + 1) blocks') header) := by
  by_cases hblock : ∃ b ∈ blocks, b.header = header
  · obtain ⟨b, hb, rfl⟩ := hblock
    obtain ⟨before, after, rfl⟩ := List.append_of_mem hb
    obtain ⟨before', after', rfl⟩ := List.append_of_mem (hperm.mem_iff.mpr hb)
    have hdistinct' := (hperm.map (·.header)).nodup_iff.mpr hdistinct
    rw [linesOf_placeBlocks hdistinct, linesOf_placeBlocks hdistinct']
    refine (bodyLines_renumber _ _ b.body).imp ?_
    rintro line line' ⟨hsame, j, hj, hnumber, hnumber'⟩
    refine ⟨hsame, before, b, after, before', after', j + 1, rfl, rfl, ?_, ?_, ?_⟩
    · rw [Block.lines, List.length_cons]
      omega
    · omega
    · omega
  · have hnone : ∀ b ∈ blocks, b.header ≠ header := fun b hb heq => hblock ⟨b, hb, heq⟩
    rw [linesOf_placeBlocks_of_forall_ne hnone,
      linesOf_placeBlocks_of_forall_ne fun b hb => hnone b (hperm.mem_iff.mp hb)]
    exact .nil

/-- A text of blocks is divided into the sections of its blocks. -/
theorem sections_of_blocks {text : List Char} {lead trail : List (List Char)}
    {blocks : List Block} (hlead : ∀ raw ∈ lead, tokenize raw = .ok [])
    (htrail : ∀ raw ∈ trail, tokenize raw = .ok [])
    (hdistinct : (blocks.map (·.header)).Nodup)
    (htext : lines text = lead ++ (blocks.flatMap (·.lines) ++ trail)) :
    sections text = .ok (placeBlocks (lead.length + 1) blocks) := by
  rw [sections, htext, placeFrom_blanks hlead, Nat.add_comm 1]
  exact placeFrom_blocks hdistinct (fun _ _ => List.not_mem_nil) htrail

end Text

open Text in
/-- The blocks of a text, each a section, may come in any order: the text loads as the
same program, or is refused for the same cause and at the same line, whose number is
then that of the moved line. -/
theorem sections_in_any_order {segments : Load.Segments} {text text' : String}
    {lead trail : List (List Char)} {blocks blocks' : List Block}
    (hlead : ∀ raw ∈ lead, tokenize raw = .ok [])
    (htrail : ∀ raw ∈ trail, tokenize raw = .ok [])
    (hdistinct : (blocks.map (·.header)).Nodup) (hperm : blocks'.Perm blocks)
    (htext : lines text.toList = lead ++ (blocks.flatMap (·.lines) ++ trail))
    (htext' : lines text'.toList = lead ++ (blocks'.flatMap (·.lines) ++ trail)) :
    Alike Eq
      (fun e e' => e.cause = e'.cause ∧
        (e.place = none ∧ e'.place = none ∨
          ∃ number number' content, e.place = some ⟨number, content⟩ ∧
            e'.place = some ⟨number', content⟩ ∧
              Moves lead.length blocks blocks' number number'))
      (load segments text) (load segments text') := by
  have hdistinct' := (hperm.map (·.header)).nodup_iff.mpr hdistinct
  unfold load
  rw [sections_of_blocks hlead htrail hdistinct htext,
    sections_of_blocks hlead htrail hdistinct' htext']
  have hlines := fun header => linesOf_perm lead.length hperm hdistinct header
  apply (Load.interpret_alike (fun _ _ _ h => h.1) hlines segments).imp fun _ _ h => h
  rintro _ _ (cause | ⟨⟨hsame, hmoves⟩, cause⟩)
  · exact ⟨rfl, .inl ⟨rfl, rfl⟩⟩
  · exact ⟨rfl, .inr ⟨_, _, _, rfl, by rw [Line.blame, Line.place, hsame.text], hmoves⟩⟩

open Text in
theorem sections_in_any_order_undefined_label :
    ∃ settings program : Block,
      load .none "# too far\n__SETTINGS\nCYCLES 3\n__PROGRAM\n\nJ out\n" =
          .error ⟨.undefinedLabel "out", some ⟨6, "J out"⟩⟩ ∧
        load .none "# too far\n__PROGRAM\n\nJ out\n__SETTINGS\nCYCLES 3\n" =
          .error ⟨.undefinedLabel "out", some ⟨4, "J out"⟩⟩ ∧
        Moves 1 [settings, program] [program, settings] 6 4 := by
  let settings : Block := ⟨.settings, "__SETTINGS".toList, ["CYCLES 3".toList],
    rfl, by decide⟩
  let program : Block := ⟨.program, "__PROGRAM".toList, [[], "J out".toList],
    rfl, by decide⟩
  have hload : load .none "# too far\n__SETTINGS\nCYCLES 3\n__PROGRAM\n\nJ out\n" =
      .error ⟨.undefinedLabel "out", some ⟨6, "J out"⟩⟩ := by decide +kernel
  have hload' : load .none "# too far\n__PROGRAM\n\nJ out\n__SETTINGS\nCYCLES 3\n" =
      .error ⟨.undefinedLabel "out", some ⟨4, "J out"⟩⟩ := by decide +kernel
  have hlead : ∀ raw ∈ ["# too far".toList], tokenize raw = .ok [] := by decide
  have htrail : ∀ raw ∈ [([] : List Char)], tokenize raw = .ok [] := by decide
  have htext : lines "# too far\n__SETTINGS\nCYCLES 3\n__PROGRAM\n\nJ out\n".toList =
      ["# too far".toList] ++ ([settings, program].flatMap (·.lines) ++ [[]]) := rfl
  have htext' : lines "# too far\n__PROGRAM\n\nJ out\n__SETTINGS\nCYCLES 3\n".toList =
      ["# too far".toList] ++ ([program, settings].flatMap (·.lines) ++ [[]]) := rfl
  have halike := @sections_in_any_order .none _ _ _ _ _ _ hlead htrail (by decide)
    (.swap settings program []) htext htext'
  rw [hload, hload'] at halike
  obtain _ | ⟨_, ⟨hplace, _⟩ | ⟨_, _, _, hplace, hplace', hmoves⟩⟩ := halike
  · cases hplace
  · cases hplace
    cases hplace'
    exact ⟨settings, program, hload, hload', hmoves⟩

end CyclicStack
