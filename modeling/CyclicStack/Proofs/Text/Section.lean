import CyclicStack.Proofs.Outcome
import CyclicStack.Text.Section

/-!
# Placing lines

What a line does when a text is divided into sections: a line without tokens does
nothing, a line of a single header opens a section, and every other line joins the
section that is open.  From this follows how whole blocks of lines are placed, each
block a header and the lines below it.
-/

namespace CyclicStack

namespace Text

/-! ## One line -/

def Line.SameTokens (line line' : Line) : Prop :=
  line.first = line'.first ∧ line.more = line'.more

theorem Line.SameTokens.words {line line' : Line} (h : line.SameTokens line') :
    line.words = line'.words := by
  unfold Line.words Line.tokens
  rw [h.1, h.2]

theorem Line.SameTokens.text {line line' : Line} (h : line.SameTokens line') :
    line.text = line'.text := by
  unfold Line.text
  rw [h.words]

/-- The header stands alone on one of the lines. -/
def Opens (raws : List (List Char)) (header : Header) : Prop :=
  ∃ raw ∈ raws, tokenize raw = .ok [.header header]

section

variable {number : Nat} {current : Option Header} {seen : List Header} {raw : List Char}
  {rest : List (List Char)}

theorem placeFrom_blank (h : tokenize raw = .ok []) :
    placeFrom number current seen (raw :: rest) =
      placeFrom (number + 1) current seen rest := by
  rw [placeFrom, h]

theorem placeFrom_header {header : Header} (h : tokenize raw = .ok [.header header])
    (hseen : header ∉ seen) :
    placeFrom number current seen (raw :: rest) =
      placeFrom (number + 1) (some header) (header :: seen) rest := by
  rw [placeFrom, h]
  exact if_neg hseen

theorem placeFrom_word {first : Token} {more : List Token}
    (h : tokenize raw = .ok (first :: more))
    (hcontent : ∀ other, first :: more ≠ [.header other]) :
    placeFrom number current seen (raw :: rest) =
      match current with
      | none => .error ((Line.mk number first more).blame .outsideSection)
      | some header =>
        (placeFrom (number + 1) current seen rest).map
          (⟨header, number, first, more⟩ :: ·) := by
  rw [placeFrom, h]
  split
  · next hfail => cases hfail
  · next hblank => cases hblank
  · next other hother =>
    cases hother
    exact absurd rfl (hcontent other)
  · next hsome =>
    cases hsome
    cases current with
    | none => rfl
    | some header => cases placeFrom (number + 1) (some header) seen rest <;> rfl

theorem placeFrom_content {header : Header} {first : Token} {more : List Token}
    (h : tokenize raw = .ok (first :: more))
    (hcontent : ∀ other, first :: more ≠ [.header other])
    {placed : List Placed}
    (hrest : placeFrom (number + 1) (some header) seen rest = .ok placed) :
    placeFrom number (some header) seen (raw :: rest) =
      .ok (⟨header, number, first, more⟩ :: placed) := by
  rw [placeFrom_word h hcontent, hrest]
  rfl

theorem placeFrom_cases {placed : List Placed}
    (h : placeFrom number current seen (raw :: rest) = .ok placed) :
    (tokenize raw = .ok [] ∧ placeFrom (number + 1) current seen rest = .ok placed) ∨
    (∃ header, tokenize raw = .ok [.header header] ∧ header ∉ seen ∧
      placeFrom (number + 1) (some header) (header :: seen) rest = .ok placed) ∨
    ∃ header first more tail, tokenize raw = .ok (first :: more) ∧
      (∀ other, first :: more ≠ [.header other]) ∧ current = some header ∧
      placeFrom (number + 1) current seen rest = .ok tail ∧
      placed = ⟨header, number, first, more⟩ :: tail := by
  rw [placeFrom] at h
  split at h
  · cases h
  · next hblank => exact .inl ⟨hblank, h⟩
  · next header hheader =>
    split_ifs at h with hseen
    exact .inr (.inl ⟨header, hheader, hseen, h⟩)
  · next first more hother hcontent =>
    split at h
    · cases h
    · next header =>
      split at h
      · next tail htail =>
        cases h
        refine .inr (.inr ⟨header, first, more, tail, hcontent, ?_, rfl, htail, rfl⟩)
        rintro other hlone
        cases hlone
        exact hother other rfl rfl
      · cases h

end

theorem placeFrom_blanks {number : Nat} {current : Option Header} {seen : List Header}
    {blanks : List (List Char)} (h : ∀ raw ∈ blanks, tokenize raw = .ok [])
    (rest : List (List Char)) :
    placeFrom number current seen (blanks ++ rest) =
      placeFrom (number + blanks.length) current seen rest := by
  induction blanks generalizing number with
  | nil => rfl
  | cons raw blanks ih =>
      rw [List.cons_append, placeFrom_blank (h raw List.mem_cons_self),
        ih fun other hother => h other (List.mem_cons_of_mem raw hother),
        List.length_cons,
        Nat.add_assoc, Nat.add_comm 1]

/-- A line of a section can be replaced by another line of tokens: all other lines stay
where they are. -/
theorem placeFrom_set {number : Nat} {current : Option Header} {seen : List Header}
    {raws : List (List Char)} {placed : List Placed} {header : Header} {line : Line}
    {raw : List Char} {first : Token} {more : List Token}
    (h : placeFrom number current seen raws = .ok placed)
    (hline : ⟨header, line⟩ ∈ placed) (hraw : tokenize raw = .ok (first :: more))
    (hcontent : ∀ other, first :: more ≠ [.header other]) :
    number ≤ line.number ∧ ∃ before after, placed = before ++ ⟨header, line⟩ :: after ∧
      placeFrom number current seen (raws.set (line.number - number) raw) =
        .ok (before ++ ⟨header, line.number, first, more⟩ :: after) := by
  induction raws generalizing number current seen placed with
  | nil =>
      cases h
      cases hline
  | cons old raws ih =>
      have hset : number + 1 ≤ line.number →
          (old :: raws).set (line.number - number) raw =
            old :: raws.set (line.number - (number + 1)) raw := by
        intro hle
        rw [show line.number - number = line.number - (number + 1) + 1 by omega,
          List.set_cons_succ]
      rcases placeFrom_cases h with ⟨hblank, htail⟩ | ⟨other, hother, hseen, htail⟩ |
        ⟨other, first', more', tail, hold, hcontent', rfl, htail, rfl⟩
      · obtain ⟨hle, before, after, rfl, hplace⟩ := ih htail hline
        refine ⟨by omega, before, after, rfl, ?_⟩
        rw [hset hle, placeFrom_blank hblank, hplace]
      · obtain ⟨hle, before, after, rfl, hplace⟩ := ih htail hline
        refine ⟨by omega, before, after, rfl, ?_⟩
        rw [hset hle, placeFrom_header hother hseen, hplace]
      · rcases List.mem_cons.mp hline with heq | hmem
        · cases heq
          refine ⟨le_rfl, [], tail, rfl, ?_⟩
          rw [Nat.sub_self, List.set_cons_zero, placeFrom_content hraw hcontent htail]
          rfl
        · obtain ⟨hle, before, after, rfl, hplace⟩ := ih htail hmem
          refine ⟨by omega, _ :: before, after, rfl, ?_⟩
          rw [hset hle, placeFrom_content hold hcontent' hplace]
          rfl

/-! ## Blocks -/

/-- Whether a line can be read and opens no section. -/
def isBodyLine (raw : List Char) : Bool :=
  match tokenize raw with
  | .error _ | .ok [.header _] => false
  | .ok _ => true

theorem exists_tokens_of_isBodyLine {raw : List Char} (h : isBodyLine raw) :
    ∃ tokens, tokenize raw = .ok tokens ∧ ∀ other, tokens ≠ [.header other] := by
  unfold isBodyLine at h
  split at h
  · cases h
  · cases h
  · next tokens hother htokens =>
    refine ⟨tokens, htokens, ?_⟩
    rintro other rfl
    exact hother other rfl

/-- The header of a section and the lines below it. -/
structure Block where
  header : Header
  opening : List Char
  body : List (List Char)
  opens : tokenize opening = .ok [.header header]
  readable : ∀ raw ∈ body, isBodyLine raw

def Block.lines (b : Block) : List (List Char) :=
  b.opening :: b.body

/-- The lines with tokens, numbered from `number` on. -/
def bodyLines (number : Nat) : List (List Char) → List Line
  | [] => []
  | raw :: rest =>
    match tokenize raw with
    | .ok (first :: more) => ⟨number, first, more⟩ :: bodyLines (number + 1) rest
    | _ => bodyLines (number + 1) rest

theorem placeFrom_body {number : Nat} {header : Header} {seen : List Header}
    {body rest : List (List Char)}
    (hbody : ∀ raw ∈ body, isBodyLine raw) {placed : List Placed}
    (hrest : placeFrom (number + body.length) (some header) seen rest = .ok placed) :
    placeFrom number (some header) seen (body ++ rest) =
      .ok ((bodyLines number body).map (Placed.mk header) ++ placed) := by
  induction body generalizing number with
  | nil => exact hrest
  | cons raw body ih =>
      rw [List.length_cons, Nat.add_comm body.length, ← Nat.add_assoc] at hrest
      have htail :=
        ih (fun other hother => hbody other (List.mem_cons_of_mem raw hother)) hrest
      obtain ⟨tokens, htokens, hcontent⟩ :=
        exists_tokens_of_isBodyLine (hbody raw List.mem_cons_self)
      cases tokens with
      | nil =>
          rw [List.cons_append, placeFrom_blank htokens, htail, bodyLines, htokens]
      | cons first more =>
          rw [List.cons_append, placeFrom_content htokens hcontent htail,
            bodyLines, htokens]
          rfl

/-- The lines of blocks, numbered from `number` on, each with the header of its
block. -/
def placeBlocks (number : Nat) : List Block → List Placed
  | [] => []
  | b :: rest =>
    (bodyLines (number + 1) b.body).map (Placed.mk b.header) ++
      placeBlocks (number + b.lines.length) rest

theorem placeFrom_blocks {number : Nat} {current : Option Header} {seen : List Header}
    {blocks : List Block} {trail : List (List Char)}
    (hdistinct : (blocks.map (·.header)).Nodup) (hseen : ∀ b ∈ blocks, b.header ∉ seen)
    (htrail : ∀ raw ∈ trail, tokenize raw = .ok []) :
    placeFrom number current seen (blocks.flatMap (·.lines) ++ trail) =
      .ok (placeBlocks number blocks) := by
  induction blocks generalizing number current seen with
  | nil =>
      have hend : placeFrom number current seen (trail ++ []) = .ok [] :=
        placeFrom_blanks htrail []
      rwa [List.append_nil] at hend
  | cons b rest ih =>
      rw [List.map_cons, List.nodup_cons] at hdistinct
      have hrest : ∀ other ∈ rest, other.header ∉ b.header :: seen := by
        intro other hother hmem
        rcases List.mem_cons.mp hmem with heq | hmem
        · exact hdistinct.1 (List.mem_map.mpr ⟨other, hother, heq⟩)
        · exact hseen other (List.mem_cons_of_mem b hother) hmem
      have htail : placeFrom (number + 1 + b.body.length) (some b.header)
          (b.header :: seen)
            (rest.flatMap (·.lines) ++ trail) =
              .ok (placeBlocks (number + b.lines.length) rest) := by
        rw [ih hdistinct.2 hrest, Block.lines, List.length_cons, Nat.add_assoc,
          Nat.add_comm b.body.length]
      rw [List.flatMap_cons, Block.lines, List.append_assoc, List.cons_append,
        placeFrom_header b.opens (hseen b List.mem_cons_self),
        placeFrom_body b.readable htail]
      rfl

theorem placeBlocks_append (number : Nat) (blocks rest : List Block) :
    placeBlocks number (blocks ++ rest) =
      placeBlocks number blocks ++
        placeBlocks (number + (blocks.flatMap (·.lines)).length) rest := by
  induction blocks generalizing number with
  | nil => rfl
  | cons b blocks ih =>
      rw [List.cons_append, placeBlocks, placeBlocks, ih, List.append_assoc,
        List.flatMap_cons, List.length_append, Nat.add_assoc]

theorem mem_linesOf_iff {placed : List Placed} {header : Header} {line : Line} :
    line ∈ linesOf placed header ↔ ⟨header, line⟩ ∈ placed := by
  simp only [linesOf, List.mem_map, List.mem_filter, decide_eq_true_eq]
  constructor
  · rintro ⟨p, ⟨hp, rfl⟩, rfl⟩
    exact hp
  · intro h
    exact ⟨_, ⟨h, rfl⟩, rfl⟩

theorem linesOf_append (placed rest : List Placed) (header : Header) :
    linesOf (placed ++ rest) header = linesOf placed header ++ linesOf rest header := by
  simp [linesOf]

theorem linesOf_map_mk (lines : List Line) (header header' : Header) :
    linesOf (lines.map (Placed.mk header)) header' =
      if header = header' then lines else [] := by
  split_ifs with h <;> simp [linesOf, h, Function.comp_def, List.filter_map]

theorem linesOf_placeBlocks_of_forall_ne {header : Header} {blocks : List Block}
    (h : ∀ b ∈ blocks, b.header ≠ header) (number : Nat) :
    linesOf (placeBlocks number blocks) header = [] := by
  induction blocks generalizing number with
  | nil => rfl
  | cons b blocks ih =>
      rw [placeBlocks, linesOf_append, linesOf_map_mk, if_neg (h b List.mem_cons_self),
        ih fun other hother => h other (List.mem_cons_of_mem b hother), List.append_nil]

/-- A section holds the lines of its block, wherever the block stands. -/
theorem linesOf_placeBlocks {before after : List Block} {b : Block}
    (hdistinct : ((before ++ b :: after).map (·.header)).Nodup) (number : Nat) :
    linesOf (placeBlocks number (before ++ b :: after)) b.header =
      bodyLines (number + (before.flatMap (·.lines)).length + 1) b.body := by
  rw [List.map_append, List.map_cons, List.nodup_middle, List.nodup_cons,
    List.mem_append, not_or] at hdistinct
  have hbefore : ∀ other ∈ before, other.header ≠ b.header :=
    fun other hother heq => hdistinct.1.1 (List.mem_map.mpr ⟨other, hother, heq⟩)
  have hafter : ∀ other ∈ after, other.header ≠ b.header :=
    fun other hother heq => hdistinct.1.2 (List.mem_map.mpr ⟨other, hother, heq⟩)
  rw [placeBlocks_append, linesOf_append, linesOf_placeBlocks_of_forall_ne hbefore,
    placeBlocks, linesOf_append, linesOf_map_mk, if_pos rfl,
    linesOf_placeBlocks_of_forall_ne hafter, List.append_nil, List.nil_append]

/-- Numbered from elsewhere, the lines of a block keep their tokens and their distance
from the header. -/
theorem bodyLines_renumber (number number' : Nat) (body : List (List Char)) :
    List.Forall₂ (fun line line' => line.SameTokens line' ∧
        ∃ j < body.length, line.number = number + j ∧ line'.number = number' + j)
      (bodyLines number body) (bodyLines number' body) := by
  induction body generalizing number number' with
  | nil => exact .nil
  | cons raw body ih =>
      have hrest := (ih (number + 1) (number' + 1)).imp
        (S := fun line line' => line.SameTokens line' ∧
          ∃ j < body.length + 1, line.number = number + j ∧
            line'.number = number' + j) ?_
      · rw [bodyLines, bodyLines]
        split
        · exact .cons ⟨⟨rfl, rfl⟩, 0, Nat.succ_pos _, rfl, rfl⟩ hrest
        · exact hrest
      · rintro line line' ⟨hsame, j, hj, hnumber, hnumber'⟩
        exact ⟨hsame, j + 1, by omega, by omega, by omega⟩

end Text

end CyclicStack
