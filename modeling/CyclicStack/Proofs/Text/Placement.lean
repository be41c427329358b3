import CyclicStack.Proofs.Text.Section

/-!
# Where the lines of a text end up

A line that is placed keeps its number and its tokens, and its section is that of the
nearest header above it.  All lines with words other than the headers are placed, each
of them once.

A text that cannot be divided is refused at its first misplaced line: the line cannot be
read, or it repeats a header, or it has words and there is no header above it.  Whether
a line is misplaced is a matter of the lines above it only, so the division of a text is
decided line by line.
-/

namespace CyclicStack

namespace Text

/-- The line at a position opens no section. -/
def NoHeaderAt (raws : List (List Char)) (k : Nat) : Prop :=
  ∀ raw, raws[k]? = some raw → ∀ other, tokenize raw ≠ .ok [.header other]

/-- The nearest header above a position. -/
def Below (raws : List (List Char)) (k : Nat) (header : Header) : Prop :=
  ∃ j raw, j < k ∧ raws[j]? = some raw ∧ tokenize raw = .ok [.header header] ∧
    ∀ i, j < i → i < k → NoHeaderAt raws i

/-- Number of lines of a text.  What follows the last line feed is a line only if it is
not empty. -/
def lineCount (text : List Char) : Nat :=
  if (lines text).getLast? = some [] then (lines text).length - 1
  else (lines text).length

theorem le_lineCount {text raw : List Char} {k : Nat} (h : (lines text)[k]? = some raw)
    (hraw : raw ≠ []) :
    k + 1 ≤ lineCount text := by
  obtain ⟨hk, _⟩ := List.getElem?_eq_some_iff.mp h
  unfold lineCount
  split_ifs with hlast
  · -- The last line is empty, so it is another one.
    have hne : k ≠ (lines text).length - 1 := by
      rintro rfl
      rw [List.getLast?_eq_getElem?, h, Option.some_inj] at hlast
      exact hraw hlast
    omega
  · exact hk

theorem Below.cons {rest : List (List Char)} {k : Nat} {header : Header}
    (h : Below rest k header) (raw : List Char) :
    Below (raw :: rest) (k + 1) header := by
  obtain ⟨j, opening, hj, hopening, htokens, hbetween⟩ := h
  refine ⟨j + 1, opening, by omega, hopening, htokens, ?_⟩
  intro i hji hik
  obtain ⟨i, rfl⟩ := Nat.exists_eq_add_one_of_ne_zero (by omega : i ≠ 0)
  exact hbetween i (by omega) (by omega)

theorem below_of_header {raw : List Char} {rest : List (List Char)} {k : Nat}
    {header : Header} (h : tokenize raw = .ok [.header header])
    (hrest : ∀ i < k, NoHeaderAt rest i) :
    Below (raw :: rest) (k + 1) header := by
  refine ⟨0, raw, by omega, rfl, h, ?_⟩
  intro i hi hik
  obtain ⟨i, rfl⟩ := Nat.exists_eq_add_one_of_ne_zero hi.ne'
  exact hrest i (by omega)

theorem noHeaderAt_cons {raw : List Char} {rest : List (List Char)} {k : Nat}
    (h : ∀ other, tokenize raw ≠ .ok [.header other])
    (hrest : ∀ i < k, NoHeaderAt rest i) :
    ∀ i < k + 1, NoHeaderAt (raw :: rest) i := by
  intro i hi
  cases i with
  | zero => simpa [NoHeaderAt] using h
  | succ i => exact hrest i (by omega)

/-- Where a line of a section comes from. -/
structure Placed.StandsAt (p : Placed) (raws : List (List Char)) (k : Nat)
    (raw : List Char) : Prop where
  getElem? : raws[k]? = some raw
  tokenize_raw : tokenize raw = .ok p.line.tokens
  not_header : ∀ other, p.line.tokens ≠ [.header other]

section

variable {number : Nat} {current : Option Header} {seen : List Header}
  {raws : List (List Char)}

/-- The headers above the lines count as well: the section that is open at the first
line reaches down to the first header. -/
theorem standsAt_of_placeFrom {placed : List Placed}
    (h : placeFrom number current seen raws = .ok placed) :
    ∀ p ∈ placed, ∃ k raw, p.line.number = number + k ∧ p.StandsAt raws k raw ∧
      (Below raws k p.header ∨
        current = some p.header ∧ ∀ i < k, NoHeaderAt raws i) := by
  induction raws generalizing number current seen placed with
  | nil =>
      obtain rfl : [] = placed := by simpa [placeFrom] using h
      simp
  | cons raw rest ih =>
      have hlater : ∀ {placed : List Placed} {seen : List Header},
          placeFrom (number + 1) current seen rest = .ok placed →
          (∀ other, tokenize raw ≠ .ok [.header other]) →
          ∀ p ∈ placed, ∃ k raw', p.line.number = number + k ∧
            p.StandsAt (raw :: rest) k raw' ∧
            (Below (raw :: rest) k p.header ∨
              current = some p.header ∧ ∀ i < k, NoHeaderAt (raw :: rest) i) := by
        intro placed seen hplaced hraw p hp
        obtain ⟨k, raw', hnumber, hstands, hsection⟩ := ih hplaced p hp
        refine ⟨k + 1, raw', by omega, ⟨hstands.1, hstands.2, hstands.3⟩, ?_⟩
        exact hsection.imp (·.cons raw) fun hnone =>
          ⟨hnone.1, noHeaderAt_cons hraw hnone.2⟩
      rcases placeFrom_cases h with ⟨hblank, htail⟩ | ⟨header, hheader, _, htail⟩ |
        ⟨header, first, more, tail, hcontent, hother, hcurrent, htail, rfl⟩
      · exact hlater htail (by simp [hblank])
      · intro p hp
        obtain ⟨k, raw', hnumber, hstands, hsection⟩ := ih htail p hp
        refine ⟨k + 1, raw', by omega, ⟨hstands.1, hstands.2, hstands.3⟩, .inl ?_⟩
        rcases hsection with hbelow | ⟨heq, hnone⟩
        · exact hbelow.cons raw
        · rw [Option.some_inj] at heq
          exact heq ▸ below_of_header hheader hnone
      · rw [List.forall_mem_cons]
        refine ⟨⟨0, raw, rfl, ⟨rfl, hcontent, hother⟩, .inr ⟨hcurrent, by omega⟩⟩, ?_⟩
        exact hlater htail (by simpa [hcontent] using hother)

theorem exists_placed_of_placeFrom {placed : List Placed}
    (h : placeFrom number current seen raws = .ok placed) {k : Nat} {raw : List Char}
    {first : Token} {more : List Token} (hraw : raws[k]? = some raw)
    (htokens : tokenize raw = .ok (first :: more))
    (hcontent : ∀ other, first :: more ≠ [.header other]) :
    ∃ header, ⟨header, number + k, first, more⟩ ∈ placed := by
  induction raws generalizing number current seen placed k with
  | nil => simp at hraw
  | cons raw' rest ih =>
      have hlater : ∀ {k : Nat} {current : Option Header} {seen : List Header}
          {tail : List Placed},
            placeFrom (number + 1) current seen rest = .ok tail → rest[k]? = some raw →
            ∃ header, ⟨header, number + (k + 1), first, more⟩ ∈ tail := by
        intro k current seen tail htail hk
        obtain ⟨header, hmem⟩ := ih htail hk
        exact ⟨header, by rwa [Nat.add_right_comm] at hmem⟩
      rcases placeFrom_cases h with ⟨hblank, htail⟩ | ⟨header, hheader, _, htail⟩ |
        ⟨header, first', more', tail, htokens', _, _, htail, rfl⟩
      · cases k with
        | zero =>
            obtain rfl : raw' = raw := by simpa using hraw
            simp [hblank] at htokens
        | succ k => exact hlater htail hraw
      · cases k with
        | zero =>
            obtain rfl : raw' = raw := by simpa using hraw
            rw [hheader] at htokens
            exact absurd (Except.ok.inj htokens).symm (hcontent header)
        | succ k => exact hlater htail hraw
      · cases k with
        | zero =>
            obtain rfl : raw' = raw := by simpa using hraw
            rw [htokens'] at htokens
            obtain ⟨rfl, rfl⟩ := List.cons.inj (Except.ok.inj htokens)
            exact ⟨header, List.mem_cons_self⟩
        | succ k =>
            obtain ⟨other, hmem⟩ := hlater htail hraw
            exact ⟨other, List.mem_cons_of_mem _ hmem⟩

theorem pairwise_number_of_placeFrom {placed : List Placed}
    (h : placeFrom number current seen raws = .ok placed) :
    placed.Pairwise fun p q => p.line.number < q.line.number := by
  induction raws generalizing number current seen placed with
  | nil =>
      obtain rfl : [] = placed := by simpa [placeFrom] using h
      exact .nil
  | cons raw rest ih =>
      rcases placeFrom_cases h with ⟨_, htail⟩ | ⟨_, _, _, htail⟩ |
        ⟨header, first, more, tail, _, _, _, htail, rfl⟩
      · exact ih htail
      · exact ih htail
      · refine .cons ?_ (ih htail)
        intro q hq
        obtain ⟨k, _, hnumber, _⟩ := standsAt_of_placeFrom htail q hq
        change number < q.line.number
        omega

end

/-! ## Misplaced lines -/

/-- What refuses a line. -/
inductive Unplaceable (number : Nat) (raw : List Char) : Load.Error → Prop
  | unrecognized {c : Char} (h : tokenize raw = .error c) :
      Unplaceable number raw ⟨.unrecognized c, some ⟨number, String.ofList (trim raw)⟩⟩
  | duplicate {header : Header} (h : tokenize raw = .ok [.header header]) :
      Unplaceable number raw ⟨.duplicateSection header, some ⟨number, header.text⟩⟩
  | outside {first : Token} {more : List Token}
      (h : tokenize raw = .ok (first :: more)) :
      Unplaceable number raw ((Line.mk number first more).blame .outsideSection)

/-- Why a line has no place below others: it cannot be read, or its header stands alone
above as well, or it has words and no header stands alone above. -/
inductive Misplaced (above : List (List Char)) (raw : List Char) : Load.Error → Prop
  | unrecognized {c : Char} (h : tokenize raw = .error c) :
      Misplaced above raw ⟨.unrecognized c,
        some ⟨above.length + 1, String.ofList (trim raw)⟩⟩
  | duplicate {header : Header} (h : tokenize raw = .ok [.header header])
      (habove : Opens above header) :
      Misplaced above raw ⟨.duplicateSection header,
        some ⟨above.length + 1, header.text⟩⟩
  | outside {first : Token} {more : List Token} (h : tokenize raw = .ok (first :: more))
      (hcontent : ∀ other, first :: more ≠ [.header other])
      (habove : ∀ header, ¬Opens above header) :
      Misplaced above raw
        ((Line.mk (above.length + 1) first more).blame .outsideSection)

/-- The first of the lines below others that is misplaced, and why. -/
def FirstMisplaced (above rest : List (List Char)) (e : Load.Error) : Prop :=
  ∃ k raw, rest[k]? = some raw ∧ Misplaced (above ++ rest.take k) raw e ∧
    ∀ j < k, ∀ other, rest[j]? = some other →
      ∀ e', ¬Misplaced (above ++ rest.take j) other e'

/-- What is known about the lines above when a line is placed: which headers stand alone
among them, and whether there is one. -/
structure Follows (above : List (List Char)) (current : Option Header)
    (seen : List Header) :
    Prop where
  mem_seen_iff : ∀ header, header ∈ seen ↔ Opens above header
  current_eq_none_iff : current = none ↔ ∀ header, ¬Opens above header

section

variable {above rest : List (List Char)} {raw : List Char} {current : Option Header}
  {seen : List Header} {e : Load.Error}

theorem Misplaced.unplaceable (h : Misplaced above raw e) :
    Unplaceable (above.length + 1) raw e := by
  cases h with
  | unrecognized h => exact .unrecognized h
  | duplicate h _ => exact .duplicate h
  | outside h _ _ => exact .outside h

theorem Misplaced.unique {e' : Load.Error} (h : Misplaced above raw e)
    (h' : Misplaced above raw e') :
    e = e' := by
  cases h <;> cases h' <;> simp_all

theorem not_misplaced_iff :
    (∀ e, ¬Misplaced above raw e) ↔
      (∃ tokens, tokenize raw = .ok tokens) ∧
      (∀ header, tokenize raw = .ok [.header header] → ¬Opens above header) ∧
      ∀ first more, tokenize raw = .ok (first :: more) →
        (∀ other, first :: more ≠ [.header other]) → ∃ header, Opens above header := by
  constructor
  · intro h
    refine ⟨?_, fun header hheader habove => h _ (.duplicate hheader habove), ?_⟩
    · cases htokens : tokenize raw with
      | error c => exact absurd (.unrecognized htokens) (h _)
      | ok tokens => exact ⟨tokens, rfl⟩
    · intro first more htokens hcontent
      by_contra habove
      exact h _ (.outside htokens hcontent (not_exists.mp habove))
  · rintro ⟨⟨tokens, htokens⟩, hheader, hword⟩ e
      (hc | ⟨hlone, habove⟩ | ⟨hwords, hcontent, habove⟩)
    · simp [htokens] at hc
    · exact hheader _ hlone habove
    · obtain ⟨header, hopens⟩ := hword _ _ hwords hcontent
      exact habove header hopens

theorem opens_concat_iff {header : Header} :
    Opens (above ++ [raw]) header ↔ Opens above header ∨
      tokenize raw = .ok [.header header] := by
  simp [Opens, or_and_right, exists_or]

theorem follows_nil :
    Follows [] none [] := by
  constructor <;> simp [Opens]

theorem Follows.header {header : Header} (h : Follows above current seen)
    (hraw : tokenize raw = .ok [.header header]) :
    Follows (above ++ [raw]) (some header) (header :: seen) := by
  refine ⟨?_, ?_⟩
  · intro other
    rw [List.mem_cons, h.mem_seen_iff, opens_concat_iff, hraw]
    simp [or_comm, eq_comm]
  · simp only [reduceCtorEq, false_iff, not_forall, not_not]
    exact ⟨header, opens_concat_iff.mpr (.inr hraw)⟩

theorem Follows.other (h : Follows above current seen)
    (hraw : ∀ header, tokenize raw ≠ .ok [.header header]) :
    Follows (above ++ [raw]) current seen := by
  have hopens : ∀ header, Opens (above ++ [raw]) header ↔ Opens above header := by
    simp [opens_concat_iff, hraw]
  refine ⟨?_, ?_⟩
  · intro header
    rw [h.mem_seen_iff, hopens]
  · simp only [h.current_eq_none_iff, hopens]

/-- A line is misplaced and refuses the text, or leaves the decision to the lines below
it. -/
theorem Follows.placeFrom_cons (h : Follows above current seen) (raw : List Char)
    (rest : List (List Char)) :
    (∃ e, Misplaced above raw e ∧
      placeFrom (above.length + 1) current seen (raw :: rest) = .error e) ∨
    (∀ e, ¬Misplaced above raw e) ∧
      ∃ current' seen', Follows (above ++ [raw]) current' seen' ∧
      ∀ e, placeFrom (above.length + 1) current seen (raw :: rest) = .error e ↔
        placeFrom (above.length + 1 + 1) current' seen' rest = .error e := by
  rw [not_misplaced_iff]
  rcases htokens : tokenize raw with c | _ | ⟨first, more⟩
  · left
    refine ⟨_, .unrecognized htokens, ?_⟩
    rw [placeFrom, htokens]
  · right
    refine ⟨by simp, current, seen, h.other (by simp [htokens]), ?_⟩
    simp [placeFrom_blank htokens]
  by_cases hlone : ∃ header, first :: more = [.header header]
  · obtain ⟨header, hheader⟩ := hlone
    obtain ⟨rfl, rfl⟩ := List.cons.inj hheader
    by_cases hseen : header ∈ seen
    · left
      refine ⟨_, .duplicate htokens ((h.mem_seen_iff header).mp hseen), ?_⟩
      rw [placeFrom, htokens]
      exact if_pos hseen
    · right
      refine ⟨?_, some header, header :: seen, h.header htokens, ?_⟩
      · simpa [h.mem_seen_iff] using hseen
      · simp [placeFrom_header htokens hseen]
  · have hcontent : ∀ other, first :: more ≠ [.header other] := not_exists.mp hlone
    cases current with
    | none =>
        left
        exact ⟨_, .outside htokens hcontent (h.current_eq_none_iff.mp rfl),
          placeFrom_word htokens hcontent⟩
    | some header =>
        right
        refine ⟨?_, some header, seen, h.other (by simpa [htokens] using hcontent), ?_⟩
        · have hopen : ∃ header, Opens above header := by
            by_contra hnone
            simpa using h.current_eq_none_iff.mpr (not_exists.mp hnone)
          exact ⟨⟨_, rfl⟩, fun other hother =>
            absurd (Except.ok.inj hother) (hcontent other), fun _ _ _ _ => hopen⟩
        · intro e
          rw [placeFrom_word htokens hcontent]
          cases placeFrom (above.length + 1 + 1) (some header) seen rest <;>
            simp [Except.map]

theorem firstMisplaced_cons_iff :
    FirstMisplaced above (raw :: rest) e ↔
      Misplaced above raw e ∨
        (∀ e', ¬Misplaced above raw e') ∧ FirstMisplaced (above ++ [raw]) rest e := by
  constructor
  · rintro ⟨k, raw', hraw', hmisplaced, hbefore⟩
    cases k with
    | zero =>
        obtain rfl : raw = raw' := by simpa using hraw'
        exact .inl (by simpa using hmisplaced)
    | succ k =>
        have hfirst := hbefore 0 (Nat.succ_pos k) raw rfl
        refine .inr ⟨by simpa using hfirst, k, raw', hraw',
          by simpa using hmisplaced, ?_⟩
        intro j hj other hother
        simpa using hbefore (j + 1) (Nat.succ_lt_succ hj) other hother
  · rintro (hmisplaced | ⟨hraw, k, raw', hraw', hmisplaced, hbefore⟩)
    · exact ⟨0, raw, rfl, by simpa using hmisplaced, by simp⟩
    · refine ⟨k + 1, raw', hraw', by simpa using hmisplaced, ?_⟩
      intro j hj other hother
      cases j with
      | zero =>
          obtain rfl : raw = other := by simpa using hother
          simpa using hraw
      | succ j => simpa using hbefore j (Nat.lt_of_succ_lt_succ hj) other hother

/-- The first misplaced line refuses the text. -/
theorem Follows.placeFrom_eq_error_iff (h : Follows above current seen) :
    placeFrom (above.length + 1) current seen rest = .error e ↔
      FirstMisplaced above rest e := by
  induction rest generalizing above current seen with
  | nil => simp [placeFrom, FirstMisplaced]
  | cons raw rest ih =>
      rw [firstMisplaced_cons_iff]
      rcases h.placeFrom_cons raw rest with ⟨e', hmisplaced, hplace⟩ |
        ⟨hraw, current', seen', hfollows, hplace⟩
      · rw [hplace, Except.error.injEq]
        constructor
        · rintro rfl
          exact .inl hmisplaced
        · rintro (hother | ⟨hnone, _⟩)
          · exact hmisplaced.unique hother
          · exact absurd hmisplaced (hnone e')
      · have hrest := ih hfollows
        rw [List.length_append, List.length_singleton] at hrest
        simp [hplace, hrest, hraw]

end

/-! ## The sections of a text -/

def OpensAt (raws : List (List Char)) (k : Nat) (header : Header) : Prop :=
  ∃ raw, raws[k]? = some raw ∧ tokenize raw = .ok [.header header]

/-- The line at a position, by its number and its tokens, if it has tokens and is no
header alone. -/
structure Line.IsAt (line : Line) (raws : List (List Char)) (k : Nat) : Prop where
  number : line.number = k + 1
  tokens : ∃ raw, raws[k]? = some raw ∧ tokenize raw = .ok line.tokens
  not_header : ∀ other, line.tokens ≠ [.header other]

theorem opens_take_iff {raws : List (List Char)} {k : Nat} {header : Header} :
    Opens (raws.take k) header ↔ ∃ j < k, OpensAt raws j header := by
  simp only [Opens, OpensAt, List.mem_take_iff_getElem, List.getElem?_eq_some_iff]
  constructor
  · rintro ⟨raw, ⟨j, hj, hget⟩, hraw⟩
    exact ⟨j, by omega, raw, ⟨by omega, hget⟩, hraw⟩
  · rintro ⟨j, hjk, raw, ⟨hj, hget⟩, hraw⟩
    exact ⟨raw, ⟨j, by omega, hget⟩, hraw⟩

theorem Below.unique {raws : List (List Char)} {k : Nat} {header header' : Header}
    (h : Below raws k header) (h' : Below raws k header') :
    header = header' := by
  obtain ⟨j, raw, hj, hraw, htokens, hbetween⟩ := h
  obtain ⟨j', raw', hj', hraw', htokens', hbetween'⟩ := h'
  rcases Nat.lt_trichotomy j j' with hlt | rfl | hlt
  · exact absurd htokens' (hbetween j' hlt hj' raw' hraw' header')
  · rw [hraw] at hraw'
    obtain rfl := Option.some.inj hraw'
    simpa [htokens] using htokens'
  · exact absurd htokens (hbetween' j hlt hj raw hraw header)

section

variable {text : List Char} {placed : List Placed} {e : Load.Error}

theorem sections_eq_error_iff :
    sections text = .error e ↔ FirstMisplaced [] (lines text) e :=
  follows_nil.placeFrom_eq_error_iff

theorem unplaceable_of_sections (h : sections text = .error e) :
    ∃ k raw, (lines text)[k]? = some raw ∧ Unplaceable (k + 1) raw e := by
  obtain ⟨k, raw, hraw, hmisplaced, _⟩ := sections_eq_error_iff.mp h
  obtain ⟨hk, _⟩ := List.getElem?_eq_some_iff.mp hraw
  have hlength : ([] ++ (lines text).take k).length = k := by simp [hk.le]
  exact ⟨k, raw, hraw, hlength ▸ hmisplaced.unplaceable⟩

/-- A text can be divided if none of its lines is misplaced. -/
theorem exists_sections_iff_not_misplaced :
    (∃ placed, sections text = .ok placed) ↔
      ∀ k raw, (lines text)[k]? = some raw →
        ∀ e, ¬Misplaced ((lines text).take k) raw e := by
  classical
  constructor
  · rintro ⟨placed, hplaced⟩
    by_contra hmisplaced
    push Not at hmisplaced
    -- the least position of a misplaced line would refuse the text
    obtain ⟨raw, hraw, e, he⟩ := Nat.find_spec hmisplaced
    have hrefused : sections text = .error e := by
      refine sections_eq_error_iff.mpr ⟨_, raw, hraw, he, ?_⟩
      intro j hj other hother e' he'
      exact Nat.find_min hmisplaced hj ⟨other, hother, e', he'⟩
    simp [hplaced] at hrefused
  · intro h
    cases hsections : sections text with
    | ok placed => exact ⟨placed, rfl⟩
    | error e =>
        obtain ⟨k, raw, hraw, hmisplaced, _⟩ := sections_eq_error_iff.mp hsections
        exact absurd hmisplaced (h k raw hraw e)

theorem exists_sections_iff :
    (∃ placed, sections text = .ok placed) ↔
      (∀ raw ∈ lines text, ∃ tokens, tokenize raw = .ok tokens) ∧
      (∀ j k header, OpensAt (lines text) j header →
        OpensAt (lines text) k header → j = k) ∧
      ∀ k (line : Line), line.IsAt (lines text) k →
        ∃ j < k, ∃ header, OpensAt (lines text) j header := by
  simp only [exists_sections_iff_not_misplaced, not_misplaced_iff, opens_take_iff]
  constructor
  · intro h
    refine ⟨?_, ?_, ?_⟩
    · intro raw hmem
      obtain ⟨k, hk⟩ := List.mem_iff_getElem?.mp hmem
      exact (h k raw hk).1
    · intro j k header hj hk
      have hnot : ∀ {j k : Nat}, OpensAt (lines text) j header →
          OpensAt (lines text) k header → ¬j < k := by
        rintro j k hj ⟨raw, hraw, hheader⟩ hjk
        exact (h k raw hraw).2.1 header hheader ⟨j, hjk, hj⟩
      exact Nat.le_antisymm (Nat.not_lt.mp (hnot hk hj)) (Nat.not_lt.mp (hnot hj hk))
    · rintro k line ⟨_, ⟨raw, hraw, htokens⟩, hcontent⟩
      obtain ⟨header, j, hj, hopens⟩ := (h k raw hraw).2.2 _ _ htokens hcontent
      exact ⟨j, hj, header, hopens⟩
  · rintro ⟨hreadable, hdistinct, hopened⟩ k raw hraw
    refine ⟨hreadable raw (List.mem_of_getElem? hraw), ?_, ?_⟩
    · rintro header hheader ⟨j, hj, hopens⟩
      exact hj.ne (hdistinct j k header hopens ⟨raw, hraw, hheader⟩)
    · intro first more htokens hcontent
      obtain ⟨j, hj, header, hopens⟩ :=
        hopened k ⟨k + 1, first, more⟩ ⟨rfl, ⟨raw, hraw, htokens⟩, hcontent⟩
      exact ⟨header, j, hj, hopens⟩

/-- A line of a section is a line of the text, below the header of its section. -/
theorem standsAt_of_sections {p : Placed} (h : sections text = .ok placed)
    (hp : p ∈ placed) :
    ∃ k raw, p.line.number = k + 1 ∧ p.StandsAt (lines text) k raw ∧
      Below (lines text) k p.header := by
  obtain ⟨k, raw, hnumber, hstands, hbelow | ⟨hcurrent, _⟩⟩ :=
    standsAt_of_placeFrom h p hp
  · exact ⟨k, raw, by omega, hstands, hbelow⟩
  · simp at hcurrent

theorem exists_below_of_isAt (h : sections text = .ok placed) {k : Nat} {line : Line}
    (hline : line.IsAt (lines text) k) :
    ∃ header, line ∈ linesOf placed header ∧ Below (lines text) k header := by
  obtain ⟨hnumber, ⟨raw, hraw, htokens⟩, hcontent⟩ := hline
  obtain ⟨header, hmem⟩ := exists_placed_of_placeFrom h hraw htokens hcontent
  obtain ⟨j, _, hj, _, hbelow⟩ := standsAt_of_sections h hmem
  obtain rfl : k = j := by simpa [Nat.add_comm] using hj
  refine ⟨header, mem_linesOf_iff.mpr ?_, hbelow⟩
  rwa [Nat.add_comm, ← hnumber] at hmem

theorem mem_linesOf_sections_iff (h : sections text = .ok placed) {header : Header}
    {line : Line} :
    line ∈ linesOf placed header ↔
      ∃ k, line.IsAt (lines text) k ∧ Below (lines text) k header := by
  constructor
  · intro hmem
    obtain ⟨k, raw, hnumber, hstands, hbelow⟩ :=
      standsAt_of_sections h (mem_linesOf_iff.mp hmem)
    exact ⟨k, ⟨hnumber, ⟨raw, hstands.getElem?, hstands.tokenize_raw⟩,
      hstands.not_header⟩, hbelow⟩
  · rintro ⟨k, hline, hbelow⟩
    obtain ⟨other, hmem, hother⟩ := exists_below_of_isAt h hline
    rwa [hbelow.unique hother]

theorem pairwise_number_linesOf (h : sections text = .ok placed) (header : Header) :
    (linesOf placed header).Pairwise fun line line' => line.number < line'.number :=
  List.pairwise_map.mpr ((pairwise_number_of_placeFrom h).filter _)

end

/-- The division of a text into sections loses, repeats and reorders nothing.  A text
can be divided exactly if all its lines can be read, no header stands alone on two of
them, and every other line with words has a header above it.  Then each of these other
lines is in one section, that of the nearest header above it, and the sections hold no
further lines, all in the order of the text.  A text that cannot be divided is refused
for the first of its lines that is misplaced. -/
theorem sections_keep_every_line (text : List Char) :
    ((∃ placed, sections text = .ok placed) ↔
      (∀ raw ∈ lines text, ∃ tokens, tokenize raw = .ok tokens) ∧
      (∀ j k header, OpensAt (lines text) j header →
        OpensAt (lines text) k header → j = k) ∧
      ∀ k (line : Line), line.IsAt (lines text) k →
        ∃ j < k, ∃ header, OpensAt (lines text) j header) ∧
    (∀ placed, sections text = .ok placed →
      (∀ k (line : Line), line.IsAt (lines text) k → ∃! header,
        line ∈ linesOf placed header) ∧
      (∀ header line, line ∈ linesOf placed header ↔
        ∃ k, line.IsAt (lines text) k ∧ Below (lines text) k header) ∧
      ∀ header, (linesOf placed header).Pairwise fun line line' =>
        line.number < line'.number) ∧
    ∀ e, sections text = .error e ↔
      ∃ k raw, (lines text)[k]? = some raw ∧ Misplaced ((lines text).take k) raw e ∧
        ∀ j < k, ∀ other, (lines text)[j]? = some other →
          ∀ e', ¬Misplaced ((lines text).take j) other e' := by
  refine ⟨exists_sections_iff, ?_, fun e => sections_eq_error_iff⟩
  intro placed h
  refine ⟨?_, fun header line => mem_linesOf_sections_iff h, pairwise_number_linesOf h⟩
  intro k line hline
  obtain ⟨header, hmem, hbelow⟩ := exists_below_of_isAt h hline
  refine ⟨header, hmem, ?_⟩
  intro other hother
  obtain ⟨j, hj, hbelow'⟩ := (mem_linesOf_sections_iff h).mp hother
  obtain rfl : k = j := by simpa [hline.number] using hj.number
  exact hbelow'.unique hbelow

/-- Two headers on one line are words of the section above.  With a header repeated and
an unreadable line below it, the text is refused for the header. -/
theorem sections_keep_every_line_headers_as_words :
    let text := "# odd\n__PROGRAM\n\n__MEM __MEM\n__VAR\nx\n".toList
    let text' := text ++ "__PROGRAM\ny\u00a0z".toList
    let line : Line := ⟨4, .header .memory, [.header .memory]⟩
    let placed : List Placed := [⟨.program, line⟩, ⟨.vars, 6, .word "x", []⟩]
    sections text = .ok placed ∧ (∃! header, line ∈ linesOf placed header) ∧
      ∃ k raw, (lines text')[k]? = some raw ∧
        Misplaced ((lines text').take k) raw
          ⟨.duplicateSection .program, some ⟨7, "__PROGRAM"⟩⟩ := by
  intro text text' line placed
  have hsections : sections text = .ok placed := by decide +kernel
  have hline : line.IsAt (lines text) 3 :=
    ⟨rfl, ⟨"__MEM __MEM".toList, by decide +kernel, by decide +kernel⟩,
      by simp [line, Line.tokens]⟩
  have hrefused : sections text' =
      .error ⟨.duplicateSection .program, some ⟨7, "__PROGRAM"⟩⟩ := by decide +kernel
  obtain ⟨k, raw, hraw, hmisplaced, _⟩ :=
    ((sections_keep_every_line text').2.2 _).mp hrefused
  exact ⟨hsections,
    ((sections_keep_every_line text).2.1 placed hsections).1 3 line hline,
    k, raw, hraw, hmisplaced⟩

end Text

end CyclicStack
