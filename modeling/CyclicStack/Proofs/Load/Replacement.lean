import CyclicStack.Proofs.Load.Assembly
import CyclicStack.Proofs.Memory.Mirror
import CyclicStack.Proofs.Text.Section

/-!
# A private region replaced by a shared one

Loading looks at how a region is stored at two places only: where the region is
declared, and where the tag of a variable is read.  So a text in which the declaration
of a private region is replaced by that of a shared one loads as the same program with
the region on a segment, if the tags of its variables suit a segment.  If moreover the
segment holds zeros, and no two variables share a cell, then the two programs run alike.
-/

namespace CyclicStack

namespace Memory

variable {m : Memory} {region segment : Nat}

theorem regionIndex?_onSegment (name : String) :
    (m.onSegment region segment).regionIndex? name = m.regionIndex? name := by
  have hnames : (m.onSegment region segment).regions.map (·.name) =
      m.regions.map (·.name) := by
    apply Array.ext_getElem?
    intro k
    simp only [onSegment, Array.getElem?_map, Array.getElem?_modify]
    split_ifs
    · cases m.regions[k]? <;> rfl
    · rfl
  have hindex : ∀ m' : Memory, m'.regionIndex? name =
      (m'.regions.map (·.name)).findIdx? (· == name) := by
    intro m'
    rw [regionIndex?, Array.findIdx?_map]
    rfl
  rw [hindex, hindex, hnames]

/-- A region has the name that it is found by. -/
theorem name_of_regionIndex? {name : String} (h : m.regionIndex? name = some region) :
    ∃ storage, m.regions[region]? = some ⟨name, storage⟩ := by
  obtain ⟨hlt, hname, _⟩ := Array.findIdx?_eq_some_iff_getElem.mp h
  refine ⟨m.regions[region].storage, ?_⟩
  rw [Array.getElem?_eq_getElem hlt, ← beq_iff_eq.mp hname]

theorem regionIndex?_push {name : String} {r : Region}
    (h : m.regionIndex? name = some region) :
    { m with regions := m.regions.push r }.regionIndex? name = some region := by
  rw [regionIndex?, Array.findIdx?_push]
  rw [regionIndex?] at h
  rw [h]
  rfl

theorem regionIndex?_push_self {name : String} (h : m.regionIndex? name = none)
    (storage : Storage) :
    { m with regions := m.regions.push ⟨name, storage⟩ }.regionIndex? name =
      some m.regions.size := by
  rw [regionIndex?, Array.findIdx?_push]
  rw [regionIndex?] at h
  rw [h]
  simp

end Memory

namespace Load

open Text

namespace Draft

/-- The draft with a region put on a segment. -/
def onSegment (d : Draft) (region segment : Nat) : Draft :=
  { d with program := { d.program with
    memory := d.program.memory.onSegment region segment } }

variable {d d' : Draft} {region segment : Nat}

theorem addRegion_onSegment (h : region < d.program.memory.regions.size) (name : String)
    (storage : Storage) :
    (d.onSegment region segment).addRegion name storage =
      (d.addRegion name storage).onSegment region segment := by
  have hregions : (d.program.memory.regions.modify region fun r =>
      { r with storage := .shared segment 8 }).push ⟨name, storage⟩ =
      (d.program.memory.regions.push ⟨name, storage⟩).modify region fun r =>
        { r with storage := .shared segment 8 } := by
    apply Array.ext_getElem?
    intro k
    rw [Array.getElem?_push, Array.getElem?_modify, Array.getElem?_modify,
      Array.getElem?_push, Array.size_modify]
    by_cases hk : k = d.program.memory.regions.size
    · have hne : region ≠ k := by omega
      rw [if_pos hk, if_neg hne, if_pos hk]
    · rw [if_neg hk, if_neg hk]
  simp only [onSegment, addRegion, Program.addRegion, Memory.onSegment, hregions]

theorem addRegion_onSegment_self (name : String) (storage : Storage) :
    (d.addRegion name storage).onSegment d.program.memory.regions.size segment =
      d.addRegion name (.shared segment 8) := by
  have hregions : (d.program.memory.regions.push ⟨name, storage⟩).modify
      d.program.memory.regions.size (fun r => { r with storage := .shared segment 8 }) =
      d.program.memory.regions.push ⟨name, .shared segment 8⟩ := by
    apply Array.ext_getElem?
    intro k
    rw [Array.getElem?_modify, Array.getElem?_push, Array.getElem?_push]
    by_cases hk : k = d.program.memory.regions.size
    · rw [if_pos hk.symm, if_pos hk, if_pos hk]
      rfl
    · rw [if_neg (Ne.symm hk), if_neg hk, if_neg hk]
  simp only [onSegment, addRegion, Program.addRegion, Memory.onSegment, hregions]

theorem checkNewRegion_onSegment (d : Draft) (region segment : Nat) (name : String) :
    (d.onSegment region segment).checkNewRegion name = d.checkNewRegion name := by
  unfold checkNewRegion
  rw [← Memory.regionIndex?_onSegment (m := d.program.memory)]
  rfl

/-- A region that is declared after another one does not notice how that one is
stored. -/
theorem declareMemory_onSegment {refusal : Refusal} {line : Line}
    (hlt : region < d.program.memory.regions.size)
    (h : d.declareMemory refusal line = .ok d') :
    (d.onSegment region segment).declareMemory refusal line =
      .ok (d'.onSegment region segment) := by
  unfold declareMemory at h ⊢
  split at h
  · next name cells _ =>
    obtain ⟨_, hcheck, h⟩ := bind_eq_ok_iff.mp h
    obtain ⟨size, hsize, h⟩ := bind_eq_ok_iff.mp h
    rw [← checkNewRegion_onSegment d region segment] at hcheck
    split at h
    · next words hwords =>
      cases h
      rw [← addRegion_onSegment hlt]
      refine bind_eq_ok_iff.mpr ⟨_, hcheck, bind_eq_ok_iff.mpr ⟨size, hsize, ?_⟩⟩
      rw [hwords]
      rfl
    · cases h
  · next owner name cellSize _ =>
    obtain ⟨_, hcheck, h⟩ := bind_eq_ok_iff.mp h
    obtain ⟨size, hsize, h⟩ := bind_eq_ok_iff.mp h
    obtain ⟨_, hvalid, h⟩ := bind_eq_ok_iff.mp h
    rw [← checkNewRegion_onSegment d region segment] at hcheck
    split at h
    · next index hindex =>
      cases h
      rw [← addRegion_onSegment hlt]
      refine bind_eq_ok_iff.mpr ⟨_, hcheck, bind_eq_ok_iff.mpr ⟨size, hsize,
        bind_eq_ok_iff.mpr ⟨_, hvalid, ?_⟩⟩⟩
      have hindex' : (d.onSegment region segment).program.memory.segmentIndex? owner =
          some index :=
        hindex
      rw [hindex']
      rfl
    · cases h
  · split_ifs at h
  · cases h

/-! ## Variables and initial values -/

/-- A tag that names an encoding wider than a bit means the same on a private region and
on a segment. -/
theorem sharedEncoding_of_owned {address tag : String} {sub : Option Nat}
    {e e' : Encoding} (htag : Encoding.ofTag? tag = some e) (hbit : e.isBit = false)
    (h : ownedEncoding address tag sub = .ok e') :
    e' = e ∧ sharedEncoding 8 address tag sub = .ok e := by
  obtain rfl := sub_eq_none_of_ownedEncoding h
  rw [ownedEncoding, htag] at h
  cases h
  refine ⟨rfl, ?_⟩
  have hread : (Encoding.ofTag tag).mapError Cause.encoding = .ok e := by
    rw [Encoding.ofTag, htag]
    rfl
  refine bind_eq_ok_iff.mpr ⟨e, hread, ?_⟩
  simp only [hbit, Bool.false_and, Option.isSome_none, Bool.and_false,
    Bool.false_eq_true, if_false, Option.getD_none, Cell.checkAccess_eight hbit]
  rfl

theorem encodingAt_onSegment {k : Nat} {address tag name : String} {sub : Option Nat}
    {words : Words}
    {e : Encoding} (hregion : d.program.memory.regions[region]? = some ⟨name,
      .owned words⟩)
    (htag : k = region → ∃ e, Encoding.ofTag? tag = some e ∧ e.isBit = false)
    (h : d.encodingAt k address tag sub = .ok e) :
    (d.onSegment region segment).encodingAt k address tag sub = .ok e ∧
      (k = region → e.isBit = false) := by
  unfold encodingAt at h ⊢
  by_cases hk : k = region
  · subst hk
    obtain ⟨e₀, htag, hbit⟩ := htag rfl
    rw [hregion] at h
    obtain ⟨rfl, hshared⟩ := sharedEncoding_of_owned htag hbit h
    obtain ⟨_, hopens⟩ : (d.onSegment k segment).program.memory.Opens k segment 8 :=
      Memory.opens_onSegment hregion
    rw [hopens]
    exact ⟨hshared, fun _ => hbit⟩
  · have hsame : (d.onSegment region segment).program.memory.regions[k]? =
        d.program.memory.regions[k]? := Memory.regions_onSegment_of_ne hk
    rw [hsame]
    exact ⟨h, fun heq => absurd heq hk⟩

/-- The tag of a variable in a region names an encoding that is wider than a bit. -/
def PlainTag (name address tag : String) : Prop :=
  ∀ parts, Address.parse? address.toList = some parts →
    String.ofList parts.memory = name →
    ∃ e, Encoding.ofTag? tag = some e ∧ e.isBit = false

theorem locate_onSegment {address tag name v : String} {words : Words} {x : Variable}
    (hregion : d.program.memory.regions[region]? = some ⟨name, .owned words⟩)
    (htag : PlainTag name address tag) (h : d.locate address tag v = .ok x) :
    (d.onSegment region segment).locate address tag v = .ok x ∧
      (x.region = region → x.encoding.isBit = false) := by
  unfold locate at h ⊢
  split at h
  · next parts hparts =>
    dsimp only at h
    split at h
    · next k hk =>
      obtain ⟨cell, hcell, h⟩ := bind_eq_ok_iff.mp h
      obtain ⟨sub, hsub, h⟩ := bind_eq_ok_iff.mp h
      obtain ⟨e, hencoding, h⟩ := bind_eq_ok_iff.mp h
      cases h
      have hk' : (d.onSegment region segment).program.memory.regionIndex?
          (String.ofList parts.memory) = some k := by
        rw [← hk]
        exact Memory.regionIndex?_onSegment _
      have htag' : k = region → ∃ e, Encoding.ofTag? tag = some e ∧
          e.isBit = false := by
        rintro rfl
        obtain ⟨storage, hstorage⟩ := Memory.name_of_regionIndex? hk
        rw [hregion] at hstorage
        cases hstorage
        exact htag parts hparts rfl
      obtain ⟨hencoding', hbit⟩ := encodingAt_onSegment hregion htag' hencoding
      simp only [hk']
      exact ⟨bind_eq_ok_iff.mpr ⟨cell, hcell, bind_eq_ok_iff.mpr ⟨sub, hsub,
        bind_eq_ok_iff.mpr ⟨e, hencoding', rfl⟩⟩⟩, hbit⟩
    · cases h
  · cases h

/-- All variables of a region are wider than a bit. -/
def PlainIn (region : Nat) (d : Draft) : Prop :=
  ∀ v ∈ d.program.vars, v.region = region → v.encoding.isBit = false

theorem declare_onSegment {line : Line} {name : String} {words : Words}
    (hregion : d.program.memory.regions[region]? = some ⟨name, .owned words⟩)
    (htag : ∀ address tag v, line.words = [address, tag, v] → PlainTag name address tag)
    (hd : d.PlainIn region) (h : d.declare line = .ok d') :
    (d.onSegment region segment).declare line = .ok (d'.onSegment region segment) ∧
      d'.PlainIn region := by
  unfold declare at h ⊢
  split at h
  · next address tag v hwords =>
    split_ifs at h ⊢ with hconst
    · unfold declareConstant at h ⊢
      split at h
      · obtain ⟨_, hname, h⟩ := bind_eq_ok_iff.mp h
        cases h
        exact ⟨bind_eq_ok_iff.mpr ⟨(), hname, rfl⟩, hd⟩
      · cases h
    · obtain ⟨x, hlocate, h⟩ := bind_eq_ok_iff.mp h
      obtain ⟨_, hname, h⟩ := bind_eq_ok_iff.mp h
      cases h
      obtain ⟨hlocate', hbit⟩ :=
        locate_onSegment hregion (htag address tag v hwords) hlocate
      refine ⟨bind_eq_ok_iff.mpr ⟨x, hlocate', bind_eq_ok_iff.mpr ⟨(), hname, rfl⟩⟩, ?_⟩
      intro w hw
      rcases Array.mem_push.mp hw with hold | rfl
      · exact hd w hold
      · exact hbit
  · cases h

theorem addInit_onSegment {line : Line} (h : d.addInit line = .ok d') :
    (d.onSegment region segment).addInit line = .ok (d'.onSegment region segment) := by
  obtain ⟨name, literal, hwords, hinit⟩ := addInit_eq_ok_iff.mp h
  refine addInit_eq_ok_iff.mpr ⟨name, literal, hwords, ?_⟩
  cases hinit with
  | constant hc hnew hread => exact .constant hc hnew hread
  | var hconstant hid hv hnew hread => exact .var hconstant hid hv hnew hread

theorem PlainIn.addInit {line : Line} (hd : d.PlainIn region)
    (h : d.addInit line = .ok d') :
    d'.PlainIn region := by
  obtain ⟨_, _, _, hinit⟩ := addInit_eq_ok_iff.mp h
  cases hinit with
  | constant => exact hd
  | var =>
      intro w hw
      obtain ⟨v, hv, rfl | rfl⟩ := mem_vars_setInit hw
      · exact hd w hv
      · exact hd v hv

end Draft

/-! ## The sections with the line replaced -/

theorem eachLine_append_eq_ok_iff {σ : Type} {f : σ → Line → Except Cause σ} {s t : σ}
    {lines rest : List Line} :
    eachLine f s (lines ++ rest) = .ok t ↔
      ∃ u, eachLine f s lines = .ok u ∧ eachLine f u rest = .ok t := by
  unfold eachLine
  rw [List.foldlM_append, bind_eq_ok_iff]

/-- A change of the state that each line allows for, all lines allow for. -/
theorem eachLine_map {σ : Type} {f : σ → Line → Except Cause σ} {g : σ → σ}
    {P : σ → Prop}
    {lines : List Line}
    (hf : ∀ s t, ∀ line ∈ lines, P s → f s line = .ok t → P t ∧
      f (g s) line = .ok (g t))
    {s t : σ} (hs : P s) (h : eachLine f s lines = .ok t) :
    P t ∧ eachLine f (g s) lines = .ok (g t) := by
  induction lines generalizing s with
  | nil =>
      cases h
      exact ⟨hs, rfl⟩
  | cons line rest ih =>
      obtain ⟨u, hline, hrest⟩ := eachLine_cons_eq_ok_iff.mp h
      obtain ⟨hu, hline'⟩ := hf s u line List.mem_cons_self hs hline
      obtain ⟨ht, hrest'⟩ :=
        ih (fun s t other hother => hf s t other (List.mem_cons_of_mem line hother))
          hu hrest
      exact ⟨ht, eachLine_cons_eq_ok_iff.mpr ⟨_, hline', hrest'⟩⟩

/-- The memory has the existing segments, and a region of zero words under its name. -/
structure Owns (segments : Segments) (region : Nat) (name : String) (cells : Nat)
    (m : Memory) :
    Prop where
  segments : m.segments = segments.existing
  owned : m.regions[region]? = some ⟨name, .owned { cells }⟩
  index : m.regionIndex? name = some region

/-- One line declares a private region of `size` cells, and the other a region of the
same name on the segment at `index`, in cells of eight bytes. -/
structure Exchanges (segments : Segments) (name : String) (size index : Nat)
    (line line' : Line) :
    Prop where
  owned : ∃ cells, line.words = ["local", name, cells] ∧ unsigned cells = .ok size
  shared : ∃ seg, line'.words = ["shm", seg, name, "8"] ∧
    segments.existing.findIdx? (·.name == seg) = some index

/-- The tags of all variables of a region name encodings that are wider than a bit. -/
def PlainTags (name : String) (lines : List Line) : Prop :=
  ∀ line ∈ lines, ∀ address tag v, line.words = [address, tag, v] →
    Draft.PlainTag name address tag

variable {segments : Segments} {region index size : Nat} {name : String}

theorem Owns.declareMemory {refusal : Refusal} {d d' : Draft} {line : Line}
    (hd : Owns segments region name size d.program.memory)
    (h : d.declareMemory refusal line = .ok d') :
    Owns segments region name size d'.program.memory ∧
      (d.onSegment region index).declareMemory refusal line =
        .ok (d'.onSegment region index) := by
  obtain ⟨hlt, _⟩ := Array.getElem?_eq_some_iff.mp hd.owned
  refine ⟨?_, Draft.declareMemory_onSegment hlt h⟩
  obtain ⟨other, storage, _, rfl⟩ := Draft.declareMemory_cases h
  refine ⟨hd.segments, ?_, Memory.regionIndex?_push hd.index⟩
  exact (Array.getElem?_push_lt hlt).trans (Array.getElem?_eq_getElem hlt ▸ hd.owned)

theorem declareLine_replaced {refusal : Refusal} {d d' : Draft} {line line' : Line}
    (hsegments : d.program.memory.segments = segments.existing)
    (hlines : Exchanges segments name size index line line')
    (h : d.declareMemory refusal line = .ok d') :
    ∃ region, Owns segments region name size d'.program.memory ∧
      d.declareMemory refusal line' = .ok (d'.onSegment region index) := by
  obtain ⟨⟨cells, hwords, hsize⟩, seg, hwords', hindex⟩ := hlines
  rw [Draft.declareMemory, hwords] at h
  obtain ⟨_, hcheck, h⟩ := bind_eq_ok_iff.mp h
  obtain ⟨_, hcells, h⟩ := bind_eq_ok_iff.mp h
  rw [hsize] at hcells
  cases hcells
  unfold Words.zeros? at h
  split_ifs at h
  cases h
  refine ⟨d.program.memory.regions.size, ⟨hsegments, Array.getElem?_push_size, ?_⟩, ?_⟩
  · apply Memory.regionIndex?_push_self
    unfold Draft.checkNewRegion at hcheck
    split_ifs at hcheck with hsome
    simpa using hsome
  · have hsegment : d.program.memory.segmentIndex? seg = some index := by
      rw [Memory.segmentIndex?, hsegments, hindex]
    rw [Draft.declareMemory, hwords', Draft.addRegion_onSegment_self]
    refine bind_eq_ok_iff.mpr ⟨_, hcheck, bind_eq_ok_iff.mpr ⟨8, rfl,
      bind_eq_ok_iff.mpr ⟨(), rfl, ?_⟩⟩⟩
    rw [hsegment]
    rfl

theorem declareMemory_replaced {d₀ d : Draft} {before after : List Line}
    {line line' : Line}
    (hsegments : d₀.program.memory.segments = segments.existing)
    (hlines : Exchanges segments name size index line line')
    (h : eachLine (Draft.declareMemory segments.refusal) d₀ (before ++ line :: after) =
      .ok d) :
    ∃ region, Owns segments region name size d.program.memory ∧
      eachLine (Draft.declareMemory segments.refusal) d₀ (before ++ line' :: after) =
        .ok (d.onSegment region index) := by
  obtain ⟨d₁, hbefore, h⟩ := eachLine_append_eq_ok_iff.mp h
  obtain ⟨d₂, hline, hafter⟩ := eachLine_cons_eq_ok_iff.mp h
  have hsegments₁ : d₁.program.memory.segments = segments.existing := by
    refine foldlM_invariant (fun d => d.program.memory.segments = segments.existing)
      ?_ hsegments
      hbefore
    intro s a t hs hstep
    obtain ⟨_, _, _, rfl⟩ := Draft.declareMemory_cases (mapError_eq_ok_iff.mp hstep)
    exact hs
  obtain ⟨region, howns, hline'⟩ := declareLine_replaced hsegments₁ hlines hline
  obtain ⟨hd, hafter'⟩ := eachLine_map (P := fun d =>
    Owns segments region name size d.program.memory)
    (fun _ _ _ _ hs hstep => hs.declareMemory hstep) howns hafter
  exact ⟨region, hd, eachLine_append_eq_ok_iff.mpr ⟨d₁, hbefore,
    eachLine_cons_eq_ok_iff.mpr ⟨_, hline', hafter'⟩⟩⟩

/-- The drafts that a memory leads to, with the variables of one region wider than a
bit. -/
def Fills (m : Memory) (region : Nat) (d : Draft) : Prop :=
  d.program.memory = m ∧ d.PlainIn region

theorem Fills.declare {m : Memory} {d d' : Draft} {line : Line}
    (howns : Owns segments region name size m)
    (htag : ∀ address tag v, line.words = [address, tag, v] →
      Draft.PlainTag name address tag)
    (hd : Fills m region d) (h : d.declare line = .ok d') :
    Fills m region d' ∧
      (d.onSegment region index).declare line = .ok (d'.onSegment region index) := by
  obtain ⟨rfl, hplain⟩ := hd
  obtain ⟨h', hplain'⟩ := Draft.declare_onSegment howns.owned htag hplain h
  exact ⟨⟨Draft.memory_of_declare h, hplain'⟩, h'⟩

theorem Fills.addInit {m : Memory} {d d' : Draft} {line : Line} (hd : Fills m region d)
    (h : d.addInit line = .ok d') :
    Fills m region d' ∧
      (d.onSegment region index).addInit line = .ok (d'.onSegment region index) :=
  ⟨⟨(Draft.memory_of_addInit h).trans hd.1, hd.2.addInit h⟩, Draft.addInit_onSegment h⟩

section

variable {before after : List Placed} {line line' : Line}

theorem linesOf_replaced_of_ne (header : Header) (h : header ≠ .memory)
    (line line' : Line) :
    linesOf (before ++ ⟨.memory, line'⟩ :: after) header =
      linesOf (before ++ ⟨.memory, line⟩ :: after) header := by
  simp [linesOf, Ne.symm h]

theorem linesOf_replaced :
    linesOf (before ++ ⟨.memory, line⟩ :: after) .memory =
      linesOf before .memory ++ line :: linesOf after .memory := by
  simp [linesOf]

theorem draft_replaced {d : Draft}
    (hlines : Exchanges segments name size index line line')
    (htags : PlainTags name (linesOf (before ++ ⟨.memory, line⟩ :: after) .vars))
    (h : draft segments (before ++ ⟨.memory, line⟩ :: after) = .ok d) :
    ∃ region, Owns segments region name size d.program.memory ∧ d.PlainIn region ∧
      draft segments (before ++ ⟨.memory, line'⟩ :: after) =
        .ok (d.onSegment region index) := by
  obtain ⟨settings, hsettings, h⟩ := bind_eq_ok_iff.mp h
  obtain ⟨d₁, hmemory, h⟩ := bind_eq_ok_iff.mp h
  obtain ⟨d₂, hvars, hinits⟩ := bind_eq_ok_iff.mp h
  have hempty : d₁.program.vars = #[] := by
    refine foldlM_invariant (fun d : Draft => d.program.vars = #[]) ?_ rfl hmemory
    intro s a t hs hstep
    obtain ⟨_, _, _, rfl⟩ := Draft.declareMemory_cases (mapError_eq_ok_iff.mp hstep)
    exact hs
  rw [linesOf_replaced] at hmemory
  obtain ⟨region, howns, hmemory'⟩ := declareMemory_replaced rfl hlines hmemory
  have hstart : Fills d₁.program.memory region d₁ :=
    ⟨rfl, by simp [Draft.PlainIn, hempty]⟩
  obtain ⟨hd₂, hvars'⟩ := eachLine_map (g := (·.onSegment region index))
    (fun _ _ other hother hs hstep => hs.declare howns (htags other hother) hstep)
    hstart hvars
  obtain ⟨⟨hd, hplain⟩, hinits'⟩ := eachLine_map (g := (·.onSegment region index))
    (fun _ _ _ _ hs hstep => hs.addInit hstep) hd₂ hinits
  refine ⟨region, hd ▸ howns, hplain, ?_⟩
  refine bind_eq_ok_iff.mpr ⟨settings, ?_,
    bind_eq_ok_iff.mpr ⟨d₁.onSegment region index, ?_,
    bind_eq_ok_iff.mpr ⟨d₂.onSegment region index, ?_, ?_⟩⟩⟩
  · rw [linesOf_replaced_of_ne .settings (by decide) line line']
    exact hsettings
  · rw [linesOf_replaced]
    exact hmemory'
  · rw [linesOf_replaced_of_ne .vars (by decide) line line']
    exact hvars'
  · rw [linesOf_replaced_of_ne .inits (by decide) line line']
    exact hinits'

/-- The program of a text in which a private region has been replaced by a shared
one. -/
theorem interpret_replaced {program : Program}
    (hlines : Exchanges segments name size index line line')
    (htags : PlainTags name (linesOf (before ++ ⟨.memory, line⟩ :: after) .vars))
    (h : interpret segments (before ++ ⟨.memory, line⟩ :: after) = .ok program) :
    ∃ region, Owns segments region name size program.memory ∧
      (∀ v ∈ program.vars, v.region = region → v.encoding.isBit = false ∧
        v.subIndex = none) ∧
      interpret segments (before ++ ⟨.memory, line'⟩ :: after) =
        .ok { program with memory := program.memory.onSegment region index } := by
  obtain ⟨d, hdraft, h⟩ := bind_eq_ok_iff.mp h
  obtain ⟨constants, hconstants, h⟩ := bind_eq_ok_iff.mp h
  obtain ⟨⟨code, labels⟩, hassemble, h⟩ := bind_eq_ok_iff.mp h
  cases h
  obtain ⟨region, howns, hplain, hdraft'⟩ := draft_replaced hlines htags hdraft
  refine ⟨region, howns, ?_, bind_eq_ok_iff.mpr ⟨_, hdraft', bind_eq_ok_iff.mpr
    ⟨constants, hconstants, bind_eq_ok_iff.mpr ⟨(code, labels), ?_, rfl⟩⟩⟩⟩
  · intro v hv hregion
    have hfits := (sound_of_draft hdraft).fits v hv
    simp only [Memory.Fits, hregion, howns.owned] at hfits
    exact ⟨hplain v hv hregion, hfits⟩
  · rw [linesOf_replaced_of_ne .program (by decide) line line']
    exact hassemble

end

/-- A text with the line replaced loads as the program with the region on the
segment. -/
theorem load_replaced {text text' : String} {program : Program} {placed : List Placed}
    {line : Line} {raw : List Char} {first : Token} {more : List Token}
    (hload : load segments text = .ok program)
    (hplaced : sections text.toList = .ok placed) (hline : ⟨.memory, line⟩ ∈ placed)
    (hraw : tokenize raw = .ok (first :: more))
    (hlines : Exchanges segments name size index line ⟨line.number, first, more⟩)
    (htags : PlainTags name (linesOf placed .vars))
    (htext' : lines text'.toList = (lines text.toList).set (line.number - 1) raw) :
    ∃ region, Owns segments region name size program.memory ∧
      (∀ v ∈ program.vars, v.region = region → v.encoding.isBit = false ∧
        v.subIndex = none) ∧
      load segments text' =
        .ok { program with memory := program.memory.onSegment region index } := by
  have hcontent : ∀ other, first :: more ≠ [.header other] := by
    intro other heq
    obtain ⟨_, hwords, _⟩ := hlines.shared
    cases heq
    simp [Line.words, Line.tokens] at hwords
  obtain ⟨_, before, after, rfl, hplaced'⟩ := placeFrom_set hplaced hline hraw hcontent
  have hinterpret : interpret segments (before ++ ⟨.memory, line⟩ :: after) =
      .ok program := by
    obtain ⟨placed, hsections, h⟩ := bind_eq_ok_iff.mp hload
    rw [hplaced] at hsections
    cases hsections
    exact h
  obtain ⟨region, howns, hplain, hinterpret'⟩ :=
    interpret_replaced hlines htags hinterpret
  refine ⟨region, howns, hplain, bind_eq_ok_iff.mpr ⟨_, ?_, hinterpret'⟩⟩
  rw [sections, htext']
  exact hplaced'

end Load

open Text Load Machine

/-- A private region can be replaced by a shared one.  In a text that loads, the line
that declares a private region of `size` cells is replaced by one that declares a region
of the same name on a segment of `8 * size` zero bytes, which no other region uses.  No
two variables of the region have the same cell, and the tags of its variables name
encodings wider than a bit.  Then the text loads as before, with the region on the
segment and all else unchanged.  Machines for the two programs are made alike, and after
any number of cycles nothing tells them apart: neither stack, host, instruction pointer
and variables, nor what the next cycle returns. -/
theorem private_region_can_be_shared {segments : Segments} {text text' : String}
    {program : Program}
    {placed : List Placed} {line : Line} {raw : List Char} {tokens : List Token}
    {name cells seg : String} {size index : Nat}
    (hload : load segments text = .ok program)
    (hplaced : sections text.toList = .ok placed)
    (hline : ⟨.memory, line⟩ ∈ placed) (hwords : line.words = ["local", name, cells])
    (hsize : unsigned cells = .ok size)
    (hapart : ∀ v ∈ program.vars, ∀ w ∈ program.vars,
      program.memory.regionIndex? name = some v.region → w.region = v.region →
        w.cell = v.cell → w = v)
    (htags : ∀ other ∈ linesOf placed .vars, ∀ address tag v,
      other.words = [address, tag, v] →
      Draft.PlainTag name address tag)
    (hindex : segments.existing.findIdx? (·.name == seg) = some index)
    (hzeros : segments.existing[index]? = some ⟨seg, List.replicate (8 * size) 0⟩)
    (hunused : program.memory.Unused index)
    (htokens : tokenize raw = .ok tokens)
    (hwords' : tokens.map Token.text = ["shm", seg, name, "8"])
    (htext' : lines text'.toList = (lines text.toList).set (line.number - 1) raw) :
    ∃ region, program.memory.regionIndex? name = some region ∧
      load segments text' =
        .ok { program with memory := program.memory.onSegment region index } ∧
      ∀ config host,
        Alike
          (fun m m' => ∀ fuels : List Nat,
            let a := fuels.foldl (fun m fuel => m.after (.run fuel)) m
            let a' := fuels.foldl (fun m fuel => m.after (.run fuel)) m'
            Indistinguishable a a' ∧
              ∀ fuel, Action.SameOutcome Indistinguishable (run fuel a) (run fuel a'))
          Eq (Machine.new program config host)
          (Machine.new { program with
            memory := program.memory.onSegment region index } config
            host) := by
  obtain ⟨first, more, rfl⟩ : ∃ first more, tokens = first :: more := by
    cases tokens with
    | nil => cases hwords'
    | cons first more => exact ⟨first, more, rfl⟩
  obtain ⟨region, howns, hplain, hload'⟩ := load_replaced hload hplaced hline htokens
    ⟨⟨cells, hwords, hsize⟩, seg, hwords', hindex⟩ htags htext'
  have hbytes : program.memory.segmentBytes index = List.replicate (8 * size) 0 := by
    rw [Memory.segmentBytes, howns.segments, hzeros]
  have hmirrors := Program.mirrors_of_zeros howns.owned hunused hbytes
    (fun v hv w hw hregion hregion' hcell =>
      hapart v hv w hw (hregion ▸ howns.index) (hregion'.trans hregion.symm) hcell)
    hplain
  exact ⟨region, howns.index, hload',
    new_runAlike (Program.simulation_mirrors region index) hmirrors⟩

/-- Three variables of different encodings, the last of them outside the region: the
cycle copies a value from one to the other and fails at the third, in both programs at
the same cell of as many cells. -/
theorem private_region_can_be_shared_three_variables :
    let segments : Segments := .ofList [⟨"seg", List.replicate 16 0⟩]
    let rest :=
      "\n__VAR\nm@0 be16 x\nm@1 le32r y\nm@2 byte z\n__INIT\nx 65537\n__PROGRAM\n" ++
      "PUSH x\nPOP y\nPUSH z"
    ∃ program region, load segments ("__MEM\nlocal m 2" ++ rest) = .ok program ∧
      load segments ("__MEM\nshm seg m 8" ++ rest) =
        .ok { program with memory := program.memory.onSegment region 0 } ∧
      ∃ m n m' n', Machine.new program {} {} = .ok m ∧
        Machine.new { program with memory := program.memory.onSegment region 0 } {} {} =
          .ok n ∧
        run 9 m = .error (.atInstruction 2 "PUSH z" (.cellOutOfRange 2 2)) m' ∧
        run 9 n = .error (.atInstruction 2 "PUSH z" (.cellOutOfRange 2 2)) n' ∧
        m'.program.load 1 = .ok 1 ∧ Indistinguishable m' n' := by
  intro segments rest
  let program : Program :=
    { memory :=
        { segments := #[⟨"seg", List.replicate 16 0⟩]
          regions := #[⟨"m", .owned { cells := 2 }⟩] }
      vars :=
        #[{ name := "x", region := 0, encoding := .be16, cell := 0,
            init := some 65537 },
          { name := "y", region := 0, encoding := .le32r, cell := 1 },
          { name := "z", region := 0, encoding := .byte, cell := 2 }]
      code := #[.pushVar 0, .popVar 1, .pushVar 2, .halt] }
  let line : Line := ⟨2, .word "local", [.word "m", .word "2"]⟩
  let placed : List Placed :=
    [⟨.memory, line⟩, ⟨.vars, 4, .word "m@0", [.word "be16", .word "x"]⟩,
      ⟨.vars, 5, .word "m@1", [.word "le32r", .word "y"]⟩,
      ⟨.vars, 6, .word "m@2", [.word "byte", .word "z"]⟩,
      ⟨.inits, 8, .word "x", [.word "65537"]⟩,
        ⟨.program, 10, .word "PUSH", [.word "x"]⟩,
      ⟨.program, 11, .word "POP", [.word "y"]⟩,
        ⟨.program, 12, .word "PUSH", [.word "z"]⟩]
  have hload : load segments ("__MEM\nlocal m 2" ++ rest) = .ok program := by
    decide +kernel
  have hplaced : sections ("__MEM\nlocal m 2" ++ rest).toList = .ok placed := by
    decide +kernel
  have hwords : line.words = ["local", "m", "2"] := by decide +kernel
  have hapart : ∀ v ∈ program.vars, ∀ w ∈ program.vars,
      program.memory.regionIndex? "m" = some v.region → w.region = v.region →
        w.cell = v.cell →
        w = v := by
    decide +kernel
  have htags : ∀ other ∈ linesOf placed .vars, ∀ address tag v,
      other.words = [address, tag, v] →
        Draft.PlainTag "m" address tag := by
    have hvars : linesOf placed .vars =
        [⟨4, .word "m@0", [.word "be16", .word "x"]⟩,
         ⟨5, .word "m@1", [.word "le32r", .word "y"]⟩,
          ⟨6, .word "m@2", [.word "byte", .word "z"]⟩] := by decide +kernel
    rw [hvars]
    intro other hother address tag v hwords _ _ _
    simp only [List.mem_cons, List.not_mem_nil, or_false] at hother
    rcases hother with rfl | rfl | rfl
    · cases hwords
      exact ⟨.be16, by decide, rfl⟩
    · cases hwords
      exact ⟨.le32r, by decide, rfl⟩
    · cases hwords
      exact ⟨.byte, by decide, rfl⟩
  have htext : lines ("__MEM\nshm seg m 8" ++ rest).toList =
      (lines ("__MEM\nlocal m 2" ++ rest).toList).set
        (line.number - 1) "shm seg m 8".toList := by
    decide +kernel
  have htokens : tokenize "shm seg m 8".toList =
      .ok [.word "shm", .word "seg", .word "m", .word "8"] := by decide
  have hwords' : [Token.word "shm", .word "seg", .word "m", .word "8"].map Token.text =
      ["shm", "seg", "m", "8"] := by decide
  have hindex : segments.existing.findIdx? (·.name == "seg") = some 0 := by
    decide +kernel
  have hzeros : segments.existing[0]? = some ⟨"seg", List.replicate (8 * 2) 0⟩ := rfl
  have hunused : program.memory.Unused 0 := by
    intro r hr
    obtain rfl : r = ⟨"m", .owned { cells := 2 }⟩ := by simpa [program] using hr
    exact nofun
  obtain ⟨region, _, hload', halike⟩ := private_region_can_be_shared hload hplaced
    List.mem_cons_self hwords (by decide +kernel) hapart htags hindex hzeros hunused
    htokens hwords' htext
  let m : Machine := { program, stack := { capacity := 32 }, host := {}, config := {} }
  let n : Machine :=
    { m with program := { program with memory := program.memory.onSegment region 0 } }
  have hnew : Machine.new program {} {} = .ok m := rfl
  have hnew' : Machine.new n.program {} {} = .ok n := rfl
  have hview :
      (match run 9 m with
        | .error failure m' => some (failure, m'.program.load 1)
        | .ok _ _ => none) =
        some (.atInstruction 2 "PUSH z" (.cellOutOfRange 2 2), .ok 1) := by
    decide +kernel
  split at hview
  · next failure m' hrun =>
    obtain ⟨rfl, hvalue⟩ := by simpa using hview
    obtain ⟨hruns⟩ : Alike _ _ (.ok m) (.ok n) := halike {} {}
    rcases ((hruns []).2 9).ok_or_error with ⟨_, _, _, hok, _⟩ |
      ⟨_, _, n', herror, herror', hlike⟩
    · cases hrun.symm.trans hok
    · cases hrun.symm.trans herror
      exact ⟨program, region, hload, hload', m, n, m', n', hnew, hnew', hrun, herror',
        hvalue, hlike⟩
  · cases hview

end CyclicStack
