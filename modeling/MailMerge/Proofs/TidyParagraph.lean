import MailMerge.Merge.Substitution
import MailMerge.Proofs.DataText
import MailMerge.Proofs.Remains
import MailMerge.Proofs.Tidy

/-!
# Tidy Paragraphs

What both passes do to a paragraph with a tidy text, before it comes to splitting. The
table pass takes literals out of it, the content pass replaces literals by texts of the
data. In segments these are the same thing: the markers with these literals go, all
other markers stay where they are, and nothing new comes to be a marker as long as
what is put in has no `<`.

A text that is blank after a literal was taken out is dropped altogether. No marker goes
with it, since a marker is not blank.

## Main definitions

* `ReadsAs`: A text with its segments.
* `asked`, `literals`: The markers among segments.
* `markersIn`, `IsTidyBody`: The markers of a body, and a body of tidy texts.

## Theorems

* `ReadsAs.map_scan`, `ReadsAs.hasMarkers_eq_false_iff`: Which markers a text holds.
* `asked_putAll`: What replacing a literal does to the markers.
* `ReadsAs.eraseLiterals`, `ReadsAs.substituteText`: The same for both passes.
* `ReadsAs.substitute`: A paragraph with its content in place.
* `TablePass.exists_readsAs_run`: The paragraphs that the table pass leaves.
-/

namespace MailMerge

open Text (isBlank)

/-- A text that is a row of valid segments. -/
structure ReadsAs (text : String) (l : List Segment) : Prop where
  valid : AllValid l
  text_eq : text.toList = render l

/-- The literal of a marker. -/
def Segment.literal? : Segment → Option String
  | .plain _ => none
  | .marker _ literal _ => some (String.ofList literal)

/-- The literals and paths of the markers of a kind among segments. -/
def asked (kind : Marker.Kind) (l : List Segment) : List (String × String) :=
  l.filterMap (Segment.asked? kind)

/-- The literals of all markers among segments. -/
def literals (l : List Segment) : List String := l.filterMap Segment.literal?

-- A literal tells the kind of its marker, as no text is recognised as both.
theorem Marker.IsLiteral.kind_eq {kind kind' : Marker.Kind} {literal path path' : List Char}
    (h : Marker.IsLiteral kind literal path) (h' : Marker.IsLiteral kind' literal path') :
    kind = kind' := by
  by_contra hne
  have hsome := Marker.recognise_append h' []
  rw [Marker.recognise_eq_none_of_isLiteral h hne] at hsome
  exact absurd hsome (by simp only [reduceCtorEq, not_false_eq_true])

theorem readsAs_plains {text : String} (h : '<' ∉ text.toList) :
    ReadsAs text (plains text.toList) :=
  ⟨allValid_plains h, (render_plains text.toList).symm⟩

theorem IsTidy.exists_readsAs {text : String} (h : IsTidy text) : ∃ l, ReadsAs text l := by
  rcases h.exists_segments with ⟨l, hvalid, htext⟩
  exact ⟨l, hvalid, htext⟩

theorem asked_plains (kind : Marker.Kind) (t : List Char) : asked kind (plains t) = [] := by
  rw [asked, List.filterMap_eq_nil_iff]
  intro s hs
  rcases List.mem_map.mp hs with ⟨c, _, rfl⟩
  rfl

theorem literals_plains (t : List Char) : literals (plains t) = [] := by
  rw [literals, List.filterMap_eq_nil_iff]
  intro s hs
  rcases List.mem_map.mp hs with ⟨c, _, rfl⟩
  rfl

/-! ### Markers of a text -/

theorem asked_marker_cons_of_eq {kind kind' : Marker.Kind} (h : kind' = kind)
    (literal path : List Char) (l : List Segment) :
    asked kind (.marker kind' literal path :: l) =
      (String.ofList literal, String.ofList path) :: asked kind l := by
  rw [asked, List.filterMap_cons, Segment.asked?, Segment.path?, if_pos h]
  rfl

theorem asked_marker_cons_of_ne {kind kind' : Marker.Kind} (h : kind' ≠ kind)
    (literal path : List Char) (l : List Segment) :
    asked kind (.marker kind' literal path :: l) = asked kind l := by
  rw [asked, List.filterMap_cons, Segment.asked?, Segment.path?, if_neg h]
  rfl

/-- A marker that is asked for is a segment. -/
theorem mem_asked_iff {kind : Marker.Kind} {l : List Segment} {a : String × String} :
    a ∈ asked kind l ↔ Segment.marker kind a.1.toList a.2.toList ∈ l := by
  rw [asked, List.mem_filterMap]
  constructor
  · intro h
    rcases h with ⟨s, hs, ha⟩
    cases s with
    | plain c => exact absurd ha (by simp only [Segment.asked?, Segment.path?, Option.map_none,
        reduceCtorEq, not_false_eq_true])
    | marker kind' literal path =>
        by_cases hkind : kind' = kind
        · rw [Segment.asked?, Segment.path?, if_pos hkind, Option.map_some, Option.some.injEq] at ha
          subst ha
          rw [String.toList_ofList, String.toList_ofList, ← hkind]
          exact hs
        · rw [Segment.asked?, Segment.path?, if_neg hkind] at ha
          exact absurd ha (by simp only [Option.map_none, reduceCtorEq, not_false_eq_true])
  · intro h
    refine ⟨_, h, ?_⟩
    rw [Segment.asked?, Segment.path?, if_pos rfl, Option.map_some, Segment.text,
      String.ofList_toList, String.ofList_toList]

/-- Without markers of either kind there are no literals. -/
theorem literals_eq_nil_iff {l : List Segment} :
    literals l = [] ↔ ∀ kind, asked kind l = [] := by
  simp only [literals, asked, List.filterMap_eq_nil_iff]
  constructor
  · intro h kind s hs
    cases s with
    | plain c => rfl
    | marker kind' literal path => exact absurd (h _ hs) (by simp only [Segment.literal?,
        reduceCtorEq, not_false_eq_true])
  · intro h s hs
    cases s with
    | plain c => rfl
    | marker kind' literal path =>
        have hnone := h kind' _ hs
        rw [Segment.asked?, Segment.path?, if_pos rfl] at hnone
        exact absurd hnone (by simp only [Option.map_some, reduceCtorEq, not_false_eq_true])

-- With the markers of one kind gone, the literals are those of the other.
theorem map_fst_asked {l : List Segment} (h : asked .content l = []) :
    (asked .table l).map Prod.fst = literals l := by
  induction l with
  | nil => rfl
  | cons s l ih =>
      cases s with
      | plain c => exact ih h
      | marker kind literal path =>
          cases kind with
          | content => exact absurd h (List.cons_ne_nil _ _)
          | table => exact congrArg (List.cons (String.ofList literal)) (ih h)

namespace ReadsAs

variable {text : String} {l : List Segment}

/-- A scan gives what is asked for among the segments. -/
theorem map_scan (h : ReadsAs text l) (kind : Marker.Kind) :
    (scan kind text).map (fun m => (m.literal, m.path)) = asked kind l :=
  scan_render h.valid h.text_eq kind

theorem map_literal_scan (h : ReadsAs text l) (kind : Marker.Kind) :
    (scan kind text).map Marker.literal = (asked kind l).map Prod.fst := by
  rw [← h.map_scan kind, List.map_map]
  rfl

theorem mem_asked_of_mem_scan (h : ReadsAs text l) {kind : Marker.Kind} {m : Marker}
    (hm : m ∈ scan kind text) : (m.literal, m.path) ∈ asked kind l := by
  rw [← h.map_scan kind]
  exact List.mem_map_of_mem hm

/-- What a scan finds is a literal. -/
theorem isLiteral_of_mem_scan (h : ReadsAs text l) {kind : Marker.Kind} {m : Marker}
    (hm : m ∈ scan kind text) : Marker.IsLiteral kind m.literal.toList m.path.toList :=
  (h.valid _ (mem_asked_iff.mp (h.mem_asked_of_mem_scan hm))).1

theorem hasMarkers_eq_false_iff (h : ReadsAs text l) :
    hasMarkers text = false ↔ literals l = [] := by
  have hscan : ∀ kind, scan kind text = [] ↔ asked kind l = [] := by
    intro kind
    rw [← h.map_scan kind, List.map_eq_nil_iff]
  rw [MailMerge.hasMarkers_eq_false_iff, hscan, hscan, literals_eq_nil_iff]
  constructor
  · intro hboth kind
    cases kind with
    | content => exact hboth.1
    | table => exact hboth.2
  · intro hall
    exact ⟨hall .content, hall .table⟩

end ReadsAs

/-- A marker is not blank. -/
theorem literals_eq_nil_of_isBlank {l : List Segment} (hvalid : AllValid l)
    (h : (render l).all isBlank = true) : literals l = [] := by
  rw [literals, List.filterMap_eq_nil_iff]
  intro s hs
  cases s with
  | plain c => rfl
  | marker kind literal path =>
      rcases (hvalid _ hs).1.exists_cons with ⟨behind, rfl⟩
      have hmem : '<' ∈ render l :=
        List.mem_flatMap.mpr ⟨_, hs, List.mem_cons_self⟩
      exact absurd (List.all_eq_true.mp h '<' hmem) (by decide)

/-! ### Markers that go -/

/-- Replacing a literal by a text takes away the markers with that literal. -/
theorem asked_putAll (kind : Marker.Kind) (literal : String) (value : List Char)
    (l : List Segment) : asked kind (putAll literal.toList value l) =
      (asked kind l).filter fun a => a.1 ≠ literal := by
  induction l with
  | nil => rfl
  | cons s l ih =>
      have happend : asked kind (putAll literal.toList value (s :: l)) =
          asked kind (Segment.put literal.toList value s) ++
            asked kind (putAll literal.toList value l) := by
        rw [putAll, List.flatMap_cons, asked, List.filterMap_append]
        rfl
      rw [happend, ih]
      cases s with
      | plain c => rfl
      | marker kind' literal' path =>
          -- The marker goes if it has the literal, and is asked for if it is of the kind.
          by_cases hsame : literal' = literal.toList
          · rw [Segment.put, if_pos hsame, asked_plains, List.nil_append]
            by_cases hkind : kind' = kind
            · rw [asked_marker_cons_of_eq hkind, hsame, String.ofList_toList,
                List.filter_cons_of_neg (by simp only [ne_eq, not_true_eq_false, decide_false,
                  Bool.false_eq_true, not_false_eq_true])]
            · rw [asked_marker_cons_of_ne hkind]
          · have hne : String.ofList literal' ≠ literal := by
              intro heq
              rw [← heq, String.toList_ofList] at hsame
              exact hsame rfl
            rw [Segment.put, if_neg hsame]
            by_cases hkind : kind' = kind
            · rw [asked_marker_cons_of_eq hkind, asked_marker_cons_of_eq hkind,
                List.filter_cons_of_pos (by simpa only [ne_eq, decide_eq_true_eq] using hne)]
              rfl
            · rw [asked_marker_cons_of_ne hkind, asked_marker_cons_of_ne hkind]
              rfl

-- Taking away one literal and then others is taking away all of them.
theorem filter_notMem_cons (literal : String) (rest : List String) (l : List (String × String)) :
    (l.filter fun a => a.1 ≠ literal).filter (fun a => a.1 ∉ rest) =
      l.filter fun a => a.1 ∉ literal :: rest := by
  rw [List.filter_filter]
  refine List.filter_congr fun a _ => ?_
  simp only [List.mem_cons, not_or, Bool.decide_and, ne_eq, Bool.and_comm]

theorem text_eraseLiteral (literal : String) (p : Paragraph) : (eraseLiteral literal p).text =
    if Text.isBlankText (Text.replaceAll literal "" p.text) then ""
    else Text.replaceAll literal "" p.text := by
  unfold eraseLiteral
  by_cases hblank : Text.isBlankText (Text.replaceAll literal "" p.text) = true
  · simp only [hblank, if_true, Paragraph.text_clearRuns]
  · simp only [hblank, Bool.false_eq_true, if_false, Paragraph.text_setText]

namespace ReadsAs

variable {text : String} {l : List Segment}

theorem replaceAll (h : ReadsAs text l) {kind : Marker.Kind} {literal : String}
    {path : List Char} (hliteral : Marker.IsLiteral kind literal.toList path) {value : String}
    (hvalue : '<' ∉ value.toList) :
    ReadsAs (Text.replaceAll literal value text) (putAll literal.toList value.toList l) := by
  refine ⟨allValid_putAll hvalue h.valid, ?_⟩
  have hreplace := replaceAll_render hliteral h.valid h.text_eq value
  rwa [String.ofList_toList] at hreplace

/-- Taking a literal out of a paragraph takes away the markers with that literal. -/
theorem eraseLiteral {p : Paragraph} (h : ReadsAs p.text l) {kind : Marker.Kind}
    {literal : String} {path : List Char}
    (hliteral : Marker.IsLiteral kind literal.toList path) :
    ∃ l', ReadsAs (eraseLiteral literal p).text l' ∧
      ∀ kind, asked kind l' = (asked kind l).filter fun a => a.1 ≠ literal := by
  have hempty : '<' ∉ "".toList := List.not_mem_nil
  have hput := h.replaceAll hliteral hempty
  rw [text_eraseLiteral]
  by_cases hblank : Text.isBlankText (Text.replaceAll literal "" p.text) = true
  · -- What is left is dropped, and has no markers.
    rw [if_pos hblank]
    refine ⟨[], ?_, fun kind => ?_⟩
    · exact ⟨fun _ hs => absurd hs List.not_mem_nil, rfl⟩
    · have hnone := literals_eq_nil_of_isBlank hput.valid (by rw [← hput.text_eq]; exact hblank)
      rw [← asked_putAll kind literal "".toList l]
      exact (literals_eq_nil_iff.mp hnone kind).symm
  · rw [if_neg hblank]
    exact ⟨_, hput, fun kind => asked_putAll kind literal "".toList l⟩

/-- Taking some literals out of a paragraph takes away the markers with these literals. -/
theorem eraseLiterals {p : Paragraph} (h : ReadsAs p.text l) {erased : List String}
    (hliteral : ∀ literal ∈ erased, ∃ kind path, Marker.IsLiteral kind literal.toList path) :
    ∃ l', ReadsAs (eraseLiterals erased p).text l' ∧
      ∀ kind, asked kind l' = (asked kind l).filter fun a => a.1 ∉ erased := by
  induction erased generalizing p l with
  | nil =>
      refine ⟨l, h, fun kind => ?_⟩
      simp only [List.not_mem_nil, not_false_eq_true, decide_true, List.filter_true]
  | cons literal rest ih =>
      rcases hliteral literal List.mem_cons_self with ⟨kind, path, hfirst⟩
      rcases h.eraseLiteral hfirst with ⟨l₁, h₁, hasked₁⟩
      have hrest := ih h₁ fun x hx => hliteral x (List.mem_cons_of_mem literal hx)
      rcases hrest with ⟨l', h', hasked⟩
      rw [eraseLiterals_cons]
      refine ⟨l', h', fun kind => ?_⟩
      rw [hasked, hasked₁, filter_notMem_cons]

/-- Replacing the literals of some markers by texts takes away the markers with these
    literals. -/
theorem substituteText {data : Element} (h : ReadsAs text l) {markers : List Marker}
    (hliteral : ∀ m ∈ markers, ∃ kind path, Marker.IsLiteral kind m.literal.toList path)
    (hdata : ∀ m ∈ markers, '<' ∉ (data.textAt m.path).toList) :
    ∃ l', ReadsAs (substituteText data markers text) l' ∧
      ∀ kind, asked kind l' = (asked kind l).filter fun a => a.1 ∉ markers.map Marker.literal := by
  induction markers generalizing text l with
  | nil =>
      refine ⟨l, h, fun kind => ?_⟩
      simp only [List.map_nil, List.not_mem_nil, not_false_eq_true, decide_true, List.filter_true]
  | cons m rest ih =>
      rcases hliteral m List.mem_cons_self with ⟨kind, path, hfirst⟩
      have hput := h.replaceAll hfirst (hdata m List.mem_cons_self)
      have hrest := ih hput (fun x hx => hliteral x (List.mem_cons_of_mem m hx))
        fun x hx => hdata x (List.mem_cons_of_mem m hx)
      rcases hrest with ⟨l', h', hasked⟩
      refine ⟨l', h', fun kind => ?_⟩
      rw [hasked, asked_putAll, filter_notMem_cons, List.map_cons]

end ReadsAs

/-- Each literal of some markers is kept. -/
theorem Marker.mem_literal_distinct_iff {l : List Marker} {literal : String} :
    literal ∈ (Marker.distinct l).map Marker.literal ↔ literal ∈ l.map Marker.literal := by
  rw [map_literal_distinct, List.mem_eraseDups]

/-- With its content in place, a paragraph has its table markers and no others. -/
theorem ReadsAs.substitute {data : Element} {p : Paragraph} {l : List Segment}
    (h : ReadsAs p.text l)
    (hdata : ∀ m ∈ scan .content p.text, '<' ∉ (data.textAt m.path).toList) :
    ∃ l', ReadsAs (substitute data p).value.text l' ∧ asked .content l' = [] ∧
      asked .table l' = asked .table l := by
  cases hscan : scan .content p.text with
  | nil =>
      refine ⟨l, ?_, ?_, rfl⟩
      · rw [substitute_of_scan_eq_nil hscan, Reported.value_pure]
        exact h
      · rw [← h.map_scan, hscan, List.map_nil]
  | cons m rest =>
      rw [hscan] at hdata
      have hmem : ∀ x ∈ Marker.distinct (m :: rest), x ∈ scan .content p.text :=
        fun x hx => hscan ▸ Marker.mem_of_mem_distinct hx
      have hliteral : ∀ x ∈ Marker.distinct (m :: rest),
          ∃ kind path, Marker.IsLiteral kind x.literal.toList path :=
        fun x hx => ⟨_, _, h.isLiteral_of_mem_scan (hmem x hx)⟩
      have hput := h.substituteText hliteral fun x hx => hdata x (Marker.mem_of_mem_distinct hx)
      -- Each literal is replaced once, but wherever it stands.
      have hkept : ∀ literal, literal ∈ (Marker.distinct (m :: rest)).map Marker.literal ↔
          literal ∈ (asked .content l).map Prod.fst := by
        intro literal
        rw [Marker.mem_literal_distinct_iff, ← hscan, h.map_literal_scan]
      rcases hput with ⟨l', h', hasked⟩
      have htext : (MailMerge.substitute data p).value.text =
          MailMerge.substituteText data (Marker.distinct (m :: rest)) p.text := by
        simp only [MailMerge.substitute, hscan, Paragraph.text_setText]
      refine ⟨l', htext ▸ h', ?_, ?_⟩
      · rw [hasked, List.filter_eq_nil_iff]
        intro a ha
        rw [decide_eq_true_eq, not_not, hkept]
        exact List.mem_map_of_mem ha
      · rw [hasked, List.filter_eq_self]
        intro a ha
        rw [decide_eq_true_eq, hkept]
        intro hcontent
        -- A literal of a content marker is no literal of a table marker.
        rcases List.mem_map.mp hcontent with ⟨b, hb, heq⟩
        have htable := (h.valid _ (mem_asked_iff.mp ha)).1
        have hboth := (h.valid _ (mem_asked_iff.mp hb)).1
        rw [heq] at hboth
        exact absurd (htable.kind_eq hboth) (by simp only [reduceCtorEq, not_false_eq_true])

/-! ### After the table pass -/

/-- All markers of a body, at any depth. -/
def markersIn (blocks : List Block) : List Marker :=
  (places blocks).flatMap fun place =>
    ((paragraphAt? blocks place.address).map fun p =>
      scan .content p.text ++ scan .table p.text).getD []

/-- Whether all paragraphs of a body are tidy. -/
def IsTidyBody (blocks : List Block) : Prop :=
  ∀ a p, paragraphAt? blocks a = some p → IsTidy p.text

-- All paragraphs can be gone through, as each of them has a place.
theorem forall_paragraphAt?_iff {blocks : List Block} {P : Address → Paragraph → Prop} :
    (∀ a p, paragraphAt? blocks a = some p → P a p) ↔
      ∀ place ∈ places blocks, ∀ p ∈ paragraphAt? blocks place.address, P place.address p := by
  constructor
  · intro h place _ p hp
    exact h place.address p hp
  · intro h a p hp
    rcases exists_mem_places (paragraphAt?_eq_some_iff.mp hp) with ⟨place, hplace, rfl⟩
    exact h place hplace p hp

theorem isTidyBody_iff {blocks : List Block} : IsTidyBody blocks ↔
    ∀ place ∈ places blocks, ∀ p ∈ paragraphAt? blocks place.address, IsTidy p.text :=
  forall_paragraphAt?_iff

instance (blocks : List Block) : Decidable (IsTidyBody blocks) :=
  decidable_of_iff' _ isTidyBody_iff

-- What a scan of a paragraph finds is a marker of the body.
theorem mem_markersIn_of_mem_scan {blocks : List Block} {a : Address} {p : Paragraph}
    (hp : paragraphAt? blocks a = some p) {kind : Marker.Kind} {m : Marker}
    (hm : m ∈ scan kind p.text) : m ∈ markersIn blocks := by
  rcases exists_mem_places (paragraphAt?_eq_some_iff.mp hp) with ⟨place, hplace, rfl⟩
  rw [markersIn, List.mem_flatMap]
  refine ⟨place, hplace, ?_⟩
  rw [hp, Option.map_some, Option.getD_some]
  cases kind with
  | content => exact List.mem_append_left _ hm
  | table => exact List.mem_append_right _ hm

theorem marker_mem_markersIn {blocks : List Block} {r : TableRequest}
    (h : r ∈ tableRequests blocks) : r.marker ∈ markersIn blocks := by
  rcases mem_scan_of_mem_tableRequests h with ⟨p, hp, hm⟩
  exact mem_markersIn_of_mem_scan hp hm

/-- A paragraph whose markers are all gone or never had a table. -/
theorem ReadsAs.exists_eraseLiterals {blocks : List Block} {i : Address} {p₀ : Paragraph}
    (hp₀ : paragraphAt? blocks i = some p₀) {l₀ : List Segment} (h : ReadsAs p₀.text l₀) :
    ∃ l, ReadsAs (MailMerge.eraseLiterals (erasedFrom i (tableRequests blocks)) p₀).text l ∧
      (∀ kind, ∀ x ∈ asked kind l, x ∈ asked kind l₀) ∧
      (asked .table l = [] ∨
        ∀ r ∈ tableRequests blocks, r.paragraph = i → r.target = none) := by
  rcases erasedFrom_tableRequests hp₀ with hnone | hall
  · refine ⟨l₀, ?_, fun _ _ hx => hx, Or.inr hnone⟩
    rw [erasedFrom_eq_nil hnone]
    exact h
  · have hliteral : ∀ literal ∈ erasedFrom i (tableRequests blocks),
        ∃ kind path, Marker.IsLiteral kind literal.toList path := by
      intro literal hmem
      rcases List.mem_map.mp ((hall literal).mp hmem) with ⟨m, hm, rfl⟩
      exact ⟨_, _, h.isLiteral_of_mem_scan hm⟩
    rcases h.eraseLiterals hliteral with ⟨l, hl, hasked⟩
    refine ⟨l, hl, fun kind x hx => ?_, Or.inl ?_⟩
    · rw [hasked] at hx
      exact List.mem_of_mem_filter hx
    · rw [hasked, List.filter_eq_nil_iff]
      intro x hx
      rw [decide_eq_true_eq, not_not, hall, h.map_literal_scan]
      exact List.mem_map_of_mem hx

namespace TablePass

/-- Each paragraph after the table pass is a row of segments, whose markers the body had
    before. If table markers are among them, then it is a paragraph of the body in which
    no marker has a table. -/
theorem exists_readsAs_run {data : Element} {options : Options} {blocks : List Block}
    (tidy : IsTidyBody blocks)
    (hdata : ∀ m ∈ markersIn blocks, '<' ∉ (data.textAt m.path).toList) {a : Address}
    {p : Paragraph} (h : paragraphAt? (run data options blocks).value a = some p) :
    ∃ l, ReadsAs p.text l ∧
      (∀ kind, ∀ x ∈ asked kind l, ∃ m ∈ markersIn blocks, (m.literal, m.path) = x) ∧
      (asked .table l = [] ∨ ∃ i, Shift.follow (finalShifts data options blocks) i = some a ∧
        paragraphAt? blocks i = some p ∧
        ∀ r ∈ tableRequests blocks, r.paragraph = i → r.target = none) := by
  rcases exists_of_paragraphAt?_run h with ⟨i, hi, p₀, hat, rfl⟩ | ⟨text, rfl, htext⟩
  · -- What was there before has lost its table markers, or has them all as none has a table.
    have hp₀ : paragraphAt? blocks i = some p₀ := paragraphAt?_eq_some_iff.mpr hat
    rcases (tidy i p₀ hp₀).exists_readsAs with ⟨l₀, hl₀⟩
    rcases hl₀.exists_eraseLiterals hp₀ with ⟨l, hl, hsubset, hopen⟩
    refine ⟨l, hl, fun kind x hx => ?_, ?_⟩
    · have hx₀ := hsubset kind x hx
      rw [← hl₀.map_scan kind] at hx₀
      rcases List.mem_map.mp hx₀ with ⟨m, hm, hmx⟩
      exact ⟨m, mem_markersIn_of_mem_scan hp₀ hm, hmx⟩
    · refine hopen.imp_right fun hnone => ⟨i, hi, ?_, hnone⟩
      rw [erasedFrom_eq_nil hnone]
      exact hp₀
  · -- What is put in by a fill has no markers at all.
    have hfree : '<' ∉ (Paragraph.ofText text).text.toList := by
      rw [Paragraph.text_ofText]
      rcases htext with rfl | ⟨r, hr, e, he, name, rfl⟩
      · exact List.not_mem_nil
      · have hpath := hdata r.marker (marker_mem_markersIn hr)
        exact Element.notMem_textUnder (Element.notMem_text_of_mem_listAt hpath he) name
    refine ⟨_, readsAs_plains hfree, fun kind x hx => ?_, Or.inl (asked_plains .table _)⟩
    rw [asked_plains] at hx
    exact absurd hx List.not_mem_nil

end TablePass

end MailMerge
