import MailMerge.Proofs.TidyParagraph

/-!
# Replacing Spans

Content is put in by literals: one literal after the other is replaced wherever it stands in what
the text has become by then. What is wanted is that each marker that was found gives way to its
value where it was found, all at once, and the text in between stays. This is told by the bytes
from which and up to which a marker stood.

The two come to the same if `<` is used for these markers only, which includes the values. Then
the text is a row of segments, and so it is after each replacement: a value that was put in is a
row of single characters, in none of which a literal begins. So in the end each marker was
replaced once, by the value for its literal, and markers with one literal have one path.

In the middle between the two stand the pieces that the scan cuts the text into. Their places in
the text are where markers stood, and their literals are what is replaced.

## Main definitions

* `Text.slice`: What stands in some bytes of a text.
* `replaceSpans`: A text with the markers replaced where they stood.
* `textOutside`: What stands outside of the markers.
* `putMarkers`: A segment with values put in for the literals of some markers.

## Theorems

* `slice_of_eq_append`: A slice of a text is the part that stands there.
* `replaceSpans_scan`: Replacing spans goes piece by piece.
* `exists_readsAs_of_scan`: The pieces as segments.
* `toList_substituteText`: Replacing literals goes segment by segment.
* `substitute_effect`: What substituting content does to a paragraph.
-/

namespace MailMerge

open Text (Piece Find pieces cut byteLength byteLength_append)

namespace Text

/-- The characters of a text that begin in the bytes from `start` on and before `stop`, the text
    itself beginning at byte `offset`. -/
def sliceFrom (offset start stop : Nat) : List Char → List Char
  | [] => []
  | c :: t =>
      if start ≤ offset ∧ offset < stop then c :: sliceFrom (offset + c.utf8Size) start stop t
      else sliceFrom (offset + c.utf8Size) start stop t

/-- What stands in the bytes of a text from `start` on and before `stop`. -/
def slice (t : List Char) (start stop : Nat) : List Char := sliceFrom 0 start stop t

variable {offset start stop : Nat}

theorem sliceFrom_append (t u : List Char) : sliceFrom offset start stop (t ++ u) =
    sliceFrom offset start stop t ++ sliceFrom (offset + byteLength t) start stop u := by
  induction t generalizing offset with
  | nil => rfl
  | cons c t ih =>
      rw [List.cons_append, sliceFrom, sliceFrom, ih, byteLength, Nat.add_assoc]
      split
      · rw [List.cons_append]
      · rfl

theorem sliceFrom_of_within {t : List Char} (hstart : start ≤ offset)
    (hstop : offset + byteLength t ≤ stop) : sliceFrom offset start stop t = t := by
  induction t generalizing offset with
  | nil => rfl
  | cons c t ih =>
      rw [byteLength] at hstop
      have hpos := c.utf8Size_pos
      rw [sliceFrom, if_pos ⟨hstart, by omega⟩, ih (by omega) (by omega)]

theorem sliceFrom_of_outside {t : List Char}
    (h : offset + byteLength t ≤ start ∨ stop ≤ offset) :
    sliceFrom offset start stop t = [] := by
  induction t generalizing offset with
  | nil => rfl
  | cons c t ih =>
      rw [byteLength] at h
      have hpos := c.utf8Size_pos
      rw [sliceFrom, if_neg (by omega), ih (by omega)]

/-- A slice of a text is the part that stands there. -/
theorem slice_of_eq_append {t before middle behind : List Char}
    (h : t = before ++ middle ++ behind) :
    slice t (byteLength before) (byteLength (before ++ middle)) = middle := by
  rw [h, slice, sliceFrom_append, sliceFrom_append, Nat.zero_add, Nat.zero_add,
    sliceFrom_of_outside (Or.inl (Nat.le_of_eq (Nat.zero_add _))),
    sliceFrom_of_within (Nat.le_refl _) (Nat.le_of_eq (byteLength_append before middle).symm),
    sliceFrom_of_outside (Or.inr (Nat.le_refl _)), List.nil_append, List.append_nil]

end Text

/-- The text from byte `start` on, with a value for its path in place of each of some markers. -/
def replaceSpans (value : String → List Char) (t : List Char) (start : Nat) :
    List Marker → List Char
  | [] => Text.slice t start (byteLength t)
  | m :: rest => Text.slice t start m.start ++ value m.path ++ replaceSpans value t m.stop rest

/-- What stands outside of some markers. -/
def textOutside (t : List Char) (markers : List Marker) : List Char :=
  replaceSpans (fun _ => []) t 0 markers

/-! ### Pieces and spans -/

/-- What a piece becomes when finds are replaced. -/
def Text.Piece.replaced (value : String → List Char) : Piece (List Char) → List Char
  | .plain c => [c]
  | .find _ path => value (String.ofList path)

-- Up to a find, the characters passed over since the last one are kept as a gap.
theorem replaceSpans_ofPieces (value : String → List Char) (kind : Marker.Kind) {t : List Char}
    {l : List (Piece (List Char))} {before gap : List Char}
    (h : t = before ++ gap ++ l.flatMap Piece.text) :
    replaceSpans value t (byteLength before)
        (Marker.ofPieces kind (byteLength (before ++ gap)) l) =
      gap ++ l.flatMap (Piece.replaced value) := by
  induction l generalizing before gap with
  | nil =>
      have hall : t = before ++ gap := by rw [h, List.flatMap_nil, List.append_nil]
      rw [Marker.ofPieces, replaceSpans, List.flatMap_nil, List.append_nil, hall]
      exact Text.slice_of_eq_append (List.append_nil _).symm
  | cons piece l ih =>
      rw [List.flatMap_cons] at h
      cases piece with
      | plain c =>
          -- One character more in the gap.
          have hoffset : byteLength (before ++ gap) + c.utf8Size =
              byteLength (before ++ (gap ++ [c])) := by
            rw [← List.append_assoc, byteLength_append (before ++ gap), byteLength, byteLength,
              Nat.add_zero]
          rw [Marker.ofPieces, hoffset, ih (by rw [h, Piece.text]; simp only [List.append_assoc]),
            List.flatMap_cons, Piece.replaced, List.append_assoc]
      | find text path =>
          -- The gap ends where the marker begins, and an empty one begins behind it.
          have hoffset : byteLength (before ++ gap) + byteLength text =
              byteLength (before ++ gap ++ text ++ []) := by
            rw [List.append_nil, byteLength_append (before ++ gap)]
          have hrest := @ih (before ++ gap ++ text) [] (by
            rw [h, Piece.text, List.append_nil, List.append_assoc (before ++ gap)])
          rw [← hoffset, byteLength_append (before ++ gap), List.nil_append] at hrest
          rw [Marker.ofPieces, replaceSpans, Text.slice_of_eq_append (by rw [h]), hrest,
            List.flatMap_cons, Piece.replaced, List.append_assoc]

/-- Replacing the spans of the markers that a scan finds goes piece by piece. -/
theorem replaceSpans_scan (value : String → List Char) (kind : Marker.Kind) (text : String) :
    replaceSpans value text.toList 0 (scan kind text) =
      (pieces (Marker.recognise kind) text.toList).flatMap (Piece.replaced value) :=
  @replaceSpans_ofPieces value kind text.toList _ [] [] (Text.flatMap_text_pieces _ _).symm

/-- What stands where a marker was found is its literal. -/
theorem slice_of_mem_scan {kind : Marker.Kind} {text : String} {m : Marker}
    (h : m ∈ scan kind text) : Text.slice text.toList m.start m.stop = m.literal.toList := by
  rcases toList_eq_append_of_mem_scan h with ⟨front, behind, htext, hstart, hstop⟩
  rw [hstart, hstop]
  exact Text.slice_of_eq_append htext

/-! ### Pieces as segments -/

/-- The segment that a piece is, if it comes from cutting at markers of a kind. -/
def Text.Piece.segment (kind : Marker.Kind) : Piece (List Char) → Segment
  | .plain c => .plain c
  | .find text path => .marker kind text path

theorem Text.Piece.text_segment (kind : Marker.Kind) (piece : Piece (List Char)) :
    (piece.segment kind).text = piece.text := by
  cases piece <;> rfl

theorem exists_marker_of_find (kind : Marker.Kind) (offset : Nat) {text path : List Char}
    {l : List (Piece (List Char))} (h : .find text path ∈ l) :
    ∃ m ∈ Marker.ofPieces kind offset l,
      m.literal = String.ofList text ∧ m.path = String.ofList path := by
  induction l generalizing offset with
  | nil => exact absurd h List.not_mem_nil
  | cons piece l ih =>
      cases piece with
      | plain c =>
          rcases List.mem_cons.mp h with heq | h
          · exact absurd heq (by simp only [reduceCtorEq, not_false_eq_true])
          · exact ih _ h
      | find text' path' =>
          rcases List.mem_cons.mp h with heq | h
          · rw [Piece.find.injEq] at heq
            rw [heq.1, heq.2]
            exact ⟨_, List.mem_cons_self, rfl, rfl⟩
          · rcases ih (offset + byteLength text') h with ⟨m, hm, hliteral, hpath⟩
            exact ⟨m, List.mem_cons_of_mem _ hm, hliteral, hpath⟩

/-- A text that has no `<` outside of the markers of a kind, nor in their paths, is a row of
    these markers and of other characters. -/
theorem readsAs_of_scan {kind : Marker.Kind} {text : String}
    (houtside : '<' ∉ textOutside text.toList (scan kind text))
    (hpath : ∀ m ∈ scan kind text, '<' ∉ m.path.toList) :
    ReadsAs text ((pieces (Marker.recognise kind) text.toList).map (Piece.segment kind)) := by
  refine ⟨fun s hs => ?_, ?_⟩
  · rcases List.mem_map.mp hs with ⟨piece, hpiece, rfl⟩
    cases piece with
    | plain c =>
        rintro rfl
        rw [textOutside, replaceSpans_scan] at houtside
        exact houtside (List.mem_flatMap.mpr ⟨_, hpiece, List.mem_singleton_self _⟩)
    | find t path =>
        rcases exists_marker_of_find kind 0 hpiece with ⟨m, hm, _, heq⟩
        refine ⟨Marker.isLiteral_of_mem_pieces hpiece, ?_⟩
        rw [← String.toList_ofList (l := path), ← heq]
        exact hpath m hm
  · rw [render, List.flatMap_map]
    simp only [Piece.text_segment]
    exact (Text.flatMap_text_pieces _ _).symm

/-! ### Replacing literals -/

/-- A segment with values put in for the literals of some markers. -/
def putMarkers (data : Element) (markers : List Marker) : Segment → List Segment
  | .plain c => [.plain c]
  | .marker kind literal path =>
      match markers.find? fun m => m.literal = String.ofList literal with
      | some m => plains (data.textAt m.path).toList
      | none => [.marker kind literal path]

theorem flatMap_putMarkers_plains (data : Element) (markers : List Marker) (t : List Char) :
    (plains t).flatMap (putMarkers data markers) = plains t := by
  rw [plains, List.flatMap_map]
  exact List.map_eq_flatMap.symm

/-- Replacing the literals of some markers one after the other puts in a value for each literal,
    in each segment. -/
theorem toList_substituteText {data : Element} {text : String} {l : List Segment}
    (h : ReadsAs text l) {markers : List Marker}
    (hliteral : ∀ m ∈ markers, ∃ kind path, Marker.IsLiteral kind m.literal.toList path)
    (hdata : ∀ m ∈ markers, '<' ∉ (data.textAt m.path).toList) :
    (substituteText data markers text).toList = render (l.flatMap (putMarkers data markers)) := by
  induction markers generalizing text l with
  | nil =>
      have hput : putMarkers data [] = fun s => [s] := funext fun s => by cases s <;> rfl
      rw [substituteText, h.text_eq, hput, List.flatMap_singleton']
  | cons m rest ih =>
      rcases hliteral m List.mem_cons_self with ⟨kind, path, hfirst⟩
      have hput := h.replaceAll hfirst (hdata m List.mem_cons_self)
      rw [substituteText, ih hput (fun x hx => hliteral x (List.mem_cons_of_mem m hx))
        (fun x hx => hdata x (List.mem_cons_of_mem m hx)), putAll, List.flatMap_assoc]
      congr 1
      congr 1
      funext s
      cases s with
      | plain c => rfl
      | marker kind' literal' path' =>
          -- What was put in is left alone, and a marker that was not replaced comes up again.
          rw [Segment.put]
          by_cases hsame : literal' = m.literal.toList
          · have hfind : m.literal = String.ofList literal' := by rw [hsame, String.ofList_toList]
            rw [if_pos hsame, flatMap_putMarkers_plains]
            simp only [putMarkers, List.find?_cons, hfind, decide_true]
          · have hfind : m.literal ≠ String.ofList literal' := by
              intro heq
              rw [heq, String.toList_ofList] at hsame
              exact hsame rfl
            rw [if_neg hsame, List.flatMap_singleton]
            simp only [putMarkers, List.find?_cons, hfind, decide_false]

/-- If `<` is used for content markers only, replacing their literals replaces them where they
    stand. -/
theorem toList_substituteText_distinct {data : Element} {text : String}
    (houtside : '<' ∉ textOutside text.toList (scan .content text))
    (hpath : ∀ m ∈ scan .content text, '<' ∉ m.path.toList)
    (hdata : ∀ m ∈ scan .content text, '<' ∉ (data.textAt m.path).toList) :
    (substituteText data (Marker.distinct (scan .content text)) text).toList =
      replaceSpans (fun path => (data.textAt path).toList) text.toList 0 (scan .content text) := by
  have hreads := readsAs_of_scan houtside hpath
  have hmem : ∀ m ∈ Marker.distinct (scan .content text), m ∈ scan .content text :=
    fun m => Marker.mem_of_mem_distinct
  have hliterals : ∀ m ∈ Marker.distinct (scan .content text),
      ∃ kind path, Marker.IsLiteral kind m.literal.toList path :=
    fun m hm => ⟨_, _, hreads.isLiteral_of_mem_scan (hmem m hm)⟩
  rw [toList_substituteText hreads hliterals (fun m hm => hdata m (hmem m hm)), replaceSpans_scan,
    render, List.flatMap_assoc, List.flatMap_map]
  -- Each piece was replaced by the same.
  refine List.flatMap_congr fun piece hpiece => ?_
  cases piece with
  | plain c => rfl
  | find t path =>
      -- The literal was kept, maybe with another marker, but that one has the same path.
      obtain ⟨m, hfind⟩ : ∃ m, (Marker.distinct (scan .content text)).find?
          (fun m => m.literal = String.ofList t) = some m := by
        rcases exists_marker_of_find .content 0 hpiece with ⟨x, hx, hliteral, _⟩
        rcases List.mem_map.mp (Marker.mem_literal_distinct_iff.mpr (List.mem_map_of_mem hx)) with
          ⟨y, hy, hyliteral⟩
        rw [← Option.isSome_iff_exists, List.find?_isSome]
        exact ⟨y, hy, decide_eq_true (hyliteral.trans hliteral)⟩
      have hliteral : m.literal = String.ofList t := of_decide_eq_true
        (List.find?_some (p := fun m : Marker => decide (m.literal = String.ofList t)) hfind)
      have hscan := hmem m (List.mem_of_find?_eq_some hfind)
      have hpathm : m.path = String.ofList path := by
        have hm := hreads.isLiteral_of_mem_scan hscan
        rw [hliteral, String.toList_ofList] at hm
        rw [← hm.path_eq (Marker.isLiteral_of_mem_pieces hpiece), String.ofList_toList]
      simp only [Piece.segment, putMarkers, hfind, Piece.replaced, hpathm]
      exact render_plains _

/-! ### Paragraphs -/

/-- What is noted when content is put in, marker by marker. -/
theorem diagnostics_substitutionReport (data : Element) (markers : List Marker) :
    (substitutionReport data markers).diagnostics =
      (markers.filter fun m => data.resolve? m.path = none).map fun m =>
        noContentDiagnostic m.path := by
  simp only [substitutionReport]
  induction markers with
  | nil => rfl
  | cons m rest ih =>
      cases hresolve : data.resolve? m.path with
      | some e => simp only [List.filterMap_cons, List.filter_cons, hresolve, reduceCtorEq,
          decide_false, Bool.false_eq_true, if_false, ih]
      | none => simp only [List.filterMap_cons, List.filter_cons, hresolve, decide_true, if_true,
          List.map_cons, ih]

/-- What substituting content does to a paragraph, whatever was reported before.

    Without content markers it does nothing. Otherwise all markers are counted, and for each one
    whose path leads nowhere that is noted, in the order in which they stand. The paragraph keeps
    its own formatting and has a single run without formatting. If there is no `<` outside of the
    markers, nor in their paths and in what the data has there, that run says what the paragraph
    said, with the text of the data in place of each marker. -/
theorem substitute_effect (data : Element) (p : Paragraph) (report : Report) :
    let markers := scan .content p.text
    let result := substitute data p
    let total := report ++ result.report
    (markers = [] → result.value = p ∧ result.report.contentPlaceholders = 0 ∧ total = report) ∧
      (markers ≠ [] →
        result.report.contentPlaceholders = markers.length ∧
        total = { report with
          contentPlaceholders := report.contentPlaceholders + markers.length
          diagnostics := report.diagnostics ++
            (markers.filter fun m => data.resolve? m.path = none).map fun m =>
              ⟨.unresolvedPlaceholder, "content placeholder replaced with blank text",
                some (Path.normalize m.path)⟩ } ∧
        result.value.properties = p.properties ∧
        ∃ text, result.value.runs = [⟨∅, text⟩] ∧
          ('<' ∉ textOutside p.text.toList markers →
            (∀ m ∈ markers, '<' ∉ m.path.toList ∧ '<' ∉ (data.textAt m.path).toList) →
              text.toList =
                replaceSpans (fun path => (data.textAt path).toList) p.text.toList 0 markers)) := by
  dsimp only
  cases hscan : scan .content p.text with
  | nil =>
      rw [substitute_of_scan_eq_nil hscan]
      exact ⟨fun _ => ⟨rfl, rfl, Report.append_empty report⟩, fun h => absurd rfl h⟩
  | cons m rest =>
      have hsubstitute : substitute data p =
          ⟨p.setText (substituteText data (Marker.distinct (m :: rest)) p.text),
            substitutionReport data (m :: rest)⟩ := by
        rw [substitute, hscan]
      refine ⟨fun h => absurd h (List.cons_ne_nil m rest), fun _ => ?_⟩
      rw [hsubstitute]
      refine ⟨rfl, ?_, rfl, _, rfl, fun houtside hlt => ?_⟩
      · rw [Report.append_def, diagnostics_substitutionReport]
        rfl
      · rw [← hscan] at houtside hlt ⊢
        exact toList_substituteText_distinct houtside (fun x hx => (hlt x hx).1)
          fun x hx => (hlt x hx).2

/-- Three markers over three runs, the first and the last with one literal. -/
def reminder : Paragraph :=
  ⟨⟨[("align", "left")], by decide⟩,
    [⟨⟨[("bold", "on")], by decide⟩, "<# <Content Select=\"./Na"⟩,
      Run.plain "me\" /> #>: <#<Content Select='./Due'/>#>! ",
      Run.plain "<# <Content Select=\"./Name\" /> #>."]⟩

/-- A name, and no date. -/
def debtor : Element := ⟨"Debtor", [.element ⟨"Name", [.text "Ann"]⟩]⟩

/-- The name is put in twice and the date left out, which is noted after what was reported
    before. -/
theorem substitute_reminder :
    let before : Report := ⟨1, 0, 2, []⟩
    let result := substitute debtor reminder
    '<' ∉ textOutside reminder.text.toList (scan .content reminder.text) ∧
      result.value.properties = reminder.properties ∧
      result.value.runs = [⟨∅, "Ann: ! Ann."⟩] ∧
      before ++ result.report = ⟨4, 0, 2, [⟨.unresolvedPlaceholder,
        "content placeholder replaced with blank text", some "Due"⟩]⟩ := by
  intro before result
  have hscan : scan .content reminder.text =
      [⟨.content, "<# <Content Select=\"./Name\" /> #>", "./Name", 0, 33⟩,
        ⟨.content, "<#<Content Select='./Due'/>#>", "./Due", 35, 64⟩,
        ⟨.content, "<# <Content Select=\"./Name\" /> #>", "./Name", 66, 99⟩] := by
    decide +kernel
  have heffect := (substitute_effect debtor reminder before).2
  rw [hscan] at heffect ⊢
  rcases heffect (List.cons_ne_nil _ _) with ⟨_, htotal, hproperties, text, hruns, htext⟩
  have hvalues := htext (by decide +kernel) (by decide +kernel)
  have heq : text = "Ann: ! Ann." :=
    String.toList_inj.mp (hvalues.trans (by decide +kernel))
  refine ⟨by decide +kernel, hproperties, heq ▸ hruns, htotal.trans ?_⟩
  decide +kernel

end MailMerge
