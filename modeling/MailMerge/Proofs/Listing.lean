import MailMerge.CommandLine.Run
import MailMerge.Proofs.Literal
import MailMerge.Proofs.TableReference

/-!
# Listing Markers

A template's markers can be listed before it is merged. The listing and the merge go over
the same tree in two ways. The listing collects texts as it descends and knows no addresses.
The merge lists addresses first and looks the blocks up again. That they see the same
paragraphs in the same order is proved on the tracked body, where every block stands in
document order beside its address: forgetting the addresses leaves the texts of the listing,
and following them leads to the paragraphs that have these texts.

A paragraph counts as marked by a test that only asks whether a marker begins anywhere in
the text. What is printed comes from cutting the text into finds, where a find may take
characters from another one. The two agree, since a cut reaches the leftmost beginning
of a marker before it has taken anything away.

What is printed is a text. It falls into lines again, because no path holds a line break.

## Main definitions

* `textAt?`: What the paragraph at an address says.
* `CommandLine.lines`: The lines that a text is made of.
* `CommandLine.isTableLine`: Whether a line tells of a table marker.

## Theorems

* `map_textAt?_places`: The two ways lead over the same texts.
* `flatMap_scan_textsOfBlocks`: The table markers of these texts are those of the requests.
* `hasMarkers_iff_exists_suffix`: A text is marked when a marker begins somewhere in it.
* `lines_unlines`: Lines can be told from the text that they make up.
* `scanOutput_eq_of_places`: What the listing of a document prints.
-/

namespace MailMerge

variable {ι : Type}

/-! ### Paragraphs in document order -/

/-- What the paragraph at an address says, if there is one. -/
def textAt? (blocks : List Block) (a : Address) : Option String :=
  (paragraphAt? blocks a).map Paragraph.text

/-- What a tracked block says, if it is a paragraph. -/
def TrackedBlock.text? (b : TrackedBlock ι) : Option String :=
  b.forget.paragraph?.map Paragraph.text

mutual

/-- The paragraphs of a tracked block say what the block says without its identities. -/
theorem TrackedBlock.filterMap_text? :
    ∀ b : TrackedBlock ι, b.all.filterMap text? = b.forget.paragraphTexts
  | .paragraph id p => rfl
  | .table id ⟨properties, rows⟩ => by
      rw [all, forget, Block.paragraphTexts, List.filterMap_cons_none (by rfl),
        filterMap_text?_rows rows]

theorem TrackedBlock.filterMap_text?_rows :
    ∀ rows : List (TrackedRow ι), (allInRows rows).filterMap text? = textsOfRows (forgetRows rows)
  | [] => rfl
  | ⟨properties, cells⟩ :: rest => by
      rw [allInRows, forgetRows, textsOfRows, List.filterMap_append, filterMap_text?_cells cells,
        filterMap_text?_rows rest]

theorem TrackedBlock.filterMap_text?_cells :
    ∀ cells : List (TrackedCell ι),
      (allInCells cells).filterMap text? = textsOfCells (forgetCells cells)
  | [] => rfl
  | ⟨properties, blocks⟩ :: rest => by
      rw [allInCells, forgetCells, textsOfCells, List.filterMap_append,
        filterMap_text?_blocks blocks, filterMap_text?_cells rest]

theorem TrackedBlock.filterMap_text?_blocks :
    ∀ blocks : List (TrackedBlock ι),
      (allInBlocks blocks).filterMap text? = textsOfBlocks (forgetBlocks blocks)
  | [] => rfl
  | b :: rest => by
      rw [allInBlocks, forgetBlocks, textsOfBlocks, List.filterMap_append, filterMap_text? b,
        filterMap_text?_blocks rest]

end

-- What stands at a place is looked up there, so it says what is found there.
theorem text?_of_isAt {blocks : List Block} {place : Place} {c : TrackedBlock Address}
    (h : IsAt blocks place c) : c.text? = textAt? blocks place.address := by
  rcases h with ⟨hat, _⟩
  have hforget : blockAt? blocks place.address = some c.forget := by
    rw [← forgetBlocks_trackBody blocks, blockAt?_forgetBlocks, hat, Option.map_some]
  rw [TrackedBlock.text?, textAt?, paragraphAt?, hforget, Option.bind_some]

/-- The texts of a body are what its places say, in document order. -/
theorem filterMap_textAt?_places (blocks : List Block) :
    ((places blocks).filterMap fun place => textAt? blocks place.address) =
      textsOfBlocks blocks := by
  have htexts := TrackedBlock.filterMap_text?_blocks (trackBody blocks)
  rw [forgetBlocks_trackBody] at htexts
  rw [← htexts]
  -- By induction on places and blocks taken together.
  suffices hl : ∀ l l', List.Forall₂ (IsAt blocks) l l' →
      (l.filterMap fun place => textAt? blocks place.address) = l'.filterMap TrackedBlock.text?
    from hl _ _ (forall₂_places blocks)
  intro l l' hl
  induction hl with
  | nil => rfl
  | cons hplace _ ih => rw [List.filterMap_cons, List.filterMap_cons, text?_of_isAt hplace, ih]

/-- A place leads to a paragraph when it is listed as one of a paragraph. -/
theorem isSome_textAt?_iff {blocks : List Block} {place : Place} (h : place ∈ places blocks) :
    (textAt? blocks place.address).isSome = true ↔ place.kind = .paragraph := by
  rcases Option.map_eq_some_iff.mp (kind_of_mem_places h) with ⟨b, hb, hkind⟩
  rw [textAt?, paragraphAt?, hb, ← hkind]
  cases b with
  | paragraph p => exact ⟨fun _ => rfl, fun _ => rfl⟩
  | table t => exact ⟨fun h => absurd h Bool.false_ne_true, Block.Kind.noConfusion⟩

/-- Every place that is listed as one of a paragraph leads to a paragraph, and these are the
    paragraphs with the texts of the body, in the same order. -/
theorem map_textAt?_places (blocks : List Block) :
    ((places blocks).filter fun place => place.kind = .paragraph).map
      (fun place => textAt? blocks place.address) = (textsOfBlocks blocks).map some := by
  rw [← filterMap_textAt?_places]
  suffices hl : ∀ l : List Place, (∀ place ∈ l, place ∈ places blocks) →
      (l.filter fun place => place.kind = .paragraph).map
        (fun place => textAt? blocks place.address) =
          (l.filterMap fun place => textAt? blocks place.address).map some
    from hl _ fun _ h => h
  intro l hmem
  induction l with
  | nil => rfl
  | cons place rest ih =>
      have hrest := ih fun x hx => hmem x (List.mem_cons_of_mem place hx)
      have hplace := isSome_textAt?_iff (hmem place List.mem_cons_self)
      by_cases hkind : place.kind = .paragraph
      · rcases Option.isSome_iff_exists.mp (hplace.mpr hkind) with ⟨text, htext⟩
        rw [List.filter_cons_of_pos (by exact decide_eq_true hkind), List.map_cons, hrest,
          List.filterMap_cons, htext]
        rfl
      · have hnone := Option.not_isSome_iff_eq_none.mp fun h => hkind (hplace.mp h)
        rw [List.filter_cons_of_neg (by rw [decide_eq_true_eq]; exact hkind), hrest,
          List.filterMap_cons, hnone]

/-- Requests come from the table markers in what the places say. -/
theorem map_marker_requestsAmong (blocks : List Block) (l : List Place) :
    (requestsAmong blocks l).map TableRequest.marker =
      (l.filterMap fun place => textAt? blocks place.address).flatMap (scan .table) := by
  induction l with
  | nil => rfl
  | cons place later ih =>
      rw [requestsAmong, List.filterMap_cons, textAt?]
      cases paragraphAt? blocks place.address with
      | none => exact ih
      | some p =>
          rw [Option.map_some, List.flatMap_cons, List.map_append, List.map_map, ih]
          exact congrArg (· ++ _) (List.map_id _)

/-- The table markers of a body's texts are the markers of its requests. -/
theorem flatMap_scan_textsOfBlocks (blocks : List Block) :
    (textsOfBlocks blocks).flatMap (scan .table) =
      (tableRequests blocks).map TableRequest.marker := by
  rw [tableRequests, map_marker_requestsAmong, filterMap_textAt?_places]

/-! ### Marked texts -/

theorem Marker.occurs_iff_exists_suffix {kind : Marker.Kind} {t : List Char} :
    occurs kind t = true ↔ ∃ u, u <:+ t ∧ (recognise kind u).isSome = true := by
  induction t with
  | nil =>
      refine ⟨fun h => absurd h Bool.false_ne_true, fun h => ?_⟩
      rcases h with ⟨u, hu, hfind⟩
      rw [List.suffix_nil.mp hu] at hfind
      exact absurd hfind Bool.false_ne_true
  | cons c t ih =>
      rw [occurs, Bool.or_eq_true, ih]
      constructor
      · rintro (hfind | ⟨u, hu, hfind⟩)
        · exact ⟨c :: t, List.suffix_refl _, hfind⟩
        · exact ⟨u, hu.trans (List.suffix_cons c t), hfind⟩
      · rintro ⟨u, hu, hfind⟩
        rcases List.suffix_cons_iff.mp hu with rfl | hu
        · exact Or.inl hfind
        · exact Or.inr ⟨u, hu, hfind⟩

/-- A text is marked when a marker of either kind begins somewhere in it. -/
theorem hasMarkers_iff_exists_suffix {text : String} :
    hasMarkers text = true ↔
      ∃ kind t, t <:+ text.toList ∧ (Marker.recognise kind t).isSome = true := by
  rw [hasMarkers, Bool.or_eq_true, Marker.occurs_iff_exists_suffix,
    Marker.occurs_iff_exists_suffix]
  constructor
  · intro h
    exact h.elim (fun h => ⟨.content, h⟩) fun h => ⟨.table, h⟩
  · intro h
    rcases h with ⟨kind, h⟩
    cases kind with
    | content => exact Or.inl h
    | table => exact Or.inr h

/-! ### Lines -/

theorem Text.mem_of_mem_trim {c : Char} {t : List Char} (h : c ∈ trim t) : c ∈ t := by
  have hdrop : ∀ t, dropBlank t ⊆ t := fun t => (List.dropWhile_sublist _).subset
  rw [trim, List.mem_reverse] at h
  exact hdrop t (List.mem_reverse.mp (hdrop _ h))

namespace CommandLine

/-- The lines that a text is made of, each of them ended by a line break. -/
def lines (s : String) : List String := (s.toList.splitOn '\n').dropLast.map String.ofList

/-- Whether a line tells of a table marker. -/
def isTableLine (line : String) : Bool := "Table\t".toList.isPrefixOf line.toList

/-- Lines without line breaks can be told from the text that they make up. -/
theorem lines_unlines {l : List String} (h : ∀ line ∈ l, '\n' ∉ line.toList) :
    lines (unlines l) = l := by
  induction l with
  | nil => rfl
  | cons line rest ih =>
      have hline : '\n' ∉ line.toList := h line List.mem_cons_self
      have htext : (unlines (line :: rest)).toList =
          line.toList ++ '\n' :: (unlines rest).toList := by
        rw [unlines, String.toList_append, String.toList_append, List.append_assoc]
        rfl
      have hrest := ih fun x hx => h x (List.mem_cons_of_mem line hx)
      rw [lines, htext, List.splitOn_append_cons_self_of_not_mem hline,
        List.dropLast_cons_of_ne_nil (List.splitOn_ne_nil _ _), List.map_cons,
        String.ofList_toList]
      exact congrArg (line :: ·) hrest

theorem newline_notMem_markerLine {kind : Marker.Kind} {text : String} {m : Marker}
    (h : m ∈ scan kind text) : '\n' ∉ (markerLine m).toList := by
  have hword : ∀ kind : Marker.Kind, '\n' ∉ (kind.word ++ "\t").toList := by
    intro kind
    cases kind <;> decide
  rw [markerLine, String.toList_append, List.mem_append, not_or, Text.trimmed,
    String.toList_ofList]
  have hpath := (Marker.isLiteral_of_mem_scan h).newline_notMem_path
  exact ⟨hword m.kind, fun htrim => hpath (Text.mem_of_mem_trim htrim)⟩

/-- The two kinds of line begin differently. -/
theorem isTableLine_markerLine (m : Marker) :
    isTableLine (markerLine m) = decide (m.kind = .table) := by
  rw [isTableLine, markerLine, String.toList_append]
  cases m.kind <;> rfl

/-- Of the lines of a paragraph, those that tell of a table marker. -/
theorem filter_markerLines (text : String) :
    (markerLines text).filter isTableLine = (scan .table text).map markerLine := by
  have hkind : ∀ kind, ((scan kind text).map markerLine).filter isTableLine =
      if kind = .table then (scan kind text).map markerLine else [] := by
    intro kind
    rw [List.filter_map]
    split
    · next htable =>
        rw [List.filter_eq_self.mpr]
        intro m hm
        rw [Function.comp_apply, isTableLine_markerLine, kind_of_mem_scan hm]
        exact decide_eq_true htable
    · next hcontent =>
        rw [List.filter_eq_nil_iff.mpr, List.map_nil]
        intro m hm
        rw [Function.comp_apply, isTableLine_markerLine, kind_of_mem_scan hm, decide_eq_true_eq]
        exact hcontent
  rw [markerLines, List.map_append, List.filter_append, hkind .content, hkind .table]
  rfl

/-- Listing prints the lines of all paragraphs, marked or not. -/
theorem flatMap_markerLines_filter (texts : List String) :
    (texts.filter hasMarkers).flatMap markerLines = texts.flatMap markerLines := by
  induction texts with
  | nil => rfl
  | cons text rest ih =>
      rw [List.flatMap_cons]
      by_cases hmarked : hasMarkers text = true
      · rw [List.filter_cons_of_pos hmarked, List.flatMap_cons, ih]
      · have hnone : markerLines text = [] :=
          Classical.not_not.mp fun h => hmarked ((marked_iff text).mpr h)
        rw [List.filter_cons_of_neg hmarked, hnone, ih, List.nil_append]

theorem paragraphTexts_eq (d : Document) : d.paragraphTexts = textsOfBlocks (d.body.getD []) := by
  rw [Document.paragraphTexts]
  cases d.body <;> rfl

/-- What the listing of a document prints.

    The texts that are gone through are those of the paragraphs that a merge finds at its
    places, one for one. For any text, being marked is having a line, and it is having a
    marker begin somewhere in it. The printed lines are those of the texts in turn, and the
    count beside them is that of the texts with a line. The lines that tell of a table
    marker give the paths of the requests that a merge would make, in order. -/
theorem scanOutput_eq_of_places (d : Document) :
    let blocks := d.body.getD []
    let paragraphs := (places blocks).filter fun place => place.kind = .paragraph
    let marked := d.paragraphTexts.filter fun text => markerLines text ≠ []
    paragraphs.map (fun place => textAt? blocks place.address) = d.paragraphTexts.map some ∧
      (∀ text, (hasMarkers text = true ↔ markerLines text ≠ []) ∧
        (hasMarkers text = true ↔
          ∃ kind t, t <:+ text.toList ∧ (Marker.recognise kind t).isSome = true)) ∧
      (scanOutput d).err = toString marked.length ++ " of " ++ toString paragraphs.length ++
        " paragraph(s) hold placeholders\n" ∧
      lines (scanOutput d).out = d.paragraphTexts.flatMap markerLines ∧
      (lines (scanOutput d).out).filter isTableLine =
        (tableRequests blocks).map fun r => "Table\t" ++ Text.trimmed r.marker.path := by
  intro blocks paragraphs marked
  have htexts : d.paragraphTexts = textsOfBlocks blocks := paragraphTexts_eq d
  have hplaces : paragraphs.map (fun place => textAt? blocks place.address) =
      d.paragraphTexts.map some := by rw [htexts, ← map_textAt?_places]
  have hlength : paragraphs.length = d.paragraphTexts.length := by
    simpa only [List.length_map] using congrArg List.length hplaces
  have hmarked : d.paragraphTexts.filter hasMarkers = marked :=
    List.filter_congr fun text _ => Bool.eq_iff_iff.mpr (by rw [marked_iff, decide_eq_true_eq])
  have hlines : lines (scanOutput d).out = d.paragraphTexts.flatMap markerLines := by
    rw [scanOutput, success, flatMap_markerLines_filter]
    refine lines_unlines fun line hline => ?_
    rcases List.mem_flatMap.mp hline with ⟨text, _, hline⟩
    rcases List.mem_map.mp hline with ⟨m, hm, rfl⟩
    rcases List.mem_append.mp hm with hm | hm <;> exact newline_notMem_markerLine hm
  refine ⟨hplaces, fun text => ⟨marked_iff text, hasMarkers_iff_exists_suffix⟩, ?_, hlines, ?_⟩
  · rw [scanOutput, success, hmarked, hlength]
    simp only [unlines, String.append_empty, String.append_assoc]
    rfl
  · -- A line of a request's marker has the word of its kind.
    have htable : ∀ r ∈ tableRequests blocks,
        markerLine r.marker = "Table\t" ++ Text.trimmed r.marker.path := by
      intro r hr
      have hmem : r.marker ∈ (textsOfBlocks blocks).flatMap (scan .table) := by
        rw [flatMap_scan_textsOfBlocks]
        exact List.mem_map_of_mem hr
      rcases List.mem_flatMap.mp hmem with ⟨text, _, hscan⟩
      rw [markerLine, kind_of_mem_scan hscan]
      rfl
    calc (lines (scanOutput d).out).filter isTableLine
        = d.paragraphTexts.flatMap fun text => (scan .table text).map markerLine := by
          rw [hlines, List.filter_flatMap]
          exact congrArg (d.paragraphTexts.flatMap ·) (funext filter_markerLines)
      _ = ((tableRequests blocks).map TableRequest.marker).map markerLine := by
          rw [htexts, ← flatMap_scan_textsOfBlocks, List.map_flatMap]
      _ = (tableRequests blocks).map fun r => "Table\t" ++ Text.trimmed r.marker.path := by
          rw [List.map_map]
          exact List.map_congr_left htable

end CommandLine

end MailMerge
