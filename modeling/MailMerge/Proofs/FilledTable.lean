import Mathlib.Data.List.Forall2
import MailMerge.Table.Filling

/-!
# What a Filled Table Holds

Filling a table either leaves it alone, for one of four reasons, or takes its template row
away and puts a row in for each element. All of this is decided by looking at the first
element and at the template row, before anything is taken away.

Which column a cell of the template row stands for is worked out from the back: a cell gets
the column it asks for if the data has it and no later cell asks for it again. Said by
positions, it is the last cell that asks for a column that gets it, and every column that
is asked for and known has such a cell.

The rows are put in one after the other, each directly below the header. So each comes to
stand above those before it, and all of them above the rows that were below the template
row.

## Main definitions

* `Row.Asks`: Whether a cell of a row asks for a column.
* `StandsFor`: Whether a cell of a template row gets a column.
* `Renders`: Whether a row is what an element gives.
* `Filling.after`: The table after it was to be filled.

## Theorems

* `getElem?_lastKnown_iff`: The last of those that ask for a column gets it.
* `exists_standsFor`: A known column that is asked for is given to some cell.
* `Template.ofRow_eq_ok`: When a row is of use as a template row.
* `renders_row`: What a template gives for an element.
* `foldl_insertIdx`: Rows that are put in below the header end up in reverse.
* `fill_effect`: What filling a table does.
-/

namespace MailMerge

/-- Whether the cell at a position of a row asks for a column, which is what a text of a dot,
    a slash and the name of the column does, blanks around it aside. -/
def Row.Asks (r : Row) (k : Nat) (column : String) : Prop :=
  ∃ c, r.cells[k]? = some c ∧ Text.trimmed c.text = "./" ++ column

namespace Table

/-! ### Columns of a template row -/

/-- Whether the cell at a position of a template row gets a column: the column is known, the
    cell asks for it, and no later cell does. -/
def StandsFor (known : List String) (template : Row) (k : Nat) (column : String) : Prop :=
  column ∈ known ∧ template.Asks k column ∧ ∀ j, k < j → ¬ template.Asks j column

/-- A name is read off a text that consists of a dot, a slash and the name. -/
theorem columnName?_eq_some_iff {text name : String} :
    columnName? text = some name ↔ Text.trimmed text = "./" ++ name := by
  rw [← String.toList_inj, String.toList_append, Text.trimmed, String.toList_ofList, columnName?]
  split
  · next rest htrim =>
      rw [htrim, Option.some.injEq]
      constructor
      · rintro rfl
        exact congrArg (fun t => '.' :: '/' :: t) String.toList_ofList.symm
      · intro h
        have hrest : rest = name.toList := (List.cons.inj (List.cons.inj h).2).2
        rw [hrest, String.ofList_toList]
  · next hother =>
      exact ⟨nofun, fun h => absurd h (hother name.toList)⟩

theorem asks_iff {r : Row} {k : Nat} {column : String} :
    r.Asks k column ↔ (columnNames r)[k]? = some (some column) := by
  rw [columnNames, Row.texts, List.map_map, List.getElem?_map, Option.map_eq_some_iff]
  exact exists_congr fun c => and_congr_right fun _ => columnName?_eq_some_iff.symm

/-- Of the names that are the same, the last one is kept, if it is known. -/
theorem getElem?_lastKnown_iff {known : List String} {names : List (Option String)} {k : Nat}
    {name : String} :
    (lastKnown known names)[k]? = some (some name) ↔
      name ∈ known ∧ names[k]? = some (some name) ∧
        ∀ j, k < j → names[j]? ≠ some (some name) := by
  induction names generalizing k with
  | nil => exact ⟨nofun, fun h => nomatch h.2.1⟩
  | cons name? rest ih =>
      rw [lastKnown]
      cases k with
      | zero =>
          -- What comes after the first is the rest.
          have hlater : (∀ j, 0 < j → (name? :: rest)[j]? ≠ some (some name)) ↔
              some name ∉ rest := by
            rw [List.mem_iff_getElem?, not_exists]
            constructor
            · intro h j
              exact h (j + 1) (Nat.succ_pos j)
            · intro h j hj
              rcases j with _ | j
              · exact absurd hj (Nat.lt_irrefl 0)
              · exact h j
          rw [hlater, List.getElem?_cons_zero, List.getElem?_cons_zero, Option.some.injEq,
            Option.some.injEq, Option.filter_eq_some_iff, decide_eq_true_eq]
          constructor
          · intro h
            exact ⟨h.2.1, h.1, h.2.2⟩
          · intro h
            exact ⟨h.2.1, h.1, h.2.2⟩
      | succ k =>
          have hlater : (∀ j, k + 1 < j → (name? :: rest)[j]? ≠ some (some name)) ↔
              ∀ j, k < j → rest[j]? ≠ some (some name) := by
            constructor
            · intro h j hj
              exact h (j + 1) (Nat.succ_lt_succ hj)
            · intro h j hj
              rcases j with _ | j
              · exact absurd hj (Nat.not_lt_zero _)
              · exact h j (Nat.lt_of_succ_lt_succ hj)
          rw [hlater, List.getElem?_cons_succ, List.getElem?_cons_succ]
          exact ih

/-- The last cell that asks for a known column gets it. -/
theorem standsFor_iff {known : List String} {template : Row} {k : Nat} {column : String} :
    StandsFor known template k column ↔
      (columnsOf known template)[k]? = some (some column) := by
  rw [columnsOf, getElem?_lastKnown_iff, StandsFor]
  simp only [asks_iff, ne_eq]

theorem exists_getElem?_lastKnown {known : List String} {names : List (Option String)}
    {name : String} (hknown : name ∈ known) (h : some name ∈ names) :
    ∃ k : Nat, (lastKnown known names)[k]? = some (some name) := by
  induction names with
  | nil => exact absurd h List.not_mem_nil
  | cons name? rest ih =>
      by_cases hrest : some name ∈ rest
      · rcases ih hrest with ⟨k, hk⟩
        exact ⟨k + 1, hk⟩
      · have hfirst : some name = name? := (List.mem_cons.mp h).resolve_right hrest
        refine ⟨0, ?_⟩
        rw [lastKnown, List.getElem?_cons_zero, Option.some.injEq, Option.filter_eq_some_iff,
          decide_eq_true_eq]
        exact ⟨hfirst.symm, hknown, hrest⟩

/-- A known column that is asked for is given to some cell. -/
theorem exists_standsFor {known : List String} {template : Row} {k : Nat} {column : String}
    (hknown : column ∈ known) (hasks : template.Asks k column) :
    ∃ j, StandsFor known template j column := by
  rcases exists_getElem?_lastKnown hknown (List.mem_of_getElem? (asks_iff.mp hasks)) with ⟨j, hj⟩
  exact ⟨j, standsFor_iff.mpr hj⟩

/-- When a row is of use as a template row, and what is taken from it then. -/
theorem Template.ofRow_eq_ok {known : List String} {template : Row} {k : Nat} {column : String}
    (hasks : template.Asks k column) (hknown : column ∈ known) :
    Template.ofRow known template = .ok ⟨template.properties,
      (template.cells.map Cell.properties).zip (columnsOf known template)⟩ := by
  have hnames : (columnNames template).all Option.isNone = false := by
    rw [List.all_eq_false]
    exact ⟨some column, List.mem_of_getElem? (asks_iff.mp hasks), Bool.false_ne_true⟩
  have hcolumns : (columnsOf known template).all Option.isNone = false := by
    rcases exists_standsFor hknown hasks with ⟨j, hj⟩
    rw [List.all_eq_false]
    exact ⟨some column, List.mem_of_getElem? (standsFor_iff.mp hj), Bool.false_ne_true⟩
  simp only [ofRow, hnames, hcolumns, Bool.false_eq_true, if_false]

theorem Template.ofRow_of_no_column_cells {known : List String} {template : Row}
    (h : ∀ k column, ¬ template.Asks k column) :
    Template.ofRow known template = .error .noColumnCells := by
  have hnames : (columnNames template).all Option.isNone = true := by
    rw [List.all_eq_true]
    intro name? hmem
    rcases List.mem_iff_getElem?.mp hmem with ⟨k, hk⟩
    cases name? with
    | none => rfl
    | some column => exact absurd (asks_iff.mpr hk) (h k column)
  simp only [ofRow, hnames, if_true]

theorem Template.ofRow_of_no_known_column {known : List String} {template : Row} {k : Nat}
    {column : String} (hasks : template.Asks k column)
    (h : ∀ k column, template.Asks k column → column ∉ known) :
    Template.ofRow known template = .error .noKnownColumn := by
  have hnames : (columnNames template).all Option.isNone = false := by
    rw [List.all_eq_false]
    exact ⟨some column, List.mem_of_getElem? (asks_iff.mp hasks), Bool.false_ne_true⟩
  have hcolumns : (columnsOf known template).all Option.isNone = true := by
    rw [List.all_eq_true]
    intro column? hmem
    rcases List.mem_iff_getElem?.mp hmem with ⟨j, hj⟩
    cases column? with
    | none => rfl
    | some column =>
        have hstands := standsFor_iff.mpr hj
        exact absurd hstands.1 (h j column hstands.2.1)
  simp only [ofRow, hnames, hcolumns, Bool.false_eq_true, if_false, if_true]

/-! ### New rows -/

/-- Whether a row is what an element gives under a template row. The row is formatted like the
    template row. It has a cell for each cell of the template row, formatted like that or with
    a border on each side if that has no formatting, and in it a single plain paragraph of
    a single plain run. The run has the text of the element's child that the cell stands for,
    and no text if the cell stands for nothing or the element has no such child. -/
structure Renders (options : Options) (known : List String) (template : Row) (e : Element)
    (row : Row) : Prop where
  properties : row.properties = template.properties
  length : row.cells.length = template.cells.length
  cell : ∀ k c, template.cells[k]? = some c →
    ∃ properties text, row.cells[k]? = some ⟨properties, [.paragraph ⟨∅, [⟨∅, text⟩]⟩]⟩ ∧
      (c.properties ≠ ∅ → properties = c.properties) ∧
      (c.properties = ∅ → properties.entries =
        ["border-top", "border-bottom", "border-left", "border-right"].map fun edge =>
          (edge, "single:" ++ toString options.cellBorder)) ∧
      (∀ column x, StandsFor known template k column → e.child? column = some x →
        text = x.text) ∧
      ((∀ column x, StandsFor known template k column → e.child? column ≠ some x) → text = "")

theorem isEmpty_iff {p : Properties} : p.isEmpty = true ↔ p = ∅ := by
  rcases p with ⟨entries, hnodup⟩
  rw [Properties.isEmpty, List.isEmpty_iff]
  constructor
  · rintro rfl
    rfl
  · exact congrArg Properties.entries

/-- What a template gives for an element. -/
theorem renders_row (options : Options) (known : List String) (template : Row) (e : Element) :
    Renders options known template e
      (Template.row ⟨template.properties,
        (template.cells.map Cell.properties).zip (columnsOf known template)⟩ options e) where
  properties := rfl
  length := by
    simp only [Template.row, List.length_map, List.length_zip, length_columnsOf, Nat.min_self]
  cell k c hc := by
    have hlt : k < (columnsOf known template).length := by
      rw [length_columnsOf]
      exact (List.getElem?_eq_some_iff.mp hc).1
    obtain ⟨column?, hk⟩ : ∃ column?, (columnsOf known template)[k]? = some column? :=
      ⟨_, List.getElem?_eq_getElem hlt⟩
    have hzip : ((template.cells.map Cell.properties).zip (columnsOf known template))[k]? =
        some (c.properties, column?) :=
      List.getElem?_zip_eq_some.mpr ⟨by rw [List.getElem?_map, hc, Option.map_some], hk⟩
    refine ⟨cellProperties options c.properties, (column?.map e.textUnder).getD "", ?_, fun h => ?_,
      fun h => ?_, fun column x hstands hx => ?_, fun h => ?_⟩
    · rw [Template.row, List.getElem?_map, hzip]
      rfl
    · exact if_neg fun hempty => h (isEmpty_iff.mp hempty)
    · rw [cellProperties, if_pos (isEmpty_iff.mpr h)]
      rfl
    · rw [standsFor_iff, hk, Option.some.injEq] at hstands
      rw [hstands, Option.map_some, Option.getD_some, Element.textUnder, hx]
    · cases column? with
      | none => rfl
      | some column =>
          have hnone : e.child? column = none :=
            Option.eq_none_iff_forall_ne_some.mpr fun x => h column x (standsFor_iff.mpr hk)
          rw [Option.map_some, Option.getD_some, Element.textUnder, hnone]

/-- Rows that are put in one after the other, each below the header, end up in reverse. -/
theorem foldl_insertIdx (header : Row) (rows rest : List Row) :
    rows.foldl (fun table row => table.insertIdx 1 row) (header :: rest) =
      header :: (rows.reverse ++ rest) := by
  induction rows generalizing rest with
  | nil => rfl
  | cons row rows ih =>
      rw [List.foldl_cons, List.insertIdx_succ_cons, List.insertIdx_zero, ih, List.reverse_cons,
        List.append_assoc, List.singleton_append]

/-! ### Filling -/

/-- The table after it was to be filled. -/
def Filling.after (before : Table) : Filling → Table
  | .filled table => table
  | .noData | .misfit _ => before

theorem fill_of_length_lt {options : Options} {first : Element} {later : List Element}
    {table : Table} (h : table.rows.length < 2) :
    fill options (first :: later) table = .misfit .noTemplateRow := by
  rcases table with ⟨properties, _ | ⟨header, _ | ⟨template, rest⟩⟩⟩
  · rfl
  · rfl
  · exact absurd h (by simp only [List.length_cons]; omega)

section

variable {options : Options} {first : Element} {later : List Element} {properties : Properties}
  {header template : Row} {rest : List Row}

theorem fill_of_ofRow_eq_error {reason : Misfit}
    (h : Template.ofRow first.columns template = .error reason) :
    fill options (first :: later) ⟨properties, header :: template :: rest⟩ = .misfit reason := by
  simp only [fill, h]

theorem fill_of_ofRow_eq_ok {t : Template} (h : Template.ofRow first.columns template = .ok t) :
    fill options (first :: later) ⟨properties, header :: template :: rest⟩ =
      .filled ⟨properties, header :: ((first :: later).map (t.row options)).reverse ++ rest⟩ := by
  simp only [fill, h]

end

/-- What filling a table does is decided by its second row. -/
theorem fill_cons (options : Options) (first : Element) (later : List Element) (table : Table) :
    fill options (first :: later) table = match table.rows[1]? with
      | none => .misfit .noTemplateRow
      | some template => match Template.ofRow first.columns template with
        | .ok t => .filled { table with
            rows := table.rows.take 1 ++ ((first :: later).map (t.row options)).reverse ++
              table.rows.drop 2 }
        | .error reason => .misfit reason := by
  rcases table with ⟨properties, _ | ⟨header, _ | ⟨template, rest⟩⟩⟩
  · rfl
  · rfl
  · cases h : Template.ofRow first.columns template with
    | error reason =>
        simp only [fill_of_ofRow_eq_error h, List.getElem?_cons_succ, List.getElem?_cons_zero, h]
    | ok t =>
        simp only [fill_of_ofRow_eq_ok h, List.getElem?_cons_succ, List.getElem?_cons_zero, h]
        rfl

/-- What filling a table does.

    Without elements there is nothing to do. Otherwise the table has to have a template row,
    some cell of that row has to ask for a column, and one of the columns that are asked for
    has to be known from the first element. The table stays as it is where one of this fails,
    and the reason is the first that fails. If none fails, the template row goes away, and the
    rows that the elements give, one each, come in after the header, each directly below it
    and so in reverse. The header, the rows below the template row and the formatting of the table
    stay. -/
theorem fill_effect (options : Options) (elements : List Element) (table : Table) :
    let outcome := fill options elements table
    (elements = [] → outcome = .noData ∧ outcome.after table = table) ∧
      ∀ first, elements.head? = some first →
        (table.rows.length < 2 →
          outcome = .misfit .noTemplateRow ∧ outcome.after table = table) ∧
        ∀ template, table.rows[1]? = some template →
          ((∀ k column, ¬ template.Asks k column) →
            outcome = .misfit .noColumnCells ∧ outcome.after table = table) ∧
          ((∃ k column, template.Asks k column) →
            (∀ k column, template.Asks k column → column ∉ first.columns) →
              outcome = .misfit .noKnownColumn ∧ outcome.after table = table) ∧
          ((∃ k column, template.Asks k column ∧ column ∈ first.columns) →
            ∃ rows, List.Forall₂ (Renders options first.columns template) elements rows ∧
              rows.length = elements.length ∧
              outcome = .filled (outcome.after table) ∧
              (outcome.after table).properties = table.properties ∧
              (outcome.after table).rows =
                table.rows.take 1 ++ rows.reverse ++ table.rows.drop 2 ∧
              (outcome.after table).rows =
                rows.foldl (fun l row => l.insertIdx 1 row) (table.rows.eraseIdx 1)) := by
  intro outcome
  constructor
  · rintro rfl
    exact ⟨rfl, rfl⟩
  · intro first hfirst
    rcases List.head?_eq_some_iff.mp hfirst with ⟨later, rfl⟩
    rcases table with ⟨properties, rows⟩
    constructor
    · intro hshort
      have hnone : outcome = .misfit .noTemplateRow := fill_of_length_lt hshort
      rw [hnone]
      exact ⟨rfl, rfl⟩
    · intro template htemplate
      obtain ⟨header, rest, rfl⟩ : ∃ header rest, rows = header :: template :: rest := by
        rcases rows with _ | ⟨header, _ | ⟨second, rest⟩⟩
        · exact absurd htemplate (by simp only [List.getElem?_nil, reduceCtorEq, not_false_eq_true])
        · exact absurd htemplate (by
            simp only [List.getElem?_cons_succ, List.getElem?_nil, reduceCtorEq, not_false_eq_true])
        · exact ⟨header, rest, by rw [Option.some.inj htemplate]⟩
      refine ⟨fun hasks => ?_, fun hasks hknown => ?_, fun hasks => ?_⟩
      · have hmisfit : outcome = .misfit .noColumnCells :=
          fill_of_ofRow_eq_error (Template.ofRow_of_no_column_cells hasks)
        rw [hmisfit]
        exact ⟨rfl, rfl⟩
      · rcases hasks with ⟨k, column, hasks⟩
        have hmisfit : outcome = .misfit .noKnownColumn :=
          fill_of_ofRow_eq_error (Template.ofRow_of_no_known_column hasks hknown)
        rw [hmisfit]
        exact ⟨rfl, rfl⟩
      · rcases hasks with ⟨k, column, hasks, hknown⟩
        have hfilled : outcome = _ := fill_of_ofRow_eq_ok (Template.ofRow_eq_ok hasks hknown)
        rw [hfilled]
        refine ⟨_, ?_, List.length_map _, rfl, rfl, rfl, ?_⟩
        · rw [List.forall₂_map_right_iff, List.forall₂_same]
          exact fun e _ => renders_row options first.columns template e
        · exact (foldl_insertIdx header _ rest).symm

/-! ### A price list -/

/-- An item with a name, and perhaps with a price. -/
def item (name : String) (price? : Option String) : Element :=
  ⟨"Item", .element ⟨"Name", [.text name]⟩ ::
    (price?.map fun price => .element ⟨"Price", [.text price]⟩).toList⟩

/-- A table with a header, a template row and one more row. -/
def priceList (template : Row) : Table :=
  ⟨∅, [.ofTexts ["What", "", ""], template, .ofTexts ["total"]]⟩

/-- A template row that asks for the name twice. -/
def twiceNamed : Row := .ofTexts [" ./Name", "./Price", "./Name "]

/-- No items, no template row, no cell that asks, no column that is known, and last a list with
    an item that has no price. The name goes to the later of the two cells that ask for it. -/
theorem fill_twiceNamed :
    let items := [item "pear" (some "2"), item "plum" none]
    fill .default [] (priceList twiceNamed) = .noData ∧
      fill .default items .empty = .misfit .noTemplateRow ∧
      fill .default items (priceList (.ofTexts ["Name"])) = .misfit .noColumnCells ∧
      fill .default items (priceList (.ofTexts ["./Colour"])) = .misfit .noKnownColumn ∧
      ∃ rows filled, List.Forall₂ (Renders .default ["Name", "Price"] twiceNamed) items rows ∧
        fill .default items (priceList twiceNamed) = .filled filled ∧
        filled.rows = [.ofTexts ["What", "", ""]] ++ rows.reverse ++ [.ofTexts ["total"]] ∧
        filled.rows.map Row.texts =
          [["What", "", ""], ["", "", "plum"], ["", "2", "pear"], ["total"]] := by
  have hnone : ∀ k column, ¬ (Row.ofTexts ["Name"]).Asks k column := by
    intro k column h
    have hmem : some column ∈ [none] := List.mem_of_getElem? (asks_iff.mp h)
    exact Option.some_ne_none column (List.mem_singleton.mp hmem)
  have hcolour : ∀ k column, (Row.ofTexts ["./Colour"]).Asks k column →
      column ∉ (item "pear" (some "2")).columns := by
    intro k column h
    have hmem : some column ∈ [some "Colour"] := List.mem_of_getElem? (asks_iff.mp h)
    rw [Option.some.inj (List.mem_singleton.mp hmem)]
    decide
  refine ⟨((fill_effect _ _ _).1 rfl).1, (((fill_effect _ _ _).2 _ rfl).1 (by decide)).1,
    (((fill_effect _ _ _).2 _ rfl).2 _ rfl |>.1 hnone).1,
    (((fill_effect _ _ _).2 _ rfl).2 _ rfl |>.2.1 ⟨0, "Colour", _, rfl, by decide⟩ hcolour).1, ?_⟩
  rcases ((fill_effect .default [item "pear" (some "2"), item "plum" none]
    (priceList twiceNamed)).2 _ rfl).2 twiceNamed rfl |>.2.2
      ⟨1, "Price", ⟨_, rfl, by decide⟩, by decide⟩ with ⟨rows, hrows, _, hfill, _, htable, _⟩
  exact ⟨rows, _, hrows, hfill, htable, rfl⟩

end Table

end MailMerge
