import MailMerge.Data.Element
import MailMerge.Document.Block
import MailMerge.Options
import MailMerge.Table.Style
import MailMerge.Text.Blank
import MailMerge.Text.Cut

/-!
# Filling a Table

A table that follows its marker is filled. Its row 0 is a header and stays. Its
row 1 is the template: a cell that says `./Name` stands for the column `Name`.
The template row goes away, and each element of the data puts a row in its place
that looks like the template row.

Every new row goes in directly below the header. So the elements end up in
reverse, the last one on top.

Only columns that the first element has count, by the local names of its
children. When two cells of the template stand for the same column, the later
one gets it and the earlier one stays empty. A table whose template row stands
for nothing is left as it is, and the reason is given.

## Main definitions

* `Table.Misfit`: Why a table cannot be filled.
* `Table.columnsOf`: The column that each cell of a template row stands for.
* `Table.Template`: What new rows take from the template row.
* `Table.fill`: Filling a table.

## Theorems

* `length_columnsOf`: Each cell of the template stands for one column or none.
* `exists_of_fill`: What it takes to fill a table, and what the filled table is.
-/

namespace MailMerge

namespace Table

/-- Why a table cannot be filled: it has no template row, no cell of that row
    stands for a column, or none stands for a column that the data has. -/
inductive Misfit where
  | noTemplateRow
  | noColumnCells
  | noKnownColumn
deriving DecidableEq, Repr

/-- The wording of a misfit. -/
def Misfit.message : Misfit → String
  | .noTemplateRow => "table does not have enough rows to identify the template row"
  | .noColumnCells => "template row does not contain placeholder cells"
  | .noKnownColumn => "could not map data columns to template cells"

/-- The name behind the `./` that a cell's text begins with. -/
def columnName? (text : String) : Option String :=
  match Text.trim text.toList with
  | '.' :: '/' :: name => some (String.ofList name)
  | _ => none

/-- Which of the names are known and do not come again further on. -/
def lastKnown (known : List String) : List (Option String) → List (Option String)
  | [] => []
  | name? :: rest =>
      (name?.filter fun name => name ∈ known ∧ some name ∉ rest) :: lastKnown known rest

theorem length_lastKnown (known : List String) (names : List (Option String)) :
    (lastKnown known names).length = names.length := by
  induction names with
  | nil => rfl
  | cons name names ih => rw [lastKnown, List.length_cons, List.length_cons, ih]

/-- What new rows take from the template row: its formatting, and for each cell
    the formatting and the column it stands for. -/
structure Template where
  properties : Properties
  cells : List (Properties × Option String)

/-- The names that the cells of a row stand for, known or not. -/
def columnNames (row : Row) : List (Option String) := row.texts.map columnName?

/-- The columns that the cells of a row stand for, given the columns that the
    data has. -/
def columnsOf (known : List String) (row : Row) : List (Option String) :=
  lastKnown known (columnNames row)

/-- Each cell of the template stands for one column or none. -/
theorem length_columnsOf (known : List String) (row : Row) :
    (columnsOf known row).length = row.cells.length := by
  simp only [columnsOf, columnNames, length_lastKnown, Row.texts, List.length_map]

/-- Reads a template off a row, given the columns that the data has. -/
def Template.ofRow (known : List String) (row : Row) : Except Misfit Template :=
  let columns := columnsOf known row
  if (columnNames row).all Option.isNone then .error .noColumnCells
  else if columns.all Option.isNone then .error .noKnownColumn
  else .ok ⟨row.properties, (row.cells.map Cell.properties).zip columns⟩

/-- The formatting of a new cell. A template cell without any gives borders. -/
def cellProperties (options : Options) (p : Properties) : Properties :=
  if p.isEmpty then .cellBorders options.cellBorder else p

/-- The row that an element gives. -/
def Template.row (template : Template) (options : Options) (e : Element) : Row :=
  ⟨template.properties, template.cells.map fun (properties, column?) =>
    .ofText (cellProperties options properties) ((column?.map e.textUnder).getD "")⟩

/-- What became of filling a table: a new table, nothing since there is no data,
    or nothing since the table does not fit. -/
inductive Filling where
  | filled (table : Table)
  | noData
  | misfit (reason : Misfit)

/-- Fills a table with a list of elements. -/
def fill (options : Options) (elements : List Element) (table : Table) : Filling :=
  match elements, table.rows with
  | [], _ => .noData
  | first :: _, header :: templateRow :: rest =>
      match Template.ofRow first.columns templateRow with
      | .ok template =>
          .filled { table with
            rows := header :: (elements.map (template.row options)).reverse ++ rest }
      | .error reason => .misfit reason
  | _ :: _, _ => .misfit .noTemplateRow

/-- What it takes to fill a table, and what the filled table is. -/
theorem exists_of_fill {options : Options} {elements : List Element} {table filled : Table}
    (h : fill options elements table = .filled filled) :
    ∃ first later header templateRow rest, ∃ template : Template, elements = first :: later ∧
      table.rows = header :: templateRow :: rest ∧
      Template.ofRow first.columns templateRow = .ok template ∧
      filled = { table with
        rows := header :: (elements.map (template.row options)).reverse ++ rest } := by
  unfold fill at h
  split at h
  · exact absurd h (by simp only [reduceCtorEq, not_false_eq_true])
  · next first later header templateRow rest hrows =>
      split at h
      · next template htemplate =>
          rw [Filling.filled.injEq] at h
          exact ⟨first, later, header, templateRow, rest, template, rfl, hrows, htemplate, h.symm⟩
      · exact absurd h (by simp only [reduceCtorEq, not_false_eq_true])
  · exact absurd h (by simp only [reduceCtorEq, not_false_eq_true])

end Table

end MailMerge
