import MailMerge.Data.Element
import MailMerge.Document.Block
import MailMerge.Options
import MailMerge.Table.Style

/-!
# Generating a Table

A table marker that has no table to fill gets one. The data is a list of
elements, one for each row, and the first of them decides the columns: they are
the local names of its children, in order. A shaded header names the columns.
Each element then gives a row, with an empty cell where it lacks a column.

A column is looked up in an element by its name as written. A child whose name
has a part before a colon therefore makes a column that nothing is found under.

No elements give a table without rows, and without formatting.

## Main definitions

* `Table.ofElements`: The table of a list of elements.

## Theorems

* `length_rows_ofElements`: A table has its header and a row for each element.
* `texts_headerRow`, `texts_dataRow`: What the rows say.
-/

namespace MailMerge

namespace Table

/-- The header of some columns. -/
def headerRow (options : Options) (columns : List String) : Row :=
  ⟨∅, columns.map (Cell.ofText (.headerShading options.headerFill))⟩

/-- The row that an element gives under some columns. -/
def dataRow (columns : List String) (e : Element) : Row := .ofTexts (columns.map e.textUnder)

/-- The table that a list of elements gives. -/
def ofElements (options : Options) : List Element → Table
  | [] => .empty
  | first :: rest =>
      ⟨.tableBorders options.tableBorder,
        headerRow options first.columns :: (first :: rest).map (dataRow first.columns)⟩

/-- The header says what the columns are called. -/
theorem texts_headerRow (options : Options) (columns : List String) :
    (headerRow options columns).texts = columns := by
  simp only [Row.texts, headerRow, List.map_map]
  induction columns with
  | nil => rfl
  | cons c l ih => rw [List.map_cons, Function.comp_apply, Cell.text_ofText, ih]

/-- A row says what is found under the columns. -/
theorem texts_dataRow (columns : List String) (e : Element) :
    (dataRow columns e).texts = columns.map e.textUnder :=
  Row.texts_ofTexts _

/-- A table has its header and a row for each element. -/
theorem length_rows_ofElements (options : Options) (first : Element) (rest : List Element) :
    (ofElements options (first :: rest)).rows.length = (first :: rest).length + 1 := by
  simp only [ofElements, List.length_cons, List.length_map]

end Table

end MailMerge
