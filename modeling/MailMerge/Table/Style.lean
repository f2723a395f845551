import MailMerge.Document.Properties

/-!
# Table Formatting

The formatting that a merge gives to tables and cells which it makes itself. A
border is a single line of some size, on each edge by name.

## Main definitions

* `Properties.tableBorders`: Borders around a table and between its cells.
* `Properties.cellBorders`: Borders around a single cell.
* `Properties.headerShading`: The shading of a header cell.

## Theorems

* `isEmpty_cellBorders`: Borders are formatting.
-/

namespace MailMerge

namespace Properties

/-- A single line of a size. -/
def singleBorder (size : Nat) : String := "single:" ++ toString size

/-- A single line of a size on each of some edges. -/
def borders (edges : List String) (size : Nat) : Properties :=
  ofList (edges.map fun edge => (edge, singleBorder size))

/-- Single lines around a table and between its cells. -/
def tableBorders : (size : Nat) → Properties :=
  borders ["border-top", "border-bottom", "border-left", "border-right",
    "border-inside-h", "border-inside-v"]

/-- Single lines around a cell. -/
def cellBorders : (size : Nat) → Properties :=
  borders ["border-top", "border-bottom", "border-left", "border-right"]

/-- A light shading. -/
def headerShading (fill : String) : Properties :=
  ofList [("shading-fill", fill), ("shading-pattern", "clear")]

/-- Borders are formatting. -/
theorem isEmpty_cellBorders (size : Nat) : (cellBorders size).isEmpty = false := rfl

end Properties

end MailMerge
