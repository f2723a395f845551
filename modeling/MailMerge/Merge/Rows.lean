import MailMerge.Data.Path
import MailMerge.Merge.Report

/-!
# Rows of a Table Marker

The rows that a table marker asks for are the children of the element at its
path. A path that leads nowhere gives no rows, and this is noted. An element
without children gives no rows either, and is nothing to note.

## Main definitions

* `Element.rowsAt`: The rows at a path.

## Theorems

* `value_rowsAt`: The rows are the children that the path lists.
* `report_rowsAt_of_some`: Nothing is noted where the path leads somewhere.
-/

namespace MailMerge

namespace Element

/-- What is noted when the path of a table marker leads nowhere. -/
def noRowsDiagnostic (path : String) : Diagnostic :=
  ⟨.unresolvedPlaceholder, "table placeholder has no data", some (Path.normalize path)⟩

/-- The rows at a path. -/
def rowsAt (data : Element) (path : String) : Reported (List Element) :=
  match data.resolve? path with
  | some e => pure e.children
  | none => do
      Reported.note (noRowsDiagnostic path)
      return []

/-- The rows are the children that the path lists. -/
theorem value_rowsAt (data : Element) (path : String) :
    (data.rowsAt path).value = data.listAt path := by
  unfold rowsAt listAt
  cases data.resolve? path <;> rfl

/-- Nothing is noted where the path leads somewhere. -/
theorem report_rowsAt_of_some {data e : Element} {path : String}
    (h : data.resolve? path = some e) : (data.rowsAt path).report = ∅ := by
  simp only [rowsAt, h, Reported.report_pure]

/-- Where the path leads nowhere, this is all that is noted. -/
theorem report_rowsAt_of_none {data : Element} {path : String}
    (h : data.resolve? path = none) :
    (data.rowsAt path).report = .ofDiagnostic (noRowsDiagnostic path) := by
  simp only [rowsAt, h, Reported.report_bind, Reported.report_pure, Report.append_empty,
    Reported.note, Reported.tell]

end Element

end MailMerge
