import MailMerge.Document.Block
import MailMerge.Marker
import MailMerge.Merge.Rows
import MailMerge.Table.Synthesis

/-!
# Splitting around Tables

A paragraph whose table markers have no table to fill becomes several blocks. A
table is generated for each marker and stands where the marker stood, and the
text before, between and behind the tables becomes paragraphs of its own. A
stretch that says nothing becomes no paragraph.

A marker that is repeated gets one table, where it first stands. Its other
occurrences are text like any other.

## Main definitions

* `fragment`: A stretch of text as blocks.
* `generateTable`: The table that a marker gives.
* `interleave`: A text with tables in the places of literals.
* `splitAround`: A text split around the tables of its markers.

## Theorems

* `fragment_of_isBlank`: A stretch that says nothing becomes no block.
-/

namespace MailMerge

/-- A stretch of text as a paragraph, or as nothing when it says nothing. -/
def fragment (t : List Char) : List Block :=
  if t.all Text.isBlank then [] else [.paragraph (.ofText (String.ofList t))]

/-- A stretch that says nothing becomes no block. -/
theorem fragment_of_isBlank {t : List Char} (h : t.all Text.isBlank = true) :
    fragment t = [] := by
  simp only [fragment, h, if_true]

/-- The table that a marker gives, counted. -/
def generateTable (data : Element) (options : Options) (m : Marker) : Reported Table := do
  let rows ← data.rowsAt m.path
  Reported.tell ⟨0, 1, 0, []⟩
  return .ofElements options rows

/-- A text with each table in the place where its literal comes next. -/
def interleave : (rest : List Char) → List (String × Table) → List Block
  | rest, [] => fragment rest
  | rest, (literal, table) :: tables =>
      match Text.splitAtFirst? literal.toList rest with
      | some (before, behind) => fragment before ++ .table table :: interleave behind tables
      | none => interleave rest tables

/-- A text split around the tables of its markers. -/
def splitAround (data : Element) (options : Options) (text : String) (markers : List Marker) :
    Reported (List Block) := do
  let tables ← (Marker.distinct markers).mapM fun m => do
    return (m.literal, ← generateTable data options m)
  return interleave text.toList tables

end MailMerge
