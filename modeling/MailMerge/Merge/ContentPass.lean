import MailMerge.Merge.Splitting
import MailMerge.Merge.Substitution

/-!
# The Content Pass

The second half of a merge goes through the paragraphs of the body and those in
the cells of its tables. Content markers are replaced. A paragraph that then
still has table markers is split around generated tables, so that several blocks
may come to stand where it was.

The pass does not look at what it put in: a generated table is not entered, and
the paragraphs around it are not searched again. It does not enter tables inside
cells either, whatever they hold.

So the pass is a flat map in document order, from each paragraph to its
expansion. This is how it is written down here. It is carried out by changing
the blocks in place, which comes to the same.

## Main definitions

* `ContentPass.expand`: The blocks that a paragraph becomes.
* `ContentPass.expandBlocks`: The blocks that the blocks of a cell become.
* `ContentPass.run`: The blocks that the blocks of a body become.

## Theorems

* `expand_of_no_markers`: A paragraph without markers stays.
-/

namespace MailMerge

namespace ContentPass

/-- The blocks that a paragraph becomes. -/
def expand (data : Element) (options : Options) (p : Paragraph) : Reported (List Block) := do
  let p ← substitute data p
  match scan .table p.text with
  | [] => return [.paragraph p]
  | m :: rest => splitAround data options p.text (m :: rest)

/-- The blocks that the blocks of a cell become. Tables stay. -/
def expandBlocks (data : Element) (options : Options) : List Block → Reported (List Block)
  | [] => return []
  | .paragraph p :: rest => do
      let first ← expand data options p
      return first ++ (← expandBlocks data options rest)
  | .table t :: rest => return .table t :: (← expandBlocks data options rest)

/-- A cell after the pass. -/
def expandCell (data : Element) (options : Options) (c : Cell) : Reported Cell := do
  return { c with blocks := ← expandBlocks data options c.blocks }

/-- A row after the pass. -/
def expandRow (data : Element) (options : Options) (r : Row) : Reported Row := do
  return { r with cells := ← r.cells.mapM (expandCell data options) }

/-- A table of the body after the pass. -/
def expandTable (data : Element) (options : Options) (t : Table) : Reported Table := do
  return { t with rows := ← t.rows.mapM (expandRow data options) }

/-- The blocks that the blocks of a body become. -/
def run (data : Element) (options : Options) : List Block → Reported (List Block)
  | [] => return []
  | .paragraph p :: rest => do
      let first ← expand data options p
      return first ++ (← run data options rest)
  | .table t :: rest => do
      let first ← expandTable data options t
      return .table first :: (← run data options rest)

/-- A paragraph without markers stays. -/
theorem expand_of_no_markers {data : Element} {options : Options} {p : Paragraph}
    (content : scan .content p.text = []) (table : scan .table p.text = []) :
    expand data options p = pure [.paragraph p] := by
  simp only [expand, substitute_of_scan_eq_nil content, pure_bind, table]

end ContentPass

end MailMerge
