import MailMerge.Merge.ContentPass

/-!
# Sweeping Content in Place

How the second half of a merge is carried out. A list of blocks is changed where it
stands, from its front to its end, and an index says which block comes next. A paragraph
may give several blocks, which are spliced in where it stood, and the index goes on behind
all of them. So nothing that was just put in is looked at.

In a body the sweep goes into the cells of the tables that it comes to, and each cell is
swept on its own. In a cell a table counts as one block and is passed over.

The list may grow under the sweep, but each turn leaves one block less from the index on.
So there are never more turns than there were blocks in the beginning.

## Main definitions

* `Sweep`: The blocks as they are by now, and the index of the next one.
* `resolveAt`: Resolving the paragraph at an index.
* `Sweep.turns`: A number of turns, fewer if the end comes first.
* `sweepBlocks`, `sweepBody`: Sweeping the blocks of a cell, and those of a body.
-/

namespace MailMerge

namespace ContentPass

/-- How far a sweep is: the blocks as they are by now, and the index of the next one. -/
structure Sweep where
  blocks : List Block
  index : Nat

/-- Blocks with the one at an index replaced by some others. -/
def splice (index : Nat) (replacement blocks : List Block) : List Block :=
  blocks.take index ++ replacement ++ blocks.drop (index + 1)

/-- Resolves the paragraph at an index, if that is what is there, and tells how many blocks
    are in its place then. -/
def resolveAt (data : Element) (options : Options) (index : Nat) (blocks : List Block) :
    Reported (List Block × Nat) :=
  match blocks[index]? with
  | some (.paragraph p) => do
      let p ← substitute data p
      match scan .table p.text with
      | [] => return (blocks.set index (.paragraph p), 1)
      | m :: rest => do
          let replacement ← splitAround data options p.text (m :: rest)
          return (splice index replacement blocks, replacement.length)
  | some (.table _) | none => return (blocks, 1)

namespace Sweep

/-- A number of turns of a sweep. It ends when no block is left. -/
def turns (turn : Sweep → Reported Sweep) : Nat → Sweep → Reported Sweep
  | 0, s => return s
  | n + 1, s => if s.index < s.blocks.length then do turns turn n (← turn s) else return s

/-- A sweep over blocks, with a turn for each of them. -/
def through (turn : Sweep → Reported Sweep) (blocks : List Block) : Reported (List Block) := do
  let s ← turns turn blocks.length ⟨blocks, 0⟩
  return s.blocks

/-- The turn of a sweep in a cell. -/
def turnInCell (data : Element) (options : Options) (s : Sweep) : Reported Sweep := do
  let (blocks, produced) ← resolveAt data options s.index s.blocks
  return ⟨blocks, s.index + produced⟩

end Sweep

/-- Sweeps the blocks of a cell. -/
def sweepBlocks (data : Element) (options : Options) : List Block → Reported (List Block) :=
  Sweep.through (Sweep.turnInCell data options)

/-- Sweeps the cells of a table. -/
def sweepTable (data : Element) (options : Options) (t : Table) : Reported Table := do
  let rows ← t.rows.mapM fun r => do
    let cells ← r.cells.mapM fun c => do
      return { c with blocks := ← sweepBlocks data options c.blocks }
    return { r with cells }
  return { t with rows }

/-- The turn of a sweep in a body. -/
def Sweep.turnInBody (data : Element) (options : Options) (s : Sweep) : Reported Sweep :=
  match s.blocks[s.index]? with
  | some (.table t) => do
      let t ← sweepTable data options t
      return ⟨s.blocks.set s.index (.table t), s.index + 1⟩
  | some (.paragraph _) | none => Sweep.turnInCell data options s

/-- Sweeps the blocks of a body. -/
def sweepBody (data : Element) (options : Options) : List Block → Reported (List Block) :=
  Sweep.through (Sweep.turnInBody data options)

end ContentPass

end MailMerge
