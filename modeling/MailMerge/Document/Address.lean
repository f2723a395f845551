import MailMerge.Document.Block

/-!
# Addresses in a Document

A block is addressed by its index in the body and then, table by table, by the
row, the cell and the place in that cell from which the descent goes on. This is
a Gorn address in which a step names a block inside a table instead of a child.

`places` lists a body in document order: a table comes before what is in its
cells, rows come in turn, and so do cells and blocks.

Addresses are remembered while the document changes under them. There is one
change that moves blocks: filling a table takes away its second row and puts
new ones in its place. What an address becomes then is `rebase`. An address
outside of the table stays, one in the header stays, one in the row that went
away is lost, and one further down moves by the rows that came in.

## Main definitions

* `Step`, `Address`: One descent into a table, and a whole address.
* `Block.at?`, `blockAt?`: The block at an address.
* `Block.modifyAt`, `modifyAt`: Changing the block at an address.
* `Place`, `places`: All addresses with the kind of block, in document order.
* `Address.rebase`: An address after a table was filled.

## Theorems

* `at?_append`: Descending two lists of steps in turn.
* `rebase_of_root_ne`: An address under another block of the body stays.
* `rebase_self`: The address of the table itself stays.
-/

namespace MailMerge

/-- A descent into a table: the row, the cell in it, and the block in that. -/
structure Step where
  row : Nat
  cell : Nat
  block : Nat
deriving DecidableEq, Repr

/-- The place of a block: its index in the body, and the descents from there,
    the outermost first. -/
structure Address where
  root : Nat
  steps : List Step
deriving DecidableEq, Repr

namespace Address

/-- The address one descent further in. -/
def child (a : Address) (s : Step) : Address := ⟨a.root, a.steps ++ [s]⟩

/-- What an address becomes when the table at `table` loses its row 1 and gets
    `inserted` rows in its place. It is lost when it leads into that row. -/
def rebase (table : Address) (inserted : Nat) (a : Address) : Option Address :=
  if a.root = table.root then
    match table.steps.isPrefixOf? a.steps with
    | some (s :: inner) => match s.row with
      | 0 => some a
      | 1 => none
      | row + 2 => some ⟨a.root, table.steps ++ { s with row := row + 1 + inserted } :: inner⟩
    | _ => some a
  else some a

/-- An address under another block of the body stays. -/
theorem rebase_of_root_ne {table a : Address} (inserted : Nat) (h : a.root ≠ table.root) :
    rebase table inserted a = some a := by
  simp only [rebase, h, if_false]

theorem isPrefixOf?_self (l : List Step) : l.isPrefixOf? l = some [] := by
  induction l with
  | nil => rfl
  | cons s l ih => exact (if_pos (beq_self_eq_true s)).trans ih

/-- The address of the table itself stays. -/
theorem rebase_self (table : Address) (inserted : Nat) :
    rebase table inserted table = some table := by
  simp only [rebase, if_true, isPrefixOf?_self]

end Address

namespace Block

/-- The block that a descent from a block leads to. -/
def at? : Block → List Step → Option Block
  | b, [] => some b
  | .table t, s :: rest => do
      let row ← t.rows[s.row]?
      let cell ← row.cells[s.cell]?
      let b ← cell.blocks[s.block]?
      b.at? rest
  | .paragraph _, _ :: _ => none

theorem at?_append (b : Block) (p q : List Step) :
    b.at? (p ++ q) = (b.at? p).bind fun c => c.at? q := by
  induction p generalizing b with
  | nil => cases b <;> rfl
  | cons s p ih =>
      cases b with
      | paragraph p => rfl
      | table t =>
          simp only [List.cons_append, at?, Option.bind_eq_bind, Option.bind_assoc, ih]

/-- Changes the block that a descent leads to, if there is one. -/
def modifyAt (f : Block → Block) : List Step → Block → Block
  | [], b => f b
  | _ :: _, .paragraph p => .paragraph p
  | s :: rest, .table t =>
      .table { t with rows := t.rows.modify s.row fun r =>
        { r with cells := r.cells.modify s.cell fun c =>
          { c with blocks := c.blocks.modify s.block (modifyAt f rest) } } }

end Block

/-- The block at an address. -/
def blockAt? (blocks : List Block) (a : Address) : Option Block :=
  blocks[a.root]?.bind fun b => b.at? a.steps

/-- Changes the block at an address, if there is one. -/
def modifyAt (f : Block → Block) (a : Address) (blocks : List Block) : List Block :=
  blocks.modify a.root (Block.modifyAt f a.steps)

/-- The paragraph at an address, if that is what is there. -/
def paragraphAt? (blocks : List Block) (a : Address) : Option Paragraph :=
  (blockAt? blocks a).bind Block.paragraph?

theorem paragraphAt?_eq_some_iff {blocks : List Block} {a : Address} {p : Paragraph} :
    paragraphAt? blocks a = some p ↔ blockAt? blocks a = some (.paragraph p) := by
  rw [paragraphAt?, Option.bind_eq_some_iff]
  constructor
  · intro h
    rcases h with ⟨b, hb, hp⟩
    rw [hb, Block.paragraph?_eq_some_iff.mp hp]
  · intro h
    exact ⟨_, h, rfl⟩

/-- The table at an address, if that is what is there. -/
def tableAt? (blocks : List Block) (a : Address) : Option Table :=
  (blockAt? blocks a).bind Block.table?

/-- An address with the kind of block that is there. -/
structure Place where
  address : Address
  kind : Block.Kind
deriving DecidableEq, Repr

mutual

/-- The block at `here` and all blocks inside it, in document order. -/
def Block.places (here : Address) : Block → List Place
  | .paragraph _ => [⟨here, .paragraph⟩]
  | .table ⟨_, rows⟩ => ⟨here, .table⟩ :: placesInRows here 0 rows

/-- The blocks in the rows of the table at `here`, from row `row` on. -/
def placesInRows (here : Address) (row : Nat) : List Row → List Place
  | [] => []
  | ⟨_, cells⟩ :: rest => placesInCells here row 0 cells ++ placesInRows here (row + 1) rest

/-- The blocks in the cells of a row, from cell `cell` on. -/
def placesInCells (here : Address) (row cell : Nat) : List Cell → List Place
  | [] => []
  | ⟨_, blocks⟩ :: rest =>
      placesInBlocks here row cell 0 blocks ++ placesInCells here row (cell + 1) rest

/-- The blocks of a cell, from block `block` on. -/
def placesInBlocks (here : Address) (row cell block : Nat) : List Block → List Place
  | [] => []
  | b :: rest =>
      b.places (here.child ⟨row, cell, block⟩) ++ placesInBlocks here row cell (block + 1) rest

end

/-- All blocks of a body from index `root` on, in document order. -/
def placesFrom (root : Nat) : List Block → List Place
  | [] => []
  | b :: rest => b.places ⟨root, []⟩ ++ placesFrom (root + 1) rest

/-- All blocks of a body, in document order. -/
def places (blocks : List Block) : List Place := placesFrom 0 blocks

end MailMerge
