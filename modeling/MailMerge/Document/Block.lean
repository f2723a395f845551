import MailMerge.Document.Properties

/-!
# The Document Tree

The parts of a word-processing document that merging cares about. A body is a
list of blocks. A block is a paragraph, made of runs of text, or a table, made
of rows of cells, and a cell holds blocks again, so tables nest.

Every node carries formatting properties. What a paragraph says is the texts of
its runs put together; a marker may well be spread over several of them.

The four types of the tree are declared together, since a cell leads back to
blocks. Functions on the tree follow the same shape, one for each kind of list
in it, and `Block.induction` is the induction that proofs use: a statement
about blocks holds if it holds for paragraphs, and for a table whenever it
holds for all blocks inside its cells.

## Main definitions

* `Run`, `Paragraph`: Text with formatting.
* `Block`, `Table`, `Row`, `Cell`: The tree.
* `Document`: A body, which may be missing.
* `Paragraph.text`, `Cell.text`, `Row.texts`: What they say.
* `Paragraph.setText`, `Paragraph.clearRuns`: Changing what a paragraph says.

## Theorems

* `text_ofText`, `text_setText`: A paragraph says what it was made to say.
* `Block.induction`: Induction over the blocks inside a table's cells.
-/

namespace MailMerge

/-- A stretch of text with one formatting. -/
structure Run where
  properties : Properties
  text : String
deriving DecidableEq

/-- A run without formatting. -/
def Run.plain (s : String) : Run := ⟨∅, s⟩

/-- A paragraph: formatting of its own, and runs. -/
structure Paragraph where
  properties : Properties
  runs : List Run
deriving DecidableEq

namespace Paragraph

/-- A paragraph of a single run without formatting. -/
def ofText (s : String) : Paragraph := ⟨∅, [Run.plain s]⟩

/-- The texts of runs, put together. -/
def textOf : List Run → String
  | [] => ""
  | r :: rest => r.text ++ textOf rest

/-- What a paragraph says. -/
def text (p : Paragraph) : String := textOf p.runs

/-- The paragraph saying something else in a single run without formatting.
    The formatting of the paragraph itself stays. -/
def setText (p : Paragraph) (s : String) : Paragraph := { p with runs := [Run.plain s] }

/-- The paragraph saying nothing. -/
def clearRuns (p : Paragraph) : Paragraph := { p with runs := [] }

/-- The paragraph with one more run. -/
def addRun (p : Paragraph) (r : Run) : Paragraph := { p with runs := p.runs ++ [r] }

theorem text_setText (p : Paragraph) (s : String) : (p.setText s).text = s := by
  simp only [text, setText, textOf, Run.plain, String.append_empty]

theorem text_ofText (s : String) : (ofText s).text = s := by
  simp only [text, ofText, textOf, Run.plain, String.append_empty]

theorem text_clearRuns (p : Paragraph) : p.clearRuns.text = "" := rfl

end Paragraph

mutual

/-- A block of a document. -/
inductive Block where
  | paragraph (p : Paragraph)
  | table (t : Table)

/-- A table: formatting of its own, and rows. -/
structure Table where
  properties : Properties
  rows : List Row

/-- A row of a table. -/
structure Row where
  properties : Properties
  cells : List Cell

/-- A cell of a row. -/
structure Cell where
  properties : Properties
  blocks : List Block

end

/-- A document. Its body may be missing. -/
structure Document where
  body : Option (List Block)

namespace Cell

/-- A cell of a single paragraph. -/
def ofText (properties : Properties) (s : String) : Cell :=
  ⟨properties, [.paragraph (.ofText s)]⟩

/-- The texts of the paragraphs among blocks. -/
def textOf : List Block → String
  | [] => ""
  | .paragraph p :: rest => p.text ++ textOf rest
  | .table _ :: rest => textOf rest

/-- What the paragraphs of a cell say, put together. Tables inside the cell
    are passed over. -/
def text (c : Cell) : String := textOf c.blocks

theorem text_ofText (properties : Properties) (s : String) : (ofText properties s).text = s := by
  simp only [text, ofText, textOf, Paragraph.text_ofText, String.append_empty]

end Cell

namespace Row

/-- A row of cells with one plain paragraph each. -/
def ofTexts (texts : List String) : Row := ⟨∅, texts.map (Cell.ofText ∅)⟩

/-- What the cells of a row say. -/
def texts (r : Row) : List String := r.cells.map Cell.text

theorem texts_ofTexts (l : List String) : (ofTexts l).texts = l := by
  simp only [texts, ofTexts, List.map_map]
  induction l with
  | nil => rfl
  | cons s l ih => rw [List.map_cons, Function.comp_apply, Cell.text_ofText, ih]

end Row

/-- A table of no rows. -/
def Table.empty : Table := ⟨∅, []⟩

namespace Block

/-- The two kinds of block. -/
inductive Kind where
  | paragraph
  | table
deriving DecidableEq, Repr

/-- What kind of block a block is. -/
def kind : Block → Kind
  | .paragraph _ => .paragraph
  | .table _ => .table

/-- The paragraph that a block is, if it is one. -/
def paragraph? : Block → Option Paragraph
  | .paragraph p => some p
  | .table _ => none

theorem paragraph?_eq_some_iff {b : Block} {p : Paragraph} :
    b.paragraph? = some p ↔ b = .paragraph p := by
  cases b with
  | paragraph q => rw [paragraph?, Option.some.injEq, paragraph.injEq]
  | table t => simp only [paragraph?, reduceCtorEq]

/-- The table that a block is, if it is one. -/
def table? : Block → Option Table
  | .paragraph _ => none
  | .table t => some t

mutual

/-- Induction over blocks: a table is treated after all blocks inside its
    cells. -/
theorem induction {P : Block → Prop} (paragraph : ∀ p, P (.paragraph p))
    (table : ∀ t : Table, (∀ r ∈ t.rows, ∀ c ∈ r.cells, ∀ b ∈ c.blocks, P b) → P (.table t)) :
    ∀ b, P b
  | .paragraph p => paragraph p
  | .table ⟨properties, rows⟩ => table ⟨properties, rows⟩ (inductionRows paragraph table rows)

theorem inductionRows {P : Block → Prop} (paragraph : ∀ p, P (.paragraph p))
    (table : ∀ t : Table, (∀ r ∈ t.rows, ∀ c ∈ r.cells, ∀ b ∈ c.blocks, P b) → P (.table t)) :
    ∀ rows : List Row, ∀ r ∈ rows, ∀ c ∈ r.cells, ∀ b ∈ c.blocks, P b
  | [] => fun _ hr => absurd hr List.not_mem_nil
  | ⟨_, cells⟩ :: rest => fun r hr => by
      rcases List.mem_cons.mp hr with h | h
      · exact h ▸ inductionCells paragraph table cells
      · exact inductionRows paragraph table rest r h

theorem inductionCells {P : Block → Prop} (paragraph : ∀ p, P (.paragraph p))
    (table : ∀ t : Table, (∀ r ∈ t.rows, ∀ c ∈ r.cells, ∀ b ∈ c.blocks, P b) → P (.table t)) :
    ∀ cells : List Cell, ∀ c ∈ cells, ∀ b ∈ c.blocks, P b
  | [] => fun _ hc => absurd hc List.not_mem_nil
  | ⟨_, blocks⟩ :: rest => fun c hc => by
      rcases List.mem_cons.mp hc with h | h
      · exact h ▸ inductionBlocks paragraph table blocks
      · exact inductionCells paragraph table rest c h

theorem inductionBlocks {P : Block → Prop} (paragraph : ∀ p, P (.paragraph p))
    (table : ∀ t : Table, (∀ r ∈ t.rows, ∀ c ∈ r.cells, ∀ b ∈ c.blocks, P b) → P (.table t)) :
    ∀ blocks : List Block, ∀ b ∈ blocks, P b
  | [] => fun _ hb => absurd hb List.not_mem_nil
  | first :: rest => fun b hb => by
      rcases List.mem_cons.mp hb with h | h
      · exact h ▸ induction paragraph table first
      · exact inductionBlocks paragraph table rest b h

end

end Block

end MailMerge
