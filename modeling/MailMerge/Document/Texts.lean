import MailMerge.Document.Block

/-!
# What a Document Says

The texts of all paragraphs of a document, in document order and at any depth.

## Main definitions

* `Block.paragraphTexts`: The texts of the paragraphs of a block.
* `Document.paragraphTexts`: Those of a document.

## Theorems

* `textsOfBlocks_append`: Two rows of blocks say what both say in turn.
-/

namespace MailMerge

mutual

/-- The texts of the paragraphs in a block. -/
def Block.paragraphTexts : Block → List String
  | .paragraph p => [p.text]
  | .table ⟨_, rows⟩ => textsOfRows rows

/-- The texts of the paragraphs in rows. -/
def textsOfRows : List Row → List String
  | [] => []
  | ⟨_, cells⟩ :: rest => textsOfCells cells ++ textsOfRows rest

/-- The texts of the paragraphs in cells. -/
def textsOfCells : List Cell → List String
  | [] => []
  | ⟨_, blocks⟩ :: rest => textsOfBlocks blocks ++ textsOfCells rest

/-- The texts of the paragraphs in blocks. -/
def textsOfBlocks : List Block → List String
  | [] => []
  | b :: rest => b.paragraphTexts ++ textsOfBlocks rest

end

/-- Two rows of blocks say what both say in turn. -/
theorem textsOfBlocks_append (l m : List Block) :
    textsOfBlocks (l ++ m) = textsOfBlocks l ++ textsOfBlocks m := by
  induction l with
  | nil => rfl
  | cons b l ih => simp only [List.cons_append, textsOfBlocks, ih, List.append_assoc]

/-- The texts of the paragraphs in a document. -/
def Document.paragraphTexts (d : Document) : List String :=
  match d.body with
  | some blocks => textsOfBlocks blocks
  | none => []

end MailMerge
