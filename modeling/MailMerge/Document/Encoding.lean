import MailMerge.Document.Block
import MailMerge.Json.Reader
import MailMerge.Json.Writer

/-!
# Documents as JSON

The written form of a document, and what is read as one.

Writing is plain: every node is an object with its fields in a fixed order, the
kind of a block first, and formatting only where there is some.

Reading accepts more than writing produces. A node is a record, so it may be an
array of its fields, most fields may be left out, and members that mean nothing
are passed over. Only the body may be null. The kind of a block may stand
anywhere among its members, and a block inside a cell may also give it as a
number, 0 for a paragraph and 1 for a table.

Everything inside the list of blocks has to denote something, also where it is
passed over, and the arrays and objects of a document may nest at most 127 deep.
What is passed over beside the body or beside the list of blocks is free of both
conditions.

## Main definitions

* `Document.toJson`: The written form.
* `Document.ofJson?`: What is read as a document.
* `Document.write`, `Document.read?`: The same on texts.

## Theorems

* `read?_of_parse?_eq_none`: A text that is no JSON is no document.
-/

namespace MailMerge

namespace Properties

/-- Formatting as an object. -/
def toJson (p : Properties) : Json := .object (p.entries.map fun e => (e.1, .string e.2))

/-- Formatting is read from an object of strings. A repeated key stays in its
    first place and takes its last value. -/
def ofJson? : Json → Option Properties
  | .object members =>
      (members.mapM fun (m : String × Json) =>
        m.2.string?.map fun value => (m.1, value)).map ofList
  | _ => none

/-- Formatting as a member of a node, left out where there is none. -/
def toMembers (p : Properties) : List (String × Json) :=
  if p.isEmpty then [] else [("properties", p.toJson)]

end Properties

/-- A run as an object. -/
def Run.toJson (r : Run) : Json := .object (r.properties.toMembers ++ [("text", .string r.text)])

mutual

/-- A block as an object. -/
def Block.toJson : Block → Json
  | .paragraph p =>
      .object (("type", .string "paragraph") :: p.properties.toMembers ++
        [("runs", .array (p.runs.map Run.toJson))])
  | .table ⟨properties, rows⟩ =>
      .object (("type", .string "table") :: properties.toMembers ++
        [("rows", .array (rowsToJson rows))])

/-- Rows as objects. -/
def rowsToJson : List Row → List Json
  | [] => []
  | ⟨properties, cells⟩ :: rest =>
      .object (properties.toMembers ++ [("cells", .array (cellsToJson cells))]) ::
        rowsToJson rest

/-- Cells as objects. -/
def cellsToJson : List Cell → List Json
  | [] => []
  | ⟨properties, blocks⟩ :: rest =>
      .object (properties.toMembers ++ [("blocks", .array (blocksToJson blocks))]) ::
        cellsToJson rest

/-- Blocks as objects. -/
def blocksToJson : List Block → List Json
  | [] => []
  | b :: rest => b.toJson :: blocksToJson rest

end

/-- A document as an object. -/
def Document.toJson (d : Document) : Json :=
  .object [("body", match d.body with
    | none => .null
    | some blocks => .object [("blocks", .array (blocksToJson blocks))])]

/-- The written form of a document. -/
def Document.write (d : Document) : String := d.toJson.pretty

namespace Json

/-- A field that may be left out, read with `read?` if it is there. -/
def fieldOr {α : Type} (absent : α) (read? : Json → Option α) : Option Json → Option α
  | none => some absent
  | some v => read? v

/-- The formatting field of a node. -/
def properties? : Option Json → Option Properties := fieldOr ∅ Properties.ofJson?

/-- A list field of a node, each item read with `read?`. -/
def list? {α : Type} (read? : Json → Option α) : Option Json → Option (List α) :=
  fieldOr [] fun v => v.array?.bind fun items => items.mapM read?

/-- The kind of a block. Inside a cell it may also be a number. -/
def kind? (inCell : Bool) : Json → Option Block.Kind
  | .string "paragraph" => some .paragraph
  | .string "table" => some .table
  | .number "0" => if inCell then some .paragraph else none
  | .number "1" => if inCell then some .table else none
  | _ => none

/-- The kind of a block and the record of its other fields. The kind is the
    member `type`, or the first item. -/
def tagged? (inCell : Bool) : Json → Option (Block.Kind × Json)
  | .object members => do
      let type ← (← member? members "type")
      let kind ← kind? inCell type
      return (kind, .object (members.filter fun m => m.1 != "type"))
  | .array (type :: rest) => (kind? inCell type).map fun kind => (kind, .array rest)
  | _ => none

/-- A run. -/
def run? (v : Json) : Option Run :=
  match v.record? ["properties", "text"] with
  | some [properties, text] => do
      return ⟨← properties? properties, ← fieldOr "" string? text⟩
  | _ => none

/-- A paragraph, given the record of its fields. -/
def paragraph? (v : Json) : Option Paragraph :=
  match v.record? ["properties", "runs"] with
  | some [properties, runs] => do
      return ⟨← properties? properties, ← list? run? runs⟩
  | _ => none

/-- A cell, its blocks read with `block?`. -/
def cell? (block? : Json → Option Block) (v : Json) : Option Cell :=
  match v.record? ["properties", "blocks"] with
  | some [properties, blocks] => do
      return ⟨← properties? properties, ← list? block? blocks⟩
  | _ => none

/-- A row, the blocks in its cells read with `block?`. -/
def row? (block? : Json → Option Block) (v : Json) : Option Row :=
  match v.record? ["properties", "cells"] with
  | some [properties, cells] => do
      return ⟨← properties? properties, ← list? (cell? block?) cells⟩
  | _ => none

/-- A table, given the record of its fields, the blocks in its cells read with
    `block?`. -/
def table? (block? : Json → Option Block) (v : Json) : Option Table :=
  match v.record? ["properties", "rows"] with
  | some [properties, rows] => do
      return ⟨← properties? properties, ← list? (row? block?) rows⟩
  | _ => none

/-- A block in which tables nest at most `levels` deep. -/
def blockWithin? : (levels : Nat) → (inCell : Bool) → Json → Option Block
  | 0, _, _ => none
  | levels + 1, inCell, v => do
      match ← tagged? inCell v with
      | (.paragraph, fields) => return .paragraph (← paragraph? fields)
      | (.table, fields) => return .table (← table? (blockWithin? levels true) fields)

/-- A block of a body. No value holds more tables inside each other than it
    has levels. -/
def block? (v : Json) : Option Block := blockWithin? v.depth false v

/-- How deep the arrays and objects of a document may nest. -/
def depthLimit : Nat := 127

/-- The blocks of a body. The list of blocks stands two levels deep in the
    document. -/
def blocks? (v : Json) : Option (List Block) :=
  if v.isReadable && v.depth + 2 ≤ depthLimit then
    v.array?.bind fun items => items.mapM block?
  else none

/-- A body, which may be null. -/
def body? : Json → Option (Option (List Block))
  | .null => some none
  | v => match v.record? ["blocks"] with
    | some [some blocks] => (blocks? blocks).map some
    | _ => none

end Json

/-- What is read as a document. -/
def Document.ofJson? (v : Json) : Option Document :=
  match v.record? ["body"] with
  | some [body] => (Json.fieldOr none Json.body? body).map Document.mk
  | _ => none

/-- The document that a text holds. -/
def Document.read? (s : String) : Option Document := (Json.parse? s).bind Document.ofJson?

/-- A text that is no JSON is no document. -/
theorem Document.read?_of_parse?_eq_none {s : String} (h : Json.parse? s = none) :
    Document.read? s = none := by
  rw [Document.read?, h, Option.bind_none]

end MailMerge
