import MailMerge.Merge.TablePass
import MailMerge.Proofs.Tracked

/-!
# Outlines

The outline of a document is what it says and how it is built: the blocks, rows and cells,
and the text of each paragraph. The formatting of the nodes is no part of it, and neither
is how a text is divided into runs.

Two blocks of one outline cannot be told apart by looking at them through addresses. The
same addresses lead somewhere, to blocks of one outline again, and a change that gives
blocks of one outline for such blocks does so wherever it is made. As markers are found in
texts and tables by their kind, bodies of one outline have the same requests.

## Main definitions

* `Outline`: What a block says and how it is built.
* `Block.outline`, `outlineBlocks`, `Document.outline`: The outlines of all parts.
* `outlineAt?`: The outline at an address.

## Theorems

* `Block.paragraphs_or_tables`: The outline tells paragraphs from tables.
* `map_outline_at?`: What an address leads to can be told from the outline.
* `outline_modifyAt_congr`: Changes keep outlines the same.
* `places_congr`, `tableRequests_congr`: The outline tells the requests.
-/

namespace MailMerge

/-- What a block says and how it is built. -/
inductive Outline where
  | paragraph (text : String)
  | table (rows : List (List (List Outline)))

mutual

/-- The outline of a block. -/
def Block.outline : Block → Outline
  | .paragraph p => .paragraph p.text
  | .table ⟨_, rows⟩ => .table (outlineRows rows)

/-- The outlines of rows. -/
def outlineRows : List Row → List (List (List Outline))
  | [] => []
  | ⟨_, cells⟩ :: rest => outlineCells cells :: outlineRows rest

/-- The outlines of cells. -/
def outlineCells : List Cell → List (List Outline)
  | [] => []
  | ⟨_, blocks⟩ :: rest => outlineBlocks blocks :: outlineCells rest

/-- The outlines of blocks. -/
def outlineBlocks : List Block → List Outline
  | [] => []
  | b :: rest => b.outline :: outlineBlocks rest

end

/-- The outline of a cell. -/
def Cell.outline (c : Cell) : List Outline := outlineBlocks c.blocks

/-- The outline of a row. -/
def Row.outline (r : Row) : List (List Outline) := outlineCells r.cells

/-- The outline of a table. -/
def Table.outline (t : Table) : List (List (List Outline)) := outlineRows t.rows

/-- The outline of a document. -/
def Document.outline (d : Document) : Option (List Outline) := d.body.map outlineBlocks

theorem outlineBlocks_eq_map (l : List Block) : outlineBlocks l = l.map Block.outline := by
  induction l with
  | nil => rfl
  | cons b l ih => rw [outlineBlocks, List.map_cons, ih]

theorem outlineCells_eq_map (l : List Cell) : outlineCells l = l.map Cell.outline := by
  induction l with
  | nil => rfl
  | cons c l ih =>
      cases c
      rw [outlineCells, List.map_cons, ih, Cell.outline]

theorem outlineRows_eq_map (l : List Row) : outlineRows l = l.map Row.outline := by
  induction l with
  | nil => rfl
  | cons r l ih =>
      cases r
      rw [outlineRows, List.map_cons, ih, Row.outline]

theorem Block.outline_table (t : Table) : (Block.table t).outline = .table t.outline := by
  cases t
  rfl

theorem Block.outline_table_inj {t t' : Table} :
    (Block.table t).outline = (Block.table t').outline ↔ t.outline = t'.outline := by
  rw [Block.outline_table, Block.outline_table, Outline.table.injEq]

theorem Block.outline_paragraph_inj {p p' : Paragraph} :
    (Block.paragraph p).outline = (Block.paragraph p').outline ↔ p.text = p'.text := by
  rw [Block.outline, Block.outline, Outline.paragraph.injEq]

-- The outline tells paragraphs from tables.
theorem Block.outline_paragraph_ne_table (p : Paragraph) (t : Table) :
    (Block.paragraph p).outline ≠ (Block.table t).outline := by
  rw [Block.outline_table, Block.outline]
  exact Outline.noConfusion

/-- Blocks of one outline are both paragraphs, or both tables. -/
theorem Block.paragraphs_or_tables {b b' : Block} (h : b.outline = b'.outline) :
    (∃ p p', b = .paragraph p ∧ b' = .paragraph p' ∧ p.text = p'.text) ∨
      ∃ t t', b = .table t ∧ b' = .table t' ∧ t.outline = t'.outline := by
  rcases b with p | t <;> rcases b' with p' | t'
  · exact Or.inl ⟨p, p', rfl, rfl, Block.outline_paragraph_inj.mp h⟩
  · exact absurd h (Block.outline_paragraph_ne_table p t')
  · exact absurd h.symm (Block.outline_paragraph_ne_table p' t)
  · exact Or.inr ⟨t, t', rfl, rfl, Block.outline_table_inj.mp h⟩

theorem outlineBlocks_eq_iff_forall₂ {l l' : List Block} : outlineBlocks l = outlineBlocks l' ↔
    List.Forall₂ (fun b b' => b.outline = b'.outline) l l' := by
  rw [outlineBlocks_eq_map, outlineBlocks_eq_map, map_eq_iff_forall₂]

/-! ### Looking -/

/-- The outline that a descent leads to. -/
def Outline.at? : Outline → List Step → Option Outline
  | o, [] => some o
  | .table rows, s :: rest => do
      let row ← rows[s.row]?
      let cell ← row[s.cell]?
      let o ← cell[s.block]?
      o.at? rest
  | .paragraph _, _ :: _ => none

/-- What a descent leads to can be told from the outline. -/
theorem Block.map_outline_at? (b : Block) (q : List Step) :
    (b.at? q).map Block.outline = b.outline.at? q := by
  induction q generalizing b with
  | nil =>
      rw [Block.at?_nil, Option.map_some]
      cases b.outline <;> rfl
  | cons s q ih =>
      cases b with
      | paragraph p => rfl
      | table t =>
          rw [Block.outline_table, Table.outline, outlineRows_eq_map]
          simp only [Block.at?, Outline.at?, Option.bind_eq_bind, List.getElem?_map]
          cases t.rows[s.row]? with
          | none => rfl
          | some r =>
              simp only [Option.bind_some, Option.map_some, Row.outline, outlineCells_eq_map,
                List.getElem?_map]
              cases r.cells[s.cell]? with
              | none => rfl
              | some c =>
                  simp only [Option.bind_some, Option.map_some, Cell.outline,
                    outlineBlocks_eq_map, List.getElem?_map]
                  cases c.blocks[s.block]? with
                  | none => rfl
                  | some b =>
                      rw [Option.bind_some, Option.map_some, Option.bind_some]
                      exact ih b

/-- The outline at an address. -/
def outlineAt? (l : List Outline) (a : Address) : Option Outline :=
  l[a.root]?.bind fun o => o.at? a.steps

/-- The text that an outline gives, if it is that of a paragraph. -/
def Outline.text? : Outline → Option String
  | .paragraph text => some text
  | .table _ => none

/-- The rows that an outline gives, if it is that of a table. -/
def Outline.rows? : Outline → Option (List (List (List Outline)))
  | .paragraph _ => none
  | .table rows => some rows

/-- What an address leads to can be told from the outlines of a body. -/
theorem map_outline_blockAt? (blocks : List Block) (a : Address) :
    (blockAt? blocks a).map Block.outline = outlineAt? (outlineBlocks blocks) a := by
  rw [blockAt?, outlineAt?, outlineBlocks_eq_map, List.getElem?_map]
  cases blocks[a.root]? with
  | none => rfl
  | some b => exact b.map_outline_at? a.steps

theorem map_text_paragraphAt? (blocks : List Block) (a : Address) :
    (paragraphAt? blocks a).map Paragraph.text =
      (outlineAt? (outlineBlocks blocks) a).bind Outline.text? := by
  rw [← map_outline_blockAt?, paragraphAt?]
  rcases blockAt? blocks a with _ | (p | t)
  · rfl
  · rfl
  · rw [Option.map_some, Block.outline_table]
    rfl

theorem map_outline_tableAt? (blocks : List Block) (a : Address) :
    (tableAt? blocks a).map Table.outline =
      (outlineAt? (outlineBlocks blocks) a).bind Outline.rows? := by
  rw [← map_outline_blockAt?, tableAt?]
  rcases blockAt? blocks a with _ | (p | t)
  · rfl
  · rfl
  · rw [Option.map_some, Block.outline_table]
    rfl

variable {blocks blocks' : List Block}

/-! ### Changing -/

/-- A change at the same place keeps outlines the same, if it does so on blocks. -/
theorem Block.outline_modifyAt_congr {f f' : Block → Block}
    (hf : ∀ b b' : Block, b.outline = b'.outline → (f b).outline = (f' b').outline)
    (q : List Step) {b b' : Block} (h : b.outline = b'.outline) :
    (b.modifyAt f q).outline = (b'.modifyAt f' q).outline := by
  induction q generalizing b b' with
  | nil =>
      rw [Block.modifyAt, Block.modifyAt]
      exact hf b b' h
  | cons s q ih =>
      rcases Block.paragraphs_or_tables h with ⟨p, p', rfl, rfl, _⟩ | ⟨t, t', rfl, rfl, ht⟩
      · exact h
      · rw [Table.outline, Table.outline, outlineRows_eq_map, outlineRows_eq_map] at ht
        rw [Block.modifyAt, Block.modifyAt, Block.outline_table_inj, Table.outline, Table.outline,
          outlineRows_eq_map, outlineRows_eq_map]
        -- A row, a cell in it and a block in that are changed.
        refine map_modify_congr ht (fun r r' hr => ?_) s.row
        rw [Row.outline, Row.outline, outlineCells_eq_map, outlineCells_eq_map] at hr ⊢
        refine map_modify_congr hr (fun c c' hc => ?_) s.cell
        rw [Cell.outline, Cell.outline, outlineBlocks_eq_map, outlineBlocks_eq_map] at hc ⊢
        exact map_modify_congr hc (fun _ _ => ih) s.block

/-- A change at the same address keeps outlines the same, if it does so on blocks. -/
theorem outlineBlocks_modifyAt_congr {f f' : Block → Block}
    (hf : ∀ b b' : Block, b.outline = b'.outline → (f b).outline = (f' b').outline)
    (h : outlineBlocks blocks = outlineBlocks blocks') (a : Address) :
    outlineBlocks (modifyAt f a blocks) = outlineBlocks (modifyAt f' a blocks') := by
  rw [outlineBlocks_eq_map, outlineBlocks_eq_map] at h ⊢
  exact map_modify_congr h (fun b b' hb => Block.outline_modifyAt_congr hf a.steps hb) a.root

/-! ### Requests -/

mutual

/-- Blocks of one outline have the same places. -/
theorem Block.places_congr (here : Address) :
    ∀ b b' : Block, b.outline = b'.outline → b.places here = b'.places here
  | .paragraph _, .paragraph _, _ => rfl
  | .paragraph p, .table t, h => absurd h (Block.outline_paragraph_ne_table p t)
  | .table t, .paragraph p, h => absurd h.symm (Block.outline_paragraph_ne_table p t)
  | .table ⟨_, rows⟩, .table ⟨_, rows'⟩, h => by
      rw [Block.places, Block.places,
        placesInRows_congr here 0 rows rows' (Block.outline_table_inj.mp h)]
termination_by structural b => b

theorem placesInRows_congr (here : Address) (row : Nat) :
    ∀ rows rows' : List Row, outlineRows rows = outlineRows rows' →
      placesInRows here row rows = placesInRows here row rows'
  | [], [], _ => rfl
  | [], _ :: _, h => by
      rw [outlineRows_eq_map, outlineRows_eq_map] at h
      exact absurd h.symm (List.cons_ne_nil _ _)
  | _ :: _, [], h => by
      rw [outlineRows_eq_map, outlineRows_eq_map] at h
      exact absurd h (List.cons_ne_nil _ _)
  | ⟨_, cells⟩ :: rest, ⟨_, cells'⟩ :: rest', h => by
      rw [outlineRows, outlineRows, List.cons.injEq] at h
      rw [placesInRows, placesInRows, placesInCells_congr here row 0 cells cells' h.1,
        placesInRows_congr here (row + 1) rest rest' h.2]
termination_by structural rows => rows

theorem placesInCells_congr (here : Address) (row cell : Nat) :
    ∀ cells cells' : List Cell, outlineCells cells = outlineCells cells' →
      placesInCells here row cell cells = placesInCells here row cell cells'
  | [], [], _ => rfl
  | [], _ :: _, h => by
      rw [outlineCells_eq_map, outlineCells_eq_map] at h
      exact absurd h.symm (List.cons_ne_nil _ _)
  | _ :: _, [], h => by
      rw [outlineCells_eq_map, outlineCells_eq_map] at h
      exact absurd h (List.cons_ne_nil _ _)
  | ⟨_, blocks⟩ :: rest, ⟨_, blocks'⟩ :: rest', h => by
      rw [outlineCells, outlineCells, List.cons.injEq] at h
      rw [placesInCells, placesInCells, placesInBlocks_congr here row cell 0 blocks blocks' h.1,
        placesInCells_congr here row (cell + 1) rest rest' h.2]
termination_by structural cells => cells

theorem placesInBlocks_congr (here : Address) (row cell block : Nat) :
    ∀ blocks blocks' : List Block, outlineBlocks blocks = outlineBlocks blocks' →
      placesInBlocks here row cell block blocks = placesInBlocks here row cell block blocks'
  | [], [], _ => rfl
  | [], _ :: _, h => absurd h.symm (List.cons_ne_nil _ _)
  | _ :: _, [], h => absurd h (List.cons_ne_nil _ _)
  | b :: rest, b' :: rest', h => by
      rw [outlineBlocks, outlineBlocks, List.cons.injEq] at h
      rw [placesInBlocks, placesInBlocks,
        Block.places_congr (here.child ⟨row, cell, block⟩) b b' h.1,
        placesInBlocks_congr here row cell (block + 1) rest rest' h.2]
termination_by structural blocks => blocks

end

theorem placesFrom_congr (root : Nat) (h : outlineBlocks blocks = outlineBlocks blocks') :
    placesFrom root blocks = placesFrom root blocks' := by
  replace h := outlineBlocks_eq_iff_forall₂.mp h
  induction h generalizing root with
  | nil => rfl
  | @cons b b' rest rest' hb _ ih =>
      rw [placesFrom, placesFrom, Block.places_congr ⟨root, []⟩ b b' hb, ih (root + 1)]

theorem requestsAmong_congr (h : outlineBlocks blocks = outlineBlocks blocks') (l : List Place) :
    requestsAmong blocks l = requestsAmong blocks' l := by
  induction l with
  | nil => rfl
  | cons place later ih =>
      have hat : (paragraphAt? blocks place.address).map Paragraph.text =
          (paragraphAt? blocks' place.address).map Paragraph.text := by
        rw [map_text_paragraphAt?, map_text_paragraphAt?, h]
      rw [requestsAmong, requestsAmong, ih]
      cases hp : paragraphAt? blocks place.address with
      | none =>
          rw [hp, Option.map_none, eq_comm, Option.map_eq_none_iff] at hat
          rw [hat]
      | some p =>
          rw [hp, Option.map_some, eq_comm, Option.map_eq_some_iff] at hat
          rcases hat with ⟨p', hp', htext⟩
          rw [hp']
          dsimp only
          rw [htext]

/-- Bodies of one outline have the same requests. -/
theorem tableRequests_congr (h : outlineBlocks blocks = outlineBlocks blocks') :
    tableRequests blocks = tableRequests blocks' := by
  rw [tableRequests, tableRequests, requestsAmong_congr h, places, places, placesFrom_congr 0 h]

end MailMerge
