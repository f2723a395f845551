import MailMerge.Proofs.Descent
import MailMerge.Proofs.Lists

/-!
# Tracked Documents

A document in which blocks can be told apart by more than where they stand. Every
block may carry an identity, and keeps it wherever it comes to stand, and whatever
is done to it or to what is around it. Two paragraphs that say the same are still
two paragraphs.

An ordinary body is tracked by giving each of its blocks an identity, and a tracked
one becomes ordinary again by forgetting them. In between blocks can be found and
changed by identity, with no address at all, which is what makes tracked documents
good for saying what a pass over a document ought to do. `trackBody` takes the
address at which a block stands at first for its identity. Nothing ever looks into
an identity, so this only says that no two blocks get the same.

The tree is that of `Document.Block` once more, with identities on the blocks, and
so are the descents into it.

## Main definitions

* `TrackedBlock`, `TrackedTable`, `TrackedRow`, `TrackedCell`: The tree.
* `forgetBlocks`, `trackBody`: From tracked bodies to ordinary ones and back.
* `TrackedBlock.all`: A block and all that is inside of it, in document order.
* `TrackedBlock.change`: Changing the block of an identity.
* `TrackedBlock.at?`, `TrackedBlock.modifyAt`: The block at an address, and changing it.

## Theorems

* `forgetBlocks_trackBody`: Forgetting undoes tracking.
* `blockAt?_forgetBlocks`: The block at an address is the same after forgetting.
* `forgetBlocks_modifyTrackedAt`: So is a change there.
* `child?_modifyChild`: Changing one child leaves the others.
* `mapChildren_eq_modifyChild`: Changing all children, if only one is changed by it.
-/

namespace MailMerge

mutual

/-- A block that may carry an identity. -/
inductive TrackedBlock (ι : Type) where
  | paragraph (id : Option ι) (p : Paragraph)
  | table (id : Option ι) (t : TrackedTable ι)

/-- A table of tracked blocks. -/
structure TrackedTable (ι : Type) where
  properties : Properties
  rows : List (TrackedRow ι)

/-- A row of tracked blocks. -/
structure TrackedRow (ι : Type) where
  properties : Properties
  cells : List (TrackedCell ι)

/-- A cell of tracked blocks. -/
structure TrackedCell (ι : Type) where
  properties : Properties
  blocks : List (TrackedBlock ι)

end

variable {ι : Type}

mutual

/-- The block that a tracked one is. -/
def TrackedBlock.forget : TrackedBlock ι → Block
  | .paragraph _ p => .paragraph p
  | .table _ ⟨properties, rows⟩ => .table ⟨properties, forgetRows rows⟩

/-- The rows that tracked ones are. -/
def forgetRows : List (TrackedRow ι) → List Row
  | [] => []
  | ⟨properties, cells⟩ :: rest => ⟨properties, forgetCells cells⟩ :: forgetRows rest

/-- The cells that tracked ones are. -/
def forgetCells : List (TrackedCell ι) → List Cell
  | [] => []
  | ⟨properties, blocks⟩ :: rest => ⟨properties, forgetBlocks blocks⟩ :: forgetCells rest

/-- The blocks that tracked ones are. -/
def forgetBlocks : List (TrackedBlock ι) → List Block
  | [] => []
  | b :: rest => b.forget :: forgetBlocks rest

end

mutual

/-- A block with an identity for each address in it. -/
def Block.track (name : Address → Option ι) (here : Address) : Block → TrackedBlock ι
  | .paragraph p => .paragraph (name here) p
  | .table ⟨properties, rows⟩ => .table (name here) ⟨properties, trackRows name here 0 rows⟩

/-- The rows of the table at `here`, from row `row` on. -/
def trackRows (name : Address → Option ι) (here : Address) (row : Nat) :
    List Row → List (TrackedRow ι)
  | [] => []
  | ⟨properties, cells⟩ :: rest =>
      ⟨properties, trackCells name here row 0 cells⟩ :: trackRows name here (row + 1) rest

/-- The cells of a row, from cell `cell` on. -/
def trackCells (name : Address → Option ι) (here : Address) (row cell : Nat) :
    List Cell → List (TrackedCell ι)
  | [] => []
  | ⟨properties, blocks⟩ :: rest =>
      ⟨properties, trackBlocks name here row cell 0 blocks⟩ ::
        trackCells name here row (cell + 1) rest

/-- The blocks of a cell, from block `block` on. -/
def trackBlocks (name : Address → Option ι) (here : Address) (row cell block : Nat) :
    List Block → List (TrackedBlock ι)
  | [] => []
  | b :: rest =>
      b.track name (here.child ⟨row, cell, block⟩) ::
        trackBlocks name here row cell (block + 1) rest

end

/-- The blocks of a body from index `root` on, each with its address for an identity. -/
def trackFrom (root : Nat) : List Block → List (TrackedBlock Address)
  | [] => []
  | b :: rest => b.track some ⟨root, []⟩ :: trackFrom (root + 1) rest

/-- A body with an identity for each of its blocks. -/
def trackBody (blocks : List Block) : List (TrackedBlock Address) := trackFrom 0 blocks

mutual

/-- A block and all blocks inside it, in document order. -/
def TrackedBlock.all : TrackedBlock ι → List (TrackedBlock ι)
  | .paragraph id p => [.paragraph id p]
  | .table id ⟨properties, rows⟩ => .table id ⟨properties, rows⟩ :: allInRows rows

/-- All blocks in rows. -/
def allInRows : List (TrackedRow ι) → List (TrackedBlock ι)
  | [] => []
  | ⟨_, cells⟩ :: rest => allInCells cells ++ allInRows rest

/-- All blocks in cells. -/
def allInCells : List (TrackedCell ι) → List (TrackedBlock ι)
  | [] => []
  | ⟨_, blocks⟩ :: rest => allInBlocks blocks ++ allInCells rest

/-- All blocks among blocks. -/
def allInBlocks : List (TrackedBlock ι) → List (TrackedBlock ι)
  | [] => []
  | b :: rest => b.all ++ allInBlocks rest

end

mutual

/-- Changes the block with an identity. -/
def TrackedBlock.change [DecidableEq ι] (i : ι) (f : TrackedBlock ι → TrackedBlock ι) :
    TrackedBlock ι → TrackedBlock ι
  | .paragraph id p => if id = some i then f (.paragraph id p) else .paragraph id p
  | .table id ⟨properties, rows⟩ =>
      if id = some i then f (.table id ⟨properties, rows⟩)
      else .table id ⟨properties, changeInRows i f rows⟩

/-- Changes the block with an identity in rows. -/
def changeInRows [DecidableEq ι] (i : ι) (f : TrackedBlock ι → TrackedBlock ι) :
    List (TrackedRow ι) → List (TrackedRow ι)
  | [] => []
  | ⟨properties, cells⟩ :: rest => ⟨properties, changeInCells i f cells⟩ :: changeInRows i f rest

/-- Changes the block with an identity in cells. -/
def changeInCells [DecidableEq ι] (i : ι) (f : TrackedBlock ι → TrackedBlock ι) :
    List (TrackedCell ι) → List (TrackedCell ι)
  | [] => []
  | ⟨properties, blocks⟩ :: rest =>
      ⟨properties, changeInBlocks i f blocks⟩ :: changeInCells i f rest

/-- Changes the block with an identity among blocks. -/
def changeInBlocks [DecidableEq ι] (i : ι) (f : TrackedBlock ι → TrackedBlock ι) :
    List (TrackedBlock ι) → List (TrackedBlock ι)
  | [] => []
  | b :: rest => b.change i f :: changeInBlocks i f rest

end

namespace TrackedBlock

/-- The identity of a block. -/
def id : TrackedBlock ι → Option ι
  | .paragraph id _ => id
  | .table id _ => id

/-- What kind of block a tracked block is. -/
def kind : TrackedBlock ι → Block.Kind
  | .paragraph _ _ => .paragraph
  | .table _ _ => .table

end TrackedBlock

namespace TrackedTable

/-- The table that a tracked one is. -/
def forget (t : TrackedTable ι) : Table := ⟨t.properties, forgetRows t.rows⟩

/-- The block in a table that one descent leads to. -/
def child? (t : TrackedTable ι) (s : Step) : Option (TrackedBlock ι) := do
  let row ← t.rows[s.row]?
  let cell ← row.cells[s.cell]?
  cell.blocks[s.block]?

/-- Changes the block in a table that one descent leads to. -/
def modifyChild (f : TrackedBlock ι → TrackedBlock ι) (s : Step) (t : TrackedTable ι) :
    TrackedTable ι :=
  { t with rows := t.rows.modify s.row fun r =>
    { r with cells := r.cells.modify s.cell fun c =>
      { c with blocks := c.blocks.modify s.block f } } }

end TrackedTable

namespace TrackedBlock

/-- The block that a descent from a block leads to. -/
def at? : TrackedBlock ι → List Step → Option (TrackedBlock ι)
  | b, [] => some b
  | .table _ t, s :: rest => (t.child? s).bind fun b => b.at? rest
  | .paragraph _ _, _ :: _ => none

/-- Changes the block that a descent leads to, if there is one. -/
def modifyAt (f : TrackedBlock ι → TrackedBlock ι) : List Step → TrackedBlock ι → TrackedBlock ι
  | [], b => f b
  | _ :: _, .paragraph id p => .paragraph id p
  | s :: rest, .table id t => .table id (t.modifyChild (modifyAt f rest) s)

end TrackedBlock

/-- The tracked block at an address. -/
def trackedAt? (tree : List (TrackedBlock ι)) (a : Address) : Option (TrackedBlock ι) :=
  tree[a.root]?.bind fun b => b.at? a.steps

/-- Changes the tracked block at an address, if there is one. -/
def modifyTrackedAt (f : TrackedBlock ι → TrackedBlock ι) (a : Address)
    (tree : List (TrackedBlock ι)) : List (TrackedBlock ι) :=
  tree.modify a.root (TrackedBlock.modifyAt f a.steps)

/-! ### Forgetting -/

-- Forgetting is a `map` at each level of the tree, and a change a `modify`, so all that
-- is needed is that the two go together.
theorem forgetBlocks_eq_map (l : List (TrackedBlock ι)) :
    forgetBlocks l = l.map TrackedBlock.forget := by
  induction l with
  | nil => rfl
  | cons b l ih => rw [forgetBlocks, List.map_cons, ih]

theorem forgetCells_eq_map (l : List (TrackedCell ι)) :
    forgetCells l = l.map fun c => ⟨c.properties, forgetBlocks c.blocks⟩ := by
  induction l with
  | nil => rfl
  | cons c l ih =>
      cases c
      rw [forgetCells, List.map_cons, ih]

theorem forgetRows_eq_map (l : List (TrackedRow ι)) :
    forgetRows l = l.map fun r => ⟨r.properties, forgetCells r.cells⟩ := by
  induction l with
  | nil => rfl
  | cons r l ih =>
      cases r
      rw [forgetRows, List.map_cons, ih]

namespace TrackedBlock

theorem forget_table (id : Option ι) (t : TrackedTable ι) :
    (table id t).forget = .table t.forget := by
  cases t
  rfl

theorem kind_forget (b : TrackedBlock ι) : b.forget.kind = b.kind := by
  cases b with
  | paragraph id p => rfl
  | table id t =>
      cases t
      rfl

/-- A descent leads to the same block after forgetting. -/
theorem at?_forget (b : TrackedBlock ι) (q : List Step) :
    b.forget.at? q = (b.at? q).map forget := by
  induction q generalizing b with
  | nil =>
      rw [at?, Option.map_some]
      cases b.forget <;> rfl
  | cons s q ih =>
      cases b with
      | paragraph id p => rfl
      | table id t =>
          -- Row, cell and block are looked up one after the other, and any may be missing.
          rw [forget_table, Block.at?, at?]
          simp only [TrackedTable.forget, TrackedTable.child?, forgetRows_eq_map,
            List.getElem?_map, Option.bind_eq_bind]
          cases t.rows[s.row]? with
          | none => rfl
          | some r =>
              simp only [Option.map_some, Option.bind_some, forgetCells_eq_map, List.getElem?_map]
              cases r.cells[s.cell]? with
              | none => rfl
              | some c =>
                  simp only [Option.map_some, Option.bind_some, forgetBlocks_eq_map,
                    List.getElem?_map]
                  cases c.blocks[s.block]? with
                  | none => rfl
                  | some b => simp only [Option.map_some, Option.bind_some, ih]

/-- A change at a descent is the same change after forgetting. -/
theorem forget_modifyAt {f : TrackedBlock ι → TrackedBlock ι} {g : Block → Block}
    (comm : ∀ b, (f b).forget = g b.forget) (q : List Step) (b : TrackedBlock ι) :
    (modifyAt f q b).forget = Block.modifyAt g q b.forget := by
  induction q generalizing b with
  | nil => exact comm b
  | cons s q ih =>
      cases b with
      | paragraph id p => rfl
      | table id t =>
          -- From the inside out: blocks, cells, rows.
          have hblocks : ∀ c : TrackedCell ι,
              forgetBlocks (c.blocks.modify s.block (modifyAt f q)) =
                (forgetBlocks c.blocks).modify s.block (Block.modifyAt g q) := by
            intro c
            rw [forgetBlocks_eq_map, forgetBlocks_eq_map]
            exact map_modify ih c.blocks s.block
          have hcells : ∀ r : TrackedRow ι,
              forgetCells (r.cells.modify s.cell fun c =>
                { c with blocks := c.blocks.modify s.block (modifyAt f q) }) =
              (forgetCells r.cells).modify s.cell fun c =>
                { c with blocks := c.blocks.modify s.block (Block.modifyAt g q) } := by
            intro r
            rw [forgetCells_eq_map, forgetCells_eq_map]
            exact map_modify (fun c => by rw [hblocks c]) r.cells s.cell
          rw [modifyAt, forget_table, forget_table, Block.modifyAt, TrackedTable.modifyChild,
            TrackedTable.forget, TrackedTable.forget]
          congr 2
          rw [forgetRows_eq_map, forgetRows_eq_map]
          exact map_modify (fun r => by rw [hcells r]) t.rows s.row

end TrackedBlock

/-- The block at an address is the same after forgetting. -/
theorem blockAt?_forgetBlocks (tree : List (TrackedBlock ι)) (a : Address) :
    blockAt? (forgetBlocks tree) a = (trackedAt? tree a).map TrackedBlock.forget := by
  rw [blockAt?, trackedAt?, forgetBlocks_eq_map, List.getElem?_map]
  cases tree[a.root]? with
  | none => rfl
  | some b => exact b.at?_forget a.steps

/-- A change at an address is the same change after forgetting. -/
theorem forgetBlocks_modifyTrackedAt {f : TrackedBlock ι → TrackedBlock ι} {g : Block → Block}
    (comm : ∀ b, (f b).forget = g b.forget) (a : Address) (tree : List (TrackedBlock ι)) :
    forgetBlocks (modifyTrackedAt f a tree) = modifyAt g a (forgetBlocks tree) := by
  rw [forgetBlocks_eq_map, forgetBlocks_eq_map]
  exact map_modify (TrackedBlock.forget_modifyAt comm a.steps) tree a.root

/-! ### Tracking -/

mutual

/-- Forgetting undoes tracking. -/
theorem forget_track (name : Address → Option ι) (here : Address) :
    ∀ b : Block, (b.track name here).forget = b
  | .paragraph p => rfl
  | .table ⟨properties, rows⟩ => by
      rw [Block.track, TrackedBlock.forget, forgetRows_trackRows name here 0 rows]

theorem forgetRows_trackRows (name : Address → Option ι) (here : Address) (row : Nat) :
    ∀ rows : List Row, forgetRows (trackRows name here row rows) = rows
  | [] => rfl
  | ⟨properties, cells⟩ :: rest => by
      rw [trackRows, forgetRows, forgetCells_trackCells name here row 0 cells,
        forgetRows_trackRows name here (row + 1) rest]

theorem forgetCells_trackCells (name : Address → Option ι) (here : Address) (row cell : Nat) :
    ∀ cells : List Cell, forgetCells (trackCells name here row cell cells) = cells
  | [] => rfl
  | ⟨properties, blocks⟩ :: rest => by
      rw [trackCells, forgetCells, forgetBlocks_trackBlocks name here row cell 0 blocks,
        forgetCells_trackCells name here row (cell + 1) rest]

theorem forgetBlocks_trackBlocks (name : Address → Option ι) (here : Address)
    (row cell block : Nat) :
    ∀ blocks : List Block, forgetBlocks (trackBlocks name here row cell block blocks) = blocks
  | [] => rfl
  | b :: rest => by
      rw [trackBlocks, forgetBlocks, forget_track name (here.child ⟨row, cell, block⟩) b,
        forgetBlocks_trackBlocks name here row cell (block + 1) rest]

end

theorem forgetBlocks_trackFrom (root : Nat) (blocks : List Block) :
    forgetBlocks (trackFrom root blocks) = blocks := by
  induction blocks generalizing root with
  | nil => rfl
  | cons b rest ih => rw [trackFrom, forgetBlocks, forget_track, ih]

/-- Forgetting undoes tracking for a whole body. -/
theorem forgetBlocks_trackBody (blocks : List Block) : forgetBlocks (trackBody blocks) = blocks :=
  forgetBlocks_trackFrom 0 blocks

/-! ### Children -/

/-- The block in a table that one descent leads to. -/
def Table.child? (t : Table) (s : Step) : Option Block := do
  let row ← t.rows[s.row]?
  let cell ← row.cells[s.cell]?
  cell.blocks[s.block]?

theorem Block.at?_table_cons (t : Table) (s : Step) (q : List Step) :
    (Block.table t).at? (s :: q) = (t.child? s).bind fun b => b.at? q := by
  simp only [Block.at?, Table.child?, Option.bind_eq_bind, Option.bind_assoc]

theorem Block.at?_nil (b : Block) : b.at? [] = some b := by
  cases b <;> rfl

theorem bind_getElem?_modify {α β : Type} (f : α → α) (g : α → Option β) (l : List α)
    (k j : Nat) : (l.modify k f)[j]?.bind g = l[j]?.bind fun a => g (if k = j then f a else a) := by
  rw [List.getElem?_modify]
  cases l[j]? <;> rfl

namespace TrackedTable

theorem child?_eq_some_iff {t : TrackedTable ι} {s : Step} {b : TrackedBlock ι} :
    t.child? s = some b ↔ ∃ r c, t.rows[s.row]? = some r ∧ r.cells[s.cell]? = some c ∧
      c.blocks[s.block]? = some b := by
  simp only [child?, Option.bind_eq_bind, Option.bind_eq_some_iff]
  constructor
  · intro h
    rcases h with ⟨r, hr, c, hc, hb⟩
    exact ⟨r, c, hr, hc, hb⟩
  · intro h
    rcases h with ⟨r, c, hr, hc, hb⟩
    exact ⟨r, hr, c, hc, hb⟩

/-- Every block in a cell of a table is a child of it. -/
theorem exists_child?_of_mem {t : TrackedTable ι} {r : TrackedRow ι} {c : TrackedCell ι}
    {b : TrackedBlock ι} (hr : r ∈ t.rows) (hc : c ∈ r.cells) (hb : b ∈ c.blocks) :
    ∃ s, t.child? s = some b := by
  rcases List.mem_iff_getElem?.mp hr with ⟨row, hrow⟩
  rcases List.mem_iff_getElem?.mp hc with ⟨cell, hcell⟩
  rcases List.mem_iff_getElem?.mp hb with ⟨block, hblock⟩
  exact ⟨⟨row, cell, block⟩, child?_eq_some_iff.mpr ⟨r, c, hrow, hcell, hblock⟩⟩

/-- Changing one child leaves the others. -/
theorem child?_modifyChild (f : TrackedBlock ι → TrackedBlock ι) (s u : Step)
    (t : TrackedTable ι) :
    (t.modifyChild f s).child? u = if u = s then (t.child? u).map f else t.child? u := by
  rcases s with ⟨row, cell, block⟩
  rcases u with ⟨row', cell', block'⟩
  -- The two agree in a row, then in a cell of it, then in a block. Wherever they part
  -- first, nothing is changed.
  simp only [child?, modifyChild, Option.bind_eq_bind, bind_getElem?_modify, Step.mk.injEq]
  by_cases hrow : row = row'
  · simp only [hrow, if_true, true_and, bind_getElem?_modify]
    by_cases hcell : cell = cell'
    · simp only [hcell, if_true, true_and, List.getElem?_modify, Option.map_eq_map]
      by_cases hblock : block = block'
      · simp only [hblock, if_true, Option.map_bind, Function.comp_def]
      · simp only [hblock, Ne.symm hblock, if_false, Option.map_id_fun', id_eq]
    · simp only [hcell, Ne.symm hcell, if_false, false_and]
  · simp only [hrow, Ne.symm hrow, if_false, false_and]

/-- Changes every block in the cells of a table. -/
def mapChildren (f : TrackedBlock ι → TrackedBlock ι) (t : TrackedTable ι) : TrackedTable ι :=
  { t with rows := t.rows.map fun r =>
    { r with cells := r.cells.map fun c => { c with blocks := c.blocks.map f } } }

theorem child?_mapChildren (f : TrackedBlock ι → TrackedBlock ι) (t : TrackedTable ι) (s : Step) :
    (t.mapChildren f).child? s = (t.child? s).map f := by
  simp only [child?, mapChildren, List.getElem?_map, Option.bind_eq_bind]
  cases t.rows[s.row]? with
  | none => rfl
  | some r =>
      simp only [Option.map_some, Option.bind_some, List.getElem?_map]
      cases r.cells[s.cell]? with
      | none => rfl
      | some c => simp only [Option.map_some, Option.bind_some, List.getElem?_map]

end TrackedTable

namespace TrackedTable

/-- Changing the children changes nothing where none of them is changed. -/
theorem mapChildren_eq_self {f : TrackedBlock ι → TrackedBlock ι} {t : TrackedTable ι}
    (h : ∀ s b, t.child? s = some b → f b = b) : t.mapChildren f = t := by
  have hcells : ∀ r ∈ t.rows, ∀ c ∈ r.cells, c.blocks.map f = c.blocks := by
    intro r hr c hc
    refine map_eq_self (fun b hb => ?_)
    rcases exists_child?_of_mem hr hc hb with ⟨s, hs⟩
    exact h s b hs
  have hrows : t.rows.map (fun r =>
      { r with cells := r.cells.map fun c => { c with blocks := c.blocks.map f } }) = t.rows := by
    refine map_eq_self (fun r hr => ?_)
    have hr' : r.cells.map (fun c => { c with blocks := c.blocks.map f }) = r.cells := by
      refine map_eq_self (fun c hc => ?_)
      rw [hcells r hr c hc]
      cases c
      rfl
    rw [hr']
    cases r
    rfl
  rw [mapChildren, hrows]
  cases t
  rfl

/-- Changing all children is changing one if the change leaves the others. -/
theorem mapChildren_eq_modifyChild {f g : TrackedBlock ι → TrackedBlock ι} {s : Step}
    {t : TrackedTable ι}
    (h : ∀ u b, t.child? u = some b → f b = if u = s then g b else b) :
    t.mapChildren f = t.modifyChild g s := by
  -- In all cells but one nothing is changed.
  have hne : ∀ row cell (r : TrackedRow ι) (c : TrackedCell ι), t.rows[row]? = some r →
      r.cells[cell]? = some c → ¬ (row = s.row ∧ cell = s.cell) →
        ({ c with blocks := c.blocks.map f } : TrackedCell ι) = c := by
    intro row cell r c hr hc hne
    have hblocks : c.blocks.map f = c.blocks := by
      refine map_eq_self (fun b hb => ?_)
      rcases List.mem_iff_getElem?.mp hb with ⟨block, hblock⟩
      have hneq : (⟨row, cell, block⟩ : Step) ≠ s := by
        rintro rfl
        exact hne ⟨rfl, rfl⟩
      rw [h ⟨row, cell, block⟩ b (child?_eq_some_iff.mpr ⟨r, c, hr, hc, hblock⟩), if_neg hneq]
    rw [hblocks]
    cases c
    rfl
  rw [mapChildren, modifyChild]
  congr 1
  refine map_eq_modify (fun row r hr => ?_)
  by_cases hrow : row = s.row
  · rw [if_pos hrow]
    congr 1
    refine map_eq_modify (fun cell c hc => ?_)
    by_cases hcell : cell = s.cell
    · rw [if_pos hcell]
      congr 1
      refine map_eq_modify (fun block b hb => ?_)
      rw [h ⟨row, cell, block⟩ b (child?_eq_some_iff.mpr ⟨r, c, hr, hc, hb⟩)]
      rcases s with ⟨srow, scell, sblock⟩
      simp only at hrow hcell
      simp only [Step.mk.injEq, hrow, hcell, true_and]
    · rw [if_neg hcell, hne row cell r c hr hc (fun heq => hcell heq.2)]
  · -- Another row stays as all of its cells stay.
    rw [if_neg hrow]
    have hcells : r.cells.map (fun c => { c with blocks := c.blocks.map f }) = r.cells := by
      refine map_eq_self (fun c hc => ?_)
      rcases List.mem_iff_getElem?.mp hc with ⟨cell, hcell⟩
      exact hne row cell r c hr hcell (fun heq => hrow heq.1)
    rw [hcells]
    cases r
    rfl

end TrackedTable

end MailMerge
