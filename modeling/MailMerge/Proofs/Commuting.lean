import MailMerge.Proofs.Rebasing

/-!
# Fills of Two Tables

Two tables of a body can be filled in either order, as long as the second one is looked for where
rebasing says that it is after the first was filled. If it was lost with the template row of the
first, it is not filled at all, and in the other order it is filled and then lost.

Where neither table is inside of the other, the two changes do not meet. Where one is inside of
the other, both are changes at the outer table, so all that matters is what filling the outer
table makes of a change to one of its blocks. Filling reads two things: the elements, and the
texts and the formatting in the template row. The text of a cell passes over the tables
inside of it, so no change to such a table shows there. So the template is the same before
and after the change, the same rows come in, and what was changed is where its row went.

## Main definitions

* `filledTable?`, `fillTable`: What filling the table at an address gives.
* `followFill`: What an address becomes by that.
* `fillBoth`: Filling two tables in turn.
* `Block.fill`: Filling a block, if it is a table.
* `Block.KeepsParagraphs`: Changes that do not show in the text of a cell.

## Theorems

* `blocks_fillAt`, `follow_shifts_fillAt`: These are the fills that the table pass makes.
* `ofRow_modify`: The template does not depend on the tables in its cells.
* `table?_fill_modifyChild`: Filling a table in which a block was changed.
* `fillBoth_comm`: Two tables can be filled in either order.
-/

namespace MailMerge

/-- The table that filling the one at an address gives, if it gives one. -/
def filledTable? (options : Options) (elements : List Element) (a : Address)
    (blocks : List Block) : Option Table :=
  (tableAt? blocks a).bind fun t => (Table.fill options elements t).table?

/-- A body in which the table at an address was to be filled. -/
def fillTable (options : Options) (elements : List Element) (a : Address)
    (blocks : List Block) : List Block :=
  match filledTable? options elements a blocks with
  | some filled => modifyAt (fun _ => .table filled) a blocks
  | none => blocks

/-- What an address becomes when the table at another one was to be filled. -/
def followFill (options : Options) (elements : List Element) (a : Address)
    (blocks : List Block) (b : Address) : Option Address :=
  match filledTable? options elements a blocks with
  | some _ => Address.rebase a elements.length b
  | none => some b

/-- A body in which two tables were to be filled, one after the other. The second is looked for
    where it is then, and not filled if it was lost. -/
def fillBoth (options : Options) (first : List Element) (a : Address) (second : List Element)
    (b : Address) (blocks : List Block) : List Block :=
  match followFill options first a blocks b with
  | some b' => fillTable options second b' (fillTable options first a blocks)
  | none => fillTable options first a blocks

section

variable {options : Options} {elements : List Element} {a b : Address} {blocks : List Block}

theorem followFill_of_eq_some {filled : Table}
    (h : filledTable? options elements a blocks = some filled) :
    followFill options elements a blocks = Address.rebase a elements.length := by
  funext b
  rw [followFill, h]

theorem followFill_of_eq_none (h : filledTable? options elements a blocks = none) :
    followFill options elements a blocks = some := by
  funext b
  rw [followFill, h]

/-- An address outside of the table stays. -/
theorem followFill_of_rowIn?_eq_none (h : a.rowIn? b = none) :
    followFill options elements a blocks b = some b := by
  cases hfilled : filledTable? options elements a blocks with
  | some filled => rw [followFill_of_eq_some hfilled, Address.rebase_of_rowIn?_eq_none h]
  | none => rw [followFill_of_eq_none hfilled]

end

section

variable {data : Element} {options : Options} {path : String} {a : Address} {s : TablePass.State}

/-- The table pass fills tables in this way. -/
theorem blocks_fillAt : (TablePass.fillAt data options path a s).value.blocks =
    fillTable options (data.listAt path) a s.blocks := by
  rw [fillTable]
  cases h : filledTable? options (data.listAt path) a s.blocks with
  | some filled => rw [(TablePass.fillAt_of_eq_some h).1]
  | none => rw [(TablePass.fillAt_of_eq_none h).1]

/-- And it follows addresses in this way. -/
theorem follow_shifts_fillAt (b : Address) :
    Shift.follow (TablePass.fillAt data options path a s).value.shifts b =
      (Shift.follow s.shifts b).bind (followFill options (data.listAt path) a s.blocks) := by
  cases h : filledTable? options (data.listAt path) a s.blocks with
  | some filled =>
      rw [(TablePass.fillAt_of_eq_some h).1, Shift.follow_concat, followFill_of_eq_some h]
  | none => rw [(TablePass.fillAt_of_eq_none h).1, followFill_of_eq_none h, Option.bind_fun_some]

end

/-! ### Fills as changes -/

namespace Block

/-- A block that was to be filled. -/
def fill (options : Options) (elements : List Element) : Block → Block
  | .paragraph p => .paragraph p
  | .table t => .table ((Table.fill options elements t).table?.getD t)

theorem fill_table (options : Options) (elements : List Element) (t : Table) :
    fill options elements (.table t) =
      .table ((Table.fill options elements t).table?.getD t) := rfl

/-- Whether a change leaves paragraphs as they are and tables tables. -/
structure KeepsParagraphs (f : Block → Block) : Prop where
  paragraph : ∀ p, f (.paragraph p) = .paragraph p
  table : ∀ t, ∃ u, f (.table t) = .table u

theorem keepsParagraphs_fill (options : Options) (elements : List Element) :
    KeepsParagraphs (fill options elements) :=
  ⟨fun _ => rfl, fun _ => ⟨_, rfl⟩⟩

theorem KeepsParagraphs.modifyAt {f : Block → Block} (h : KeepsParagraphs f) (q : List Step) :
    KeepsParagraphs (Block.modifyAt f q) := by
  cases q with
  | nil => exact ⟨fun p => h.paragraph p, fun t => h.table t⟩
  | cons s q => exact ⟨fun _ => rfl, fun _ => ⟨_, rfl⟩⟩

end Block

theorem fillTable_eq_modifyAt (options : Options) (elements : List Element) (a : Address)
    (blocks : List Block) :
    fillTable options elements a blocks = modifyAt (Block.fill options elements) a blocks := by
  rw [fillTable]
  cases hfilled : filledTable? options elements a blocks with
  | some filled =>
      rcases Option.bind_eq_some_iff.mp hfilled with ⟨t, ht, hfill⟩
      refine modifyAt_congr fun b hb => ?_
      rw [tableAt?_eq_some_iff, hb, Option.some.injEq] at ht
      rw [ht, Block.fill, hfill, Option.getD_some]
  | none =>
      refine (modifyAt_eq_self fun b hb => ?_).symm
      cases b with
      | paragraph p => rfl
      | table t =>
          rw [filledTable?, tableAt?_eq_some_iff.mpr hb, Option.bind_some] at hfilled
          rw [Block.fill, hfilled, Option.getD_none]

/-! ### Filling a table in which a block was changed -/

/-- A change that leaves paragraphs does not show in the text of a cell. -/
theorem Cell.textOf_modify {f : Block → Block} (hf : Block.KeepsParagraphs f) (l : List Block)
    (k : Nat) : Cell.textOf (l.modify k f) = Cell.textOf l := by
  induction l generalizing k with
  | nil => rw [List.modify_nil]
  | cons b l ih =>
      cases k with
      | zero =>
          rw [List.modify_zero_cons]
          cases b with
          | paragraph p => rw [hf.paragraph]
          | table t =>
              rcases hf.table t with ⟨u, hu⟩
              rw [hu, textOf, textOf]
      | succ k =>
          rw [List.modify_succ_cons]
          cases b with
          | paragraph p => rw [textOf, textOf, ih]
          | table t => rw [textOf, textOf, ih]

namespace Table

variable {f : Block → Block}

/-- The template is read off the formatting of the row and of its cells, and their texts. -/
theorem Template.ofRow_congr {row row' : Row} (properties : row'.properties = row.properties)
    (texts : row'.texts = row.texts)
    (cells : row'.cells.map Cell.properties = row.cells.map Cell.properties)
    (known : List String) : Template.ofRow known row' = Template.ofRow known row := by
  rw [ofRow, ofRow, columnsOf, columnsOf, columnNames, columnNames, properties, texts, cells]

/-- The template does not depend on the tables in its cells. -/
theorem Template.ofRow_modify (hf : Block.KeepsParagraphs f) (known : List String) (row : Row)
    (cell block : Nat) :
    Template.ofRow known { row with cells := row.cells.modify cell fun c =>
      { c with blocks := c.blocks.modify block f } } = Template.ofRow known row := by
  refine ofRow_congr ?_ ?_ ?_ known
  · rfl
  · exact map_modify_of_eq (fun c => Cell.textOf_modify hf c.blocks block) row.cells cell
  · exact map_modify_of_eq (h := Cell.properties) (fun c => by rfl) row.cells cell

theorem table?_fill_cons_cons (options : Options) (first : Element) (later : List Element)
    (properties : Properties) (header template : Row) (rest : List Row) :
    (fill options (first :: later) ⟨properties, header :: template :: rest⟩).table? =
      (Template.ofRow first.columns template).toOption.map fun t =>
        ⟨properties, header :: ((first :: later).map (t.row options)).reverse ++ rest⟩ := by
  cases h : Template.ofRow first.columns template with
  | error reason => rw [fill_of_ofRow_eq_error h]; rfl
  | ok t => rw [fill_of_ofRow_eq_ok h]; rfl

/-- Filling a table in which a block was changed is filling the table, and then changing the
    block where it was pushed to, unless it went away with the template row. -/
theorem table?_fill_modifyChild (hf : Block.KeepsParagraphs f) (options : Options)
    (elements : List Element) (s : Step) (t : Table) :
    (fill options elements (t.modifyChild f s)).table? =
      (fill options elements t).table?.map fun filled =>
        ((s.pushed elements.length).map fun s' => filled.modifyChild f s').getD filled := by
  cases elements with
  | nil => rfl
  | cons first later =>
      by_cases hlt : t.rows.length < 2
      · have hlt' : (t.modifyChild f s).rows.length < 2 := by rwa [modifyChild, List.length_modify]
        rw [fill_of_length_lt hlt, fill_of_length_lt hlt']
        rfl
      · rcases t with ⟨properties, _ | ⟨header, _ | ⟨template, rest⟩⟩⟩
        · exact absurd Nat.zero_lt_two hlt
        · exact absurd Nat.one_lt_two hlt
        · rcases s with ⟨_ | _ | row, cell, block⟩
          · -- In the header, which stays where it is.
            simp only [modifyChild, List.modify_zero_cons, table?_fill_cons_cons, Option.map_map]
            rfl
          · -- In the template row, of which only the template is left.
            simp only [modifyChild, List.modify_succ_cons, List.modify_zero_cons,
              table?_fill_cons_cons, Template.ofRow_modify hf, Option.map_map]
            rfl
          · -- Further down.
            simp only [modifyChild, List.modify_succ_cons, table?_fill_cons_cons, Option.map_map]
            congr 1
            funext u
            have hrow : row + 1 + (first :: later).length =
                (header :: ((first :: later).map (u.row options)).reverse).length + row := by
              simp only [List.length_cons, List.length_reverse, List.length_map]
              omega
            change _ = modifyChild f ⟨row + 1 + (first :: later).length, cell, block⟩ _
            rw [modifyChild, hrow, modify_append_add]

end Table

/-! ### Either order -/

theorem Address.rowIn?_eq_none_of_below (a : Address) (s : Step) (inner : List Step) :
    Address.rowIn? ⟨a.root, a.steps ++ s :: inner⟩ a = none := by
  rw [Option.eq_none_iff_forall_ne_some]
  intro row hrow
  rcases rowIn?_eq_some_iff_exists.mp hrow with ⟨u, q, ha, _⟩
  have hlen := congrArg (fun x : Address => x.steps.length) ha
  simp only [List.length_append, List.length_cons] at hlen
  omega

section

variable (options : Options) (first second : List Element) {a b : Address} (blocks : List Block)

/-- A table and one inside of it can be filled in either order. -/
theorem fillBoth_comm_below (a : Address) (s : Step) (inner : List Step) :
    fillBoth options first a second ⟨a.root, a.steps ++ s :: inner⟩ blocks =
      fillBoth options second ⟨a.root, a.steps ++ s :: inner⟩ first a blocks := by
  have hkeeps := (Block.keepsParagraphs_fill options second).modifyAt inner
  -- The outer table stays where it is. In this order the inner one is filled in it first.
  have hinner : fillBoth options second ⟨a.root, a.steps ++ s :: inner⟩ first a blocks =
      modifyAt (Block.fill options first ∘ Block.modifyAt (Block.fill options second) (s :: inner))
        a blocks := by
    rw [fillBoth, followFill_of_rowIn?_eq_none (Address.rowIn?_eq_none_of_below a s inner)]
    simp only [fillTable_eq_modifyAt, modifyAt_below, modifyAt_modifyAt]
  have htable : ∀ t, blockAt? blocks a = some (.table t) →
      (Table.fill options first t).table? = filledTable? options first a blocks := by
    intro t ht
    rw [filledTable?, tableAt?_eq_some_iff.mpr ht, Option.bind_some]
  rw [hinner, fillBoth, fillTable_eq_modifyAt]
  cases hfilled : filledTable? options first a blocks with
  | none =>
      -- The outer table is not filled in either order, as its template is the same.
      rw [followFill_of_eq_none hfilled]
      simp only [fillTable_eq_modifyAt, modifyAt_below, modifyAt_modifyAt]
      refine modifyAt_congr fun c hc => ?_
      cases c with
      | paragraph p => rfl
      | table t =>
          simp only [Function.comp_apply, Block.modifyAt_table_cons, Block.fill_table,
            Table.table?_fill_modifyChild hkeeps, htable t hc, hfilled, Option.map_none,
            Option.getD_none]
  | some filled =>
      rw [followFill_of_eq_some hfilled, Address.rebase_below]
      cases hs : s.pushed first.length with
      | none =>
          -- The inner table is lost, so that it was filled does not show.
          simp only [Option.map_none]
          refine modifyAt_congr fun c hc => ?_
          cases c with
          | paragraph p => rfl
          | table t =>
              simp only [Function.comp_apply, Block.modifyAt_table_cons, Block.fill_table,
                Table.table?_fill_modifyChild hkeeps, htable t hc, hfilled, hs, Option.map_some,
                Option.map_none, Option.getD_some, Option.getD_none]
      | some s' =>
          -- The inner table is filled where its row went, or goes there filled.
          simp only [Option.map_some, fillTable_eq_modifyAt, modifyAt_below, modifyAt_modifyAt]
          refine modifyAt_congr fun c hc => ?_
          cases c with
          | paragraph p => rfl
          | table t =>
              simp only [Function.comp_apply, Block.modifyAt_table_cons, Block.fill_table,
                Table.table?_fill_modifyChild hkeeps, htable t hc, hfilled, hs, Option.map_some,
                Option.getD_some]

/-- Two tables can be filled in either order, wherever they are in a body and whether or not
    they can be filled. -/
theorem fillBoth_comm (ne : a ≠ b) :
    fillBoth options first a second b blocks = fillBoth options second b first a blocks := by
  by_cases hab : (a.rowIn? b).isSome
  · rcases Option.isSome_iff_exists.mp hab with ⟨row, hrow⟩
    rcases Address.rowIn?_eq_some_iff_exists.mp hrow with ⟨s, inner, rfl, _⟩
    exact fillBoth_comm_below options first second blocks a s inner
  · by_cases hba : (b.rowIn? a).isSome
    · rcases Option.isSome_iff_exists.mp hba with ⟨row, hrow⟩
      rcases Address.rowIn?_eq_some_iff_exists.mp hrow with ⟨s, inner, rfl, _⟩
      exact (fillBoth_comm_below options second first blocks b s inner).symm
    · -- Neither is inside of the other, so neither moves, and the two changes do not meet.
      rw [Option.not_isSome_iff_eq_none] at hab hba
      rw [fillBoth, fillBoth, followFill_of_rowIn?_eq_none hab, followFill_of_rowIn?_eq_none hba]
      simp only [fillTable_eq_modifyAt]
      exact modifyAt_comm _ _ ne hab hba blocks

end

/-- A table of towns, to be filled, inside of a table of names, once in the template row and once
    in the row below. -/
def townsInNames : List Block :=
  let towns : Block := .table ⟨∅, [.ofTexts ["Town"], .ofTexts ["./Town"]]⟩
  [.table ⟨∅, [.ofTexts ["Name"], ⟨∅, [⟨∅, [.paragraph (.ofText "./Name"), towns]⟩]⟩,
    ⟨∅, [⟨∅, [.paragraph (.ofText "all"), towns]⟩]⟩]⟩]

/-- A list of rows with one column. -/
def rowsOf (column : String) (values : List String) : List Element :=
  values.map fun s => ⟨"Row", [.element ⟨column, [.text s]⟩]⟩

/-- The towns below are found where they went, or are filled first and go there. The towns in the
    template row are lost, filled or not. -/
theorem fillBoth_townsInNames :
    let names := rowsOf "Name" ["Ann", "Bo", "Cy"]
    let towns := rowsOf "Town" ["Ulm", "Bern"]
    (∀ row ∈ [1, 2],
      fillBoth .default names ⟨0, []⟩ towns ⟨0, [⟨row, 0, 1⟩]⟩ townsInNames =
        fillBoth .default towns ⟨0, [⟨row, 0, 1⟩]⟩ names ⟨0, []⟩ townsInNames) ∧
      followFill .default names ⟨0, []⟩ townsInNames ⟨0, [⟨1, 0, 1⟩]⟩ = none ∧
      followFill .default names ⟨0, []⟩ townsInNames ⟨0, [⟨2, 0, 1⟩]⟩ = some ⟨0, [⟨4, 0, 1⟩]⟩ ∧
      (tableAt? (fillBoth .default names ⟨0, []⟩ towns ⟨0, [⟨2, 0, 1⟩]⟩ townsInNames)
        ⟨0, [⟨4, 0, 1⟩]⟩).map (fun t => t.rows.map Row.texts) =
          some [["Town"], ["Bern"], ["Ulm"]] := by
  intro names towns
  refine ⟨fun row _ => fillBoth_comm .default names towns townsInNames ?_, rfl, rfl, rfl⟩
  rw [ne_eq, Address.mk.injEq, not_and]
  exact fun _ => (List.cons_ne_nil _ _).symm

end MailMerge
