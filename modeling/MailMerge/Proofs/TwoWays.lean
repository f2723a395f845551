import MailMerge.Proofs.FilledTable
import MailMerge.Proofs.GeneratedTable

/-!
# Two Ways to Make Rows

The elements of a list become rows in two ways. A table that is there is filled from its
template row, and where there is none a table is generated. The first way reads columns off
the texts of cells, keeps those that are known, and lets only the last cell of a name have
the column. The second goes through the columns of the first element in order.

A template row that asks for these columns in order leaves no room for a difference. All of
its columns are known. None is asked for again if no two are called the same. And blanks are
dropped from the ends of a cell's text, but not from a name that has none at its ends. So
both ways put the same texts into the row of an element, whatever the later elements lack or
repeat. What is left is the order: a filled table has the elements from bottom to top.

## Theorems

* `Text.trimmed_here`: A name without blanks at its ends is kept behind a dot and a slash.
* `columnsOf_of_texts`: A template row that asks for the columns in order gets them.
* `Template.texts_row`: What a row says that comes from a template.
* `fill_agrees_with_ofElements`: Both ways say the same of the same list.
-/

namespace MailMerge

/-! ### Blanks around a name -/

namespace Text

theorem dropBlank_cons_of_not_blank {c : Char} {t : List Char} (h : isBlank c = false) :
    dropBlank (c :: t) = c :: t := by
  rw [dropBlank, List.dropWhile_cons, h, if_neg Bool.false_ne_true]

/-- A text that does not begin with a blank still does not with more text behind it. -/
theorem dropBlank_append_of_eq_self {t u : List Char} (ht : dropBlank t = t)
    (hu : dropBlank u = u) : dropBlank (t ++ u) = t ++ u := by
  cases t with
  | nil => exact hu
  | cons c t =>
      cases hc : isBlank c with
      | false => exact dropBlank_cons_of_not_blank hc
      | true =>
          -- Otherwise the text would be shorter without its first character.
          have hlt : (dropBlank (c :: t)).length ≤ t.length := by
            rw [dropBlank, List.dropWhile_cons, hc, if_pos rfl]
            exact (List.dropWhile_sublist _).length_le
          rw [ht, List.length_cons] at hlt
          exact absurd hlt (Nat.not_succ_le_self t.length)

/-- A name without blanks at its ends is kept behind a dot and a slash. -/
theorem trimmed_here {name : String} (h : trimmed name = name) :
    trimmed ("./" ++ name) = "./" ++ name := by
  have hname : (dropBlank (dropBlank name.toList).reverse).reverse = name.toList := by
    rw [trimmed] at h
    exact (String.toList_ofList.symm.trans (congrArg String.toList h))
  -- The last character of the name is not blank, as it is what dropping blanks stopped at.
  have hend : dropBlank name.toList.reverse = name.toList.reverse := by
    rw [← List.reverse_eq_iff.mp hname, dropBlank_dropBlank]
  have hback : dropBlank ("./" ++ name).toList.reverse = ("./" ++ name).toList.reverse := by
    rw [String.toList_append, List.reverse_append]
    exact dropBlank_append_of_eq_self hend rfl
  have hfront : dropBlank ("./" ++ name).toList = ("./" ++ name).toList := by
    rw [String.toList_append]
    exact dropBlank_cons_of_not_blank rfl
  rw [trimmed, trim, hfront, hback, List.reverse_reverse, String.ofList_toList]

end Text

namespace Table

/-! ### A template row that asks for all columns -/

/-- Names that are all known and all different are all kept. -/
theorem lastKnown_map_some {known names : List String} (hknown : ∀ name ∈ names, name ∈ known)
    (hnodup : names.Nodup) : lastKnown known (names.map some) = names.map some := by
  induction names with
  | nil => rfl
  | cons name rest ih =>
      rcases List.nodup_cons.mp hnodup with ⟨hfirst, hrest⟩
      have hlater : some name ∉ rest.map some := by
        intro h
        rcases List.mem_map.mp h with ⟨other, hmem, hother⟩
        exact hfirst (Option.some.inj hother ▸ hmem)
      have hkept : (some name).filter
          (fun name => decide (name ∈ known ∧ some name ∉ rest.map some)) = some name :=
        Option.filter_eq_some_iff.mpr
          ⟨rfl, decide_eq_true ⟨hknown name List.mem_cons_self, hlater⟩⟩
      rw [List.map_cons, lastKnown, hkept,
        ih (fun other h => hknown other (List.mem_cons_of_mem name h)) hrest]

/-- A template row that asks for the columns in order gets them. -/
theorem columnsOf_of_texts {columns : List String} {template : Row} (hnodup : columns.Nodup)
    (htrimmed : ∀ column ∈ columns, Text.trimmed column = column)
    (htexts : template.texts = columns.map ("./" ++ ·)) :
    columnsOf columns template = columns.map some := by
  have hnames : columnNames template = columns.map some := by
    rw [columnNames, htexts, List.map_map]
    refine List.map_congr_left fun column h => ?_
    exact columnName?_eq_some_iff.mpr (Text.trimmed_here (htrimmed column h))
  rw [columnsOf, hnames, lastKnown_map_some (fun _ h => h) hnodup]

/-- What a row says that comes from a template. -/
theorem Template.texts_row (template : Template) (options : Options) (e : Element) :
    (template.row options e).texts =
      template.cells.map fun cell => (cell.2.map e.textUnder).getD "" := by
  rw [Row.texts, row, List.map_map]
  exact List.map_congr_left fun cell _ => Cell.text_ofText _ _

/-- Both ways to make rows say the same of the same list, if the template row of the table that
    is filled asks for the columns of the first element in order, and these are different and
    have no blanks at their ends. The table is filled. In the place of the template row there
    is a row for each element, and what these rows say from bottom to top is what the rows below
    the header of the generated table say from top to bottom. -/
theorem fill_agrees_with_ofElements (options : Options) {first : Element} (rest : List Element)
    {table : Table} {template : Row} (hchild : first.children ≠ [])
    (hnodup : first.columns.Nodup)
    (htrimmed : ∀ column ∈ first.columns, Text.trimmed column = column)
    (htemplate : table.rows[1]? = some template)
    (htexts : template.texts = first.columns.map ("./" ++ ·)) :
    ∃ filled rows, fill options (first :: rest) table = .filled filled ∧
      filled.rows = table.rows.take 1 ++ rows ++ table.rows.drop 2 ∧
      rows.length = (first :: rest).length ∧
      (rows.map Row.texts).reverse =
        ((ofElements options (first :: rest)).rows.drop 1).map Row.texts := by
  have hcolumns := columnsOf_of_texts hnodup htrimmed htexts
  -- Some cell asks for a known column, so the row is of use as a template row.
  obtain ⟨t, ht, hcells⟩ : ∃ t : Template, Template.ofRow first.columns template = .ok t ∧
      t.cells = (template.cells.map Cell.properties).zip (first.columns.map some) := by
    rcases List.exists_cons_of_ne_nil hchild with ⟨c, children, hchildren⟩
    have hfirst : first.columns[0]? = some c.localName := by
      rw [Element.columns, hchildren, List.map_cons, List.getElem?_cons_zero]
    have hasks : StandsFor first.columns template 0 c.localName := by
      rw [standsFor_iff, hcolumns, List.getElem?_map, hfirst, Option.map_some]
    exact ⟨_, Template.ofRow_eq_ok hasks.2.1 hasks.1, by rw [hcolumns]⟩
  have hrow : ∀ e, (t.row options e).texts = first.columns.map e.textUnder := by
    intro e
    have hlength : (first.columns.map some).length =
        (template.cells.map Cell.properties).length := by
      rw [← hcolumns, length_columnsOf, List.length_map]
    rw [Template.texts_row, hcells]
    calc ((template.cells.map Cell.properties).zip (first.columns.map some)).map
          (fun cell => (cell.2.map e.textUnder).getD "")
        = (((template.cells.map Cell.properties).zip (first.columns.map some)).map Prod.snd).map
            (fun column? => (column?.map e.textUnder).getD "") := by rw [List.map_map]; rfl
      _ = (first.columns.map some).map (fun column? => (column?.map e.textUnder).getD "") := by
          rw [List.map_snd_zip (Nat.le_of_eq hlength)]
      _ = first.columns.map e.textUnder := by rw [List.map_map]; rfl
  have hfill : fill options (first :: rest) table = .filled { table with
      rows := table.rows.take 1 ++ ((first :: rest).map (t.row options)).reverse ++
        table.rows.drop 2 } := by
    simp only [fill_cons, htemplate, ht]
  refine ⟨_, ((first :: rest).map (t.row options)).reverse, hfill, rfl, ?_, ?_⟩
  · rw [List.length_reverse, List.length_map]
  · rw [List.map_reverse, List.reverse_reverse, List.map_map, List.map_drop, texts_ofElements,
      List.drop_one, List.tail_cons]
    exact List.map_congr_left fun e _ => hrow e

/-! ### Stock -/

/-- What is in stock of two sorts of fruit, with notes. The second entry has its columns in
    another order, one of them twice, and lacks the note. -/
def stock : List Element :=
  [⟨"Sort", [.element ⟨"Name", [.text "pear", .element ⟨"Region", [.text " (south)"]⟩]⟩,
      .element ⟨"Count", [.text "7"]⟩, .element ⟨"OnSale", []⟩]⟩,
    ⟨"Sort", [.element ⟨"Count", [.text "5"]⟩, .element ⟨"Count", [.text "6"]⟩,
      .element ⟨"Name", [.text "plum"]⟩]⟩]

/-- A table with a template row for the stock, and a line below. -/
def stockTable : Table :=
  ⟨∅, [.ofTexts ["Sort", "Left"], .ofTexts ["./Name", "./Count", "./OnSale"], .ofTexts ["total"]]⟩

/-- Filled in or in a table of its own, the stock reads the same. -/
theorem fill_stock_agrees :
    ∃ filled rows, fill .default stock stockTable = .filled filled ∧
      filled.rows = stockTable.rows.take 1 ++ rows ++ stockTable.rows.drop 2 ∧
      rows.map Row.texts = [["plum", "5", ""], ["pear (south)", "7", ""]] ∧
      (rows.map Row.texts).reverse =
        ((ofElements .default stock).rows.drop 1).map Row.texts := by
  have hchild : (stock.head (by decide)).children ≠ [] := by decide
  have htemplate : stockTable.rows[1]? = some (.ofTexts ["./Name", "./Count", "./OnSale"]) := rfl
  rcases fill_agrees_with_ofElements .default stock.tail hchild (by decide) (by decide) htemplate
    (Row.texts_ofTexts _) with ⟨filled, rows, hfill, hrows, _, htexts⟩
  have hreverse : (rows.map Row.texts).reverse = [["pear (south)", "7", ""], ["plum", "5", ""]] :=
    htexts
  exact ⟨filled, rows, hfill, hrows, List.reverse_eq_iff.mp hreverse, htexts⟩

end Table

end MailMerge
