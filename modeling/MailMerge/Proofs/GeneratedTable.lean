import Mathlib.Data.List.TakeWhile
import MailMerge.Table.Synthesis

/-!
# What a Generated Table Shows

A generated table has a column for each child of its first element. The column is called by
the local name of that child, and it is this local name that is then looked up in every
element, among names as written. For a child whose name has no part before a colon the two
are the same, and the column shows what each element has under that name. For any other
child they differ, and what is written under its name is not found: the column shows what
stands under the local name, which the element that made the column need not have.

So a table shows the data of every column if no child of the first element has a colon in
its name. In general it does so just when each element says the same under both names.

## Main definitions

* `cellText?`: What a cell of a table says.

## Theorems

* `localName_eq_name_iff`: When the local name is the name as written.
* `texts_ofElements`: What all rows of a generated table say.
* `cellText?_ofElements`: What the cells say, and when that is the data of their columns.
* `cellText?_prefixed`: A column that shows nothing though there is data.
-/

namespace MailMerge

/-- The local name of an element is its name as written when there is no colon in that. -/
theorem Element.localName_eq_name_iff {e : Element} :
    e.localName = e.name ↔ ':' ∉ e.name.toList := by
  rw [← String.toList_inj, localName, String.toList_ofList, List.reverse_eq_iff,
    List.takeWhile_eq_self_iff]
  constructor
  · intro h hcolon
    exact absurd (h ':' (List.mem_reverse.mpr hcolon)) (by decide)
  · intro h c hc
    rw [decide_eq_true_eq]
    rintro rfl
    exact h (List.mem_reverse.mp hc)

namespace Table

/-- What the cell in a row and a column of a table says, if there is one. -/
def cellText? (t : Table) (row column : Nat) : Option String :=
  t.rows[row]?.bind fun r => r.texts[column]?

/-- The header says what the columns are called, and the row of an element says what it has
    under these names. -/
theorem texts_ofElements (options : Options) (first : Element) (rest : List Element) :
    (ofElements options (first :: rest)).rows.map Row.texts =
      first.columns :: (first :: rest).map fun e => first.columns.map e.textUnder := by
  rw [ofElements, List.map_cons, texts_headerRow, List.map_map]
  congr 1
  exact List.map_congr_left fun e _ => texts_dataRow first.columns e

theorem cellText?_eq (t : Table) (row column : Nat) :
    t.cellText? row column = (t.rows.map Row.texts)[row]?.bind fun texts => texts[column]? := by
  rw [cellText?, List.getElem?_map]
  cases t.rows[row]? <;> rfl

/-- Below the header a cell says what the element of its row has under the local name of the
    child that made its column. -/
theorem cellText?_dataRow {options : Options} {first : Element} {rest : List Element} {i j : Nat}
    {e c : Element} (he : (first :: rest)[i]? = some e) (hc : first.children[j]? = some c) :
    (ofElements options (first :: rest)).cellText? (i + 1) j =
      some (e.textUnder c.localName) := by
  rw [cellText?_eq, texts_ofElements, List.getElem?_cons_succ, List.getElem?_map, he,
    Option.map_some, Option.bind_some, Element.columns, List.map_map, List.getElem?_map, hc,
    Option.map_some, Function.comp_apply]

/-- What a generated table shows.

    It has a header and a row for each element, and in each of them a cell for each child of
    the first element. The header gives the local names of these children, and a cell below
    it says what the element of its row has under the local name. Where the name has no colon
    this is what the element has under the name as written. All cells show that just when
    every element says the same under the local names and under the names. -/
theorem cellText?_ofElements (options : Options) (first : Element) (rest : List Element) :
    let elements := first :: rest
    let table := ofElements options elements
    table.rows.length = elements.length + 1 ∧
      (∀ row ∈ table.rows, row.cells.length = first.children.length) ∧
      (∀ j c, first.children[j]? = some c → table.cellText? 0 j = some c.localName) ∧
      (∀ i j e c, elements[i]? = some e → first.children[j]? = some c →
        table.cellText? (i + 1) j = some (e.textUnder c.localName) ∧
          (':' ∉ c.name.toList → table.cellText? (i + 1) j = some (e.textUnder c.name))) ∧
      ((∀ i j e c, elements[i]? = some e → first.children[j]? = some c →
          table.cellText? (i + 1) j = some (e.textUnder c.name)) ↔
        ∀ e ∈ elements, ∀ c ∈ first.children, e.textUnder c.localName = e.textUnder c.name) := by
  intro elements table
  refine ⟨length_rows_ofElements options first rest, fun row hrow => ?_, fun j c hc => ?_,
    fun i j e c he hc => ⟨cellText?_dataRow he hc, fun hcolon => ?_⟩, ?_⟩
  · have hmem : row.texts ∈ table.rows.map Row.texts := List.mem_map_of_mem hrow
    rw [texts_ofElements, List.mem_cons, List.mem_map] at hmem
    have hlength : row.texts.length = first.children.length := by
      rcases hmem with h | ⟨e, _, h⟩
      · rw [h, Element.columns, List.length_map]
      · rw [← h, List.length_map, Element.columns, List.length_map]
    rwa [Row.texts, List.length_map] at hlength
  · rw [cellText?_eq, texts_ofElements, List.getElem?_cons_zero, Option.bind_some,
      Element.columns, List.getElem?_map, hc, Option.map_some]
  · rw [cellText?_dataRow he hc, Element.localName_eq_name_iff.mpr hcolon]
  · constructor
    · intro hshows e he c hc
      rcases List.mem_iff_getElem?.mp he with ⟨i, hi⟩
      rcases List.mem_iff_getElem?.mp hc with ⟨j, hj⟩
      exact Option.some.inj ((cellText?_dataRow hi hj).symm.trans (hshows i j e c hi hj))
    · intro hsame i j e c he hc
      rw [cellText?_dataRow he hc,
        hsame e (List.mem_of_getElem? he) c (List.mem_of_getElem? hc)]

/-- A line of a bill, with a note whose name has a part before a colon. -/
def rent : Element :=
  ⟨"Line", [.element ⟨"Name", [.text "rent"]⟩, .element ⟨"n:Note", [.text "monthly"]⟩]⟩

/-- A line of a bill without a note. -/
def tax : Element := ⟨"Line", [.text "yearly", .element ⟨"Name", [.text "tax"]⟩]⟩

/-- Both lines show their names. Both columns have a header. -/
theorem cellText?_bill :
    let bill := ofElements .default [rent, tax]
    bill.rows.length = 3 ∧ bill.cellText? 0 1 = some "Note" ∧ bill.cellText? 1 0 = some "rent" ∧
      bill.cellText? 2 0 = some "tax" := by
  rcases cellText?_ofElements .default rent [tax] with ⟨hlength, _, hheader, hdata, _⟩
  exact ⟨hlength, hheader 1 _ rfl, (hdata 0 0 _ _ rfl rfl).2 (by decide),
    (hdata 1 0 _ _ rfl rfl).2 (by decide)⟩

/-- There is a note in the first line, and its column does not show it. -/
theorem cellText?_prefixed :
    let bill := ofElements .default [rent, tax]
    rent.children.map Element.name = ["Name", "n:Note"] ∧ rent.textUnder "n:Note" = "monthly" ∧
      bill.cellText? 1 1 = some "" ∧
      ¬ ∀ i j e c, [rent, tax][i]? = some e → rent.children[j]? = some c →
        bill.cellText? (i + 1) j = some (e.textUnder c.name) := by
  intro bill
  have hblank : bill.cellText? 1 1 = some "" := rfl
  refine ⟨rfl, rfl, hblank, fun h => ?_⟩
  have hshown : bill.cellText? 1 1 = some "monthly" := h 0 1 rent _ rfl rfl
  rw [hblank] at hshown
  exact absurd hshown (by decide)

end Table

end MailMerge
