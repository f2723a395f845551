import MailMerge.Proofs.Leftover
import MailMerge.Proofs.Outline

/-!
# Formatting Has No Say

Documents of one outline are merged alike. Their formatting may differ, and their texts may
be divided into runs in different ways, so that a marker is in one run here and spread over
several there. The options may differ in everything that formatting is made of, which is
all but strictness. What is reported is the same then, and what comes out is of one outline
again.

This is a statement about two runs, and it is carried through the passes as such. Two
stretches of work are alike when they report the same and their values look the same, by
whatever is looked at. Work that goes on from such values is alike if it is for values that
look the same, and so all comes down to what the single operations look at: texts, the
number of rows and cells, and no more.

Formatting is not only carried along, as a filled cell gets borders if the template cell
has no formatting. But it is given to formatting only.

## Main definitions

* `Reported.Alike`: Work that reports the same and leads to values that look the same.
* `Table.Template.columns`, `Table.Filling.outline`, `TablePass.State.outline`: What is
  looked at on the way.

## Theorems

* `Reported.Alike.bind`, `Reported.Alike.mapM`: Putting together work that is alike.
* `alike_step`, `alike_run`: The table pass looks at outlines.
* `alike_expand`, `ContentPass.alike_run`: So does the content pass.
* `run_outline_congr`: A merge looks at outlines.
-/

namespace MailMerge

/-! ### Work that is alike -/

/-- Work that reports the same and leads to values that look the same. -/
structure Reported.Alike {α γ : Type} (look : α → γ) (x x' : Reported α) : Prop where
  value : look x.value = look x'.value
  report : x.report = x'.report

namespace Reported.Alike

variable {α β γ δ : Type} {look : α → γ} {look' : β → δ}

theorem refl (look : α → γ) (x : Reported α) : Alike look x x := ⟨rfl, rfl⟩

theorem pure {a a' : α} (h : look a = look a') :
    Alike look (Pure.pure a : Reported α) (Pure.pure a') := ⟨h, rfl⟩

/-- Work that goes on alike from what looks the same. -/
theorem bind {x x' : Reported α} {f f' : α → Reported β} (h : Alike look x x')
    (hf : ∀ a a', look a = look a' → Alike look' (f a) (f' a')) :
    Alike look' (x >>= f) (x' >>= f') := by
  have hnext := hf x.value x'.value h.value
  refine ⟨hnext.value, ?_⟩
  rw [report_bind, report_bind, h.report, hnext.report]

/-- Work that is alike on elements that look the same is alike on lists of them. -/
theorem mapM {l l' : List α} {f f' : α → Reported β} (h : l.map look = l'.map look)
    (hf : ∀ a a', look a = look a' → Alike look' (f a) (f' a')) :
    Alike (List.map look') (l.mapM f) (l'.mapM f') := by
  replace h := map_eq_iff_forall₂.mp h
  induction h with
  | nil => exact refl _ _
  | @cons a a' l l' ha _ ih =>
      rw [List.mapM_cons, List.mapM_cons]
      refine (hf a a' ha).bind fun b b' hb => ih.bind fun r r' hr => pure ?_
      rw [List.map_cons, List.map_cons, hb, hr]

end Reported.Alike

open Reported (Alike)

variable {data : Element} {options options' : Options}

/-! ### Filling a table -/

theorem Cell.textOf_congr {l l' : List Block} (h : outlineBlocks l = outlineBlocks l') :
    Cell.textOf l = Cell.textOf l' := by
  replace h := outlineBlocks_eq_iff_forall₂.mp h
  induction h with
  | nil => rfl
  | cons hb _ ih =>
      rcases Block.paragraphs_or_tables hb with ⟨p, p', rfl, rfl, hp⟩ | ⟨t, t', rfl, rfl, _⟩
      · rw [Cell.textOf, Cell.textOf, hp, ih]
      · rw [Cell.textOf, Cell.textOf, ih]

/-- The outline of a row tells what its cells say. -/
theorem Row.texts_congr {r r' : Row} (h : r.outline = r'.outline) : r.texts = r'.texts := by
  rw [Row.outline, Row.outline, outlineCells_eq_map, outlineCells_eq_map] at h
  rw [Row.texts, Row.texts, map_eq_iff_forall₂]
  exact (map_eq_iff_forall₂.mp h).imp fun _ _ hc => Cell.textOf_congr hc

theorem Cell.outline_ofText (properties : Properties) (s : String) :
    (Cell.ofText properties s).outline = [.paragraph s] := by
  simp only [Cell.outline, Cell.ofText, outlineBlocks, Block.outline, Paragraph.text_ofText]

namespace Table

/-- The columns that the cells of a template stand for. -/
def Template.columns (template : Template) : List (Option String) := template.cells.map Prod.snd

/-- What becomes of filling a table, up to formatting. -/
def Filling.outline : Filling → Option (Except Misfit (List (List (List Outline))))
  | .filled t => some (.ok t.outline)
  | .noData => none
  | .misfit reason => some (.error reason)

/-- The columns of a template are read off the texts of the row. -/
theorem Template.map_columns_ofRow (known : List String) (row : Row) :
    (Template.ofRow known row).map Template.columns =
      if (row.texts.map columnName?).all Option.isNone then .error .noColumnCells
      else if (lastKnown known (row.texts.map columnName?)).all Option.isNone then
        .error .noKnownColumn
      else .ok (lastKnown known (row.texts.map columnName?)) := by
  have hcolumns : ((row.cells.map Cell.properties).zip (columnsOf known row)).map Prod.snd =
      columnsOf known row := by
    refine List.map_snd_zip ?_
    rw [length_columnsOf, List.length_map]
  rw [Template.ofRow, columnsOf, columnNames]
  split
  · rfl
  · split
    · rfl
    · exact congrArg Except.ok hcolumns

/-- What a new row says is told by the columns. -/
theorem Template.outline_row (template : Template) (options : Options) (e : Element) :
    (template.row options e).outline =
      template.columns.map fun column? => [.paragraph ((column?.map e.textUnder).getD "")] := by
  rw [Row.outline, outlineCells_eq_map, Template.row, Template.columns, List.map_map, List.map_map]
  exact List.map_congr_left fun c _ => Cell.outline_ofText _ _

/-- What a filled table looks like is told by the outlines of its rows and the columns. -/
theorem outline_fill (options : Options) (first : Element) (others : List Element) {t : Table}
    {header templateRow : Row} {rest : List Row} (ht : t.rows = header :: templateRow :: rest) :
    (fill options (first :: others) t).outline =
      some (((Template.ofRow first.columns templateRow).map Template.columns).map fun columns =>
        header.outline :: ((first :: others).map fun e =>
          columns.map fun column? => [.paragraph ((column?.map e.textUnder).getD "")]).reverse ++
            rest.map Row.outline) := by
  simp only [fill, ht]
  cases Template.ofRow first.columns templateRow with
  | error reason => rfl
  | ok template =>
      have hrows : ∀ l : List Element, (l.map (template.row options)).map Row.outline =
          l.map fun e => template.columns.map fun column? =>
            [.paragraph ((column?.map e.textUnder).getD "")] := by
        intro l
        rw [List.map_map]
        exact List.map_congr_left fun e _ => template.outline_row options e
      rw [Filling.outline, Table.outline, outlineRows_eq_map]
      dsimp only
      rw [List.cons_append, List.map_cons, List.map_append, List.map_reverse, hrows]
      rfl

/-- Tables of one outline are filled alike. -/
theorem outline_fill_congr {t t' : Table} (h : t.outline = t'.outline) (rows : List Element) :
    (fill options rows t).outline = (fill options' rows t').outline := by
  rcases t with ⟨properties, rowsOf⟩
  rcases t' with ⟨properties', rowsOf'⟩
  rw [Table.outline, Table.outline, outlineRows_eq_map, outlineRows_eq_map,
    map_eq_iff_forall₂] at h
  cases rows with
  | nil => simp only [fill]
  | cons first others =>
      cases h with
      | nil => rfl
      | cons hheader h =>
          cases h with
          | nil => rfl
          | cons htemplate hrest =>
              rw [outline_fill options first others rfl, outline_fill options' first others rfl,
                hheader, Template.map_columns_ofRow, Template.map_columns_ofRow,
                Row.texts_congr htemplate, map_eq_iff_forall₂.mpr hrest]

/-- A table that is generated looks the same whatever the options are. -/
theorem outline_ofElements (options options' : Options) (elements : List Element) :
    (ofElements options elements).outline = (ofElements options' elements).outline := by
  cases elements with
  | nil => rfl
  | cons first rest =>
      have hheader : ∀ o : Options, (headerRow o first.columns).outline =
          first.columns.map fun column => [.paragraph column] := by
        intro o
        rw [Row.outline, outlineCells_eq_map, headerRow, List.map_map]
        exact List.map_congr_left fun column _ => Cell.outline_ofText _ column
      rw [ofElements, ofElements, Table.outline, Table.outline, outlineRows_eq_map,
        outlineRows_eq_map]
      simp only [List.map_cons, hheader]

end Table

/-! ### The table pass -/

theorem outline_eraseMarker_congr (literal : String) {b b' : Block} (h : b.outline = b'.outline) :
    (eraseMarker literal b).outline = (eraseMarker literal b').outline := by
  rcases Block.paragraphs_or_tables h with ⟨p, p', rfl, rfl, hp⟩ | ⟨t, t', rfl, rfl, _⟩
  · rw [eraseMarker, eraseMarker, Block.outline_paragraph_inj, text_eraseLiteral,
      text_eraseLiteral, hp]
  · exact h

namespace TablePass

/-- What is looked at in a state of the pass. -/
def State.outline (s : State) : List Outline × List Shift := (outlineBlocks s.blocks, s.shifts)

variable {s s' : State}

theorem alike_fillAt (h : s.outline = s'.outline) (path : String) (table : Address) :
    Alike State.outline (fillAt data options path table s)
      (fillAt data options' path table s') := by
  have hblocks : outlineBlocks s.blocks = outlineBlocks s'.blocks := congrArg Prod.fst h
  have hshifts : s.shifts = s'.shifts := congrArg Prod.snd h
  have hat : (tableAt? s.blocks table).map Table.outline =
      (tableAt? s'.blocks table).map Table.outline := by
    rw [map_outline_tableAt?, map_outline_tableAt?, hblocks]
  rw [fillAt, fillAt]
  refine (Alike.refl id (data.rowsAt path)).bind fun rows rows' hrows => ?_
  obtain rfl : rows = rows' := hrows
  cases ht : tableAt? s.blocks table with
  | none =>
      rw [ht, Option.map_none, eq_comm, Option.map_eq_none_iff] at hat
      rw [hat]
      exact .pure h
  | some t =>
      rw [ht, Option.map_some, eq_comm, Option.map_eq_some_iff] at hat
      rcases hat with ⟨t', ht', houtline⟩
      have hfill : (Table.fill options rows t).outline = (Table.fill options' rows t').outline :=
        Table.outline_fill_congr houtline.symm rows
      rw [ht', Option.map_some, Option.map_some]
      rcases hf : Table.fill options rows t with filled | _ | reason <;>
        rcases hf' : Table.fill options' rows t' with filled' | _ | reason' <;>
          simp only [hf, hf', Table.Filling.outline, Option.some.injEq, Except.ok.injEq,
            Except.error.injEq, reduceCtorEq] at hfill
      · refine (Alike.refl id _).bind fun _ _ _ => .pure (Prod.ext ?_ ?_)
        · exact outlineBlocks_modifyAt_congr (fun _ _ _ => Block.outline_table_inj.mpr hfill)
            hblocks table
        · rw [State.outline, State.outline, hshifts]
      · exact .pure h
      · subst hfill
        exact (Alike.refl id _).bind fun _ _ _ => .pure h

/-- Honouring a request in states that look the same. -/
theorem alike_step (h : s.outline = s'.outline) (r : TableRequest) :
    Alike State.outline (step data options s r) (step data options' s' r) := by
  have hshifts : s.shifts = s'.shifts := congrArg Prod.snd h
  -- What is left to do once the table is filled.
  have herase : ∀ (a : Address) {t t' : State}, t.outline = t'.outline →
      State.outline ⟨modifyAt (eraseMarker r.marker.literal) a t.blocks, t.shifts⟩ =
        State.outline ⟨modifyAt (eraseMarker r.marker.literal) a t'.blocks, t'.shifts⟩ := by
    intro a t t' ht
    have htshifts : t.shifts = t'.shifts := congrArg Prod.snd ht
    refine Prod.ext ?_ htshifts
    exact outlineBlocks_modifyAt_congr (fun _ _ => outline_eraseMarker_congr r.marker.literal)
      (congrArg Prod.fst ht) a
  rw [step, step, hshifts]
  cases r.target with
  | none => exact (Alike.refl id _).bind fun _ _ _ => .pure h
  | some target =>
      have hfill : ∀ table, Alike State.outline (fillAt data options r.marker.path table s)
          (fillAt data options' r.marker.path table s') := alike_fillAt h r.marker.path
      dsimp only
      cases Shift.follow s'.shifts target with
      | none =>
          cases Shift.follow s'.shifts r.paragraph with
          | none => exact (Alike.pure h).bind fun _ _ hnext => .pure hnext
          | some a => exact (Alike.pure h).bind fun _ _ hnext => .pure (herase a hnext)
      | some table =>
          cases Shift.follow s'.shifts r.paragraph with
          | none => exact (hfill table).bind fun _ _ hnext => .pure hnext
          | some a => exact (hfill table).bind fun _ _ hnext => .pure (herase a hnext)

/-- Honouring requests in turn in states that look the same. -/
theorem alike_steps (h : s.outline = s'.outline) (l : List TableRequest) :
    Alike State.outline (steps data options s l) (steps data options' s' l) := by
  induction l generalizing s s' with
  | nil => exact .pure h
  | cons r rest ih => exact (alike_step h r).bind fun _ _ hnext => ih hnext

/-- The table pass on bodies of one outline. -/
theorem alike_run {blocks blocks' : List Block} (h : outlineBlocks blocks = outlineBlocks blocks') :
    Alike outlineBlocks (run data options blocks) (run data options' blocks') := by
  have hstate : State.outline ⟨blocks, []⟩ = State.outline ⟨blocks', []⟩ := by
    rw [State.outline, State.outline, h]
  rw [run, run, tableRequests_congr h]
  exact (alike_steps hstate _).bind fun _ _ hend => .pure (congrArg Prod.fst hend)

end TablePass

/-! ### The content pass -/

/-- Content is put into what a paragraph says. -/
theorem alike_substitute {p p' : Paragraph} (h : p.text = p'.text) :
    Alike Paragraph.text (substitute data p) (substitute data p') := by
  rw [substitute, substitute, h]
  split
  · exact .pure h
  · exact ⟨by rw [Paragraph.text_setText, Paragraph.text_setText], rfl⟩

theorem outlineBlocks_append (l m : List Block) :
    outlineBlocks (l ++ m) = outlineBlocks l ++ outlineBlocks m := by
  rw [outlineBlocks_eq_map, outlineBlocks_eq_map, outlineBlocks_eq_map, List.map_append]

theorem outlineBlocks_interleave_congr {tables tables' : List (String × Table)}
    (h : (tables.map fun x => (x.1, x.2.outline)) = tables'.map fun x => (x.1, x.2.outline))
    (rest : List Char) :
    outlineBlocks (interleave rest tables) = outlineBlocks (interleave rest tables') := by
  replace h := map_eq_iff_forall₂.mp h
  induction h generalizing rest with
  | nil => rfl
  | @cons x x' tables tables' hx _ ih =>
      rcases x with ⟨literal, t⟩
      rcases x' with ⟨literal', t'⟩
      rcases Prod.mk.inj hx with ⟨hliteral, ht⟩
      dsimp only at hliteral ht
      subst hliteral
      rw [interleave, interleave]
      split
      · rw [outlineBlocks_append, outlineBlocks_append, outlineBlocks, outlineBlocks, ih,
          Block.outline_table_inj.mpr ht]
      · exact ih rest

/-- Generated tables look the same, and they are generated in the same places. -/
theorem alike_splitAround (text : String) (markers : List Marker) :
    Alike outlineBlocks (splitAround data options text markers)
      (splitAround data options' text markers) := by
  have hgenerate : ∀ m, Alike Table.outline (generateTable data options m)
      (generateTable data options' m) := by
    intro m
    refine (Alike.refl id (data.rowsAt m.path)).bind fun rows rows' hrows => ?_
    obtain rfl : rows = rows' := hrows
    exact (Alike.refl id _).bind fun _ _ _ => .pure (Table.outline_ofElements _ _ rows)
  have htables : Alike (List.map fun x : String × Table => (x.1, x.2.outline))
      ((Marker.distinct markers).mapM fun m => do
        return (m.literal, ← generateTable data options m))
      ((Marker.distinct markers).mapM fun m => do
        return (m.literal, ← generateTable data options' m)) := by
    refine Alike.mapM (rfl : List.map id _ = List.map id _) fun m m' hm => ?_
    obtain rfl : m = m' := hm
    exact (hgenerate m).bind fun _ _ ht => .pure (Prod.ext rfl ht)
  exact htables.bind fun _ _ h => .pure (outlineBlocks_interleave_congr h _)

namespace ContentPass

/-- A paragraph is expanded by what it says. -/
theorem alike_expand {p p' : Paragraph} (h : p.text = p'.text) :
    Alike outlineBlocks (expand data options p) (expand data options' p') := by
  refine (alike_substitute h).bind fun q q' hq => ?_
  rw [hq]
  split
  · exact .pure (congrArg (fun o => [o]) (Block.outline_paragraph_inj.mpr hq))
  · exact alike_splitAround _ _

theorem alike_expandBlocks {blocks blocks' : List Block}
    (h : outlineBlocks blocks = outlineBlocks blocks') :
    Alike outlineBlocks (expandBlocks data options blocks)
      (expandBlocks data options' blocks') := by
  replace h := outlineBlocks_eq_iff_forall₂.mp h
  induction h with
  | nil => exact .refl _ _
  | cons hb _ ih =>
      rcases Block.paragraphs_or_tables hb with ⟨p, p', rfl, rfl, hp⟩ | ⟨t, t', rfl, rfl, _⟩
      · refine (alike_expand hp).bind fun l l' hl => ih.bind fun m m' hm => .pure ?_
        rw [outlineBlocks_append, outlineBlocks_append, hl, hm]
      · refine ih.bind fun m m' hm => .pure ?_
        rw [outlineBlocks, outlineBlocks, hb, hm]

theorem alike_expandTable {t t' : Table} (h : t.outline = t'.outline) :
    Alike Table.outline (expandTable data options t) (expandTable data options' t') := by
  have hcell : ∀ c c' : Cell, c.outline = c'.outline →
      Alike Cell.outline (expandCell data options c) (expandCell data options' c') :=
    fun _ _ hc => (alike_expandBlocks hc).bind fun _ _ hblocks => .pure hblocks
  have hrow : ∀ r r' : Row, r.outline = r'.outline →
      Alike Row.outline (expandRow data options r) (expandRow data options' r') := by
    intro r r' hr
    rw [Row.outline, Row.outline, outlineCells_eq_map, outlineCells_eq_map] at hr
    refine (Alike.mapM hr hcell).bind fun cells cells' hcells => .pure ?_
    rw [Row.outline, Row.outline, outlineCells_eq_map, outlineCells_eq_map]
    exact hcells
  rw [Table.outline, Table.outline, outlineRows_eq_map, outlineRows_eq_map] at h
  refine (Alike.mapM h hrow).bind fun rows rows' hrows => .pure ?_
  rw [Table.outline, Table.outline, outlineRows_eq_map, outlineRows_eq_map]
  exact hrows

/-- The content pass on bodies of one outline. -/
theorem alike_run {blocks blocks' : List Block} (h : outlineBlocks blocks = outlineBlocks blocks') :
    Alike outlineBlocks (run data options blocks) (run data options' blocks') := by
  replace h := outlineBlocks_eq_iff_forall₂.mp h
  induction h with
  | nil => exact .refl _ _
  | cons hb _ ih =>
      rcases Block.paragraphs_or_tables hb with ⟨p, p', rfl, rfl, hp⟩ | ⟨t, t', rfl, rfl, ht⟩
      · refine (alike_expand hp).bind fun l l' hl => ih.bind fun m m' hm => .pure ?_
        rw [outlineBlocks_append, outlineBlocks_append, hl, hm]
      · refine (alike_expandTable ht).bind fun u u' hu => ih.bind fun m m' hm => .pure ?_
        rw [outlineBlocks, outlineBlocks, Block.outline_table_inj.mpr hu, hm]

end ContentPass

/-! ### Merges -/

/-- Both passes on bodies of one outline. -/
theorem alike_passes {blocks blocks' : List Block}
    (h : outlineBlocks blocks = outlineBlocks blocks') :
    Alike outlineBlocks (passes options data blocks) (passes options' data blocks') :=
  (TablePass.alike_run h).bind fun _ _ hnext => ContentPass.alike_run hnext

namespace Merger

-- The verdict depends on strictness and on the report.
theorem conclude_congr (m m' : Merger) (strict : m.options.strict = m'.options.strict)
    (stage : m.stage = m'.stage) (report : m.report = m'.report) :
    m.conclude.1 = m'.conclude.1 ∧ m.conclude.2.report = m'.conclude.2.report ∧
      m.conclude.2.stage = m'.conclude.2.stage := by
  rw [conclude, conclude, strict, report]
  split
  · exact ⟨rfl, report, stage⟩
  · exact ⟨rfl, rfl, rfl⟩

/-- Two documents of one outline are merged alike, by mergers that differ in nothing but the
    formatting that they give: both merges come through or both are refused for the same
    reason, the report and the stage are the same, and so is the outline of what is left. -/
theorem run_outline_congr {m m' : Merger} (data : m.data = m'.data)
    (strict : m.options.strict = m'.options.strict) (stage : m.stage = m'.stage)
    (report : m.report = m'.report) {d d' : Document} (same : d.outline = d'.outline) :
    (m.run d).result = (m'.run d').result ∧
      (m.run d).merger.report = (m'.run d').merger.report ∧
      (m.run d).merger.stage = (m'.run d').merger.stage ∧
      (m.run d).document.outline = (m'.run d').document.outline := by
  by_cases idle : m.stage = .idle
  · have idle' : m'.stage = .idle := stage.symm.trans idle
    cases body : d.body with
    | none =>
        have body' : d'.body = none := by
          rw [Document.outline, Document.outline, body, Option.map_none, eq_comm,
            Option.map_eq_none_iff] at same
          exact same
        rw [run_of_body_eq_none idle body, run_of_body_eq_none idle' body']
        exact ⟨rfl, report, stage, same⟩
    | some blocks =>
        rw [Document.outline, Document.outline, body, Option.map_some, eq_comm,
          Option.map_eq_some_iff] at same
        rcases same with ⟨blocks', body', same⟩
        have hpasses : Alike outlineBlocks (passes m.options m.data blocks)
            (passes m'.options m'.data blocks') := data ▸ alike_passes same.symm
        have hverdict := conclude_congr
          ⟨m.data, m.options, .contentResolved,
            m.report ++ (passes m.options m.data blocks).report⟩
          ⟨m'.data, m'.options, .contentResolved,
            m'.report ++ (passes m'.options m'.data blocks').report⟩
          strict rfl (congrArg₂ (· ++ ·) report hpasses.report)
        rw [run_of_body idle body, run_of_body idle' body']
        exact ⟨hverdict.1, hverdict.2.1, hverdict.2.2, congrArg some hpasses.value⟩
  · -- A merger that was used does nothing.
    have idle' : m'.stage ≠ .idle := fun idle' => idle (stage.trans idle')
    rw [run_of_stage_ne_idle idle, run_of_stage_ne_idle idle', stage]
    exact ⟨rfl, report, rfl, same⟩

end Merger

/-- A template without formatting, in which each text is one run. -/
def plainTemplate : List Block :=
  [.paragraph (.ofText "For <# <Content Select=\"N\" /> #>"),
    .paragraph (.ofText "<# <Table Select=\"A\" /> #>"),
    .table ⟨∅, [.ofTexts ["h"], .ofTexts ["./X"]]⟩,
    .paragraph (.ofText "<# <Table Select=\"B\" /> #><# <Table Select=\"A\" /> #>")]

/-- The same template with formatting, and with texts in several runs. -/
def formattedTemplate : List Block :=
  [.paragraph ⟨.ofList [("align", "right")],
      [.plain "For <", ⟨.ofList [("bold", "on")], "# <Content Select=\"N"⟩, .plain "\" /> #>"]⟩,
    .paragraph ⟨∅, [.plain "<# <Tab", .plain "le Select=\"A\" /> #>"]⟩,
    .table ⟨.ofList [("width", "100")], [.ofTexts ["h"],
      ⟨.ofList [("height", "20")], [.ofText (.ofList [("fill", "red")]) "./X"]⟩]⟩,
    .paragraph ⟨.ofList [("align", "left")],
      [.plain "<# <Table Select=\"B\" /> #><# <Table Select=\"A\" /", .plain "> #>"]⟩]

/-- The same report and the same outline come of both templates. -/
theorem run_formattedTemplate :
    Document.outline ⟨some plainTemplate⟩ = Document.outline ⟨some formattedTemplate⟩ ∧
      let outcome := (Merger.new nameAndRow .default).run ⟨some plainTemplate⟩
      let outcome' := (Merger.new nameAndRow ⟨"FF0000", 1, 2, false⟩).run ⟨some formattedTemplate⟩
      outcome.result = outcome'.result ∧ outcome.merger.report = outcome'.merger.report ∧
        outcome.merger.stage = outcome'.merger.stage ∧
        outcome.document.outline = outcome'.document.outline := by
  have same :
      Document.outline ⟨some plainTemplate⟩ = Document.outline ⟨some formattedTemplate⟩ := by
    simp [Document.outline, plainTemplate, formattedTemplate, outlineBlocks, Block.outline,
      outlineRows, outlineCells, Row.ofTexts, Cell.ofText, Paragraph.ofText, Paragraph.text,
      Paragraph.textOf, Run.plain]
  exact ⟨same, @Merger.run_outline_congr (Merger.new nameAndRow .default)
    (Merger.new nameAndRow ⟨"FF0000", 1, 2, false⟩) rfl rfl rfl rfl _ _ same⟩

end MailMerge
