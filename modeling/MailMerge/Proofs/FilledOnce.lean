import Mathlib.Data.List.Perm.Subperm
import MailMerge.Proofs.DataText
import MailMerge.Proofs.Remains
import MailMerge.Proofs.Shadowing
import MailMerge.Proofs.Verdict

/-!
# Tables are Filled Once

Nothing in the table pass remembers which tables were filled. Several markers may ask for
one table, and each of them fills it if the row below its header stands for a column. After
a fill this is a row that came in, and it says what the data says. So a table may be filled
again only if some text of the data would be taken for a column.

If no text of the data is then the table is spent, and it remains so. The row below its
header came in with a fill, so no block in it has an identity, and the pass changes nothing
but blocks with an identity. The row is not pushed down either: other fills put rows into
other tables. Header and lower rows may change, and the table may be lost.

So the tables that are filled are different ones, and all of them are in the document as it
was. A marker that asks for a table that was filled before finds it spent, and this is what
is noted.

## Main definitions

* `Element.NamesNoColumn`: Data in which no text would be taken for a column.
* `TrackedTable.IsSpent`: A table whose second row came in and stands for no column.
* `AreSpent`: All tables in a tree that are among some identities.
* `TablePass.filledTables`: The tables that are filled, in turn.

## Theorems

* `isSpent_fill`, `fill_of_isSpent`: A filled table is spent and is not filled again.
* `areSpent_changeInBlocks`: What changes by identity keep.
* `areSpent_step`, `areSpent_steps`: What a step spends, and so what all steps spend.
* `step_of_areSpent`: What becomes of a marker whose table was filled before.
* `filled_once`: No table is filled twice in a merge.
-/

namespace MailMerge

/-! ### Rows that stand for no column -/

/-- Whether no text in a data tree would be taken for a column in a template row. -/
def Element.NamesNoColumn (data : Element) : Prop :=
  ∀ e : Element, e.IsIn data → ¬ ['.', '/'] <+: Text.trim e.text.toList

/-- A tree names no column if its root does not and the trees below do not. -/
theorem Element.namesNoColumn_mk_iff {name : String} {content : List Content} :
    (⟨name, content⟩ : Element).NamesNoColumn ↔
      ¬ ['.', '/'] <+: Text.trim (⟨name, content⟩ : Element).text.toList ∧
        ∀ e, .element e ∈ content → e.NamesNoColumn := by
  constructor
  · intro h
    refine ⟨h _ (IsIn.self _), fun e he d hd => h d (hd.trans ?_)⟩
    exact IsIn.child (mem_children_iff.mpr he) (IsIn.self e)
  · intro h e he
    cases he with
    | self => exact h.1
    | child mem below => exact h.2 _ (mem_children_iff.mp mem) e below

theorem Table.columnName?_eq_none {text : String}
    (h : ¬ ['.', '/'] <+: Text.trim text.toList) : columnName? text = none := by
  unfold columnName?
  split
  · next name heq =>
      rw [heq] at h
      exact absurd ⟨name, rfl⟩ h
  · rfl

/-- Then the text of a column is not taken for a column. -/
theorem Element.NamesNoColumn.columnName?_textUnder {data e : Element} (h : data.NamesNoColumn)
    {path : String} (he : e ∈ data.listAt path) (name : String) :
    Table.columnName? (e.textUnder name) = none := by
  unfold Element.textUnder
  split
  · next c hc => exact Table.columnName?_eq_none (h c ((isIn_of_child? hc).trans
      (isIn_of_mem_listAt he)))
  · rfl

variable {ι : Type}

/-- Whether a row came in with a fill, and stands for no column. -/
structure TrackedRow.IsSpent (r : TrackedRow ι) : Prop where
  fresh : ∀ c ∈ r.cells, ∀ b ∈ c.blocks, ∃ p, b = .paragraph none p
  noColumn : (Table.columnNames r.forget).all Option.isNone = true

/-- Whether the row below the header of a table is not a template any more. -/
def TrackedTable.IsSpent (t : TrackedTable ι) : Prop := ∃ r, t.rows[1]? = some r ∧ r.IsSpent

namespace TrackedTable

/-- A spent table is not filled. -/
theorem fill_of_isSpent {t : TrackedTable ι} (h : t.IsSpent) (options : Options)
    {elements : List Element} (ne : elements ≠ []) :
    Table.fill options elements t.forget = .misfit .noColumnCells := by
  rcases h with ⟨r, hr, hspent⟩
  rcases List.exists_cons_of_ne_nil ne with ⟨first, later, rfl⟩
  have hrows : ∃ header rest, t.forget.rows = header :: r.forget :: rest := by
    rw [forget_rows]
    rcases hrows : t.rows with _ | ⟨header, _ | ⟨second, rest⟩⟩ <;> rw [hrows] at hr
    · exact absurd hr nofun
    · exact absurd hr nofun
    · rw [List.getElem?_cons_succ, List.getElem?_cons_zero, Option.some.injEq] at hr
      exact ⟨_, _, by rw [List.map_cons, List.map_cons, hr]⟩
  rcases hrows with ⟨header, rest, hrows⟩
  unfold Table.fill Table.Template.ofRow
  simp only [hrows, if_pos hspent.noColumn]

/-- A filled table is spent, if the texts that were filled in are not taken for columns. -/
theorem isSpent_fill {options : Options} {elements : List Element} {t t' : TrackedTable ι}
    (h : t.fill options elements = some t')
    (hcolumn : ∀ e ∈ elements, ∀ name, Table.columnName? (e.textUnder name) = none) :
    t'.IsSpent := by
  rcases rows_of_fill h with ⟨hpos, header, templateRow, rest, template, _, hrows'⟩
  -- The row below the header is the first of the new ones.
  have hfirst : ∃ e ∈ elements, ∃ later, (elements.map (template.row options)).reverse =
      template.row options e :: later := by
    have hne : (elements.map (template.row options)).reverse ≠ [] := by
      rw [Ne, List.reverse_eq_nil_iff, List.map_eq_nil_iff]
      exact List.ne_nil_of_length_pos hpos
    rcases List.exists_cons_of_ne_nil hne with ⟨r, later, hr⟩
    have hmem : r ∈ (elements.map (template.row options)).reverse := hr ▸ List.mem_cons_self
    rcases List.mem_map.mp (List.mem_reverse.mp hmem) with ⟨e, he, rfl⟩
    exact ⟨e, he, later, hr⟩
  rcases hfirst with ⟨e, he, later, hfirst⟩
  have hrow : t'.rows[1]? = some ⟨template.properties,
      trackCells (fun _ => none) ⟨0, []⟩ 0 0 (template.row options e).cells⟩ := by
    rw [hrows', hfirst]
    rfl
  refine ⟨_, hrow, ⟨fun c hc b hb => ?_, ?_⟩⟩
  · rcases List.mem_iff_getElem?.mp hc with ⟨cell, hcell⟩
    rcases List.mem_iff_getElem?.mp hb with ⟨block, hblock⟩
    have hchild : t'.child? ⟨1, cell, block⟩ = some b :=
      child?_eq_some_iff.mpr ⟨_, c, hrow, hcell, hblock⟩
    have hfresh : b.node.IsFresh elements :=
      @isFresh_of_child?_fill ι options elements t t' h ⟨1, cell, block⟩ Nat.one_pos hpos b b []
        hchild (TrackedBlock.at?_nil b)
    rcases hfresh with ⟨hid, text, hparagraph, _⟩
    cases b with
    | paragraph id p => exact ⟨p, by rw [show id = none from hid]⟩
    | table id u => exact absurd hparagraph nofun
  · rw [List.all_eq_true]
    intro name hname
    have hforget : TrackedRow.forget (⟨template.properties,
        trackCells (fun _ => none) ⟨0, []⟩ 0 0 (template.row options e).cells⟩ :
        TrackedRow ι) = template.row options e := by
      rw [TrackedRow.forget, forgetCells_trackCells]
      rfl
    rw [hforget, Table.columnNames, Row.texts, Table.Template.row, List.map_map,
      List.map_map] at hname
    rcases List.mem_map.mp hname with ⟨⟨properties, column?⟩, _, rfl⟩
    simp only [Function.comp_apply, Cell.text_ofText, Option.isNone_iff_eq_none]
    cases column? with
    | none => rfl
    | some name => exact hcolumn e he name

/-- A change by identity further in leaves a spent table spent. -/
theorem isSpent_mapChildren [DecidableEq ι] {t : TrackedTable ι} (h : t.IsSpent) (i : ι)
    (f : TrackedBlock ι → TrackedBlock ι) : (t.mapChildren (TrackedBlock.change i f)).IsSpent := by
  rcases h with ⟨r, hr, hspent⟩
  refine ⟨r, ?_, hspent⟩
  have hcells : r.cells.map (fun c => { c with blocks := c.blocks.map (TrackedBlock.change i f) }) =
      r.cells := by
    refine map_eq_self fun c hc => ?_
    have hblocks : c.blocks.map (TrackedBlock.change i f) = c.blocks := by
      refine map_eq_self fun b hb => ?_
      rcases hspent.fresh c hc b hb with ⟨p, rfl⟩
      exact TrackedBlock.change_paragraph_of_id_ne f (Option.some_ne_none i).symm p
    rw [hblocks]
    cases c
    rfl
  rw [mapChildren, List.getElem?_map, hr, Option.map_some, hcells]
  cases r
  rfl

end TrackedTable

/-! ### Spent tables in a tree -/

/-- Whether all tables in a tree with one of some identities are spent. -/
def AreSpent (tree : List (TrackedBlock ι)) (done : List ι) : Prop :=
  ∀ i ∈ done, ∀ t, .table (some i) t ∈ allInBlocks tree → t.IsSpent

theorem AreSpent.mono {tree : List (TrackedBlock ι)} {done done' : List ι}
    (h : AreSpent tree done) (hsubset : ∀ i ∈ done', i ∈ done) : AreSpent tree done' :=
  fun i hi => h i (hsubset i hi)

section

variable [DecidableEq ι] {tree : List (TrackedBlock ι)} {done : List ι}

/-- A change by identity keeps tables spent, if those that it puts in are. -/
theorem areSpent_changeInBlocks {i : ι} {f : TrackedBlock ι → TrackedBlock ι}
    (h : ∀ j ∈ done, j ≠ i → ∀ t, .table (some j) t ∈ allInBlocks tree → t.IsSpent)
    (hf : ∀ d ∈ allInBlocks tree, d.id = some i → ∀ j ∈ done, ∀ t,
      .table (some j) t ∈ (f d).all → t.IsSpent) : AreSpent (changeInBlocks i f tree) done := by
  intro j hj t ht
  rcases mem_allInBlocks_changeInBlocks ht with ⟨d, hd, hid, ht⟩ | ⟨d, hd, hid, heq⟩
  · exact hf d hd hid j hj t ht
  · -- It was there before, with other children.
    cases d with
    | paragraph id p =>
        rw [@TrackedBlock.change_paragraph_of_id_ne ι _ i id f hid p] at heq
        exact absurd heq nofun
    | table id u =>
        rw [@TrackedBlock.change_table_of_id_ne ι _ i id f hid u, TrackedBlock.table.injEq] at heq
        rcases heq with ⟨rfl, rfl⟩
        have hne : j ≠ i := fun h => hid (congrArg some h)
        exact TrackedTable.isSpent_mapChildren (h j hj hne u hd) i f

/-- Taking a marker out keeps tables spent. -/
theorem areSpent_mapParagraph (h : AreSpent tree done) (i : ι) (f : Paragraph → Paragraph) :
    AreSpent (changeInBlocks i (.mapParagraph f) tree) done := by
  refine areSpent_changeInBlocks (fun j hj _ => h j hj) fun d hd _ j hj t ht => ?_
  cases d with
  | paragraph id p => exact absurd (List.mem_singleton.mp ht) nofun
  | table id u => exact h j hj t (mem_allInBlocks_of_mem_all hd ht)

/-- A fill keeps tables spent, and spends the one that is filled. -/
theorem areSpent_fill (h : AreSpent tree done) {a : Address} {i : ι} {options : Options}
    {elements : List Element} {t t' : TrackedTable ι}
    (at_a : trackedAt? tree a = some (.table (some i) t))
    (only : ∀ b c, trackedAt? tree b = some c → c.id = some i → b = a)
    (hfill : t.fill options elements = some t')
    (hcolumn : ∀ e ∈ elements, ∀ name, Table.columnName? (e.textUnder name) = none) :
    AreSpent (changeInBlocks i (fun _ => .table (some i) t') tree) (i :: done) := by
  have hdone : ∀ j ∈ i :: done, j ≠ i → j ∈ done :=
    fun j hj hne => (List.mem_cons.mp hj).resolve_left hne
  refine areSpent_changeInBlocks (fun j hj hne => h j (hdone j hj hne)) ?_
  intro _ _ _ j hj u hu
  rcases TrackedBlock.mem_all_table.mp hu with heq | ⟨s, b, hb, hu⟩
  · rw [TrackedBlock.table.injEq] at heq
    rw [heq.2]
    exact TrackedTable.isSpent_fill hfill hcolumn
  · rcases TrackedBlock.mem_all_iff.mp hu with ⟨q, hq⟩
    rcases Step.pushed_or_fresh s with ⟨s₀, hs₀⟩ | ⟨pos, le⟩
    · -- It was in the table before, so it is not the table itself.
      rw [TrackedTable.child?_fill_of_pushed hfill hs₀] at hb
      have hat := trackedAt?_append at_a (TrackedBlock.at?_table_cons.mpr ⟨b, hb, hq⟩)
      have hne : j ≠ i := by
        rintro rfl
        have hlen := congrArg (fun x : Address => x.steps.length) (only _ _ hat rfl)
        simp only [List.length_append, List.length_cons] at hlen
        omega
      exact h j (hdone j hj hne) u (mem_allInBlocks_iff.mpr ⟨_, hat⟩)
    · -- In a new row there are paragraphs only.
      rcases TrackedTable.isFresh_of_child?_fill hfill pos le hb hq with ⟨hid, _⟩
      exact absurd hid (Option.some_ne_none j)

end

/-! ### Steps -/

-- Where there are rows, nothing is noted about the path.
theorem Element.report_rowsAt_of_ne_nil {data : Element} {path : String}
    (h : data.listAt path ≠ []) : (data.rowsAt path).report = ∅ := by
  cases hresolve : data.resolve? path with
  | none => exact absurd (by rw [listAt, hresolve]; rfl) h
  | some e => exact report_rowsAt_of_some hresolve

namespace TablePass

variable {origin : List Block} {s : State} {tree : List (TrackedBlock Address)}
  {data : Element} {options : Options} {done : List Address}

/-- The tables that are filled when requests are honoured in turn. -/
def filledTables (data : Element) (options : Options) (s : State) (l : List TableRequest) :
    List Address := (filling data options s l).filterMap TableRequest.target

theorem filledTables_nil : filledTables data options s [] = [] := rfl

theorem filledTables_singleton (r : TableRequest) : filledTables data options s [r] =
    if fills data options s r then r.target.toList else [] := by
  rw [filledTables, filling, filling, List.append_nil, List.filter_singleton]
  cases fills data options s r with
  | false => rfl
  | true =>
      rw [cond_true, if_pos rfl]
      cases htarget : r.target with
      | none => rw [List.filterMap_cons_none htarget]; rfl
      | some t => rw [List.filterMap_cons_some htarget]; rfl

theorem filledTables_cons (r : TableRequest) (rest : List TableRequest) :
    filledTables data options s (r :: rest) = filledTables data options s [r] ++
      filledTables data options (step data options s r).value rest := by
  rw [filledTables, filledTables, filledTables, filling, filling, filling, List.append_nil,
    List.filterMap_append]

theorem isSome_target_of_mem_filling {l : List TableRequest} {r : TableRequest}
    (hr : r ∈ filling data options s l) : r.target.isSome = true := by
  induction l generalizing s with
  | nil => exact absurd hr List.not_mem_nil
  | cons q rest ih =>
      rw [filling] at hr
      rcases List.mem_append.mp hr with hr | hr
      · rcases List.mem_filter.mp hr with ⟨_, hfills⟩
        rw [fills] at hfills
        cases htarget : r.target with
        | none =>
            rw [htarget] at hfills
            exact absurd hfills Bool.false_ne_true
        | some t => exact Option.isSome_some
      · exact ih hr

/-- As many tables are counted as are filled. -/
theorem tablesPopulated_steps_eq (l : List TableRequest) :
    (steps data options s l).report.tablesPopulated =
      (filledTables data options s l).length := by
  rw [tablesPopulated_steps, filledTables, List.length_filterMap_eq_countP]
  exact (List.countP_eq_length.mpr fun r hr => isSome_target_of_mem_filling hr).symm

/-- A table that is spent is not filled again. -/
theorem fills_eq_false_of_areSpent (h : Tracks origin s tree) (spent : AreSpent tree done)
    {r : TableRequest} (hr : r.Sound origin) {t : Address} (htarget : r.target = some t)
    (ht : t ∈ done) : fills data options s r = false := by
  rw [fills, htarget, Option.bind_some]
  cases hfollow : Shift.follow s.shifts t with
  | none => rfl
  | some a =>
      rcases h.tableOf?_of_follow (hr.target t htarget) hfollow with ⟨u, hat, _, htable⟩
      have hu := spent t ht u (mem_allInBlocks_iff.mpr ⟨a, hat⟩)
      rw [Option.any_some, filledAt?, htable, Option.bind_some]
      by_cases hnil : data.listAt r.marker.path = []
      · rw [hnil, Table.fill]
        rfl
      · rw [TrackedTable.fill_of_isSpent hu options hnil]
        rfl

/-- What the fill of a step spends. -/
theorem areSpent_reference_fill (h : Tracks origin s tree) (spent : AreSpent tree done)
    (hdata : data.NamesNoColumn) {r : TableRequest} (hr : r.Sound origin) {t : Address}
    (htarget : r.target = some t) (populated : Nat) :
    AreSpent (TableReference.fill data options r.marker.path t ⟨tree, populated⟩).tree
      (done ++ filledTables data options s [r]) := by
  rw [filledTables_singleton, TableReference.fill, fills, htarget, Option.bind_some]
  cases hfollow : Shift.follow s.shifts t with
  | none =>
      rw [tableOf?_eq_none fun b => h.not_located hfollow b .table, Option.any_none,
        if_neg Bool.false_ne_true, List.append_nil]
      exact spent
  | some a =>
      rcases h.tableOf?_of_follow (hr.target t htarget) hfollow with ⟨u, hat, htable, htableAt⟩
      rw [htable, Option.any_some, filledAt?_of_tableAt? htableAt, Option.bind_some]
      cases hfill : u.fill options (data.listAt r.marker.path) with
      | none =>
          rw [Option.map_none, Option.isSome_none, if_neg Bool.false_ne_true, List.append_nil]
          exact spent
      | some u' =>
          rw [Option.map_some, Option.isSome_some, if_pos rfl, Option.toList_some]
          refine (areSpent_fill spent hat (fun b c hc hid => h.only t b a c _ hc hat hid rfl)
            hfill fun e he name => hdata.columnName?_textUnder he name).mono fun i hi => ?_
          rcases List.mem_append.mp hi with hi | hi
          · exact List.mem_cons_of_mem t hi
          · exact List.mem_singleton.mp hi ▸ List.mem_cons_self

/-- What a step spends. -/
theorem areSpent_step (h : Tracks origin s tree) (spent : AreSpent tree done)
    (hdata : data.NamesNoColumn) {r : TableRequest} (hr : r.Sound origin) (populated : Nat) :
    AreSpent (TableReference.honour data options ⟨tree, populated⟩ r.binding).tree
      (done ++ filledTables data options s [r]) := by
  rw [TableReference.honour]
  cases htarget : r.target with
  | none =>
      rw [TableRequest.binding, htarget, filledTables_singleton, htarget, Option.toList_none,
        ite_self, List.append_nil]
      exact spent
  | some t =>
      rw [TableRequest.binding, htarget]
      exact areSpent_mapParagraph (areSpent_reference_fill h spent hdata hr htarget populated) _ _

/-- A table that a step fills was not spent before. -/
theorem nodup_filledTables_singleton (h : Tracks origin s tree) (spent : AreSpent tree done)
    {r : TableRequest} (hr : r.Sound origin) (nodup : done.Nodup) :
    (done ++ filledTables data options s [r]).Nodup := by
  refine List.nodup_append.mpr ⟨nodup, ?_, fun t ht u hu => ?_⟩
  · rw [filledTables_singleton]
    split
    · cases r.target with
      | none => exact List.nodup_nil
      | some t => exact List.pairwise_singleton _ t
    · exact List.nodup_nil
  · rw [filledTables_singleton] at hu
    split at hu
    · next hfills =>
        rintro rfl
        rw [fills_eq_false_of_areSpent h spent hr (Option.mem_toList.mp hu) ht] at hfills
        exact Bool.false_ne_true hfills
    · exact absurd hu List.not_mem_nil

/-- What steps spend: the tables that they fill. These are different ones, and none of them
    was spent before. -/
theorem areSpent_steps (h : Tracks origin s tree) (spent : AreSpent tree done)
    (hdata : data.NamesNoColumn) {l : List TableRequest} (hl : ∀ r ∈ l, r.Sound origin)
    (nodup : done.Nodup) (populated : Nat) :
    AreSpent (TableReference.honourAll data options ⟨tree, populated⟩
        (l.map TableRequest.binding)).tree (done ++ filledTables data options s l) ∧
      (done ++ filledTables data options s l).Nodup := by
  induction l generalizing s tree done populated with
  | nil =>
      rw [filledTables_nil, List.append_nil]
      exact ⟨spent, nodup⟩
  | cons r rest ih =>
      have hr := hl r List.mem_cons_self
      have hnext := (tracks_step h hr data options populated).1
      have hspent : AreSpent (TableReference.honour data options ⟨tree, populated⟩
          r.binding).tree (done ++ filledTables data options s [r]) :=
        areSpent_step h spent hdata hr populated
      have hnodup : (done ++ filledTables data options s [r]).Nodup :=
        nodup_filledTables_singleton h spent hr nodup
      rw [filledTables_cons, ← List.append_assoc]
      exact ih hnext hspent (fun x hx => hl x (List.mem_cons_of_mem r hx)) hnodup _

/-! ### Markers that come too late -/

theorem fillAt_of_misfit {path : String} {a : Address} {t : Table} {reason : Table.Misfit}
    (ht : tableAt? s.blocks a = some t)
    (h : Table.fill options (data.listAt path) t = .misfit reason) :
    fillAt data options path a s =
      ⟨s, (data.rowsAt path).report ++ .ofDiagnostic (misfitDiagnostic path reason)⟩ := by
  unfold fillAt
  refine Reported.ext ?_ ?_
  · rw [Reported.value_bind, Element.value_rowsAt, ht, Option.map_some, h]
    rfl
  · rw [Reported.report_bind, Element.value_rowsAt, ht, Option.map_some, h]
    rfl

/-- Taking a marker out changes no table, unless the marker is in it. -/
theorem tableAt?_eraseMarker (h : Tracks origin s tree) {t a b : Address} {p : Address}
    (ht : Located tree a t .table) (hp : Located tree b p .paragraph) (hrow : a.rowIn? b = none)
    (literal : String) :
    tableAt? (modifyAt (eraseMarker literal) b s.blocks) a = tableAt? s.blocks a := by
  have hne : a ≠ b := by
    rintro rfl
    rcases ht with ⟨c, hc, _, hkind⟩
    rcases hp with ⟨d, hd, _, hkind'⟩
    rw [hc, Option.some.injEq] at hd
    rw [hd, hkind'] at hkind
    exact Block.Kind.noConfusion hkind
  rw [← h.blocks, ← forgetBlocks_modifyTrackedAt (forget_mapParagraph_eraseLiteral literal),
    tableAt?, tableAt?, blockAt?_forgetBlocks, blockAt?_forgetBlocks,
    trackedAt?_mapParagraph _ hne hrow]

/-- What becomes of a marker whose table was filled before: a misfit is noted, and the table
    stays as it is. -/
theorem step_of_areSpent (h : Tracks origin s tree) (spent : AreSpent tree done)
    {r : TableRequest} (hr : r.Sound origin) {t a : Address} (htarget : r.target = some t)
    (ht : t ∈ done) (hfollow : Shift.follow s.shifts t = some a)
    (hrows : data.listAt r.marker.path ≠ []) :
    (step data options s r).report =
        .ofDiagnostic (misfitDiagnostic r.marker.path .noColumnCells) ∧
      (step data options s r).value.shifts = s.shifts ∧
        tableAt? (step data options s r).value.blocks a = tableAt? s.blocks a := by
  have hkind := hr.target t htarget
  rcases h.tableOf?_of_follow hkind hfollow with ⟨u, hat, _, htable⟩
  have hu := spent t ht u (mem_allInBlocks_iff.mpr ⟨a, hat⟩)
  have hfill : fillAt data options r.marker.path a s =
      ⟨s, (data.rowsAt r.marker.path).report ++
        .ofDiagnostic (misfitDiagnostic r.marker.path .noColumnCells)⟩ :=
    fillAt_of_misfit htable (TrackedTable.fill_of_isSpent hu options hrows)
  rcases r with ⟨marker, paragraph, target⟩
  dsimp only at htarget
  subst htarget
  rw [report_step_some, shifts_step_some, value_step_some, hfollow]
  dsimp only
  rw [hfill, Element.report_rowsAt_of_ne_nil hrows, Report.empty_append]
  refine ⟨rfl, rfl, ?_⟩
  cases hparagraph : Shift.follow s.shifts paragraph with
  | none => rfl
  | some b =>
      have hrow := h.rowIn?_eq_none_of_follow hr rfl hfollow hparagraph
      exact tableAt?_eraseMarker h ((h.located a t .table).mpr ⟨hkind, hfollow⟩)
        ((h.located b paragraph .paragraph).mpr ⟨hr.paragraph, hparagraph⟩) hrow marker.literal

end TablePass

/-! ### Merges -/

/-- How many tables there are in a body, at any depth. -/
def countTables (blocks : List Block) : Nat :=
  ((places blocks).filter fun place => place.kind = .table).length

-- A table that is filled is the target of a request, and stands in the body as it was.
theorem length_filledTables_le {data : Element} {options : Options} {blocks : List Block}
    (nodup : (TablePass.filledTables data options ⟨blocks, []⟩ (tableRequests blocks)).Nodup) :
    (TablePass.filledTables data options ⟨blocks, []⟩ (tableRequests blocks)).length ≤
      countTables blocks := by
  have hsubset : ∀ t ∈ TablePass.filledTables data options ⟨blocks, []⟩ (tableRequests blocks),
      t ∈ ((places blocks).filter fun place => place.kind = .table).map Place.address := by
    intro t ht
    rcases List.mem_filterMap.mp ht with ⟨r, hr, htarget⟩
    have hr := (TablePass.filling_sublist _ _).subset hr
    have hkind := (sound_of_mem_tableRequests hr).target t htarget
    rcases Option.map_eq_some_iff.mp hkind with ⟨b, hb, _⟩
    rcases exists_mem_places hb with ⟨place, hplace, rfl⟩
    rw [kind_of_mem_places hplace, Option.some.injEq] at hkind
    exact List.mem_map.mpr ⟨place, List.mem_filter.mpr ⟨hplace, decide_eq_true hkind⟩, rfl⟩
  rw [countTables, ← List.length_map Place.address]
  exact (List.subperm_of_subset nodup hsubset).length_le

/-- No table is filled twice in a merge, if no text of the data would be taken for a column:
    the tables that the table pass fills are different ones, and are as many as it counts. A
    marker whose table was filled before, and that has rows, is noted as a mismatch of the
    template row under its path, nothing else is reported of it, and the table stays as it
    is. So no more tables are counted than there were. -/
theorem filled_once {data : Element} (hdata : data.NamesNoColumn) (options : Options)
    (blocks : List Block) :
    let requests := tableRequests blocks
    let filled := TablePass.filledTables data options ⟨blocks, []⟩
    let outcome := (Merger.new data options).run ⟨some blocks⟩
    ((filled requests).Nodup ∧
        (TablePass.run data options blocks).report.tablesPopulated = (filled requests).length) ∧
      (∀ k r, requests[k]? = some r →
        let s := (TablePass.steps data options ⟨blocks, []⟩ (requests.take k)).value
        let next := TablePass.step data options s r
        ∀ t ∈ filled (requests.take k), r.target = some t → ∀ a,
          Shift.follow s.shifts t = some a → data.listAt r.marker.path ≠ [] →
            next.report = ⟨0, 0, 0, [⟨.templateRowMismatch,
                "template row does not contain placeholder cells",
                some (Path.normalize r.marker.path)⟩]⟩ ∧
              next.value.shifts = s.shifts ∧
              tableAt? next.value.blocks a = tableAt? s.blocks a) ∧
      outcome.merger.report.tablesPopulated ≤ countTables blocks ∧
        ∀ report, outcome.result = .ok report → report.tablesPopulated ≤ countTables blocks := by
  have hsound : ∀ r ∈ tableRequests blocks, r.Sound blocks :=
    fun _ hr => sound_of_mem_tableRequests hr
  -- In the beginning no table is spent.
  have hspent : ∀ l : List TableRequest, (∀ r ∈ l, r.Sound blocks) →
      AreSpent (TableReference.honourAll data options ⟨trackBody blocks, 0⟩
          (l.map TableRequest.binding)).tree
        (TablePass.filledTables data options ⟨blocks, []⟩ l) ∧
      (TablePass.filledTables data options ⟨blocks, []⟩ l).Nodup := by
    intro l hl
    have hnone : AreSpent (trackBody blocks) [] := fun _ h => absurd h List.not_mem_nil
    have h := @TablePass.areSpent_steps blocks ⟨blocks, []⟩ (trackBody blocks) data options []
      (TablePass.tracks_trackBody blocks) hnone hdata l hl List.nodup_nil 0
    rwa [List.nil_append] at h
  have hnodup := (hspent _ hsound).2
  have hle := length_filledTables_le hnodup
  rw [← TablePass.tablesPopulated_steps_eq, ← tablesPopulated_passes] at hle
  refine ⟨⟨hnodup, ?_⟩, fun k r hr => ?_, ?_⟩
  · rw [TablePass.run, Reported.report_bind, Reported.report_pure, Report.append_empty,
      TablePass.tablesPopulated_steps_eq]
  · intro s next t ht htarget a hfollow hrows
    have htake : ∀ q ∈ (tableRequests blocks).take k, q.Sound blocks :=
      fun q hq => hsound q (List.mem_of_mem_take hq)
    have htracks := (TablePass.tracks_steps (TablePass.tracks_trackBody blocks) htake data options
      0).1
    exact TablePass.step_of_areSpent htracks (hspent _ htake).1
      (hsound r (List.mem_of_getElem? hr)) htarget ht hfollow hrows
  · rw [Merger.run_new]
    dsimp only
    split
    · exact ⟨hle, fun report h => absurd h (by simp only [reduceCtorEq, not_false_eq_true])⟩
    · refine ⟨Nat.zero_le _, fun report h => ?_⟩
      rw [← Except.ok.inj h]
      exact hle

/-- Two markers that ask for one table. -/
def sharedTable : List Block :=
  [.paragraph (.ofText "<# <Table Select=\"A\" /> #>"),
    .paragraph (.ofText "<# <Table Select=\"B\" /> #>"),
    .table ⟨∅, [.ofTexts ["h"], .ofTexts ["./X"]]⟩]

/-- The second marker comes too late: the table stays as the first one has filled it. -/
theorem filled_once_sharedTable :
    rowsForBoth.NamesNoColumn ∧
      let s := (TablePass.steps rowsForBoth .default ⟨sharedTable, []⟩
        ((tableRequests sharedTable).take 1)).value
      let next := TablePass.step rowsForBoth .default s
        ⟨⟨.table, "<# <Table Select=\"B\" /> #>", "B", 0, 26⟩, ⟨1, []⟩, some ⟨2, []⟩⟩
      next.report = ⟨0, 0, 0, [⟨.templateRowMismatch,
          "template row does not contain placeholder cells", some "B"⟩]⟩ ∧
        next.value.shifts = s.shifts ∧
        tableAt? next.value.blocks ⟨2, []⟩ = tableAt? s.blocks ⟨2, []⟩ := by
  have hdata : rowsForBoth.NamesNoColumn := by
    simp only [rowsForBoth, Element.namesNoColumn_mk_iff, List.mem_cons, List.not_mem_nil,
      or_false, forall_eq_or_imp, forall_eq, Content.element.injEq, reduceCtorEq, false_implies,
      implies_true, and_true]
    decide
  refine ⟨hdata, ?_⟩
  exact (filled_once hdata .default sharedTable).2.1 1 _ (by decide +kernel) ⟨2, []⟩
    (by decide +kernel) rfl ⟨2, []⟩ (by decide +kernel) (by decide +kernel)

end MailMerge
