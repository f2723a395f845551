import MailMerge.Merge.ContentPass
import MailMerge.Proofs.Reporting

/-!
# What the Content Pass Reaches

The content pass goes through the paragraphs of a body and those directly in the cells
of its tables, and no others. As nothing that it puts in is entered again, what it comes
to is a flat map: each of these paragraphs becomes what it is expanded to, and all else
stays.

A table that is generated in the body has cells of its own, and their paragraphs are
within reach from then on. So what is within reach of a body after the pass comes from
the expansion of a paragraph that was within reach before, and is a paragraph of it or
in a cell of one of its tables.

## Main definitions

* `Block.reached`, `reached`: The paragraphs within reach.

## Theorems

* `Block.exists_of_at?_cons`, `Table.exists_step`: Where a descent into a table leads.
* `mem_reached_iff`: What is within reach stands one table deep at most.
* `value_expandBlocks`, `value_expandTable`, `value_run`: The flat map.
* `exists_of_mem_reached_run`: Where a paragraph within reach comes from.
* `mem_reached_run`: The paragraphs of an expansion are within reach.
* `ContentPass.run_congr`: The pass is determined by what its paragraphs become.
* `append_report_run`: What is reported is reported in document order.
* `resolveContent_eq_flatMap`: Sweeping over a body comes to the flat map.
-/

namespace MailMerge

/-- A descent leads into a table, to a block in a cell, and goes on from there. -/
theorem Block.exists_of_at?_cons {b d : Block} {s : Step} {q : List Step}
    (h : b.at? (s :: q) = some d) : ∃ t, b = .table t ∧
      ∃ r ∈ t.rows, ∃ c ∈ r.cells, ∃ e ∈ c.blocks, e.at? q = some d := by
  cases b with
  | paragraph p => exact absurd h (by simp only [Block.at?, reduceCtorEq, not_false_eq_true])
  | table t =>
      simp only [Block.at?, Option.bind_eq_bind, Option.bind_eq_some_iff] at h
      rcases h with ⟨r, hr, c, hc, e, he, hd⟩
      exact ⟨t, rfl, r, List.mem_of_getElem? hr, c, List.mem_of_getElem? hc, e,
        List.mem_of_getElem? he, hd⟩

/-- There is a descent to each block in the cells of a table. -/
theorem Table.exists_step {t : Table} {r : Row} {c : Cell} {b : Block} (hr : r ∈ t.rows)
    (hc : c ∈ r.cells) (hb : b ∈ c.blocks) :
    ∃ s, ∀ q, (Block.table t).at? (s :: q) = b.at? q := by
  rcases List.mem_iff_getElem?.mp hr with ⟨row, hrow⟩
  rcases List.mem_iff_getElem?.mp hc with ⟨cell, hcell⟩
  rcases List.mem_iff_getElem?.mp hb with ⟨block, hblock⟩
  refine ⟨⟨row, cell, block⟩, fun q => ?_⟩
  simp only [Block.at?, hrow, hcell, hblock, Option.bind_eq_bind, Option.bind_some]

/-- The paragraphs that the content pass reaches in a block of a body. -/
def Block.reached : Block → List Paragraph
  | .paragraph p => [p]
  | .table t => t.rows.flatMap fun r => r.cells.flatMap fun c => c.blocks.filterMap Block.paragraph?

/-- The paragraphs that the content pass reaches in a body. -/
def reached (blocks : List Block) : List Paragraph := blocks.flatMap Block.reached

theorem mem_reached_table {t : Table} {p : Paragraph} :
    p ∈ (Block.table t).reached ↔ ∃ r ∈ t.rows, ∃ c ∈ r.cells, .paragraph p ∈ c.blocks := by
  simp only [Block.reached, List.mem_flatMap, List.mem_filterMap]
  constructor
  · intro h
    rcases h with ⟨r, hr, c, hc, b, hb, hp⟩
    exact ⟨r, hr, c, hc, Block.paragraph?_eq_some_iff.mp hp ▸ hb⟩
  · intro h
    rcases h with ⟨r, hr, c, hc, hp⟩
    exact ⟨r, hr, c, hc, _, hp, rfl⟩

/-- What is within reach stands one table deep at most. -/
theorem mem_reached_iff {blocks : List Block} {p : Paragraph} :
    p ∈ reached blocks ↔ ∃ a : Address, a.steps.length ≤ 1 ∧ paragraphAt? blocks a = some p := by
  rw [reached, List.mem_flatMap]
  constructor
  · intro h
    rcases h with ⟨b, hb, hp⟩
    rcases List.mem_iff_getElem?.mp hb with ⟨root, hroot⟩
    cases b with
    | paragraph q =>
        rw [Block.reached, List.mem_singleton] at hp
        subst hp
        refine ⟨⟨root, []⟩, Nat.zero_le 1, paragraphAt?_eq_some_iff.mpr ?_⟩
        rw [blockAt?, hroot, Option.bind_some, Block.at?]
    | table t =>
        rcases mem_reached_table.mp hp with ⟨r, hr, c, hc, hp⟩
        rcases Table.exists_step hr hc hp with ⟨s, hs⟩
        refine ⟨⟨root, [s]⟩, Nat.le_refl 1, paragraphAt?_eq_some_iff.mpr ?_⟩
        rw [blockAt?, hroot, Option.bind_some, hs, Block.at?]
  · intro h
    rcases h with ⟨⟨root, steps⟩, hlen, hp⟩
    rcases Option.bind_eq_some_iff.mp (paragraphAt?_eq_some_iff.mp hp) with ⟨b, hb, hat⟩
    refine ⟨b, List.mem_of_getElem? hb, ?_⟩
    -- In the body itself, directly in a cell, or too far in.
    rcases steps with _ | ⟨s, _ | ⟨u, steps⟩⟩
    · cases b with
      | paragraph q =>
          simp only [Block.at?, Option.some.injEq, Block.paragraph.injEq] at hat
          rw [hat, Block.reached]
          exact List.mem_singleton_self p
      | table t => exact absurd hat (by simp only [Block.at?, Option.some.injEq, reduceCtorEq,
          not_false_eq_true])
    · rcases Block.exists_of_at?_cons hat with ⟨t, rfl, r, hr, c, hc, d, hd, hq⟩
      have hdp : d = .paragraph p := by
        cases d <;> simpa only [Block.at?, Option.some.injEq] using hq
      exact mem_reached_table.mpr ⟨r, hr, c, hc, hdp ▸ hd⟩
    · simp only [List.length_cons] at hlen
      omega

namespace ContentPass

variable {data : Element} {options : Options}

/-- The blocks that a block of a cell becomes. -/
def expandBlock (data : Element) (options : Options) : Block → List Block
  | .paragraph p => (expand data options p).value
  | .table t => [.table t]

/-- The blocks of a cell are expanded one by one. -/
theorem value_expandBlocks (blocks : List Block) :
    (expandBlocks data options blocks).value = blocks.flatMap (expandBlock data options) := by
  induction blocks with
  | nil => rfl
  | cons b rest ih =>
      cases b with
      | paragraph p =>
          rw [expandBlocks, Reported.value_bind, Reported.value_bind, Reported.value_pure, ih,
            List.flatMap_cons, expandBlock]
      | table t =>
          rw [expandBlocks, Reported.value_bind, Reported.value_pure, ih, List.flatMap_cons,
            expandBlock, List.singleton_append]

/-- The cells of a table are expanded where they are. -/
theorem value_expandTable (t : Table) :
    (expandTable data options t).value = { t with rows := t.rows.map fun r =>
      { r with cells := r.cells.map fun c =>
        { c with blocks := c.blocks.flatMap (expandBlock data options) } } } := by
  have hcell : ∀ c : Cell, (expandCell data options c).value =
      { c with blocks := c.blocks.flatMap (expandBlock data options) } := by
    intro c
    rw [expandCell, Reported.value_bind, Reported.value_pure, value_expandBlocks]
  have hrow : ∀ r : Row, (expandRow data options r).value =
      { r with cells := r.cells.map fun c =>
        { c with blocks := c.blocks.flatMap (expandBlock data options) } } := by
    intro r
    rw [expandRow, Reported.value_bind, Reported.value_pure, Reported.value_mapM]
    simp only [hcell]
  rw [expandTable, Reported.value_bind, Reported.value_pure, Reported.value_mapM]
  simp only [hrow]

/-- The blocks of a body are expanded one by one. -/
theorem value_run (blocks : List Block) :
    (run data options blocks).value = blocks.flatMap fun
      | .paragraph p => (expand data options p).value
      | .table t => [.table (expandTable data options t).value] := by
  induction blocks with
  | nil => rfl
  | cons b rest ih =>
      cases b with
      | paragraph p =>
          rw [run, Reported.value_bind, Reported.value_bind, Reported.value_pure, ih,
            List.flatMap_cons]
      | table t =>
          rw [run, Reported.value_bind, Reported.value_bind, Reported.value_pure, ih,
            List.flatMap_cons, List.singleton_append]

-- A table that is generated in a cell is not entered, so only paragraphs count here.
theorem mem_reached_expandTable {t : Table} {q : Paragraph} :
    q ∈ (Block.table (expandTable data options t).value).reached ↔
      ∃ p ∈ (Block.table t).reached, .paragraph q ∈ (expand data options p).value := by
  rw [mem_reached_table, value_expandTable]
  constructor
  · intro h
    rcases h with ⟨_, hr, _, hc, hq⟩
    rcases List.mem_map.mp hr with ⟨r, hrow, rfl⟩
    rcases List.mem_map.mp hc with ⟨c, hcell, rfl⟩
    rcases List.mem_flatMap.mp hq with ⟨b, hb, hqb⟩
    cases b with
    | paragraph p => exact ⟨p, mem_reached_table.mpr ⟨r, hrow, c, hcell, hb⟩, hqb⟩
    | table u => exact absurd (List.mem_singleton.mp hqb) (by simp only [reduceCtorEq,
        not_false_eq_true])
  · intro h
    rcases h with ⟨p, hp, hq⟩
    rcases mem_reached_table.mp hp with ⟨r, hr, c, hc, hb⟩
    exact ⟨_, List.mem_map_of_mem hr, _, List.mem_map_of_mem hc,
      List.mem_flatMap.mpr ⟨.paragraph p, hb, hq⟩⟩

/-- What is within reach after the pass comes from an expansion. -/
theorem exists_of_mem_reached_run {blocks : List Block} {q : Paragraph}
    (h : q ∈ reached (run data options blocks).value) :
    ∃ p ∈ reached blocks, ∃ b ∈ (expand data options p).value, q ∈ b.reached := by
  rw [reached, value_run, List.mem_flatMap] at h
  rcases h with ⟨b, hb, hq⟩
  rcases List.mem_flatMap.mp hb with ⟨x, hx, hb⟩
  cases x with
  | paragraph p =>
      exact ⟨p, List.mem_flatMap.mpr ⟨_, hx, List.mem_singleton_self p⟩, b, hb, hq⟩
  | table t =>
      rw [List.mem_singleton.mp hb] at hq
      rcases mem_reached_expandTable.mp hq with ⟨p, hp, hq⟩
      exact ⟨p, List.mem_flatMap.mpr ⟨_, hx, hp⟩, _, hq, List.mem_singleton_self q⟩

/-- The paragraphs of an expansion are within reach after the pass. -/
theorem mem_reached_run {blocks : List Block} {p q : Paragraph} (hp : p ∈ reached blocks)
    (hq : .paragraph q ∈ (expand data options p).value) :
    q ∈ reached (run data options blocks).value := by
  rcases List.mem_flatMap.mp hp with ⟨x, hx, hp⟩
  rw [reached, value_run]
  cases x with
  | paragraph p' =>
      rw [Block.reached, List.mem_singleton] at hp
      subst hp
      exact List.mem_flatMap.mpr ⟨_, List.mem_flatMap.mpr ⟨_, hx, hq⟩, List.mem_singleton_self q⟩
  | table t =>
      exact List.mem_flatMap.mpr ⟨_, List.mem_flatMap.mpr ⟨_, hx, List.mem_singleton_self _⟩,
        mem_reached_expandTable.mpr ⟨p, hp, hq⟩⟩

end ContentPass

/-! ### Passes that expand paragraphs alike -/

theorem Reported.mapM_congr {α β : Type} {f g : α → Reported β} {l : List α}
    (h : ∀ a ∈ l, f a = g a) : l.mapM f = l.mapM g := by
  induction l with
  | nil => rfl
  | cons a l ih =>
      rw [List.mapM_cons, List.mapM_cons, h a List.mem_cons_self,
        ih fun b hb => h b (List.mem_cons_of_mem a hb)]

namespace ContentPass

variable {data data' : Element} {options options' : Options}

theorem expandBlocks_congr {blocks : List Block}
    (h : ∀ p, .paragraph p ∈ blocks → expand data options p = expand data' options' p) :
    expandBlocks data options blocks = expandBlocks data' options' blocks := by
  induction blocks with
  | nil => rfl
  | cons b rest ih =>
      have hrest := ih fun p hp => h p (List.mem_cons_of_mem b hp)
      cases b with
      | paragraph p => rw [expandBlocks, expandBlocks, h p List.mem_cons_self, hrest]
      | table t => rw [expandBlocks, expandBlocks, hrest]

theorem expandTable_congr {t : Table}
    (h : ∀ p ∈ (Block.table t).reached, expand data options p = expand data' options' p) :
    expandTable data options t = expandTable data' options' t := by
  have hrow : ∀ r ∈ t.rows, expandRow data options r = expandRow data' options' r := by
    intro r hr
    have hcell : ∀ c ∈ r.cells, expandCell data options c = expandCell data' options' c := by
      intro c hc
      have hblocks := expandBlocks_congr fun p hp => h p (mem_reached_table.mpr ⟨r, hr, c, hc, hp⟩)
      rw [expandCell, expandCell, hblocks]
    rw [expandRow, expandRow, Reported.mapM_congr hcell]
  rw [expandTable, expandTable, Reported.mapM_congr hrow]

/-- What the content pass does is determined by what the paragraphs within its reach are
    expanded to. -/
theorem run_congr {blocks : List Block}
    (h : ∀ p ∈ reached blocks, expand data options p = expand data' options' p) :
    run data options blocks = run data' options' blocks := by
  induction blocks with
  | nil => rfl
  | cons b rest ih =>
      have hfirst : ∀ p ∈ b.reached, expand data options p = expand data' options' p :=
        fun p hp => h p (List.mem_flatMap.mpr ⟨b, List.mem_cons_self, hp⟩)
      have hrest := ih fun p hp => h p (by
        rw [reached, List.flatMap_cons]
        exact List.mem_append_right _ hp)
      cases b with
      | paragraph p => rw [run, run, hfirst p (List.mem_singleton_self p), hrest]
      | table t => rw [run, run, expandTable_congr hfirst, hrest]

end ContentPass

/-! ### Reports in document order -/

theorem Reported.append_report_mapM {α β : Type} (f : α → Reported β) (l : List α) (r : Report) :
    r ++ (l.mapM f).report = l.foldl (fun r a => r ++ (f a).report) r := by
  induction l generalizing r with
  | nil => exact Report.append_empty r
  | cons a l ih => rw [report_mapM_cons, ← Report.append_assoc, ih, List.foldl_cons]

namespace ContentPass

variable {data : Element} {options : Options}

-- What is reported goes behind what was reported before, one paragraph at a time.
theorem append_report_expandBlocks (blocks : List Block) (r : Report) :
    r ++ (expandBlocks data options blocks).report =
      (blocks.filterMap Block.paragraph?).foldl
        (fun r p => r ++ (expand data options p).report) r := by
  induction blocks generalizing r with
  | nil => exact Report.append_empty r
  | cons b rest ih =>
      cases b with
      | paragraph p =>
          have hp : (Block.paragraph p).paragraph? = some p := rfl
          rw [expandBlocks, Reported.report_bind, Reported.report_bind, Reported.report_pure,
            Report.append_empty, ← Report.append_assoc, ih, List.filterMap_cons_some hp,
            List.foldl_cons]
      | table t =>
          have ht : (Block.table t).paragraph? = none := rfl
          rw [expandBlocks, Reported.report_bind, Reported.report_pure, Report.append_empty, ih,
            List.filterMap_cons_none ht]

theorem append_report_expandTable (t : Table) (r : Report) :
    r ++ (expandTable data options t).report =
      (Block.table t).reached.foldl (fun r p => r ++ (expand data options p).report) r := by
  have hrow : ∀ (r : Report) (row : Row), r ++ (expandRow data options row).report =
      (row.cells.flatMap fun c => c.blocks.filterMap Block.paragraph?).foldl
        (fun r p => r ++ (expand data options p).report) r := by
    intro r row
    rw [expandRow, Reported.report_bind, Reported.report_pure, Report.append_empty,
      Reported.append_report_mapM, List.foldl_flatMap]
    congr 1
    funext r c
    rw [expandCell, Reported.report_bind, Reported.report_pure, Report.append_empty,
      append_report_expandBlocks]
  rw [expandTable, Reported.report_bind, Reported.report_pure, Report.append_empty,
    Reported.append_report_mapM, Block.reached, List.foldl_flatMap]
  congr 1
  funext r row
  exact hrow r row

/-- The report is that of the paragraphs within reach, in document order. -/
theorem append_report_run (blocks : List Block) (r : Report) :
    r ++ (run data options blocks).report =
      (reached blocks).foldl (fun r p => r ++ (expand data options p).report) r := by
  induction blocks generalizing r with
  | nil => exact Report.append_empty r
  | cons b rest ih =>
      rw [reached, List.flatMap_cons, List.foldl_append]
      cases b with
      | paragraph p =>
          rw [run, Reported.report_bind, Reported.report_bind, Reported.report_pure,
            Report.append_empty, ← Report.append_assoc, ih]
          rfl
      | table t =>
          rw [run, Reported.report_bind, Reported.report_bind, Reported.report_pure,
            Report.append_empty, ← Report.append_assoc, ih, append_report_expandTable]
          rfl

end ContentPass

/-- The second pass over a body is a flat map over its blocks, in document order, and so is
    what is reported. While it is under way the blocks that are left are those of the body
    that no turn has come to, and the index stands in front of the first of them: so no turn
    comes to a block that was put in, and none is passed over. In a cell it is the same. -/
theorem Merger.resolveContent_eq_flatMap (m : Merger) (blocks : List Block) :
    (m.resolveContent blocks).2 = (blocks.flatMap fun
        | .paragraph p => (ContentPass.expand m.data m.options p).value
        | .table t => [.table { t with rows := t.rows.map fun r =>
            { r with cells := r.cells.map fun c =>
              { c with blocks := c.blocks.flatMap fun
                | .paragraph p => (ContentPass.expand m.data m.options p).value
                | .table u => [.table u] } } }]) ∧
      (m.resolveContent blocks).1 = { m with
        stage := .contentResolved
        report := (reached blocks).foldl
          (fun report p => report ++ (ContentPass.expand m.data m.options p).report) m.report } ∧
      (∀ k, (ContentPass.Sweep.turns (ContentPass.Sweep.turnInBody m.data m.options) k
          ⟨blocks, 0⟩).value =
        ⟨(m.resolveContent (blocks.take k)).2 ++ blocks.drop k,
          (m.resolveContent (blocks.take k)).2.length⟩) ∧
      ∀ (cell : List Block) (k : Nat),
        (ContentPass.Sweep.turns (ContentPass.Sweep.turnInCell m.data m.options) k
          ⟨cell, 0⟩).value =
        ⟨(ContentPass.sweepBlocks m.data m.options (cell.take k)).value ++ cell.drop k,
          (ContentPass.sweepBlocks m.data m.options (cell.take k)).value.length⟩ := by
  have hvalue : ∀ l, (m.resolveContent l).2 = (ContentPass.run m.data m.options l).value :=
    fun l => congrArg Reported.value (ContentPass.sweepBody_eq_run l)
  refine ⟨?_, ?_, fun k => ?_, fun cell k => ?_⟩
  · have hcell : (fun
          | .paragraph p => (ContentPass.expand m.data m.options p).value
          | .table u => [.table u]) = ContentPass.expandBlock m.data m.options := by
      funext b
      cases b <;> rfl
    rw [hvalue, ContentPass.value_run]
    congr 1
    funext b
    cases b with
    | paragraph p => rfl
    | table t =>
        dsimp only
        rw [ContentPass.value_expandTable, hcell]
  · rw [resolveContent, ContentPass.sweepBody_eq_run]
    dsimp only
    rw [ContentPass.append_report_run]
  · rw [hvalue, ← ContentPass.expandAll_visitInBody]
    have hturns := ContentPass.Sweep.turns_eq
      (@ContentPass.expandsBy_turnInBody m.data m.options) k [] blocks
    rw [List.nil_append, List.length_nil] at hturns
    rw [hturns, Reported.value_map]
    rfl
  · rw [ContentPass.sweepBlocks_eq_expandBlocks, ← ContentPass.expandAll_visitInCell]
    have hturns := ContentPass.Sweep.turns_eq
      (@ContentPass.expandsBy_turnInCell m.data m.options) k [] cell
    rw [List.nil_append, List.length_nil] at hturns
    rw [hturns, Reported.value_map]
    rfl

end MailMerge
