import MailMerge.Proofs.Idempotence
import MailMerge.Proofs.WrittenForm

/-!
# How Deep a Merged Document is Nested

A reader that sets a limit to nesting may refuse what a writer has written, even if all that
was done in between was to load a document and to save it again. A list that was left out is
written as an empty one, which is a level more, and a merge puts tables into cells and
formatting on them.

What has to be counted is not levels but cells. A block in a cell is written six levels
further in than the table around it, and what is written inside the innermost cell is never
more than four levels deep: a block, its runs, a run, its formatting, or a table, its rows,
a row, its cells, if there are none. So cells inside each other come in steps of six, and
how many of them there are can be told from a depth that is off by less than that. A
document that was read within 127 levels has blocks from the fourth level on. The 124 that
are left make twenty cells and four levels, and no more.

A merge does not put cells inside more cells than there were, above two. A table that is
filled has got a cell in its template row, so the new cells are no deeper than that one.
A generated table stands in the body or in a cell of a table of the body.

## Main definitions

* `Block.FitsIn`: A block with at most some number of cells inside each other.

## Theorems

* `fitsIn_of_blockWithin?`: The cells inside each other in a block that was read.
* `Block.FitsIn.depth_toJson_le`: The depth of a written block.
* `fitsIn_modifyAt`, `Table.fitsIn_fill`: Writing to a block and filling a table.
* `fitsIn_passes`: A merge does not need more room than there was, above two.
* `documentOf_write_of_mergeWith`: What a merge gives is written as it can be read.
-/

namespace MailMerge

/-- Whether at most some number of cells stand inside each other in a block. -/
def Block.FitsIn : (cells : Nat) → Block → Prop
  | _, .paragraph _ => True
  | 0, .table t => ∀ r ∈ t.rows, r.cells = []
  | n + 1, .table t => ∀ r ∈ t.rows, ∀ c ∈ r.cells, ∀ b ∈ c.blocks, b.FitsIn n

namespace Block

theorem fitsIn_paragraph (n : Nat) (p : Paragraph) : (Block.paragraph p).FitsIn n := by
  cases n <;> exact True.intro

/-- A table with a cell needs room for one more than what is in the cell. -/
theorem fitsIn_table_iff {n : Nat} {t : Table} : (Block.table t).FitsIn n ↔
    ∀ r ∈ t.rows, ∀ c ∈ r.cells, 0 < n ∧ ∀ b ∈ c.blocks, b.FitsIn (n - 1) := by
  cases n with
  | zero =>
      refine forall₂_congr fun r _ => ?_
      rw [List.eq_nil_iff_forall_not_mem]
      refine forall_congr' fun c => forall_congr' fun _ => ?_
      simp only [Nat.lt_irrefl, false_and]
  | succ n =>
      refine forall₂_congr fun r _ => forall₂_congr fun c _ => ?_
      simp only [Nat.succ_pos, true_and, Nat.add_sub_cancel]

theorem FitsIn.mono {n m : Nat} {b : Block} (h : b.FitsIn n) (hle : n ≤ m) : b.FitsIn m := by
  induction b using Block.induction generalizing n m with
  | paragraph p => exact fitsIn_paragraph m p
  | table t ih =>
      rw [fitsIn_table_iff] at h ⊢
      intro r hr c hc
      have hcell := h r hr c hc
      exact ⟨by omega, fun b hb => ih r hr c hc b hb (hcell.2 b hb) (by omega)⟩

/-- A shallow block has no cells inside each other. -/
theorem IsShallow.fitsIn {b : Block} (h : b.IsShallow) : b.FitsIn 1 := by
  cases b with
  | paragraph p => exact fitsIn_paragraph 1 p
  | table t =>
      rw [fitsIn_table_iff]
      intro r hr c hc
      refine ⟨Nat.one_pos, fun b hb => ?_⟩
      rcases h r hr c hc b hb with ⟨p, rfl⟩
      exact fitsIn_paragraph 0 p

end Block

/-! ### Reading -/

namespace Json

theorem exists_of_mem_mapM {α β : Type} {read? : α → Option β} {l : List α} {l' : List β}
    (h : l.mapM read? = some l') {y : β} (hy : y ∈ l') : ∃ x ∈ l, read? x = some y := by
  induction l generalizing l' with
  | nil =>
      simp only [List.mapM_nil, Option.pure_def, Option.some.injEq] at h
      rw [← h] at hy
      exact absurd hy List.not_mem_nil
  | cons x l ih =>
      simp only [List.mapM_cons, Option.pure_def, Option.bind_eq_bind, Option.bind_eq_some_iff,
        Option.some.injEq] at h
      rcases h with ⟨first, hfirst, rest, hrest, rfl⟩
      rcases List.mem_cons.mp hy with rfl | hy
      · exact ⟨x, List.mem_cons_self, hfirst⟩
      · rcases ih hrest hy with ⟨z, hz, hread⟩
        exact ⟨z, List.mem_cons_of_mem x hz, hread⟩

/-- A record is at least one level deep, and its fields are further in. -/
theorem depth_lt_of_record? {names : List String} {v : Json} {fields : List (Option Json)}
    (h : v.record? names = some fields) :
    0 < v.depth ∧ ∀ x, some x ∈ fields → x.depth < v.depth := by
  cases v with
  | object members =>
      refine ⟨Nat.succ_pos _, fun x hx => ?_⟩
      rcases exists_of_mem_mapM h hx with ⟨name, _, hmember⟩
      rw [member?] at hmember
      split at hmember
      · exact absurd hmember (by simp only [Option.some.injEq, reduceCtorEq, not_false_eq_true])
      · next m hfilter =>
          simp only [Option.some.injEq] at hmember
          have hm : m ∈ members := by
            refine (List.mem_filter (p := fun m => m.1 == name)).mp ?_ |>.1
            rw [hfilter]
            exact List.mem_singleton_self m
          rw [← hmember]
          exact depth_lt_of_mem_members hm
      · exact absurd hmember (by simp only [reduceCtorEq, not_false_eq_true])
  | array items =>
      refine ⟨Nat.succ_pos _, fun x hx => ?_⟩
      simp only [record?] at h
      split at h
      · rw [Option.some.injEq] at h
        rw [← h] at hx
        rcases List.mem_map.mp hx with ⟨i, _, hi⟩
        exact depth_lt_of_mem_items (List.mem_of_getElem? hi)
      · exact absurd h (by simp only [reduceCtorEq, not_false_eq_true])
  | null | bool _ | number _ | string _ | unreadable => simp only [record?, reduceCtorEq] at h

/-- The record of the fields that a block has beside its kind is no deeper than the block. -/
theorem depth_le_of_tagged? {inCell : Bool} {v fields : Json} {kind : Block.Kind}
    (h : tagged? inCell v = some (kind, fields)) : fields.depth ≤ v.depth := by
  cases v with
  | object members =>
      simp only [tagged?, Option.bind_eq_bind, Option.bind_eq_some_iff, Option.pure_def,
        Option.some.injEq, Prod.mk.injEq] at h
      rcases h with ⟨_, _, _, _, _, _, _, rfl⟩
      refine Nat.succ_le_succ (depthOfMembers_le_iff.mpr fun m hm => ?_)
      exact depthOfMembers_le_iff.mp (Nat.le_refl _) m (List.mem_filter.mp hm).1
  | array items =>
      cases items with
      | nil => simp only [tagged?, reduceCtorEq] at h
      | cons type rest =>
          rcases Option.map_eq_some_iff.mp h with ⟨_, _, hfields⟩
          rw [Prod.mk.injEq] at hfields
          rw [← hfields.2, depth, depth, depthOfItems]
          omega
  | null | bool _ | number _ | string _ | unreadable => simp only [tagged?, reduceCtorEq] at h

/-- What is read from the items of a list that is a field of a record. -/
theorem exists_of_mem_list? {α : Type} {read? : Json → Option α} {names : List String} {v : Json}
    {fields : List (Option Json)} (hrecord : v.record? names = some fields) {field : Option Json}
    (hfield : field ∈ fields) {l : List α} (h : list? read? field = some l) {x : α} (hx : x ∈ l) :
    ∃ item, item.depth + 2 ≤ v.depth ∧ read? item = some x := by
  cases field with
  | none =>
      simp only [list?, fieldOr, Option.some.injEq] at h
      rw [← h] at hx
      exact absurd hx List.not_mem_nil
  | some w =>
      rcases Option.bind_eq_some_iff.mp h with ⟨items, harray, hitems⟩
      have hw : w = .array items := by
        cases w <;> simp only [array?, reduceCtorEq, Option.some.injEq] at harray
        rw [harray]
      rcases exists_of_mem_mapM hitems hx with ⟨item, hitem, hread⟩
      have hlist := (depth_lt_of_record? hrecord).2 w hfield
      have hinner := depth_lt_of_mem_items hitem
      rw [← hw] at hinner
      exact ⟨item, by omega, hread⟩

variable {block? : Json → Option Block} {v : Json}

theorem exists_of_cell? {c : Cell} (h : cell? block? v = some c) :
    0 < v.depth ∧ ∀ b ∈ c.blocks, ∃ item, item.depth + 2 ≤ v.depth ∧ block? item = some b := by
  rw [cell?] at h
  split at h
  · next properties blocks hrecord =>
      simp only [Option.bind_eq_bind, Option.bind_eq_some_iff, Option.pure_def,
        Option.some.injEq] at h
      rcases h with ⟨_, _, l, hl, rfl⟩
      refine ⟨(depth_lt_of_record? hrecord).1, fun b hb => ?_⟩
      exact exists_of_mem_list? hrecord (List.mem_cons_of_mem _ (List.mem_singleton_self _)) hl hb
  · exact absurd h (by simp only [reduceCtorEq, not_false_eq_true])

theorem exists_of_row? {r : Row} (h : row? block? v = some r) :
    ∀ c ∈ r.cells, ∃ item, item.depth + 2 ≤ v.depth ∧ cell? block? item = some c := by
  rw [row?] at h
  split at h
  · next properties cells hrecord =>
      simp only [Option.bind_eq_bind, Option.bind_eq_some_iff, Option.pure_def,
        Option.some.injEq] at h
      rcases h with ⟨_, _, l, hl, rfl⟩
      intro c hc
      exact exists_of_mem_list? hrecord (List.mem_cons_of_mem _ (List.mem_singleton_self _)) hl hc
  · exact absurd h (by simp only [reduceCtorEq, not_false_eq_true])

theorem exists_of_table? {t : Table} (h : table? block? v = some t) :
    ∀ r ∈ t.rows, ∃ item, item.depth + 2 ≤ v.depth ∧ row? block? item = some r := by
  rw [table?] at h
  split at h
  · next properties rows hrecord =>
      simp only [Option.bind_eq_bind, Option.bind_eq_some_iff, Option.pure_def,
        Option.some.injEq] at h
      rcases h with ⟨_, _, l, hl, rfl⟩
      intro r hr
      exact exists_of_mem_list? hrecord (List.mem_cons_of_mem _ (List.mem_singleton_self _)) hl hr
  · exact absurd h (by simp only [reduceCtorEq, not_false_eq_true])

/-- How many cells stand inside each other in a block can be told from the depth of what it
    was read from. -/
theorem fitsIn_of_blockWithin? {n levels : Nat} {inCell : Bool} {v : Json} {b : Block}
    (h : blockWithin? levels inCell v = some b) (hdepth : v.depth < 6 * n + 5) : b.FitsIn n := by
  induction levels generalizing n inCell v b with
  | zero => simp only [blockWithin?, reduceCtorEq] at h
  | succ levels ih =>
      rw [blockWithin?, Option.bind_eq_bind, Option.bind_eq_some_iff] at h
      rcases h with ⟨⟨kind, fields⟩, htagged, h⟩
      have hfields := depth_le_of_tagged? htagged
      cases kind with
      | paragraph =>
          simp only [Option.bind_eq_bind, Option.bind_eq_some_iff, Option.pure_def,
            Option.some.injEq] at h
          rcases h with ⟨p, _, rfl⟩
          exact Block.fitsIn_paragraph n p
      | table =>
          simp only [Option.bind_eq_bind, Option.bind_eq_some_iff, Option.pure_def,
            Option.some.injEq] at h
          rcases h with ⟨t, ht, rfl⟩
          rw [Block.fitsIn_table_iff]
          intro r hr c hc
          -- Two levels to a row, two to a cell, and two to a block in it.
          rcases exists_of_table? ht r hr with ⟨row, hrow, hr⟩
          rcases exists_of_row? hr c hc with ⟨cell, hcell, hc⟩
          have hblocks := exists_of_cell? hc
          refine ⟨by omega, fun b hb => ?_⟩
          rcases hblocks.2 b hb with ⟨item, hitem, hb⟩
          exact ih hb (by omega)

/-- The blocks of a body that was read have no more than twenty cells inside each other. -/
theorem fitsIn_of_blocks? {blocks : List Block} (h : blocks? v = some blocks) :
    ∀ b ∈ blocks, b.FitsIn 20 := by
  intro b hb
  rw [blocks?] at h
  split at h
  · next hlimit =>
      rw [Bool.and_eq_true, decide_eq_true_eq, depthLimit] at hlimit
      rcases Option.bind_eq_some_iff.mp h with ⟨items, harray, hitems⟩
      have hv : v = .array items := by
        cases v <;> simp only [array?, reduceCtorEq, Option.some.injEq] at harray
        rw [harray]
      rcases exists_of_mem_mapM hitems hb with ⟨item, hitem, hread⟩
      have hinner := depth_lt_of_mem_items hitem
      rw [← hv] at hinner
      exact fitsIn_of_blockWithin? hread (by omega)
  · exact absurd h (by simp only [reduceCtorEq, not_false_eq_true])

end Json

/-- So it is in a document that was read. -/
theorem Document.fitsIn_of_read? {s : String} {blocks : List Block}
    (h : read? s = some ⟨some blocks⟩) : ∀ b ∈ blocks, b.FitsIn 20 := by
  rcases Option.bind_eq_some_iff.mp h with ⟨v, _, hv⟩
  rw [ofJson?] at hv
  split at hv
  · next body _ =>
      rcases Option.map_eq_some_iff.mp hv with ⟨read, hread, hbody⟩
      rw [Document.mk.injEq] at hbody
      subst hbody
      cases body with
      | none => simp only [Json.fieldOr, Option.some.injEq, reduceCtorEq] at hread
      | some w =>
          rw [Json.fieldOr, Json.body?.eq_def] at hread
          split at hread
          · simp only [Option.some.injEq, reduceCtorEq] at hread
          · split at hread
            · rcases Option.map_eq_some_iff.mp hread with ⟨l, hl, heq⟩
              rw [Option.some.injEq] at heq
              exact heq ▸ Json.fitsIn_of_blocks? hl
            · simp only [reduceCtorEq] at hread
  · simp only [reduceCtorEq] at hv

/-! ### Writing -/

namespace Json

theorem depth_array_map_le {α : Type} {write : α → Json} {l : List α} {n : Nat}
    (h : ∀ x ∈ l, (write x).depth ≤ n) : (array (l.map write)).depth ≤ n + 1 := by
  refine Nat.succ_le_succ (depthOfItems_le_iff.mpr fun v hv => ?_)
  rcases List.mem_map.mp hv with ⟨x, hx, rfl⟩
  exact h x hx

end Json

theorem Run.depth_toJson_le (r : Run) : r.toJson.depth ≤ 2 :=
  Json.depth_node_le (Nat.le_refl 1) (Nat.zero_le 1)

/-- A block is written at most four levels deep, and six more for each cell that stands
    inside another. -/
theorem Block.FitsIn.depth_toJson_le {n : Nat} {b : Block} (h : b.FitsIn n) :
    b.toJson.depth ≤ 6 * n + 4 := by
  induction b using Block.induction generalizing n with
  | paragraph p =>
      have hruns : (Json.array (p.runs.map Run.toJson)).depth ≤ 3 :=
        Json.depth_array_map_le fun r _ => r.depth_toJson_le
      have hnode : (Json.node p.properties "runs" (.array (p.runs.map Run.toJson))).depth ≤ 4 :=
        Json.depth_node_le (by omega) hruns
      rw [toJson_paragraph, Json.depth_tagged]
      omega
  | table t ih =>
      rw [fitsIn_table_iff] at h
      have hrow : ∀ r ∈ t.rows, r.toJson.depth ≤ 6 * n + 2 := by
        intro r hr
        have hcells : (Json.array (cellsToJson r.cells)).depth ≤ 6 * n + 1 := by
          rw [cellsToJson_eq_map]
          refine Json.depth_array_map_le fun c hc => ?_
          have hcell := h r hr c hc
          have hblocks : (Json.array (blocksToJson c.blocks)).depth ≤ 6 * n - 1 := by
            rw [blocksToJson_eq_map]
            have hinner : ∀ b ∈ c.blocks, b.toJson.depth ≤ 6 * n - 2 := by
              intro b hb
              have := ih r hr c hc b hb (hcell.2 b hb)
              omega
            have := Json.depth_array_map_le hinner
            omega
          have hnode : c.toJson.depth ≤ 6 * n - 1 + 1 := Json.depth_node_le (by omega) hblocks
          omega
        exact Json.depth_node_le (by omega) hcells
      have hrows : (Json.array (t.rows.map Row.toJson)).depth ≤ 6 * n + 3 :=
        Json.depth_array_map_le hrow
      have hnode : (Json.node t.properties "rows" (.array (t.rows.map Row.toJson))).depth ≤
          6 * n + 4 := Json.depth_node_le (by omega) hrows
      rw [toJson_table, Json.depth_tagged]
      exact hnode

/-- A document with at most twenty cells inside each other is written as deep as it may be
    and no deeper. -/
theorem Document.depth_toJson_le {blocks : List Block} (h : ∀ b ∈ blocks, b.FitsIn 20) :
    (Document.mk (some blocks)).toJson.depth ≤ 127 := by
  have hblocks : (Json.array (blocksToJson blocks)).depth ≤ 125 := by
    rw [blocksToJson_eq_map]
    exact Json.depth_array_map_le fun b hb => (h b hb).depth_toJson_le
  rw [depth_toJson_some]
  omega

/-! ### The table pass -/

/-- Writing to a block inside another needs no more room, if what is written there does
    not. -/
theorem Block.fitsIn_modifyAt {n : Nat} {f : Block → Block} {steps : List Step} {b : Block}
    (h : b.FitsIn n)
    (hf : ∀ m x, b.at? steps = some x → x.FitsIn m → (f x).FitsIn m) :
    (b.modifyAt f steps).FitsIn n := by
  induction steps generalizing n b with
  | nil => exact hf n b (Block.at?_nil b) h
  | cons s steps ih =>
      cases b with
      | paragraph p => exact fitsIn_paragraph n p
      | table t =>
          rw [Block.modifyAt]
          rw [fitsIn_table_iff] at h ⊢
          intro r' hr' c' hc'
          -- Only the row, the cell and the block on the way were changed.
          rcases exists_of_mem_modify hr' with hr' | ⟨r, hrow, hr, rfl⟩
          · exact h r' hr' c' hc'
          rcases exists_of_mem_modify hc' with hc' | ⟨c, hcell, hc, rfl⟩
          · exact h r hr c' hc'
          refine ⟨(h r hr c hc).1, fun b' hb' => ?_⟩
          rcases exists_of_mem_modify hb' with hb' | ⟨b, hblock, hb, rfl⟩
          · exact (h r hr c hc).2 b' hb'
          refine ih ((h r hr c hc).2 b hb) fun m x hx => hf m x ?_
          rw [Block.at?, hrow]
          simp only [Option.bind_eq_bind, Option.bind_some, hcell, hblock, hx]

theorem fitsIn_modifyAt {n : Nat} {f : Block → Block} {a : Address} {blocks : List Block}
    (h : ∀ b ∈ blocks, b.FitsIn n)
    (hf : ∀ m x, blockAt? blocks a = some x → x.FitsIn m → (f x).FitsIn m) :
    ∀ b ∈ modifyAt f a blocks, b.FitsIn n := by
  intro b' hb'
  rcases exists_of_mem_modify hb' with hb' | ⟨b, hroot, hb, rfl⟩
  · exact h b' hb'
  · refine Block.fitsIn_modifyAt (h b hb) fun m x hx => hf m x ?_
    rw [blockAt?, hroot, Option.bind_some, hx]

namespace Table

/-- A template was read off a row with cells. -/
theorem Template.cells_ne_nil_of_ofRow {known : List String} {row : Row} {template : Template}
    (h : Template.ofRow known row = .ok template) : row.cells ≠ [] := by
  intro hcells
  have hnames : columnNames row = [] := by
    rw [columnNames, Row.texts, hcells, List.map_nil, List.map_nil]
  simp only [Template.ofRow, hnames, List.all_nil, if_true, reduceCtorEq] at h

/-- A filled table needs no more room. The cells that came in are no deeper than those of
    the template row. -/
theorem fitsIn_fill {options : Options} {elements : List Element} {t filled : Table}
    (h : fill options elements t = .filled filled) {n : Nat} (ht : (Block.table t).FitsIn n) :
    (Block.table filled).FitsIn n := by
  rw [Block.fitsIn_table_iff] at ht ⊢
  rcases exists_of_fill h with
    ⟨first, later, header, templateRow, rest, template, _, hrows, htemplate, rfl⟩
  rw [hrows] at ht
  intro r hr
  rcases List.mem_append.mp hr with hr | hr
  · rcases List.mem_cons.mp hr with rfl | hr
    · exact ht r List.mem_cons_self
    · -- A new row. There is room for its cells, as there was for a template cell.
      rw [List.mem_reverse] at hr
      rcases List.mem_map.mp hr with ⟨e, _, rfl⟩
      rcases List.exists_mem_of_ne_nil _ (Template.cells_ne_nil_of_ofRow htemplate) with
        ⟨cell, hcell⟩
      intro c hc
      refine ⟨(ht templateRow (List.mem_cons_of_mem _ List.mem_cons_self) cell hcell).1,
        fun b hb => ?_⟩
      rcases Template.exists_of_mem_row hc hb with ⟨s, rfl, _⟩
      exact Block.fitsIn_paragraph _ _
  · exact ht r (List.mem_cons_of_mem _ (List.mem_cons_of_mem _ hr))

end Table

theorem fitsIn_eraseMarker {n : Nat} {literal : String} {b : Block} (h : b.FitsIn n) :
    (eraseMarker literal b).FitsIn n := by
  cases b with
  | paragraph p => exact Block.fitsIn_paragraph n _
  | table t => exact h

namespace TablePass

variable {data : Element} {options : Options} {n : Nat} {s : State}

theorem fitsIn_fillAt {path : String} {a : Address} (h : ∀ b ∈ s.blocks, b.FitsIn n) :
    ∀ b ∈ (fillAt data options path a s).value.blocks, b.FitsIn n := by
  cases hfilled : filledAt? data options path a s with
  | none =>
      rw [(fillAt_of_eq_none hfilled).1]
      exact h
  | some filled =>
      rw [(fillAt_of_eq_some hfilled).1]
      refine fitsIn_modifyAt h fun m x hx hfits => ?_
      rcases Option.bind_eq_some_iff.mp hfilled with ⟨t, ht, hfill⟩
      rw [tableAt?, hx, Option.bind_some] at ht
      have hxt : x = .table t := by
        cases x <;> simp only [Block.table?, reduceCtorEq, Option.some.injEq] at ht
        rw [ht]
      subst hxt
      cases hfill' : Table.fill options (data.listAt path) t with
      | filled table =>
          rw [hfill', Table.Filling.table?, Option.some.injEq] at hfill
          exact hfill ▸ Table.fitsIn_fill hfill' hfits
      | noData | misfit reason =>
          rw [hfill'] at hfill
          simp only [Table.Filling.table?, reduceCtorEq] at hfill

theorem fitsIn_step (r : TableRequest) (h : ∀ b ∈ s.blocks, b.FitsIn n) :
    ∀ b ∈ (step data options s r).value.blocks, b.FitsIn n := by
  rcases r with ⟨marker, paragraph, target | target⟩
  · exact h
  · rw [value_step_some]
    cases Shift.follow s.shifts target with
    | none =>
        cases Shift.follow s.shifts paragraph with
        | none => exact h
        | some a => exact fitsIn_modifyAt h fun _ _ _ => fitsIn_eraseMarker
    | some table =>
        have hfill : ∀ b ∈ (fillAt data options marker.path table s).value.blocks, b.FitsIn n :=
          fitsIn_fillAt h
        cases Shift.follow s.shifts paragraph with
        | none => exact hfill
        | some a => exact fitsIn_modifyAt hfill fun _ _ _ => fitsIn_eraseMarker

theorem fitsIn_steps (l : List TableRequest) (h : ∀ b ∈ s.blocks, b.FitsIn n) :
    ∀ b ∈ (steps data options s l).value.blocks, b.FitsIn n := by
  induction l generalizing s with
  | nil => exact h
  | cons r rest ih =>
      rw [steps, Reported.value_bind]
      exact ih (fitsIn_step r h)

theorem fitsIn_run {blocks : List Block} (h : ∀ b ∈ blocks, b.FitsIn n) :
    ∀ b ∈ (run data options blocks).value, b.FitsIn n := by
  rw [run, Reported.value_bind, Reported.value_pure]
  exact fitsIn_steps _ h

end TablePass

/-! ### The content pass -/

namespace ContentPass

variable {data : Element} {options : Options}

/-- A generated table stands in the body, or in a cell of a table in it. So there has to be
    room for two cells. -/
theorem fitsIn_run {n : Nat} (hn : 2 ≤ n) {blocks : List Block}
    (h : ∀ b ∈ blocks, b.FitsIn n) : ∀ b ∈ (run data options blocks).value, b.FitsIn n := by
  intro b' hb'
  rw [value_run, List.mem_flatMap] at hb'
  rcases hb' with ⟨b, hb, hb'⟩
  cases b with
  | paragraph p => exact (isShallow_of_mem_expand hb').fitsIn.mono (by omega)
  | table t =>
      have ht := Block.fitsIn_table_iff.mp (h _ hb)
      rw [List.mem_singleton.mp hb', Block.fitsIn_table_iff, value_expandTable]
      intro r' hr' c' hc'
      rcases List.mem_map.mp hr' with ⟨r, hr, rfl⟩
      rcases List.mem_map.mp hc' with ⟨c, hc, rfl⟩
      refine ⟨(ht r hr c hc).1, fun x' hx' => ?_⟩
      rcases List.mem_flatMap.mp hx' with ⟨x, hx, hx'⟩
      cases x with
      | paragraph p => exact (isShallow_of_mem_expand hx').fitsIn.mono (by omega)
      | table u =>
          rw [List.mem_singleton.mp hx']
          exact (ht r hr c hc).2 _ hx

end ContentPass

/-- A merge does not need more room for cells inside each other than there was, above two. -/
theorem fitsIn_passes {options : Options} {data : Element} {n : Nat} (hn : 2 ≤ n)
    {blocks : List Block} (h : ∀ b ∈ blocks, b.FitsIn n) :
    ∀ b ∈ (passes options data blocks).value, b.FitsIn n := by
  rw [passes, Reported.value_bind]
  exact ContentPass.fitsIn_run hn (TablePass.fitsIn_run h)

/-- What a merge makes of a document that was loaded can be written and loaded again, and
    comes back as it was. It is never nested too deep for that, whatever was filled in. -/
theorem documentOf_write_of_mergeWith {text : String} {d merged : Document} {data : Element}
    {options : Options} {report : Report} (loaded : documentOf text = .ok d)
    (done : mergeWith options data d = .ok (merged, report)) :
    merged.toJson.depth ≤ 127 ∧ documentOf merged.write = .ok merged := by
  rcases mergeWith_eq_ok_iff.mp done with ⟨blocks, hbody, rfl, _, _⟩
  have hd : d = ⟨some blocks⟩ := by rw [← hbody]
  have hread : Document.read? text = some ⟨some blocks⟩ :=
    documentOf_eq_ok_iff.mp (hd ▸ loaded)
  have hfits : ∀ b ∈ (passes options data blocks).value, b.FitsIn 20 :=
    fitsIn_passes (by omega) (Document.fitsIn_of_read? hread)
  have hdepth := Document.depth_toJson_le hfits
  exact ⟨hdepth, documentOf_eq_ok_iff.mpr ((Document.read?_write _).trans (if_pos hdepth))⟩

/-- Tables inside each other, given by place, with all fields left out that may be. -/
def innerTables : (tables : Nat) → List Char
  | 0 => "[\"table\",\x7b\x7d,[[]]]".toList
  | n + 1 => "[\"table\",\x7b\x7d,[[\x7b\x7d,[[\x7b\x7d,[".toList ++ innerTables n ++
      "]]]]]]".toList

/-- A template with a table to fill, and as many tables inside that one as may be loaded. -/
def deepTemplate : List Char :=
  "[[[[\"paragraph\",\x7b\x7d,[[\x7b\x7d,\"<# <Table Select='A' /> #>\"]]],".toList ++
    "[\"table\",\x7b\x7d,[[],[\x7b\x7d,[[\x7b\x7d,[[\"paragraph\",\x7b\x7d,".toList ++
    "[[\x7b\x7d,\"./X\"]]]]]]],[\x7b\x7d,[[\x7b\x7d,[".toList ++ innerTables 19 ++
    "]]]]]]]]]".toList

/-- The merged template is nested exactly as deep as it may be. -/
theorem documentOf_write_deepTemplate : ∃ d merged report,
    documentOf (String.ofList deepTemplate) = .ok d ∧
      mergeWith .default nameAndRow d = .ok (merged, report) ∧ report.tablesPopulated = 1 ∧
      merged.toJson.depth = 127 ∧ merged.toJson.depth ≤ 127 ∧
      documentOf merged.write = .ok merged := by
  have hrun : (((Json.tokens? deepTemplate).bind Json.ofTokens?).bind Document.ofJson?).bind
      (fun d => (mergeWith .default nameAndRow d).toOption.map fun r =>
        (r.2.tablesPopulated, r.1.toJson.depth)) = some (1, 127) := by decide +kernel
  rcases Option.bind_eq_some_iff.mp hrun with ⟨d, hd, hmerge⟩
  rcases Option.map_eq_some_iff.mp hmerge with ⟨⟨merged, report⟩, hmerged, hfacts⟩
  rw [Prod.mk.injEq] at hfacts
  have loaded : documentOf (String.ofList deepTemplate) = .ok d := by
    rw [documentOf_eq_ok_iff, Document.read?, Json.parse?, String.toList_ofList]
    exact hd
  have done : mergeWith .default nameAndRow d = .ok (merged, report) := by
    cases hresult : mergeWith .default nameAndRow d with
    | error fault => simp only [hresult, Except.toOption, reduceCtorEq] at hmerged
    | ok result =>
        simp only [hresult, Except.toOption, Option.some.injEq] at hmerged
        rw [hmerged]
  exact ⟨d, merged, report, loaded, done, hfacts.1, hfacts.2,
    documentOf_write_of_mergeWith loaded done⟩

end MailMerge
