import MailMerge.Package
import MailMerge.Proofs.JsonText

/-!
# Reading a Written Document

A document that was written is read as the document that it is, unless it is nested too
deep to be read at all.

Every node is written in the same manner, as an object with its formatting, if there is
some, and one field of its own. Blocks also have their kind in front. So whatever is read
from a node is read from that one shape, and the nodes differ only in the name of the field
and in how it is read. Formatting comes back in its order because no key stands twice.

The reader of a block is given as many levels as its value is deep. A table inside a table
lies six levels further in: between the two are the list of rows, a row, the list of its
cells, a cell, and the list of its blocks. So there are always levels left.

## Main definitions

* `Json.node`: A node as it is written.
* `Row.toJson`, `Cell.toJson`: Rows and cells as they are written.

## Theorems

* `Properties.ofJson?_toJson`: Formatting is read as it was written.
* `Block.depth_toJson_add_le`: A block in a table is written six levels further in.
* `Block.blockWithin?_toJson`: A written block is read as that block.
* `Document.ofJson?_toJson`: A written document is read unless it is too deep.
* `documentOf_write`: The same on texts.
-/

namespace MailMerge

/-! ### Formatting -/

namespace Properties

theorem setEntry_of_notMem {key value : String} {l : List (String × String)}
    (h : key ∉ l.map Prod.fst) : setEntry key value l = l ++ [(key, value)] := by
  induction l with
  | nil => rfl
  | cons e l ih =>
      rw [List.map_cons, List.mem_cons, not_or] at h
      rw [setEntry, if_neg (Ne.symm h.1), ih h.2, List.cons_append]

/-- Keys that are all new are added in their order. -/
theorem entries_setAll {p : Properties} {l : List (String × String)}
    (h : ((p.entries ++ l).map Prod.fst).Nodup) : (p.setAll l).entries = p.entries ++ l := by
  induction l generalizing p with
  | nil => rw [setAll, List.append_nil]
  | cons e l ih =>
      have hnew : e.1 ∉ p.entries.map Prod.fst := by
        intro hmem
        rw [List.map_append, List.nodup_append] at h
        exact h.2.2 _ hmem e.1 List.mem_cons_self rfl
      have hset : (p.set e.1 e.2).entries = p.entries ++ [e] := setEntry_of_notMem hnew
      have hrest : (((p.set e.1 e.2).entries ++ l).map Prod.fst).Nodup := by
        rwa [hset, List.append_assoc, List.singleton_append]
      rw [setAll, ih hrest, hset, List.append_assoc, List.singleton_append]

theorem ofList_entries (p : Properties) : ofList p.entries = p := by
  have hentries : (ofList p.entries).entries = p.entries := entries_setAll p.nodup_keys
  rcases p with ⟨entries, nodup⟩
  exact (Properties.mk.injEq _ _ _ _).mpr hentries

/-- Formatting is read as it was written. -/
theorem ofJson?_toJson (p : Properties) : ofJson? p.toJson = some p := by
  have hmembers : (p.entries.map fun e => (e.1, Json.string e.2)).mapM
      (fun m => m.2.string?.map fun value => (m.1, value)) = some p.entries :=
    Json.mapM_map_eq_some fun _ _ => rfl
  rw [toJson, ofJson?, hmembers, Option.map_some, ofList_entries]

theorem eq_empty_of_isEmpty {p : Properties} (h : p.isEmpty = true) : p = ∅ := by
  rcases p with ⟨entries, nodup⟩
  exact (Properties.mk.injEq _ _ _ _).mpr (List.isEmpty_iff.mp h)

theorem isTextual_toJson (p : Properties) : p.toJson.isTextual = true := by
  rw [toJson, Json.isTextual, Json.allMembersTextual_iff]
  intro m hm
  rcases List.mem_map.mp hm with ⟨e, _, rfl⟩
  rfl

theorem depth_toJson (p : Properties) : p.toJson.depth = 1 := by
  have hmembers : ∀ l : List (String × String),
      Json.depthOfMembers (l.map fun e => (e.1, Json.string e.2)) = 0 := by
    intro l
    induction l with
    | nil => rfl
    | cons e l ih =>
        rw [List.map_cons, Json.depthOfMembers, ih]
        rfl
  rw [toJson, Json.depth, hmembers]

end Properties

/-! ### Nodes -/

namespace Json

theorem depthOfItems_le_iff {items : List Json} {n : Nat} :
    depthOfItems items ≤ n ↔ ∀ v ∈ items, v.depth ≤ n := by
  induction items with
  | nil => simp only [depthOfItems, Nat.zero_le, List.not_mem_nil, false_imp_iff, implies_true]
  | cons v rest ih => rw [depthOfItems, Nat.max_le, ih, List.forall_mem_cons]

theorem depthOfMembers_le_iff {members : List (String × Json)} {n : Nat} :
    depthOfMembers members ≤ n ↔ ∀ m ∈ members, m.2.depth ≤ n := by
  induction members with
  | nil => simp only [depthOfMembers, Nat.zero_le, List.not_mem_nil, false_imp_iff, implies_true]
  | cons m rest ih => rw [depthOfMembers, Nat.max_le, ih, List.forall_mem_cons]

/-- What is in an array is one level further in. -/
theorem depth_lt_of_mem_items {items : List Json} {v : Json} (h : v ∈ items) :
    v.depth < (array items).depth :=
  Nat.lt_succ_of_le (depthOfItems_le_iff.mp (Nat.le_refl _) v h)

/-- What is in an object is one level further in. -/
theorem depth_lt_of_mem_members {members : List (String × Json)} {m : String × Json}
    (h : m ∈ members) : m.2.depth < (object members).depth :=
  Nat.lt_succ_of_le (depthOfMembers_le_iff.mp (Nat.le_refl _) m h)

/-- A node as it is written: its formatting, and a field of its own. -/
def node (p : Properties) (field : String) (v : Json) : Json :=
  .object (p.toMembers ++ [(field, v)])

theorem mem_toMembers {p : Properties} {m : String × Json} (h : m ∈ p.toMembers) :
    m = ("properties", p.toJson) := by
  rw [Properties.toMembers] at h
  split at h
  · exact absurd h List.not_mem_nil
  · exact List.mem_singleton.mp h

theorem isTextual_node {p : Properties} {field : String} {v : Json} (h : v.isTextual = true) :
    (node p field v).isTextual = true := by
  rw [node, isTextual, allMembersTextual_iff]
  intro m hm
  rcases List.mem_append.mp hm with hm | hm
  · rw [mem_toMembers hm]
    exact p.isTextual_toJson
  · rwa [List.mem_singleton.mp hm]

/-- A node is one level deeper than its field, and two levels deep if it has formatting. -/
theorem depth_node_le {p : Properties} {field : String} {v : Json} {n : Nat} (hn : 1 ≤ n)
    (h : v.depth ≤ n) : (node p field v).depth ≤ n + 1 := by
  refine Nat.succ_le_succ (depthOfMembers_le_iff.mpr fun m hm => ?_)
  rcases List.mem_append.mp hm with hm | hm
  · rw [mem_toMembers hm, p.depth_toJson]
    exact hn
  · rwa [List.mem_singleton.mp hm]

/-- The kind of a block is not nested. -/
theorem depth_tagged (p : Properties) (name field : String) (v : Json) :
    (object (("type", .string name) :: (p.toMembers ++ [(field, v)]))).depth =
      (node p field v).depth := by
  have htype : (Json.string name).depth = 0 := rfl
  rw [node, depth, depth, depthOfMembers, htype, Nat.zero_max]

theorem depth_lt_node (p : Properties) (field : String) (v : Json) :
    v.depth < (node p field v).depth :=
  depth_lt_of_mem_members (m := (field, v)) (List.mem_append_right _ (List.mem_singleton_self _))

/-- The formatting of a written node is read back. -/
theorem exists_record?_node (p : Properties) (field : String) (h : field ≠ "properties")
    (v : Json) : ∃ written, (node p field v).record? ["properties", field] =
      some [written, some v] ∧ properties? written = some p := by
  have hfield : (field == "properties") = false := beq_eq_false_iff_ne.mpr h
  have hfield' : ("properties" == field) = false := beq_eq_false_iff_ne.mpr (Ne.symm h)
  by_cases hp : p.isEmpty = true
  · refine ⟨none, ?_, congrArg some (Properties.eq_empty_of_isEmpty hp).symm⟩
    simp only [node, Properties.toMembers, hp, if_true, record?, List.mapM_cons, List.mapM_nil,
      member?, List.nil_append, List.filter_cons, List.filter_nil, hfield, beq_self_eq_true,
      Bool.false_eq_true, if_false]
    rfl
  · refine ⟨some p.toJson, ?_, p.ofJson?_toJson⟩
    simp only [node, Properties.toMembers, hp, if_false, record?, List.mapM_cons, List.mapM_nil,
      member?, List.singleton_append, List.filter_cons, List.filter_nil, hfield, hfield',
      beq_self_eq_true, Bool.false_eq_true, if_true]
    rfl

/-- A block as it is written: its kind in front of what any node has. -/
theorem tagged?_node {inCell : Bool} {name : String} {kind : Block.Kind} {p : Properties}
    {field : String} (hkind : kind? inCell (.string name) = some kind) (h : field ≠ "type")
    (v : Json) :
    tagged? inCell (.object (("type", .string name) :: (p.toMembers ++ [(field, v)]))) =
      some (kind, node p field v) := by
  have hother : ∀ m ∈ p.toMembers ++ [(field, v)], (m.1 == "type") = false := by
    intro m hm
    rcases List.mem_append.mp hm with hm | hm
    · rw [mem_toMembers hm]
      rfl
    · rw [List.mem_singleton.mp hm]
      exact beq_eq_false_iff_ne.mpr h
  have htype : member? (("type", .string name) :: (p.toMembers ++ [(field, v)])) "type" =
      some (some (.string name)) := by
    have hnone : (p.toMembers ++ [(field, v)]).filter (fun m => m.1 == "type") = [] :=
      List.filter_eq_nil_iff.mpr fun m hm => by rw [hother m hm]; exact Bool.false_ne_true
    rw [member?, List.filter_cons, if_pos (beq_self_eq_true _), hnone]
  have hrest : (("type", .string name) :: (p.toMembers ++ [(field, v)])).filter
      (fun m => m.1 != "type") = p.toMembers ++ [(field, v)] := by
    rw [List.filter_cons_of_neg (by simp only [bne_self_eq_false, Bool.false_eq_true,
      not_false_eq_true]), List.filter_eq_self]
    intro m hm
    rw [bne, hother m hm, Bool.not_false]
  rw [tagged?, htype]
  simp only [Option.bind_eq_bind, Option.bind_some, hkind, hrest]
  rfl

/-- A written list is read if all of its items are. -/
theorem list?_map {α : Type} {write : α → Json} {read? : Json → Option α} {l : List α}
    (h : ∀ x ∈ l, read? (write x) = some x) :
    list? read? (some (.array (l.map write))) = some l :=
  mapM_map_eq_some h

end Json

/-! ### Blocks -/

theorem Run.run?_toJson (r : Run) : Json.run? r.toJson = some r := by
  rcases Json.exists_record?_node r.properties "text" (by decide)
    (.string r.text) with ⟨written, hrecord, hproperties⟩
  have hnode : r.toJson = Json.node r.properties "text" (.string r.text) := rfl
  rw [Json.run?, hnode, hrecord]
  dsimp only
  rw [hproperties]
  rfl

theorem Run.isTextual_toJson (r : Run) : r.toJson.isTextual = true :=
  Json.isTextual_node rfl

/-- A row as it is written. -/
def Row.toJson (r : Row) : Json := .node r.properties "cells" (.array (cellsToJson r.cells))

/-- A cell as it is written. -/
def Cell.toJson (c : Cell) : Json := .node c.properties "blocks" (.array (blocksToJson c.blocks))

theorem rowsToJson_eq_map (rows : List Row) : rowsToJson rows = rows.map Row.toJson := by
  induction rows with
  | nil => rfl
  | cons r rest ih =>
      rcases r with ⟨properties, cells⟩
      rw [rowsToJson, ih]
      rfl

theorem cellsToJson_eq_map (cells : List Cell) : cellsToJson cells = cells.map Cell.toJson := by
  induction cells with
  | nil => rfl
  | cons c rest ih =>
      rcases c with ⟨properties, blocks⟩
      rw [cellsToJson, ih]
      rfl

theorem blocksToJson_eq_map (blocks : List Block) :
    blocksToJson blocks = blocks.map Block.toJson := by
  induction blocks with
  | nil => rfl
  | cons b rest ih => rw [blocksToJson, ih, List.map_cons]

namespace Block

theorem toJson_paragraph (p : Paragraph) : (Block.paragraph p).toJson =
    .object (("type", .string "paragraph") ::
      (p.properties.toMembers ++ [("runs", .array (p.runs.map Run.toJson))])) := by
  rw [toJson, List.cons_append]

theorem toJson_table (t : Table) : (Block.table t).toJson =
    .object (("type", .string "table") ::
      (t.properties.toMembers ++ [("rows", .array (t.rows.map Row.toJson))])) := by
  rcases t with ⟨properties, rows⟩
  rw [toJson, List.cons_append, rowsToJson_eq_map]

/-- A block in a cell of a table is written six levels further in than the table. -/
theorem depth_toJson_add_le {t : Table} {r : Row} {c : Cell} {b : Block} (hr : r ∈ t.rows)
    (hc : c ∈ r.cells) (hb : b ∈ c.blocks) :
    b.toJson.depth + 6 ≤ (Block.table t).toJson.depth := by
  have hblocks : b.toJson.depth < (Json.array (blocksToJson c.blocks)).depth := by
    rw [blocksToJson_eq_map]
    exact Json.depth_lt_of_mem_items (List.mem_map_of_mem hb)
  have hcell : (Json.array (blocksToJson c.blocks)).depth < c.toJson.depth :=
    Json.depth_lt_node c.properties "blocks" _
  have hcells : c.toJson.depth < (Json.array (cellsToJson r.cells)).depth := by
    rw [cellsToJson_eq_map]
    exact Json.depth_lt_of_mem_items (List.mem_map_of_mem hc)
  have hrow : (Json.array (cellsToJson r.cells)).depth < r.toJson.depth :=
    Json.depth_lt_node r.properties "cells" _
  have hrows : r.toJson.depth < (Json.array (t.rows.map Row.toJson)).depth :=
    Json.depth_lt_of_mem_items (List.mem_map_of_mem hr)
  have htable : (Json.array (t.rows.map Row.toJson)).depth < (Block.table t).toJson.depth := by
    have hfield : ("rows", Json.array (t.rows.map Row.toJson)) ∈ ("type", Json.string "table") ::
        (t.properties.toMembers ++ [("rows", Json.array (t.rows.map Row.toJson))]) :=
      List.mem_cons_of_mem _ (List.mem_append_right _ (List.mem_singleton_self _))
    rw [toJson_table]
    exact Json.depth_lt_of_mem_members hfield
  omega

/-- A written block is textual. -/
theorem isTextual_toJson (b : Block) : b.toJson.isTextual = true := by
  have htagged : ∀ {name : String} {p : Properties} {field : String} {v : Json},
      v.isTextual = true →
      (Json.object (("type", .string name) :: (p.toMembers ++ [(field, v)]))).isTextual = true := by
    intro name p field v hv
    have hnode : (Json.node p field v).isTextual = true := Json.isTextual_node hv
    rw [Json.node, Json.isTextual] at hnode
    rw [Json.isTextual, Json.allMembersTextual, hnode, Json.isTextual, Bool.and_self]
  induction b using Block.induction with
  | paragraph p =>
      rw [toJson_paragraph]
      refine htagged (Json.allTextual_iff.mpr fun v hv => ?_)
      rcases List.mem_map.mp hv with ⟨r, _, rfl⟩
      exact r.isTextual_toJson
  | table t ih =>
      rw [toJson_table]
      refine htagged (Json.allTextual_iff.mpr fun v hv => ?_)
      rcases List.mem_map.mp hv with ⟨r, hr, rfl⟩
      refine Json.isTextual_node (Json.allTextual_iff.mpr fun v hv => ?_)
      rw [cellsToJson_eq_map] at hv
      rcases List.mem_map.mp hv with ⟨c, hc, rfl⟩
      refine Json.isTextual_node (Json.allTextual_iff.mpr fun v hv => ?_)
      rw [blocksToJson_eq_map] at hv
      rcases List.mem_map.mp hv with ⟨b, hb, rfl⟩
      exact ih r hr c hc b hb

end Block

namespace Json

theorem paragraph?_node (p : Paragraph) :
    paragraph? (node p.properties "runs" (.array (p.runs.map Run.toJson))) = some p := by
  rcases exists_record?_node p.properties "runs" (by decide)
    (.array (p.runs.map Run.toJson)) with ⟨written, hrecord, hproperties⟩
  have hruns : list? run? (some (.array (p.runs.map Run.toJson))) = some p.runs :=
    list?_map fun r _ => r.run?_toJson
  rw [paragraph?, hrecord]
  dsimp only
  rw [hproperties, hruns]
  rfl

theorem cell?_toJson {block? : Json → Option Block} {c : Cell}
    (h : ∀ b ∈ c.blocks, block? b.toJson = some b) : cell? block? c.toJson = some c := by
  rcases exists_record?_node c.properties "blocks" (by decide)
    (.array (blocksToJson c.blocks)) with ⟨written, hrecord, hproperties⟩
  have hblocks : list? block? (some (.array (blocksToJson c.blocks))) = some c.blocks := by
    rw [blocksToJson_eq_map]
    exact list?_map h
  rw [cell?, Cell.toJson, hrecord]
  dsimp only
  rw [hproperties, hblocks]
  cases c
  rfl

theorem row?_toJson {block? : Json → Option Block} {r : Row}
    (h : ∀ c ∈ r.cells, ∀ b ∈ c.blocks, block? b.toJson = some b) :
    row? block? r.toJson = some r := by
  rcases exists_record?_node r.properties "cells" (by decide)
    (.array (cellsToJson r.cells)) with ⟨written, hrecord, hproperties⟩
  have hcells : list? (cell? block?) (some (.array (cellsToJson r.cells))) = some r.cells := by
    rw [cellsToJson_eq_map]
    exact list?_map fun c hc => cell?_toJson (h c hc)
  rw [row?, Row.toJson, hrecord]
  dsimp only
  rw [hproperties, hcells]
  cases r
  rfl

theorem table?_node {block? : Json → Option Block} {t : Table}
    (h : ∀ r ∈ t.rows, ∀ c ∈ r.cells, ∀ b ∈ c.blocks, block? b.toJson = some b) :
    table? block? (node t.properties "rows" (.array (t.rows.map Row.toJson))) = some t := by
  rcases exists_record?_node t.properties "rows" (by decide)
    (.array (t.rows.map Row.toJson)) with ⟨written, hrecord, hproperties⟩
  have hrows : list? (row? block?) (some (.array (t.rows.map Row.toJson))) = some t.rows :=
    list?_map fun r hr => row?_toJson (h r hr)
  rw [table?, hrecord]
  dsimp only
  rw [hproperties, hrows]
  cases t
  rfl

/-- A written block is read as that block, given as many levels as it is deep. -/
theorem blockWithin?_toJson {levels : Nat} {inCell : Bool} {b : Block}
    (h : b.toJson.depth ≤ levels) : blockWithin? levels inCell b.toJson = some b := by
  induction levels generalizing inCell b with
  | zero =>
      cases b with
      | paragraph p =>
          rw [Block.toJson_paragraph, depth] at h
          exact absurd h (Nat.not_succ_le_zero _)
      | table t =>
          rw [Block.toJson_table, depth] at h
          exact absurd h (Nat.not_succ_le_zero _)
  | succ levels ih =>
      cases b with
      | paragraph p =>
          rw [blockWithin?, Block.toJson_paragraph, tagged?_node rfl (by decide)]
          simp only [Option.bind_eq_bind, Option.bind_some, paragraph?_node]
          rfl
      | table t =>
          have hinner : ∀ r ∈ t.rows, ∀ c ∈ r.cells, ∀ b ∈ c.blocks,
              blockWithin? levels true b.toJson = some b := by
            intro r hr c hc b hb
            have hdepth := Block.depth_toJson_add_le hr hc hb
            exact ih (by omega)
          rw [blockWithin?, Block.toJson_table, tagged?_node rfl (by decide)]
          simp only [Option.bind_eq_bind, Option.bind_some, table?_node hinner]
          rfl

/-- The blocks of a body are read unless they are nested too deep. -/
theorem blocks?_toJson (blocks : List Block) :
    blocks? (.array (blocksToJson blocks)) =
      if (array (blocksToJson blocks)).depth + 2 ≤ depthLimit then some blocks else none := by
  have hreadable : (array (blocksToJson blocks)).isReadable = true := by
    refine isReadable_of_isTextual _ (allTextual_iff.mpr fun v hv => ?_)
    rw [blocksToJson_eq_map] at hv
    rcases List.mem_map.mp hv with ⟨b, _, rfl⟩
    exact b.isTextual_toJson
  have hitems : (blocksToJson blocks).mapM block? = some blocks := by
    rw [blocksToJson_eq_map]
    exact mapM_map_eq_some fun b _ => blockWithin?_toJson (Nat.le_refl _)
  rw [blocks?, hreadable, array?, Option.bind_some, hitems]
  simp only [Bool.true_and, decide_eq_true_eq]

end Json

/-! ### Documents -/

namespace Document

theorem isTextual_toJson (d : Document) : d.toJson.isTextual = true := by
  rcases d with ⟨_ | blocks⟩
  · rfl
  · have hblocks : Json.allTextual (blocksToJson blocks) = true := by
      rw [Json.allTextual_iff, blocksToJson_eq_map]
      intro v hv
      rcases List.mem_map.mp hv with ⟨b, _, rfl⟩
      exact b.isTextual_toJson
    simp only [toJson, Json.isTextual, Json.allMembersTextual, hblocks, Bool.and_self]

/-- The list of blocks lies two levels deep in a document. -/
theorem depth_toJson_some (blocks : List Block) : (Document.mk (some blocks)).toJson.depth =
    (Json.array (blocksToJson blocks)).depth + 2 := by
  simp only [toJson, Json.depth, Json.depthOfMembers, Nat.max_zero]

/-- A written document is read as that document, unless it is nested too deep. -/
theorem ofJson?_toJson (d : Document) :
    ofJson? d.toJson = if d.toJson.depth ≤ Json.depthLimit then some d else none := by
  rcases d with ⟨_ | blocks⟩
  · rfl
  · have hbody : Json.body? (.object [("blocks", .array (blocksToJson blocks))]) =
        (Json.blocks? (.array (blocksToJson blocks))).map some := rfl
    have hdocument : ofJson? (Document.mk (some blocks)).toJson =
        (Json.body? (.object [("blocks", .array (blocksToJson blocks))])).map mk := rfl
    rw [hdocument, hbody, Json.blocks?_toJson, ← depth_toJson_some]
    split <;> rfl

/-- A written document is read as that document, unless it is nested too deep. -/
theorem read?_write (d : Document) :
    read? d.write = if d.toJson.depth ≤ Json.depthLimit then some d else none := by
  rw [read?, write, Json.parse?_pretty d.isTextual_toJson, Option.bind_some, ofJson?_toJson]

end Document

theorem documentOf_eq_ok_iff {s : String} {d : Document} :
    documentOf s = .ok d ↔ Document.read? s = some d := by
  rw [documentOf]
  cases Document.read? s with
  | none => simp only [reduceCtorEq]
  | some d' => simp only [Except.ok.injEq, Option.some.injEq]

/-- Reading back a document that was written gives that document, formatting keys in their
    order, if the arrays and objects of the written form nest at most 127 deep. If they nest
    deeper, the text is refused. -/
theorem documentOf_write (d : Document) :
    documentOf d.write =
      if d.toJson.depth ≤ 127 then .ok d else .error (.document .invalidTree) := by
  have hread : Document.read? d.write = if d.toJson.depth ≤ 127 then some d else none :=
    d.read?_write
  by_cases h : d.toJson.depth ≤ 127
  · rw [if_pos h] at hread ⊢
    exact documentOf_eq_ok_iff.mpr hread
  · rw [if_neg h] at hread ⊢
    rw [documentOf, hread]

end MailMerge
