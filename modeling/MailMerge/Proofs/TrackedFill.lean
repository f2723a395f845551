import MailMerge.Proofs.Identity

/-!
# Filling a Tracked Table

A table of a tracked document is filled like any other one, and the blocks in it
keep their identities. The rows that come in are new. They have been nowhere before,
so nothing in them has an identity, and the template row takes away with it all
identities that were in it.

So after a fill there are as many blocks with an identity as before or fewer, and
what is left of them stands where rebasing says.

## Main definitions

* `TrackedTable.fill`: Filling a tracked table.
* `Node.IsFresh`: What stands in a new row.
* `Located`: Where a block with an identity stands, and of what kind it is.

## Theorems

* `forget_fill`: Filling is the same after forgetting.
* `nodeAt?_fill`, `located_fill`: Where blocks stand after a fill.
* `located_mapParagraph`: Changing a paragraph moves no block.
-/

namespace MailMerge

variable {ι : Type}

/-- The row that a tracked one is. -/
def TrackedRow.forget (r : TrackedRow ι) : Row := ⟨r.properties, forgetCells r.cells⟩

/-- Rows in which no block has an identity. -/
def freshRows (rows : List Row) : List (TrackedRow ι) := trackRows (fun _ => none) ⟨0, []⟩ 0 rows

/-- The table that filling gives, if it gives one. -/
def Table.Filling.table? : Table.Filling → Option Table
  | .filled table => some table
  | .noData => none
  | .misfit _ => none

namespace TrackedTable

/-- Fills a tracked table with a list of elements. What was in the rows that stay
    keeps its identity, and nothing in the new rows has one. -/
def fill (options : Options) (elements : List Element) (t : TrackedTable ι) :
    Option (TrackedTable ι) :=
  match elements, t.rows with
  | first :: _, header :: templateRow :: rest =>
      match Table.Template.ofRow first.columns templateRow.forget with
      | .ok template => some { t with
          rows := header :: freshRows (elements.map (template.row options)).reverse ++ rest }
      | .error _ => none
  | _, _ => none

theorem forget_rows (t : TrackedTable ι) : t.forget.rows = t.rows.map TrackedRow.forget :=
  forgetRows_eq_map t.rows

theorem map_forget_freshRows (rows : List Row) :
    (freshRows rows : List (TrackedRow ι)).map TrackedRow.forget = rows :=
  (forgetRows_eq_map _).symm.trans (forgetRows_trackRows _ _ _ rows)

/-- Filling is the same after forgetting. -/
theorem forget_fill (options : Options) (elements : List Element) (t : TrackedTable ι) :
    (t.fill options elements).map forget = (Table.fill options elements t.forget).table? := by
  rcases t with ⟨properties, rows⟩
  rw [fill.eq_def, Table.fill.eq_def, forget_rows]
  -- Nothing is filled without elements or without a second row, tracked or not.
  cases elements with
  | nil => rfl
  | cons first later =>
      rcases rows with _ | ⟨header, _ | ⟨templateRow, rest⟩⟩
      · rfl
      · rfl
      · simp only [List.map_cons]
        cases Table.Template.ofRow first.columns templateRow.forget with
        | error reason => rfl
        | ok template =>
            simp only [Option.map_some, Table.Filling.table?, forget, Option.some.injEq,
              Table.mk.injEq, true_and]
            rw [forgetRows_eq_map]
            change List.map TrackedRow.forget _ = _
            simp only [List.cons_append, List.map_cons, List.map_append, map_forget_freshRows]

/-- What the rows of a filled tracked table are. -/
theorem rows_of_fill {options : Options} {elements : List Element} {t t' : TrackedTable ι}
    (h : t.fill options elements = some t') :
    0 < elements.length ∧ ∃ header templateRow rest, ∃ template : Table.Template,
      t.rows = header :: templateRow :: rest ∧
        t'.rows = header :: freshRows (elements.map (template.row options)).reverse ++ rest := by
  unfold fill at h
  split at h
  · next first later header templateRow rest hrows =>
      split at h
      · next template _ =>
          simp only [Option.some.injEq] at h
          exact ⟨Nat.succ_pos _, header, templateRow, rest, template, hrows, by rw [← h]⟩
      · exact absurd h (by simp only [reduceCtorEq, not_false_eq_true])
  · exact absurd h (by simp only [reduceCtorEq, not_false_eq_true])

theorem length_freshRows (rows : List Row) :
    (freshRows rows : List (TrackedRow ι)).length = rows.length := by
  have h := congrArg List.length (@map_forget_freshRows ι rows)
  rwa [List.length_map] at h

-- A child depends on the row that it is in, not on where in the table that is.
theorem child?_congr {t t' : TrackedTable ι} {s s' : Step}
    (rows : t'.rows[s'.row]? = t.rows[s.row]?) (cell : s'.cell = s.cell)
    (block : s'.block = s.block) : t'.child? s' = t.child? s := by
  rw [child?, child?, rows, cell, block]

/-- The rows that stay are found where they were pushed to. -/
theorem child?_fill_of_pushed {options : Options} {elements : List Element}
    {t t' : TrackedTable ι} (h : t.fill options elements = some t') {s s' : Step}
    (hs : s.pushed elements.length = some s') : t'.child? s' = t.child? s := by
  rcases rows_of_fill h with ⟨_, header, templateRow, rest, template, hrows, hrows'⟩
  have hlen : (freshRows (elements.map (template.row options)).reverse :
      List (TrackedRow ι)).length = elements.length := by
    rw [length_freshRows, List.length_reverse, List.length_map]
  rcases Step.pushed_eq_some_iff.mp hs with ⟨_, rfl⟩
  refine child?_congr ?_ rfl rfl
  rw [hrows, hrows', Step.getElem?_of_pushed hs header templateRow hlen rest]

end TrackedTable

/-- Whether a node is that of a paragraph in a new row. It has no identity then, and says
    nothing or what an element has in a column. -/
def Node.IsFresh (elements : List Element) (n : Node ι) : Prop :=
  n.id = none ∧ ∃ s, n.paragraph = some (.ofText s) ∧
    (s = "" ∨ ∃ e ∈ elements, ∃ name, s = e.textUnder name)

/-- What stands in the row that an element gives. -/
theorem Table.Template.exists_of_mem_row {template : Template} {options : Options} {e : Element}
    {c : Cell} {b : Block} (hc : c ∈ (template.row options e).cells) (hb : b ∈ c.blocks) :
    ∃ s, b = .paragraph (.ofText s) ∧ (s = "" ∨ ∃ name, s = e.textUnder name) := by
  rcases List.mem_map.mp hc with ⟨⟨properties, column?⟩, _, rfl⟩
  refine ⟨_, List.mem_singleton.mp hb, ?_⟩
  cases column? with
  | none => exact Or.inl rfl
  | some name => exact Or.inr ⟨name, rfl⟩

namespace TrackedTable

/-- What stands in a new row. -/
theorem isFresh_of_child?_fill {options : Options} {elements : List Element}
    {t t' : TrackedTable ι} (h : t.fill options elements = some t') {s : Step}
    (pos : 0 < s.row) (le : s.row ≤ elements.length) {b c : TrackedBlock ι} {q : List Step}
    (hb : t'.child? s = some b) (hc : b.at? q = some c) : c.node.IsFresh elements := by
  rcases rows_of_fill h with ⟨_, header, templateRow, rest, template, _, hrows'⟩
  rcases s with ⟨row, cell, block⟩
  simp only at pos le
  rcases Nat.exists_eq_succ_of_ne_zero (Nat.ne_of_gt pos) with ⟨k, rfl⟩
  have hlt : k < (freshRows (elements.map (template.row options)).reverse :
      List (TrackedRow ι)).length := by
    rw [length_freshRows, List.length_reverse, List.length_map]
    omega
  have hrow : t'.rows[k + 1]? = (freshRows (elements.map (template.row options)).reverse :
      List (TrackedRow ι))[k]? := by
    rw [hrows', List.cons_append, List.getElem?_cons_succ, List.getElem?_append_left hlt]
  -- So what is there was tracked, in a table of the new rows only, with no identities.
  have hchild : t'.child? ⟨k + 1, cell, block⟩ =
      ((⟨t.properties, (elements.map (template.row options)).reverse⟩ : Table).child?
        ⟨k, cell, block⟩).map
        (Block.track (fun _ => none) (Address.child ⟨0, []⟩ ⟨k, cell, block⟩)) := by
    rw [← child?_trackRows]
    exact child?_congr hrow rfl rfl
  rw [hchild] at hb
  rcases Option.map_eq_some_iff.mp hb with ⟨d, hd, rfl⟩
  rcases Option.bind_eq_some_iff.mp hd with ⟨r, hr, hcells⟩
  rcases Option.bind_eq_some_iff.mp hcells with ⟨x, hx, hblock⟩
  rcases List.mem_map.mp (List.mem_reverse.mp (List.mem_of_getElem? hr)) with ⟨e, he, rfl⟩
  rcases Table.Template.exists_of_mem_row (List.mem_of_getElem? hx) (List.mem_of_getElem? hblock)
    with ⟨text, rfl, htext⟩
  -- New rows have paragraphs only, which nothing leads further into.
  cases q with
  | nil =>
      rw [TrackedBlock.at?_nil, Option.some.injEq] at hc
      rw [← hc, Block.node_track]
      refine ⟨rfl, text, rfl, htext.imp_right ?_⟩
      intro h'
      rcases h' with ⟨name, hname⟩
      exact ⟨e, he, name, hname⟩
  | cons u q => exact absurd hc (by simp only [Block.track, TrackedBlock.at?, reduceCtorEq,
      not_false_eq_true])

end TrackedTable

/-! ### Where blocks stand -/

namespace TrackedBlock

/-- The node that a descent from a block leads to. -/
def nodeIn? (b : TrackedBlock ι) (q : List Step) : Option (Node ι) := (b.at? q).map node

theorem nodeIn?_nil (b : TrackedBlock ι) : b.nodeIn? [] = some b.node := by
  rw [nodeIn?, at?_nil, Option.map_some]

theorem nodeIn?_table_cons {id : Option ι} {t : TrackedTable ι} {s : Step} {q : List Step}
    {n : Node ι} :
    (table id t).nodeIn? (s :: q) = some n ↔ ∃ b, t.child? s = some b ∧ b.nodeIn? q = some n := by
  simp only [nodeIn?, Option.map_eq_some_iff, at?_table_cons]
  constructor
  · intro h
    rcases h with ⟨c, ⟨b, hb, hq⟩, hc⟩
    exact ⟨b, hb, c, hq, hc⟩
  · intro h
    rcases h with ⟨b, hb, c, hq, hc⟩
    exact ⟨c, ⟨b, hb, hq⟩, hc⟩

/-- Filling a table with nothing above it. -/
theorem nodeIn?_fill {options : Options} {elements : List Element} {t t' : TrackedTable ι}
    (h : t.fill options elements = some t') (id : Option ι) {q' : List Step} {n : Node ι} :
    (table id t').nodeIn? q' = some n ↔
      (∃ q, (table id t).nodeIn? q = some n ∧ rebaseSteps elements.length [] q = some q') ∨
        n.IsFresh elements ∧ (table id t').nodeIn? q' = some n := by
  cases q' with
  | nil =>
      simp only [rebaseSteps_eq_some_nil_iff, exists_eq_right, nodeIn?_nil]
      exact ⟨Or.inl, fun h => h.elim (fun hn => hn) And.right⟩
  | cons u q' =>
      constructor
      · -- Whatever is in the filled table is in a row that stays or in a new one.
        intro hn
        rcases nodeIn?_table_cons.mp hn with ⟨b, hb, hq⟩
        rcases Step.pushed_or_fresh u with ⟨s, hs⟩ | ⟨pos, le⟩
        · rw [TrackedTable.child?_fill_of_pushed h hs] at hb
          refine Or.inl ⟨s :: q', nodeIn?_table_cons.mpr ⟨b, hb, hq⟩, ?_⟩
          rw [rebaseSteps, hs, Option.map_some]
        · rcases Option.map_eq_some_iff.mp hq with ⟨c, hc, rfl⟩
          exact Or.inr ⟨TrackedTable.isFresh_of_child?_fill h pos le hb hc, hn⟩
      · intro h'
        rcases h' with ⟨q, hq, hrebase⟩ | ⟨_, hn⟩
        · cases q with
          | nil =>
              rw [rebaseSteps, Option.some.injEq] at hrebase
              exact absurd hrebase (by simp only [reduceCtorEq, not_false_eq_true])
          | cons s q =>
              rcases Option.map_eq_some_iff.mp hrebase with ⟨s', hs, hcons⟩
              rcases List.cons.inj hcons with ⟨rfl, rfl⟩
              rcases nodeIn?_table_cons.mp hq with ⟨b, hb, hq⟩
              rw [← TrackedTable.child?_fill_of_pushed h hs] at hb
              exact nodeIn?_table_cons.mpr ⟨b, hb, hq⟩
        · exact hn

/-- Filling a table further in. -/
theorem nodeIn?_modifyAt_fill {options : Options} {elements : List Element}
    {t t' : TrackedTable ι} (h : t.fill options elements = some t') {id : Option ι}
    {p : List Step} {b : TrackedBlock ι} (at_p : b.at? p = some (table id t)) {q' : List Step}
    {n : Node ι} :
    (b.modifyAt (fun _ => table id t') p).nodeIn? q' = some n ↔
      (∃ q, b.nodeIn? q = some n ∧ rebaseSteps elements.length p q = some q') ∨
        n.IsFresh elements ∧ (b.modifyAt (fun _ => table id t') p).nodeIn? q' = some n := by
  induction p generalizing b q' with
  | nil =>
      rw [at?_nil, Option.some.injEq] at at_p
      subst at_p
      exact nodeIn?_fill h id
  | cons s p ih =>
      cases b with
      | paragraph id x => exact absurd at_p (by simp only [at?, reduceCtorEq, not_false_eq_true])
      | table id' t₀ =>
          rcases at?_table_cons.mp at_p with ⟨c, hc, hp⟩
          rw [modifyAt]
          cases q' with
          | nil =>
              simp only [rebaseSteps_eq_some_nil_iff, exists_eq_right, nodeIn?_nil]
              exact ⟨Or.inl, fun h => h.elim (fun hn => hn) And.right⟩
          | cons u q' =>
              simp only [nodeIn?_table_cons, TrackedTable.child?_modifyChild,
                rebaseSteps_cons_eq_some_iff]
              by_cases hus : u = s
              · -- The descent towards the filled table: what is below is by induction.
                subst hus
                simp only [if_true, hc, Option.map_some, Option.some.injEq, exists_eq_left']
                have hbelow : (∃ q, (table id' t₀).nodeIn? q = some n ∧ ∃ rest, q = u :: rest ∧
                    rebaseSteps elements.length p rest = some q') ↔
                    ∃ q, c.nodeIn? q = some n ∧ rebaseSteps elements.length p q = some q' := by
                  constructor
                  · intro h'
                    rcases h' with ⟨_, hq, q, rfl, hrebase⟩
                    rcases nodeIn?_table_cons.mp hq with ⟨d, hd, hq⟩
                    rw [hc, Option.some.injEq] at hd
                    exact ⟨q, hd ▸ hq, hrebase⟩
                  · intro h'
                    rcases h' with ⟨q, hq, hrebase⟩
                    exact ⟨u :: q, nodeIn?_table_cons.mpr ⟨c, hc, hq⟩, q, rfl, hrebase⟩
                rw [hbelow]
                exact ih hp
              · -- Any other descent: nothing below is changed or rebased.
                simp only [hus, if_false]
                constructor
                · intro h'
                  rcases h' with ⟨d, hd, hq⟩
                  exact Or.inl ⟨u :: q', nodeIn?_table_cons.mpr ⟨d, hd, hq⟩, q', rfl, rfl⟩
                · intro h'
                  rcases h' with ⟨_, hq, q, rfl, rfl⟩ | ⟨_, hn⟩
                  · exact nodeIn?_table_cons.mp hq
                  · exact hn

end TrackedBlock

-- In a body the root comes first, and the rest is within its block.
theorem nodeAt?_eq_some_iff {tree : List (TrackedBlock ι)} {a : Address} {n : Node ι} :
    nodeAt? tree a = some n ↔ ∃ b, tree[a.root]? = some b ∧ b.nodeIn? a.steps = some n := by
  simp only [nodeAt?, trackedAt?, Option.map_eq_some_iff, Option.bind_eq_some_iff,
    TrackedBlock.nodeIn?]
  constructor
  · intro h
    rcases h with ⟨c, ⟨b, hb, hq⟩, hc⟩
    exact ⟨b, hb, c, hq, hc⟩
  · intro h
    rcases h with ⟨b, hb, c, hq, hc⟩
    exact ⟨c, ⟨b, hb, hq⟩, hc⟩

/-- After a fill the blocks that were there stand where rebasing says, and the others are
    in the new rows. -/
theorem nodeAt?_fill {options : Options} {elements : List Element} {t t' : TrackedTable ι}
    (h : t.fill options elements = some t') {tree : List (TrackedBlock ι)} {a : Address}
    {id : Option ι} (at_a : trackedAt? tree a = some (.table id t)) {c : Address} {n : Node ι} :
    nodeAt? (modifyTrackedAt (fun _ => .table id t') a tree) c = some n ↔
      (∃ b, nodeAt? tree b = some n ∧ Address.rebase a elements.length b = some c) ∨
        n.IsFresh elements ∧
          nodeAt? (modifyTrackedAt (fun _ => .table id t') a tree) c = some n := by
  rcases Option.bind_eq_some_iff.mp at_a with ⟨d, hd, hsteps⟩
  simp only [nodeAt?_eq_some_iff, modifyTrackedAt, List.getElem?_modify, Option.map_eq_map,
    Address.rebase_eq_some_iff]
  by_cases hroot : a.root = c.root
  · simp only [hroot, if_true]
    rw [← hroot, hd]
    simp only [Option.map_some, Option.some.injEq, exists_eq_left']
    have hbelow : (∃ b : Address, (∃ e, tree[b.root]? = some e ∧ e.nodeIn? b.steps = some n) ∧
        a.root = b.root ∧ (if b.root = a.root then
          rebaseSteps elements.length a.steps b.steps = some c.steps else c.steps = b.steps)) ↔
        ∃ q, d.nodeIn? q = some n ∧ rebaseSteps elements.length a.steps q = some c.steps := by
      constructor
      · intro h'
        rcases h' with ⟨⟨root, q⟩, ⟨e, he, hq⟩, hroot', hrebase⟩
        simp only at he hq hroot' hrebase
        subst hroot'
        rw [hd, Option.some.injEq] at he
        rw [if_pos rfl] at hrebase
        exact ⟨q, he ▸ hq, hrebase⟩
      · intro h'
        rcases h' with ⟨q, hq, hrebase⟩
        refine ⟨⟨a.root, q⟩, ⟨d, hd, hq⟩, rfl, ?_⟩
        rw [if_pos rfl]
        exact hrebase
    rw [hbelow]
    exact TrackedBlock.nodeIn?_modifyAt_fill h hsteps
  · -- In the blocks of other roots nothing is changed or rebased.
    simp only [hroot, if_false, id_eq, Option.map_id_fun']
    constructor
    · intro h'
      rcases h' with ⟨e, he, hq⟩
      refine Or.inl ⟨c, ⟨e, he, hq⟩, rfl, ?_⟩
      rw [if_neg (Ne.symm hroot)]
    · intro h'
      rcases h' with ⟨b, ⟨e, he, hq⟩, hroot', hrebase⟩ | ⟨_, hn⟩
      · rw [if_neg (fun hb => hroot (hb.symm.trans hroot'.symm))] at hrebase
        rw [hroot', hrebase]
        exact ⟨e, he, hq⟩
      · exact hn

/-- Whether the block with an identity stands at an address, and is of a kind. -/
def Located (tree : List (TrackedBlock ι)) (a : Address) (i : ι) (kind : Block.Kind) : Prop :=
  ∃ c, trackedAt? tree a = some c ∧ c.id = some i ∧ c.kind = kind

/-- The kind of block that a node stands for. -/
def Node.kind (n : Node ι) : Block.Kind := if n.paragraph.isSome then .paragraph else .table

theorem TrackedBlock.kind_node (b : TrackedBlock ι) : b.node.kind = b.kind := by
  cases b <;> rfl

/-- Where a block stands shows in the nodes. -/
theorem located_iff_nodeAt? {tree : List (TrackedBlock ι)} {a : Address} {i : ι}
    {kind : Block.Kind} :
    Located tree a i kind ↔ ∃ n, nodeAt? tree a = some n ∧ n.id = some i ∧ n.kind = kind := by
  simp only [Located, nodeAt?, Option.map_eq_some_iff]
  constructor
  · intro h
    rcases h with ⟨c, hc, hid, hkind⟩
    exact ⟨c.node, ⟨c, hc, rfl⟩, (TrackedBlock.id_node c).trans hid,
      (TrackedBlock.kind_node c).trans hkind⟩
  · intro h
    rcases h with ⟨_, ⟨c, hc, rfl⟩, hid, hkind⟩
    exact ⟨c, hc, (TrackedBlock.id_node c).symm.trans hid,
      (TrackedBlock.kind_node c).symm.trans hkind⟩

/-- After a fill the blocks that have an identity stand where rebasing says, and nowhere
    else. -/
theorem located_fill {options : Options} {elements : List Element} {t t' : TrackedTable ι}
    (h : t.fill options elements = some t') {tree : List (TrackedBlock ι)} {a : Address}
    {id : Option ι} (at_a : trackedAt? tree a = some (.table id t)) {c : Address} {i : ι}
    {kind : Block.Kind} :
    Located (modifyTrackedAt (fun _ => .table id t') a tree) c i kind ↔
      ∃ b, Located tree b i kind ∧ Address.rebase a elements.length b = some c := by
  simp only [located_iff_nodeAt?]
  constructor
  · intro h'
    rcases h' with ⟨n, hn, hid, hkind⟩
    -- It is none of the new rows, as nothing there has an identity.
    rcases (nodeAt?_fill h at_a).mp hn with ⟨b, hb, hrebase⟩ | ⟨hfresh, _⟩
    · exact ⟨b, ⟨n, hb, hid, hkind⟩, hrebase⟩
    · rw [hfresh.1] at hid
      exact absurd hid (by simp only [reduceCtorEq, not_false_eq_true])
  · intro h'
    rcases h' with ⟨b, ⟨n, hb, hid, hkind⟩, hrebase⟩
    exact ⟨n, (nodeAt?_fill h at_a).mpr (Or.inl ⟨b, hb, hrebase⟩), hid, hkind⟩

/-- Changing a paragraph moves no block. -/
theorem located_mapParagraph (f : Paragraph → Paragraph) (a : Address)
    {tree : List (TrackedBlock ι)} {c : Address} {i : ι} {kind : Block.Kind} :
    Located (modifyTrackedAt (TrackedBlock.mapParagraph f) a tree) c i kind ↔
      Located tree c i kind := by
  simp only [located_iff_nodeAt?, nodeAt?_mapParagraph, Option.map_eq_some_iff]
  -- The node of the paragraph changes, but neither its identity nor its kind.
  have hid : ∀ n : Node ι,
      (if c = a then { n with paragraph := n.paragraph.map f } else n).id = n.id := by
    intro n
    split <;> rfl
  have hkind : ∀ n : Node ι,
      (if c = a then { n with paragraph := n.paragraph.map f } else n).kind = n.kind := by
    intro n
    split
    · rw [Node.kind, Node.kind, Option.isSome_map]
    · rfl
  constructor
  · intro h
    rcases h with ⟨_, ⟨n, hn, rfl⟩, hi, hk⟩
    exact ⟨n, hn, (hid n).symm.trans hi, (hkind n).symm.trans hk⟩
  · intro h
    rcases h with ⟨n, hn, hi, hk⟩
    exact ⟨_, ⟨n, hn, rfl⟩, (hid n).trans hi, (hkind n).trans hk⟩

end MailMerge
