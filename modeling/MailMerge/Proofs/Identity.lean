import MailMerge.Proofs.Tracked

/-!
# Blocks by Identity

What is found and changed by identity in a tracked document, seen from addresses.

An identity that stands at one address only can be followed there: the block with
the identity is the block at the address, and changing the one is changing the
other. Everything that is said about blocks by identity is proved through this.

Of a block itself, apart from what is inside of it, there are its identity and,
when it is a paragraph, the paragraph. That is its `Node`. Changes that happen
further in do not show in it, and so it is what is followed through a pass.

## Main definitions

* `Node`, `TrackedBlock.node`: A block without what is inside of it.
* `nodeAt?`: The node at an address.
* `TrackedBlock.mapParagraph`: Changing a block if it is a paragraph.

## Theorems

* `mem_all_iff`: What is in a block is what descents lead to.
* `changeInBlocks_eq_modifyTrackedAt`: Changing by identity is changing at its address.
* `nodeAt?_mapParagraph`: Changing a paragraph shows at its address only.
* `nodeAt?_trackBody`: Tracking gives each block its address for an identity.
* `forall₂_places`: Places in document order are the blocks in document order.
-/

namespace MailMerge

variable {ι : Type}

namespace TrackedBlock

mutual

/-- Induction over tracked blocks: a table is treated after all blocks inside its
    cells. -/
theorem induction {P : TrackedBlock ι → Prop} (paragraph : ∀ id p, P (.paragraph id p))
    (table : ∀ id (t : TrackedTable ι),
      (∀ r ∈ t.rows, ∀ c ∈ r.cells, ∀ b ∈ c.blocks, P b) → P (.table id t)) : ∀ b, P b
  | .paragraph id p => paragraph id p
  | .table id ⟨properties, rows⟩ =>
      table id ⟨properties, rows⟩ (inductionRows paragraph table rows)

theorem inductionRows {P : TrackedBlock ι → Prop} (paragraph : ∀ id p, P (.paragraph id p))
    (table : ∀ id (t : TrackedTable ι),
      (∀ r ∈ t.rows, ∀ c ∈ r.cells, ∀ b ∈ c.blocks, P b) → P (.table id t)) :
    ∀ rows : List (TrackedRow ι), ∀ r ∈ rows, ∀ c ∈ r.cells, ∀ b ∈ c.blocks, P b
  | [] => fun _ hr => absurd hr List.not_mem_nil
  | ⟨_, cells⟩ :: rest => fun r hr => by
      rcases List.mem_cons.mp hr with h | h
      · exact h ▸ inductionCells paragraph table cells
      · exact inductionRows paragraph table rest r h

theorem inductionCells {P : TrackedBlock ι → Prop} (paragraph : ∀ id p, P (.paragraph id p))
    (table : ∀ id (t : TrackedTable ι),
      (∀ r ∈ t.rows, ∀ c ∈ r.cells, ∀ b ∈ c.blocks, P b) → P (.table id t)) :
    ∀ cells : List (TrackedCell ι), ∀ c ∈ cells, ∀ b ∈ c.blocks, P b
  | [] => fun _ hc => absurd hc List.not_mem_nil
  | ⟨_, blocks⟩ :: rest => fun c hc => by
      rcases List.mem_cons.mp hc with h | h
      · exact h ▸ inductionBlocks paragraph table blocks
      · exact inductionCells paragraph table rest c h

theorem inductionBlocks {P : TrackedBlock ι → Prop} (paragraph : ∀ id p, P (.paragraph id p))
    (table : ∀ id (t : TrackedTable ι),
      (∀ r ∈ t.rows, ∀ c ∈ r.cells, ∀ b ∈ c.blocks, P b) → P (.table id t)) :
    ∀ blocks : List (TrackedBlock ι), ∀ b ∈ blocks, P b
  | [] => fun _ hb => absurd hb List.not_mem_nil
  | first :: rest => fun b hb => by
      rcases List.mem_cons.mp hb with h | h
      · exact h ▸ induction paragraph table first
      · exact inductionBlocks paragraph table rest b h

end

end TrackedBlock

/-! ### All blocks -/

-- Each level of the tree is a list, and what is in it is in one of its members.
theorem mem_allInBlocks {b : TrackedBlock ι} {l : List (TrackedBlock ι)} :
    b ∈ allInBlocks l ↔ ∃ c ∈ l, b ∈ c.all := by
  induction l with
  | nil => simp only [allInBlocks, List.not_mem_nil, false_and, exists_false]
  | cons c l ih => simp only [allInBlocks, List.mem_append, ih, List.exists_mem_cons_iff]

theorem mem_allInCells {b : TrackedBlock ι} {l : List (TrackedCell ι)} :
    b ∈ allInCells l ↔ ∃ c ∈ l, b ∈ allInBlocks c.blocks := by
  induction l with
  | nil => simp only [allInCells, List.not_mem_nil, false_and, exists_false]
  | cons c l ih =>
      cases c
      simp only [allInCells, List.mem_append, ih, List.exists_mem_cons_iff]

theorem mem_allInRows {b : TrackedBlock ι} {l : List (TrackedRow ι)} :
    b ∈ allInRows l ↔ ∃ r ∈ l, b ∈ allInCells r.cells := by
  induction l with
  | nil => simp only [allInRows, List.not_mem_nil, false_and, exists_false]
  | cons r l ih =>
      cases r
      simp only [allInRows, List.mem_append, ih, List.exists_mem_cons_iff]

namespace TrackedBlock

theorem mem_all_self (b : TrackedBlock ι) : b ∈ b.all := by
  cases b with
  | paragraph id p => exact List.mem_singleton_self _
  | table id t =>
      cases t
      exact List.mem_cons_self

-- Rows and cells are left out: what is in a table is the table or is in a child of it.
theorem mem_all_table {id : Option ι} {t : TrackedTable ι} {b : TrackedBlock ι} :
    b ∈ (table id t).all ↔ b = table id t ∨ ∃ s c, t.child? s = some c ∧ b ∈ c.all := by
  rcases t with ⟨properties, rows⟩
  rw [all, List.mem_cons]
  refine or_congr Iff.rfl ?_
  simp only [mem_allInRows, mem_allInCells, mem_allInBlocks]
  constructor
  · intro h
    rcases h with ⟨r, hr, cell, hcell, c, hc, hb⟩
    rcases TrackedTable.exists_child?_of_mem (t := ⟨properties, rows⟩) hr hcell hc with ⟨s, hs⟩
    exact ⟨s, c, hs, hb⟩
  · intro h
    rcases h with ⟨s, c, hs, hb⟩
    rcases TrackedTable.child?_eq_some_iff.mp hs with ⟨r, cell, hr, hcell, hc⟩
    exact ⟨r, List.mem_of_getElem? hr, cell, List.mem_of_getElem? hcell, c,
      List.mem_of_getElem? hc, hb⟩

theorem at?_table_cons {id : Option ι} {t : TrackedTable ι} {s : Step} {q : List Step}
    {b : TrackedBlock ι} :
    (table id t).at? (s :: q) = some b ↔ ∃ c, t.child? s = some c ∧ c.at? q = some b := by
  rw [at?, Option.bind_eq_some_iff]

theorem at?_nil (b : TrackedBlock ι) : b.at? [] = some b := by
  rw [at?]

/-- What is in a block is what descents lead to. -/
theorem mem_all_iff {b c : TrackedBlock ι} : c ∈ b.all ↔ ∃ q, b.at? q = some c := by
  constructor
  · -- By induction over the block, as its children are what `all` goes into.
    revert c
    refine induction (P := fun b => ∀ {c}, c ∈ b.all → ∃ q, b.at? q = some c) ?_ ?_ b
    · intro id p c hc
      rw [all, List.mem_singleton] at hc
      exact ⟨[], hc ▸ at?_nil _⟩
    · intro id t ih c hc
      rcases mem_all_table.mp hc with rfl | ⟨s, d, hs, hd⟩
      · exact ⟨[], at?_nil _⟩
      · rcases TrackedTable.child?_eq_some_iff.mp hs with ⟨r, cell, hr, hcell, hblock⟩
        rcases ih r (List.mem_of_getElem? hr) cell (List.mem_of_getElem? hcell) d
          (List.mem_of_getElem? hblock) hd with ⟨q, hq⟩
        exact ⟨s :: q, at?_table_cons.mpr ⟨d, hs, hq⟩⟩
  · -- By induction on the descents.
    intro h
    rcases h with ⟨q, hq⟩
    induction q generalizing b with
    | nil =>
        rw [at?_nil, Option.some.injEq] at hq
        exact hq ▸ mem_all_self b
    | cons s q ih =>
        cases b with
        | paragraph id p => exact absurd hq (by simp only [at?, reduceCtorEq, not_false_eq_true])
        | table id t =>
            rcases at?_table_cons.mp hq with ⟨d, hd, hq⟩
            exact mem_all_table.mpr (Or.inr ⟨s, d, hd, ih hq⟩)

theorem at?_append (b : TrackedBlock ι) (p q : List Step) :
    b.at? (p ++ q) = (b.at? p).bind fun c => c.at? q := by
  induction p generalizing b with
  | nil => rw [List.nil_append, at?_nil, Option.bind_some]
  | cons s p ih =>
      cases b with
      | paragraph id p => rfl
      | table id t =>
          rw [List.cons_append, at?, at?, Option.bind_assoc]
          congr 1
          funext c
          exact ih c

end TrackedBlock

/-- What is in a body is what addresses lead to. -/
theorem mem_allInBlocks_iff {tree : List (TrackedBlock ι)} {c : TrackedBlock ι} :
    c ∈ allInBlocks tree ↔ ∃ a, trackedAt? tree a = some c := by
  rw [mem_allInBlocks]
  constructor
  · intro h
    rcases h with ⟨b, hb, hc⟩
    rcases List.mem_iff_getElem?.mp hb with ⟨root, hroot⟩
    rcases TrackedBlock.mem_all_iff.mp hc with ⟨q, hq⟩
    exact ⟨⟨root, q⟩, by rw [trackedAt?, hroot, Option.bind_some, hq]⟩
  · intro h
    rcases h with ⟨a, ha⟩
    rcases Option.bind_eq_some_iff.mp ha with ⟨b, hb, hc⟩
    exact ⟨b, List.mem_of_getElem? hb, TrackedBlock.mem_all_iff.mpr ⟨a.steps, hc⟩⟩

/-- What is in a block of a body stands further in than the block. -/
theorem trackedAt?_append {tree : List (TrackedBlock ι)} {a : Address} {b c : TrackedBlock ι}
    {q : List Step} (ha : trackedAt? tree a = some b) (hq : b.at? q = some c) :
    trackedAt? tree ⟨a.root, a.steps ++ q⟩ = some c := by
  rcases Option.bind_eq_some_iff.mp ha with ⟨d, hd, hb⟩
  rw [trackedAt?, hd, Option.bind_some, TrackedBlock.at?_append, hb, Option.bind_some, hq]

/-- What is in a block of a body is in the body. -/
theorem mem_allInBlocks_of_mem_all {tree : List (TrackedBlock ι)} {b c : TrackedBlock ι}
    (hb : b ∈ allInBlocks tree) (hc : c ∈ b.all) : c ∈ allInBlocks tree := by
  rcases mem_allInBlocks_iff.mp hb with ⟨a, ha⟩
  rcases TrackedBlock.mem_all_iff.mp hc with ⟨q, hq⟩
  exact mem_allInBlocks_iff.mpr ⟨_, trackedAt?_append ha hq⟩

/-! ### Changing by identity -/

section

variable [DecidableEq ι]

-- Changing by identity tries every block, so it is a `map` at each level.
theorem changeInBlocks_eq_map (i : ι) (f : TrackedBlock ι → TrackedBlock ι)
    (l : List (TrackedBlock ι)) : changeInBlocks i f l = l.map (TrackedBlock.change i f) := by
  induction l with
  | nil => rfl
  | cons b l ih => rw [changeInBlocks, List.map_cons, ih]

theorem changeInCells_eq_map (i : ι) (f : TrackedBlock ι → TrackedBlock ι)
    (l : List (TrackedCell ι)) : changeInCells i f l =
      l.map fun c => { c with blocks := c.blocks.map (TrackedBlock.change i f) } := by
  induction l with
  | nil => rfl
  | cons c l ih =>
      cases c
      rw [changeInCells, List.map_cons, ih, changeInBlocks_eq_map]

theorem changeInRows_eq_map (i : ι) (f : TrackedBlock ι → TrackedBlock ι)
    (l : List (TrackedRow ι)) : changeInRows i f l =
      l.map fun r => { r with cells := r.cells.map fun c =>
        { c with blocks := c.blocks.map (TrackedBlock.change i f) } } := by
  induction l with
  | nil => rfl
  | cons r l ih =>
      cases r
      rw [changeInRows, List.map_cons, ih, changeInCells_eq_map]

namespace TrackedBlock

theorem change_of_id_eq {i : ι} {b : TrackedBlock ι} (f : TrackedBlock ι → TrackedBlock ι)
    (h : b.id = some i) : b.change i f = f b := by
  cases b with
  | paragraph id p =>
      rw [change]
      exact if_pos h
  | table id t =>
      cases t
      rw [change]
      exact if_pos h

theorem change_paragraph_of_id_ne {i : ι} {id : Option ι} (f : TrackedBlock ι → TrackedBlock ι)
    (h : id ≠ some i) (p : Paragraph) : (paragraph id p).change i f = paragraph id p := by
  rw [change, if_neg h]

theorem change_table_of_id_ne {i : ι} {id : Option ι} (f : TrackedBlock ι → TrackedBlock ι)
    (h : id ≠ some i) (t : TrackedTable ι) :
    (table id t).change i f = table id (t.mapChildren (change i f)) := by
  cases t
  rw [change, if_neg h, changeInRows_eq_map]
  rfl

/-- Where an identity does not occur, there is nothing to change. -/
theorem change_of_forall_ne {i : ι} (f : TrackedBlock ι → TrackedBlock ι) (b : TrackedBlock ι)
    (h : ∀ q c, b.at? q = some c → c.id ≠ some i) : b.change i f = b := by
  revert h
  refine induction (P := fun b => (∀ q c, b.at? q = some c → c.id ≠ some i) → b.change i f = b)
    ?_ ?_ b
  · intro id p h
    exact change_paragraph_of_id_ne f (h [] _ (at?_nil _)) p
  · intro id t ih h
    have hid : id ≠ some i := h [] (table id t) (at?_nil _)
    rw [change_table_of_id_ne f hid]
    congr 1
    refine TrackedTable.mapChildren_eq_self (fun s b hs => ?_)
    rcases TrackedTable.child?_eq_some_iff.mp hs with ⟨r, c, hr, hc, hb⟩
    exact ih r (List.mem_of_getElem? hr) c (List.mem_of_getElem? hc) b (List.mem_of_getElem? hb)
      (fun q d hd => h (s :: q) d (at?_table_cons.mpr ⟨b, hs, hd⟩))

/-- Changing by identity is changing at the one place where it is. -/
theorem change_eq_modifyAt {i : ι} (f : TrackedBlock ι → TrackedBlock ι) {p : List Step}
    {b d : TrackedBlock ι} (at_p : b.at? p = some d) (id : d.id = some i)
    (only : ∀ q c, b.at? q = some c → c.id = some i → q = p) :
    b.change i f = b.modifyAt f p := by
  -- The descents lead past tables that have another identity, so each time the change
  -- goes on to the children.
  induction p generalizing b with
  | nil =>
      rw [at?_nil, Option.some.injEq] at at_p
      rw [change_of_id_eq f (at_p ▸ id), modifyAt]
  | cons s p ih =>
      cases b with
      | paragraph id p => exact absurd at_p (by simp only [at?, reduceCtorEq, not_false_eq_true])
      | table tid t =>
          rcases at?_table_cons.mp at_p with ⟨c, hc, hd⟩
          have hid : tid ≠ some i := by
            intro h
            exact absurd (only [] _ (at?_nil _) h) (by simp only [List.nil_eq, reduceCtorEq,
              not_false_eq_true])
          rw [change_table_of_id_ne f hid, modifyAt]
          congr 1
          refine TrackedTable.mapChildren_eq_modifyChild (fun u e hu => ?_)
          by_cases hus : u = s
          · -- The child towards the block: the identity is further down in it.
            rw [if_pos hus]
            have hec : e = c := by
              rw [hus, hc, Option.some.injEq] at hu
              exact hu.symm
            subst hec
            refine ih hd (fun q x hq hx => ?_)
            exact (List.cons.inj (only (s :: q) x (at?_table_cons.mpr ⟨e, hc, hq⟩) hx)).2
          · -- Any other child: it does not have the identity at all.
            rw [if_neg hus]
            refine change_of_forall_ne f e (fun q x hq hx => hus ?_)
            exact (List.cons.inj (only (u :: q) x (at?_table_cons.mpr ⟨e, hu, hq⟩) hx)).1

/-- What is in a block after a change: something that was put in the place of a block with
    the identity, or a block with another one, in which there may be a change. -/
theorem mem_all_change {i : ι} {f : TrackedBlock ι → TrackedBlock ι} {b c : TrackedBlock ι}
    (h : c ∈ (b.change i f).all) :
    (∃ d ∈ b.all, d.id = some i ∧ c ∈ (f d).all) ∨
      ∃ d ∈ b.all, d.id ≠ some i ∧ c = d.change i f := by
  revert h
  refine induction (P := fun b => c ∈ (b.change i f).all →
    (∃ d ∈ b.all, d.id = some i ∧ c ∈ (f d).all) ∨
      ∃ d ∈ b.all, d.id ≠ some i ∧ c = d.change i f) ?_ ?_ b
  · intro id p h
    by_cases hid : id = some i
    · rw [@change_of_id_eq ι _ i (paragraph id p) f hid] at h
      exact Or.inl ⟨_, mem_all_self _, hid, h⟩
    · rw [change_paragraph_of_id_ne f hid, all, List.mem_singleton] at h
      exact Or.inr ⟨_, mem_all_self _, hid, by rw [h, change_paragraph_of_id_ne f hid]⟩
  · intro id t ih h
    by_cases hid : id = some i
    · rw [@change_of_id_eq ι _ i (table id t) f hid] at h
      exact Or.inl ⟨_, mem_all_self _, hid, h⟩
    · rw [change_table_of_id_ne f hid] at h
      rcases mem_all_table.mp h with hc | ⟨s, e, hs, hc⟩
      · exact Or.inr ⟨_, mem_all_self _, hid, by rw [hc, change_table_of_id_ne f hid]⟩
      · -- It is in a child, and what is in a child is in the table.
        rw [TrackedTable.child?_mapChildren] at hs
        rcases Option.map_eq_some_iff.mp hs with ⟨d, hd, rfl⟩
        rcases TrackedTable.child?_eq_some_iff.mp hd with ⟨r, cell, hr, hcell, hblock⟩
        have hall : ∀ x ∈ d.all, x ∈ (table id t).all :=
          fun x hx => mem_all_table.mpr (Or.inr ⟨s, d, hd, hx⟩)
        rcases ih r (List.mem_of_getElem? hr) cell (List.mem_of_getElem? hcell) d
          (List.mem_of_getElem? hblock) hc with ⟨x, hx, h⟩ | ⟨x, hx, h⟩
        · exact Or.inl ⟨x, hall x hx, h⟩
        · exact Or.inr ⟨x, hall x hx, h⟩

end TrackedBlock

/-- What is in a body after a change. -/
theorem mem_allInBlocks_changeInBlocks {i : ι} {f : TrackedBlock ι → TrackedBlock ι}
    {tree : List (TrackedBlock ι)} {c : TrackedBlock ι}
    (h : c ∈ allInBlocks (changeInBlocks i f tree)) :
    (∃ d ∈ allInBlocks tree, d.id = some i ∧ c ∈ (f d).all) ∨
      ∃ d ∈ allInBlocks tree, d.id ≠ some i ∧ c = d.change i f := by
  rcases mem_allInBlocks.mp h with ⟨_, hb, hc⟩
  rw [changeInBlocks_eq_map] at hb
  rcases List.mem_map.mp hb with ⟨b, hmem, rfl⟩
  have hall : ∀ x ∈ b.all, x ∈ allInBlocks tree := fun x hx => mem_allInBlocks.mpr ⟨b, hmem, hx⟩
  rcases TrackedBlock.mem_all_change hc with ⟨d, hd, h⟩ | ⟨d, hd, h⟩
  · exact Or.inl ⟨d, hall d hd, h⟩
  · exact Or.inr ⟨d, hall d hd, h⟩

theorem changeInBlocks_of_forall_ne {i : ι} (f : TrackedBlock ι → TrackedBlock ι)
    {tree : List (TrackedBlock ι)} (h : ∀ a c, trackedAt? tree a = some c → c.id ≠ some i) :
    changeInBlocks i f tree = tree := by
  rw [changeInBlocks_eq_map]
  refine map_eq_self (fun b hb => TrackedBlock.change_of_forall_ne f b (fun q c hc => ?_))
  rcases List.mem_iff_getElem?.mp hb with ⟨root, hroot⟩
  exact h ⟨root, q⟩ c (by rw [trackedAt?, hroot, Option.bind_some, hc])

/-- Changing by identity is changing at its address. -/
theorem changeInBlocks_eq_modifyTrackedAt {i : ι} (f : TrackedBlock ι → TrackedBlock ι)
    {tree : List (TrackedBlock ι)} {a : Address} {d : TrackedBlock ι}
    (at_a : trackedAt? tree a = some d) (id : d.id = some i)
    (only : ∀ b c, trackedAt? tree b = some c → c.id = some i → b = a) :
    changeInBlocks i f tree = modifyTrackedAt f a tree := by
  rw [changeInBlocks_eq_map, modifyTrackedAt]
  refine map_eq_modify (fun root b hb => ?_)
  rcases Option.bind_eq_some_iff.mp at_a with ⟨c, hc, hd⟩
  have only' : ∀ q x, b.at? q = some x → x.id = some i → (⟨root, q⟩ : Address) = a :=
    fun q x hq hx => only ⟨root, q⟩ x (by rw [trackedAt?, hb, Option.bind_some, hq]) hx
  -- All is within the block of the address's root, and the other blocks stay.
  by_cases hroot : root = a.root
  · rw [if_pos hroot]
    have hbc : b = c := by
      rw [hroot, hc, Option.some.injEq] at hb
      exact hb.symm
    subst hbc
    exact TrackedBlock.change_eq_modifyAt f hd id
      (fun q x hq hx => congrArg Address.steps (only' q x hq hx))
  · rw [if_neg hroot]
    exact TrackedBlock.change_of_forall_ne f b
      (fun q x hq hx => hroot (congrArg Address.root (only' q x hq hx)))

end

/-! ### Nodes -/

/-- A block without what is inside of it: its identity, and the paragraph that it is
    if it is one. -/
structure Node (ι : Type) where
  id : Option ι
  paragraph : Option Paragraph

namespace TrackedBlock

/-- A block without what is inside of it. -/
def node : TrackedBlock ι → Node ι
  | .paragraph id p => ⟨id, some p⟩
  | .table id _ => ⟨id, none⟩

theorem id_node (b : TrackedBlock ι) : b.node.id = b.id := by
  cases b <;> rfl

/-- Changes a block if it is a paragraph. -/
def mapParagraph (f : Paragraph → Paragraph) : TrackedBlock ι → TrackedBlock ι
  | .paragraph id p => .paragraph id (f p)
  | .table id t => .table id t

/-- Changing a paragraph shows where it stands only. -/
theorem node_at?_modifyAt_mapParagraph (f : Paragraph → Paragraph) (p q : List Step)
    (b : TrackedBlock ι) :
    ((b.modifyAt (mapParagraph f) p).at? q).map node =
      (b.at? q).map fun c => if q = p then { c.node with paragraph := c.node.paragraph.map f }
        else c.node := by
  -- By induction on the descents to the paragraph, for all others at once. Tables on the
  -- way change, but not in their nodes.
  induction p generalizing b q with
  | nil =>
      cases b with
      | paragraph id x =>
          cases q with
          | nil => rfl
          | cons u q => rfl
      | table id t =>
          cases q with
          | nil => rfl
          | cons u q => simp only [modifyAt, mapParagraph, reduceCtorEq, if_false]
  | cons s p ih =>
      cases b with
      | paragraph id x =>
          cases q with
          | nil => rfl
          | cons u q => rfl
      | table id t =>
          cases q with
          | nil => rfl
          | cons u q =>
              rw [modifyAt, at?, at?, TrackedTable.child?_modifyChild]
              by_cases hus : u = s
              · subst hus
                simp only [if_true, List.cons.injEq, true_and]
                cases t.child? u with
                | none => rfl
                | some c => exact ih q c
              · simp only [hus, if_false, List.cons.injEq, false_and]

/-- Changing a paragraph leaves a block in which it does not stand. -/
theorem at?_modifyAt_mapParagraph (f : Paragraph → Paragraph) {p q : List Step} (ne : q ≠ p)
    (h : rowInSteps q p = none) (b : TrackedBlock ι) :
    (b.modifyAt (mapParagraph f) p).at? q = b.at? q := by
  induction p generalizing q b with
  | nil =>
      cases b with
      | table id t => rfl
      | paragraph id x =>
          cases q with
          | nil => exact absurd rfl ne
          | cons u q => rfl
  | cons s p ih =>
      cases b with
      | paragraph id x => rfl
      | table id t =>
          cases q with
          | nil => exact absurd h (by simp only [rowInSteps, reduceCtorEq, not_false_eq_true])
          | cons u q =>
              rw [modifyAt, at?, at?, TrackedTable.child?_modifyChild]
              by_cases hus : u = s
              · rw [if_pos hus]
                subst hus
                rw [rowInSteps, if_pos rfl] at h
                have hne : q ≠ p := fun heq => ne (by rw [heq])
                cases t.child? u with
                | none => rfl
                | some c => exact ih hne h c
              · rw [if_neg hus]

end TrackedBlock

theorem trackedAt?_mapParagraph (f : Paragraph → Paragraph) {a b : Address} (ne : a ≠ b)
    (h : a.rowIn? b = none) (tree : List (TrackedBlock ι)) :
    trackedAt? (modifyTrackedAt (TrackedBlock.mapParagraph f) b tree) a = trackedAt? tree a := by
  rcases a with ⟨root, q⟩
  rcases b with ⟨root', p⟩
  rw [trackedAt?, trackedAt?, modifyTrackedAt, List.getElem?_modify, Option.map_eq_map]
  by_cases hroot : root' = root
  · subst hroot
    rw [Address.rowIn?, if_pos rfl] at h
    have hne : q ≠ p := fun heq => ne (by rw [heq])
    cases tree[root']? with
    | none => rfl
    | some b =>
        simp only [if_true, Option.map_some, Option.bind_some]
        exact TrackedBlock.at?_modifyAt_mapParagraph f hne h b
  · simp only [hroot, if_false, Option.map_id_fun', id_eq]

/-- The node at an address. -/
def nodeAt? (tree : List (TrackedBlock ι)) (a : Address) : Option (Node ι) :=
  (trackedAt? tree a).map TrackedBlock.node

/-- Changing a paragraph shows at its address only. -/
theorem nodeAt?_mapParagraph (f : Paragraph → Paragraph) (a b : Address)
    (tree : List (TrackedBlock ι)) :
    nodeAt? (modifyTrackedAt (TrackedBlock.mapParagraph f) a tree) b =
      (nodeAt? tree b).map fun n => if b = a then { n with paragraph := n.paragraph.map f }
        else n := by
  rcases a with ⟨root, p⟩
  rcases b with ⟨root', q⟩
  rw [nodeAt?, nodeAt?, trackedAt?, trackedAt?, modifyTrackedAt, List.getElem?_modify,
    Option.map_eq_map]
  cases tree[root']? with
  | none => rfl
  | some b =>
      by_cases hroot : root = root'
      · simp only [hroot, if_true, Option.map_some, Option.bind_some, Address.mk.injEq, true_and,
          TrackedBlock.node_at?_modifyAt_mapParagraph, Option.map_map, Function.comp_def]
      · simp only [hroot, Ne.symm hroot, if_false, Option.map_some, Option.bind_some,
          Address.mk.injEq, false_and, Option.map_map, Function.comp_def]

/-! ### Tracking -/

-- In blocks, cells, rows and bodies alike, identities are counted from where the list
-- starts, so member `k` of it has the one that is `k` further on.
theorem getElem?_trackBlocks (name : Address → Option ι) (here : Address)
    (row cell block : Nat) (blocks : List Block) (k : Nat) :
    (trackBlocks name here row cell block blocks)[k]? =
      blocks[k]?.map (Block.track name (here.child ⟨row, cell, block + k⟩)) := by
  induction blocks generalizing block k with
  | nil => rfl
  | cons b rest ih =>
      cases k with
      | zero => rfl
      | succ k =>
          rw [trackBlocks, List.getElem?_cons_succ, List.getElem?_cons_succ, ih,
            show block + 1 + k = block + (k + 1) by omega]

theorem getElem?_trackCells (name : Address → Option ι) (here : Address) (row cell : Nat)
    (cells : List Cell) (k : Nat) :
    (trackCells name here row cell cells)[k]? = cells[k]?.map fun c =>
      ⟨c.properties, trackBlocks name here row (cell + k) 0 c.blocks⟩ := by
  induction cells generalizing cell k with
  | nil => rfl
  | cons c rest ih =>
      cases c
      cases k with
      | zero => rfl
      | succ k =>
          rw [trackCells, List.getElem?_cons_succ, List.getElem?_cons_succ, ih,
            show cell + 1 + k = cell + (k + 1) by omega]

theorem getElem?_trackRows (name : Address → Option ι) (here : Address) (row : Nat)
    (rows : List Row) (k : Nat) :
    (trackRows name here row rows)[k]? = rows[k]?.map fun r =>
      ⟨r.properties, trackCells name here (row + k) 0 r.cells⟩ := by
  induction rows generalizing row k with
  | nil => rfl
  | cons r rest ih =>
      cases r
      cases k with
      | zero => rfl
      | succ k =>
          rw [trackRows, List.getElem?_cons_succ, List.getElem?_cons_succ, ih,
            show row + 1 + k = row + (k + 1) by omega]

/-- The children of a tracked table are the tracked children of the table. -/
theorem child?_trackRows (name : Address → Option ι) (here : Address) (t : Table) (s : Step) :
    TrackedTable.child? ⟨t.properties, trackRows name here 0 t.rows⟩ s =
      (t.child? s).map (Block.track name (here.child s)) := by
  simp only [TrackedTable.child?, Table.child?, getElem?_trackRows, Nat.zero_add,
    Option.bind_eq_bind]
  cases t.rows[s.row]? with
  | none => rfl
  | some r =>
      simp only [Option.map_some, Option.bind_some, getElem?_trackCells, Nat.zero_add]
      cases r.cells[s.cell]? with
      | none => rfl
      | some c => simp only [Option.map_some, Option.bind_some, getElem?_trackBlocks, Nat.zero_add]

theorem Block.track_table (name : Address → Option ι) (here : Address) (t : Table) :
    (Block.table t).track name here =
      .table (name here) ⟨t.properties, trackRows name here 0 t.rows⟩ := by
  cases t
  rfl

/-- Descents into a tracked block lead to the tracked blocks inside. -/
theorem Block.at?_track (name : Address → Option ι) (here : Address) (b : Block) (q : List Step) :
    (b.track name here).at? q =
      (b.at? q).map (Block.track name ⟨here.root, here.steps ++ q⟩) := by
  induction q generalizing here b with
  | nil => rw [TrackedBlock.at?_nil, Block.at?_nil, Option.map_some, List.append_nil]
  | cons s q ih =>
      cases b with
      | paragraph p => rfl
      | table t =>
          rw [Block.track_table, TrackedBlock.at?, child?_trackRows, Block.at?_table_cons]
          cases t.child? s with
          | none => rfl
          | some c =>
              rw [Option.map_some, Option.bind_some, Option.bind_some, ih]
              simp only [Address.child, List.append_assoc, List.singleton_append]

theorem getElem?_trackFrom (root : Nat) (blocks : List Block) (k : Nat) :
    (trackFrom root blocks)[k]? = blocks[k]?.map (Block.track some ⟨root + k, []⟩) := by
  induction blocks generalizing root k with
  | nil => rfl
  | cons b rest ih =>
      cases k with
      | zero => rfl
      | succ k =>
          rw [trackFrom, List.getElem?_cons_succ, List.getElem?_cons_succ, ih,
            show root + 1 + k = root + (k + 1) by omega]

theorem trackedAt?_trackBody (blocks : List Block) (a : Address) :
    trackedAt? (trackBody blocks) a = (blockAt? blocks a).map (Block.track some a) := by
  rw [trackedAt?, blockAt?, trackBody, getElem?_trackFrom, Nat.zero_add]
  cases blocks[a.root]? with
  | none => rfl
  | some b =>
      rw [Option.map_some, Option.bind_some, Option.bind_some, Block.at?_track]
      rfl

theorem Block.node_track (name : Address → Option ι) (here : Address) (b : Block) :
    (b.track name here).node = ⟨name here, b.paragraph?⟩ := by
  cases b with
  | paragraph p => rfl
  | table t =>
      cases t
      rfl

theorem Block.id_track (name : Address → Option ι) (here : Address) (b : Block) :
    (b.track name here).id = name here := by
  rw [← TrackedBlock.id_node, node_track]

theorem Block.kind_track (name : Address → Option ι) (here : Address) (b : Block) :
    (b.track name here).kind = b.kind := by
  rw [← TrackedBlock.kind_forget, forget_track]

/-- Tracking gives each block its address for an identity. -/
theorem nodeAt?_trackBody (blocks : List Block) (a : Address) :
    nodeAt? (trackBody blocks) a = (blockAt? blocks a).map fun b => ⟨some a, b.paragraph?⟩ := by
  rw [nodeAt?, trackedAt?_trackBody, Option.map_map]
  congr 1
  funext b
  exact Block.node_track some a b

/-! ### Document order -/

/-- Whether a place inside of the block at `here` is where a block stands. -/
def Stands (here : Address) (b : TrackedBlock ι) (place : Place) (c : TrackedBlock ι) : Prop :=
  ∃ q, place.address = ⟨here.root, here.steps ++ q⟩ ∧ b.at? q = some c ∧ c.kind = place.kind

theorem Stands.of_child {here : Address} {id : Option ι} {t : TrackedTable ι} {s : Step}
    {b c : TrackedBlock ι} {place : Place} (hs : t.child? s = some b)
    (h : Stands (here.child s) b place c) : Stands here (.table id t) place c := by
  rcases h with ⟨q, hplace, hq, hkind⟩
  refine ⟨s :: q, ?_, TrackedBlock.at?_table_cons.mpr ⟨b, hs, hq⟩, hkind⟩
  rw [hplace, Address.child, List.append_assoc, List.singleton_append]

mutual

/-- The places in a block are where the blocks in it stand, one after the other. -/
theorem forall₂_stands (name : Address → Option ι) (here : Address) :
    ∀ b : Block, List.Forall₂ (Stands here (b.track name here)) (b.places here)
      (b.track name here).all
  | .paragraph p => by
      refine List.Forall₂.cons ⟨[], ?_, TrackedBlock.at?_nil _, rfl⟩ List.Forall₂.nil
      rw [List.append_nil]
  | .table ⟨properties, rows⟩ => by
      rw [Block.track, Block.places, TrackedBlock.all]
      refine List.Forall₂.cons ⟨[], ?_, TrackedBlock.at?_nil _, rfl⟩ ?_
      · rw [List.append_nil]
      · exact forall₂_standsInRows name here (name here)
          ⟨properties, trackRows name here 0 rows⟩ 0 rows rfl

-- The table is given with its rows from `row` on, and so are row and cell below, as
-- what stands in it is found in the whole of it.
theorem forall₂_standsInRows (name : Address → Option ι) (here : Address) (id : Option ι)
    (t : TrackedTable ι) (row : Nat) :
    ∀ rows : List Row, t.rows.drop row = trackRows name here row rows →
      List.Forall₂ (Stands here (.table id t)) (placesInRows here row rows)
        (allInRows (trackRows name here row rows))
  | [], _ => List.Forall₂.nil
  | ⟨properties, cells⟩ :: rest, h => by
      rw [trackRows] at h
      rcases getElem?_of_drop_eq_cons h with ⟨hrow, hrest⟩
      rw [trackRows, placesInRows, allInRows]
      exact List.rel_append (forall₂_standsInCells name here id t row _ hrow 0 cells rfl)
        (forall₂_standsInRows name here id t (row + 1) rest hrest)

theorem forall₂_standsInCells (name : Address → Option ι) (here : Address) (id : Option ι)
    (t : TrackedTable ι) (row : Nat) (r : TrackedRow ι) (hrow : t.rows[row]? = some r)
    (cell : Nat) :
    ∀ cells : List Cell, r.cells.drop cell = trackCells name here row cell cells →
      List.Forall₂ (Stands here (.table id t)) (placesInCells here row cell cells)
        (allInCells (trackCells name here row cell cells))
  | [], _ => List.Forall₂.nil
  | ⟨properties, blocks⟩ :: rest, h => by
      rw [trackCells] at h
      rcases getElem?_of_drop_eq_cons h with ⟨hcell, hrest⟩
      rw [trackCells, placesInCells, allInCells]
      exact List.rel_append
        (forall₂_standsInBlocks name here id t row cell r _ hrow hcell 0 blocks rfl)
        (forall₂_standsInCells name here id t row r hrow (cell + 1) rest hrest)

theorem forall₂_standsInBlocks (name : Address → Option ι) (here : Address) (id : Option ι)
    (t : TrackedTable ι) (row cell : Nat) (r : TrackedRow ι) (c : TrackedCell ι)
    (hrow : t.rows[row]? = some r) (hcell : r.cells[cell]? = some c) (block : Nat) :
    ∀ blocks : List Block, c.blocks.drop block = trackBlocks name here row cell block blocks →
      List.Forall₂ (Stands here (.table id t)) (placesInBlocks here row cell block blocks)
        (allInBlocks (trackBlocks name here row cell block blocks))
  | [], _ => List.Forall₂.nil
  | b :: rest, h => by
      rw [trackBlocks] at h
      rcases getElem?_of_drop_eq_cons h with ⟨hblock, hrest⟩
      have hchild : t.child? ⟨row, cell, block⟩ =
          some (b.track name (here.child ⟨row, cell, block⟩)) :=
        TrackedTable.child?_eq_some_iff.mpr ⟨r, c, hrow, hcell, hblock⟩
      rw [trackBlocks, placesInBlocks, allInBlocks]
      refine List.rel_append ?_
        (forall₂_standsInBlocks name here id t row cell r c hrow hcell (block + 1) rest hrest)
      exact (forall₂_stands name (here.child ⟨row, cell, block⟩) b).imp
        fun _ _ hstands => hstands.of_child hchild

end

/-- Places in document order are the blocks in document order. -/
theorem forall₂_places (blocks : List Block) :
    List.Forall₂ (fun place c => trackedAt? (trackBody blocks) place.address = some c ∧
      c.kind = place.kind) (places blocks) (allInBlocks (trackBody blocks)) := by
  -- By induction on the blocks that are left, for all that may be before them.
  suffices h : ∀ (root : Nat) (rest : List Block), (trackBody blocks).drop root =
      trackFrom root rest →
        List.Forall₂ (fun place c => trackedAt? (trackBody blocks) place.address = some c ∧
          c.kind = place.kind) (placesFrom root rest) (allInBlocks (trackFrom root rest)) from
    h 0 blocks rfl
  intro root rest
  induction rest generalizing root with
  | nil => exact fun _ => List.Forall₂.nil
  | cons b rest ih =>
      intro h
      rw [trackFrom] at h
      rcases getElem?_of_drop_eq_cons h with ⟨hroot, hrest⟩
      rw [trackFrom, placesFrom, allInBlocks]
      refine List.rel_append ?_ (ih (root + 1) hrest)
      refine (forall₂_stands some ⟨root, []⟩ b).imp (fun place c hstands => ?_)
      rcases hstands with ⟨q, hplace, hq, hkind⟩
      rw [hplace, List.nil_append, trackedAt?, hroot, Option.bind_some]
      exact ⟨hq, hkind⟩

end MailMerge
