import MailMerge.Proofs.Tracked

/-!
# Changes at Addresses

What changing a body at an address does, and what becomes of two changes.

A change goes down to its address one descent at a time, and each descent changes one child
of a table. So everything about changes is about children first: the others stay, a change
depends on the child alone, two changes of one child are one change, and changes of two
children can be made in either order. It is then carried down by induction on the descents.

A change at an address further in is a change at any address on the way there. This is how
two changes are compared of which one is inside of the other.

## Main definitions

* `Table.modifyChild`: Changing one child of a table.

## Theorems

* `child?_modifyChild`: Changing one child leaves the others.
* `modifyAt_append`, `modifyAt_below`: A change further in.
* `modifyAt_congr`: A change depends on the block that is there.
* `modifyAt_modifyAt`: Two changes at one address.
* `modifyAt_comm`: Two changes at addresses of which neither is inside of the other.
* `blockAt?_modifyAt_below`, `blockAt?_modifyAt_above`, `blockAt?_modifyAt_of_apart`: What
  stands where after a change.
-/

namespace MailMerge

/-! ### Changes of blocks -/

namespace Table

/-- Changes the block in a table that one descent leads to. -/
def modifyChild (f : Block → Block) (s : Step) (t : Table) : Table :=
  { t with rows := t.rows.modify s.row fun r =>
    { r with cells := r.cells.modify s.cell fun c =>
      { c with blocks := c.blocks.modify s.block f } } }

theorem child?_eq_some_iff {t : Table} {s : Step} {b : Block} :
    t.child? s = some b ↔ ∃ r c, t.rows[s.row]? = some r ∧ r.cells[s.cell]? = some c ∧
      c.blocks[s.block]? = some b := by
  simp only [child?, Option.bind_eq_bind, Option.bind_eq_some_iff]
  constructor
  · intro h
    rcases h with ⟨r, hr, c, hc, hb⟩
    exact ⟨r, c, hr, hc, hb⟩
  · intro h
    rcases h with ⟨r, c, hr, hc, hb⟩
    exact ⟨r, hr, c, hc, hb⟩

/-- Changing one child leaves the others. -/
theorem child?_modifyChild (f : Block → Block) (s u : Step) (t : Table) :
    (t.modifyChild f s).child? u = if u = s then (t.child? u).map f else t.child? u := by
  rcases s with ⟨row, cell, block⟩
  rcases u with ⟨row', cell', block'⟩
  simp only [child?, modifyChild, Option.bind_eq_bind, bind_getElem?_modify, Step.mk.injEq]
  by_cases hrow : row = row'
  · simp only [hrow, if_true, true_and, bind_getElem?_modify]
    by_cases hcell : cell = cell'
    · simp only [hcell, if_true, true_and, List.getElem?_modify, Option.map_eq_map]
      by_cases hblock : block = block'
      · simp only [hblock, if_true, Option.map_bind, Function.comp_def]
      · simp only [hblock, Ne.symm hblock, if_false, Option.map_id_fun', id_eq]
    · simp only [hcell, Ne.symm hcell, if_false, false_and]
  · simp only [hrow, Ne.symm hrow, if_false, false_and]

/-- Two changes of one child. -/
theorem modifyChild_modifyChild (f g : Block → Block) (s : Step) (t : Table) :
    (t.modifyChild f s).modifyChild g s = t.modifyChild (g ∘ f) s := by
  simp only [modifyChild, List.modify_modify_eq]
  congr 2
  funext r
  simp only [Function.comp_apply, List.modify_modify_eq]
  congr 2
  funext c
  simp only [Function.comp_apply, List.modify_modify_eq]

/-- A change of a child depends on the child alone. -/
theorem modifyChild_congr {f g : Block → Block} {s : Step} {t : Table}
    (h : ∀ b, t.child? s = some b → f b = g b) : t.modifyChild f s = t.modifyChild g s := by
  rw [modifyChild, modifyChild]
  congr 1
  refine modify_congr fun r hr => ?_
  congr 1
  refine modify_congr fun c hc => ?_
  congr 1
  exact modify_congr fun b hb => h b (child?_eq_some_iff.mpr ⟨r, c, hr, hc, hb⟩)

theorem modifyChild_id (s : Step) (t : Table) : t.modifyChild id s = t := by
  have hcell : (fun c : Cell => ({ c with blocks := c.blocks.modify s.block id } : Cell)) = id := by
    funext c
    rcases c with ⟨properties, blocks⟩
    rw [List.modify_id, id_eq]
  have hrow : (fun r : Row => ({ r with cells := r.cells.modify s.cell id } : Row)) = id := by
    funext r
    rcases r with ⟨properties, cells⟩
    rw [List.modify_id, id_eq]
  rcases t with ⟨properties, rows⟩
  rw [modifyChild, hcell, hrow, List.modify_id]

/-- Changes of two children can be made in either order. -/
theorem modifyChild_comm (f g : Block → Block) {s u : Step} (ne : s ≠ u) (t : Table) :
    (t.modifyChild f s).modifyChild g u = (t.modifyChild g u).modifyChild f s := by
  rcases s with ⟨row, cell, block⟩
  rcases u with ⟨row', cell', block'⟩
  simp only [modifyChild]
  congr 1
  by_cases hrow : row = row'
  · subst hrow
    rw [List.modify_modify_eq, List.modify_modify_eq]
    congr 1
    funext r
    simp only [Function.comp_apply]
    congr 1
    by_cases hcell : cell = cell'
    · subst hcell
      rw [List.modify_modify_eq, List.modify_modify_eq]
      congr 1
      funext c
      simp only [Function.comp_apply]
      congr 1
      refine List.modify_modify_ne f g c.blocks fun hblock => ne ?_
      rw [hblock]
    · exact List.modify_modify_ne _ _ r.cells hcell
  · exact List.modify_modify_ne _ _ t.rows hrow

end Table

namespace Block

theorem modifyAt_nil (f : Block → Block) (b : Block) : b.modifyAt f [] = f b := by
  cases b <;> rfl

theorem modifyAt_table_cons (f : Block → Block) (s : Step) (q : List Step) (t : Table) :
    (table t).modifyAt f (s :: q) = table (t.modifyChild (modifyAt f q) s) := rfl

/-- A change further in is a change at any block on the way there. -/
theorem modifyAt_append (f : Block → Block) (p q : List Step) (b : Block) :
    b.modifyAt f (p ++ q) = b.modifyAt (modifyAt f q) p := by
  induction p generalizing b with
  | nil => rw [List.nil_append, modifyAt_nil]
  | cons s p ih =>
      cases b with
      | paragraph _ => rfl
      | table t =>
          rw [List.cons_append, modifyAt_table_cons, modifyAt_table_cons]
          congr 2
          funext c
          exact ih c

/-- A change that keeps the kind of the block it changes keeps that of all blocks on the way. -/
theorem kind_modifyAt {f : Block → Block} {q : List Step} {b : Block}
    (h : ∀ c, b.at? q = some c → (f c).kind = c.kind) : (b.modifyAt f q).kind = b.kind := by
  cases q with
  | nil =>
      rw [modifyAt_nil]
      exact h b b.at?_nil
  | cons s q => cases b <;> rfl

/-- Two changes at one descent. -/
theorem modifyAt_modifyAt (f g : Block → Block) (p : List Step) (b : Block) :
    (b.modifyAt f p).modifyAt g p = b.modifyAt (g ∘ f) p := by
  induction p generalizing b with
  | nil => simp only [modifyAt_nil, Function.comp_apply]
  | cons s p ih =>
      cases b with
      | paragraph _ => rfl
      | table t =>
          rw [modifyAt_table_cons, modifyAt_table_cons, modifyAt_table_cons,
            Table.modifyChild_modifyChild]
          congr 2
          funext c
          exact ih c

/-- A change depends on the block that the descent leads to. -/
theorem modifyAt_congr {f g : Block → Block} {p : List Step} {b : Block}
    (h : ∀ c, b.at? p = some c → f c = g c) : b.modifyAt f p = b.modifyAt g p := by
  induction p generalizing b with
  | nil =>
      rw [modifyAt_nil, modifyAt_nil]
      exact h b b.at?_nil
  | cons s p ih =>
      cases b with
      | paragraph _ => rfl
      | table t =>
          rw [modifyAt_table_cons, modifyAt_table_cons]
          congr 1
          refine Table.modifyChild_congr fun c hc => ih fun d hd => h d ?_
          rw [at?_table_cons, hc, Option.bind_some, hd]

theorem modifyAt_id (p : List Step) (b : Block) : b.modifyAt id p = b := by
  induction p generalizing b with
  | nil => exact b.modifyAt_nil id
  | cons s p ih =>
      cases b with
      | paragraph _ => rfl
      | table t =>
          rw [modifyAt_table_cons, show modifyAt id p = id from funext ih, Table.modifyChild_id]

/-- Two changes of which neither is further in than the other can be made in either order. -/
theorem modifyAt_comm (f g : Block → Block) {p q : List Step} (ne : p ≠ q)
    (hp : rowInSteps p q = none) (hq : rowInSteps q p = none) (b : Block) :
    (b.modifyAt f p).modifyAt g q = (b.modifyAt g q).modifyAt f p := by
  induction p generalizing q b with
  | nil =>
      cases q with
      | nil => exact absurd rfl ne
      | cons u q => exact absurd hp (by simp only [rowInSteps, reduceCtorEq, not_false_eq_true])
  | cons s p ih =>
      cases q with
      | nil => exact absurd hq (by simp only [rowInSteps, reduceCtorEq, not_false_eq_true])
      | cons u q =>
          cases b with
          | paragraph _ => rfl
          | table t =>
              simp only [modifyAt_table_cons]
              by_cases hsu : s = u
              · -- As far as they go together both are changes of one child.
                subst hsu
                rw [rowInSteps, if_pos rfl] at hp hq
                rw [Table.modifyChild_modifyChild, Table.modifyChild_modifyChild]
                congr 2
                funext c
                exact ih (fun h => ne (by rw [h])) hp hq c
              · rw [Table.modifyChild_comm _ _ hsu]

/-- What stands further in after a change stands there in the block that was changed. -/
theorem at?_modifyAt_append (f : Block → Block) (p q : List Step) (b : Block) :
    (b.modifyAt f p).at? (p ++ q) = (b.at? p).bind fun c => (f c).at? q := by
  induction p generalizing b with
  | nil => rw [List.nil_append, modifyAt_nil, at?_nil, Option.bind_some]
  | cons s p ih =>
      cases b with
      | paragraph _ => rfl
      | table t =>
          rw [List.cons_append, modifyAt_table_cons, at?_table_cons, at?_table_cons,
            Table.child?_modifyChild, if_pos rfl, Option.bind_assoc, Option.bind_map]
          congr 1
          funext c
          exact ih c

/-- A change leaves all that is neither on the way to it nor further in. -/
theorem at?_modifyAt_of_apart (f : Block → Block) {p q : List Step} (ne : p ≠ q)
    (hp : rowInSteps p q = none) (hq : rowInSteps q p = none) (b : Block) :
    (b.modifyAt f p).at? q = b.at? q := by
  induction p generalizing q b with
  | nil =>
      cases q with
      | nil => exact absurd rfl ne
      | cons u q => exact absurd hp (by simp only [rowInSteps, reduceCtorEq, not_false_eq_true])
  | cons s p ih =>
      cases q with
      | nil => exact absurd hq (by simp only [rowInSteps, reduceCtorEq, not_false_eq_true])
      | cons u q =>
          cases b with
          | paragraph _ => rfl
          | table t =>
              rw [modifyAt_table_cons, at?_table_cons, at?_table_cons, Table.child?_modifyChild]
              by_cases hus : u = s
              · -- The way to `q` goes through the child that was changed, and leaves it again.
                subst hus
                rw [rowInSteps, if_pos rfl] at hp hq
                rw [if_pos rfl, Option.bind_map]
                congr 1
                funext c
                exact ih (fun h => ne (by rw [h])) hp hq c
              · rw [if_neg hus]

end Block

/-! ### Changes of bodies -/

variable {blocks : List Block}

theorem tableAt?_eq_some_iff {a : Address} {table : Table} :
    tableAt? blocks a = some table ↔ blockAt? blocks a = some (.table table) := by
  rw [tableAt?, Option.bind_eq_some_iff]
  constructor
  · rintro ⟨b, hb, htable⟩
    cases b with
    | paragraph _ =>
        exact absurd htable (by simp only [Block.table?, reduceCtorEq, not_false_eq_true])
    | table u => rw [hb, Option.some.inj htable]
  · intro h
    exact ⟨_, h, rfl⟩

/-- What stands further in stands there in the block at the address. -/
theorem blockAt?_below (blocks : List Block) (a : Address) (q : List Step) :
    blockAt? blocks ⟨a.root, a.steps ++ q⟩ = (blockAt? blocks a).bind fun b => b.at? q := by
  simp only [blockAt?, Block.at?_append, Option.bind_assoc]

/-- A change further in is a change at any address on the way there. -/
theorem modifyAt_below (f : Block → Block) (a : Address) (q : List Step) (blocks : List Block) :
    modifyAt f ⟨a.root, a.steps ++ q⟩ blocks = modifyAt (Block.modifyAt f q) a blocks := by
  rw [modifyAt, modifyAt]
  congr 1
  funext b
  exact b.modifyAt_append f a.steps q

/-- Two changes at one address. -/
theorem modifyAt_modifyAt (f g : Block → Block) (a : Address) (blocks : List Block) :
    modifyAt g a (modifyAt f a blocks) = modifyAt (g ∘ f) a blocks := by
  rw [modifyAt, modifyAt, modifyAt, List.modify_modify_eq]
  congr 1
  funext b
  exact b.modifyAt_modifyAt f g a.steps

/-- A change depends on the block at the address. -/
theorem modifyAt_congr {f g : Block → Block} {a : Address}
    (h : ∀ b, blockAt? blocks a = some b → f b = g b) :
    modifyAt f a blocks = modifyAt g a blocks :=
  modify_congr fun b hb => Block.modifyAt_congr fun c hc => h c (by
    rw [blockAt?, hb, Option.bind_some, hc])

/-- A change of nothing. -/
theorem modifyAt_eq_self {f : Block → Block} {a : Address}
    (h : ∀ b, blockAt? blocks a = some b → f b = b) : modifyAt f a blocks = blocks := by
  rw [modifyAt_congr (g := id) h, modifyAt, show Block.modifyAt id a.steps = id from
    funext (Block.modifyAt_id a.steps), List.modify_id]

/-- Two changes at addresses of which neither is inside of the other can be made in either
    order. -/
theorem modifyAt_comm (f g : Block → Block) {a b : Address} (ne : a ≠ b)
    (ha : a.rowIn? b = none) (hb : b.rowIn? a = none) (blocks : List Block) :
    modifyAt g b (modifyAt f a blocks) = modifyAt f a (modifyAt g b blocks) := by
  rcases a with ⟨root, p⟩
  rcases b with ⟨root', q⟩
  rw [modifyAt, modifyAt, modifyAt, modifyAt]
  by_cases hroot : root = root'
  · subst hroot
    rw [Address.rowIn?, if_pos rfl] at ha hb
    rw [List.modify_modify_eq, List.modify_modify_eq]
    congr 1
    funext c
    exact c.modifyAt_comm f g (fun h : p = q => ne (by rw [h])) ha hb
  · exact List.modify_modify_ne _ _ blocks hroot

/-- What stands further in after a change stands there in the block that was changed. -/
theorem blockAt?_modifyAt_below (f : Block → Block) (a : Address) (q : List Step)
    (blocks : List Block) : blockAt? (modifyAt f a blocks) ⟨a.root, a.steps ++ q⟩ =
      (blockAt? blocks a).bind fun c => (f c).at? q := by
  rw [blockAt?, blockAt?, modifyAt, bind_getElem?_modify, Option.bind_assoc]
  simp only [if_true, Block.at?_modifyAt_append]

/-- After a change the block on the way to it has changed further in. -/
theorem blockAt?_modifyAt_above (f : Block → Block) (a : Address) (q : List Step)
    (blocks : List Block) : blockAt? (modifyAt f ⟨a.root, a.steps ++ q⟩ blocks) a =
      (blockAt? blocks a).map (Block.modifyAt f q) := by
  have h := blockAt?_modifyAt_below (Block.modifyAt f q) a [] blocks
  rw [List.append_nil] at h
  rw [modifyAt_below, h]
  cases blockAt? blocks a with
  | none => rfl
  | some c => rw [Option.bind_some, Block.at?_nil, Option.map_some]

/-- A change leaves all that is neither on the way to it nor further in. -/
theorem blockAt?_modifyAt_of_apart (f : Block → Block) {a b : Address} (ne : a ≠ b)
    (ha : a.rowIn? b = none) (hb : b.rowIn? a = none) (blocks : List Block) :
    blockAt? (modifyAt f a blocks) b = blockAt? blocks b := by
  rcases a with ⟨root, p⟩
  rcases b with ⟨root', q⟩
  rw [blockAt?, blockAt?, modifyAt, bind_getElem?_modify]
  by_cases hroot : root = root'
  · subst hroot
    rw [Address.rowIn?, if_pos rfl] at ha hb
    simp only [if_true]
    congr 1
    funext c
    exact c.at?_modifyAt_of_apart f (fun h : p = q => ne (by rw [h])) ha hb
  · simp only [hroot, if_false]

end MailMerge
