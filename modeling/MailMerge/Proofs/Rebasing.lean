import Mathlib.Data.List.Sort
import MailMerge.Proofs.Changes
import MailMerge.Proofs.DocumentOrder
import MailMerge.Proofs.FilledTable

/-!
# Rebasing Follows the Blocks

After a table was filled, rebasing says of an address where the block that stood there stands
now. This is about a body before and after a single fill, without anything that would tell two
equal blocks apart: what rebasing promises can be seen by looking blocks up.

An address lies to a table in one of four ways: it is inside of it, it is the table's own, it is
on the way to it, or none of these. Only in the first way is it changed, and then in a
single descent, that in the table itself. So one look at the table shows all that happens:
which rows stay and where, and that the new rows hold one paragraph in each cell. What stands on
the way to the table has changed further in but is of the same kind, and all else is the same.

Rebasing keeps document order. As a body is listed in document order, the list after the fill
has what was rebased in the order of the list before it, with the new rows in between.

## Main definitions

* `Place.rebase`: What becomes of a place.

## Theorems

* `rowIn?_eq_some_iff_exists`: What it is to lie in a row of a table.
* `rebase_below`: Rebasing inside of a table moves the descent in that table.
* `exists_rebase_or_new`: What is no address after rebasing is in a new row.
* `rebase_injective`, `before_rebase`: Rebasing keeps addresses apart and in order.
* `blockAt?_of_rebase`: What stands where rebasing says.
* `isSome_blockAt?_fill_iff`: Where anything stands after a fill.
* `sublist_places_fill`: What stays is listed in the same order.
* `rebase_follows_blocks`: All of this for a table that is filled.
-/

namespace MailMerge

namespace Address

/-! ### Ways to lie to a table -/

variable {t a b a' b' : Address} {inserted : Nat}

theorem rowInSteps_append (p : List Step) (s : Step) (q : List Step) :
    rowInSteps p (p ++ s :: q) = some s.row := by
  induction p with
  | nil => rfl
  | cons u p ih => rw [List.cons_append, rowInSteps, if_pos rfl, ih]

theorem rowInSteps_eq_some_iff {p q : List Step} {row : Nat} :
    rowInSteps p q = some row ↔ ∃ s inner, q = p ++ s :: inner ∧ s.row = row := by
  constructor
  · intro h
    induction p generalizing q with
    | nil =>
        cases q with
        | nil => exact absurd h (by simp only [rowInSteps, reduceCtorEq, not_false_eq_true])
        | cons s inner => exact ⟨s, inner, rfl, Option.some.inj h⟩
    | cons u p ih =>
        cases q with
        | nil => exact absurd h (by simp only [rowInSteps, reduceCtorEq, not_false_eq_true])
        | cons s q =>
            rw [rowInSteps] at h
            split at h
            · next hus =>
                rcases ih h with ⟨v, inner, rfl, hrow⟩
                exact ⟨v, inner, by rw [hus, List.cons_append], hrow⟩
            · exact absurd h (by simp only [reduceCtorEq, not_false_eq_true])
  · rintro ⟨s, inner, rfl, rfl⟩
    exact rowInSteps_append p s inner

/-- To lie in a row of a table is to go on from its address with a descent into that row. -/
theorem rowIn?_eq_some_iff_exists {row : Nat} :
    t.rowIn? a = some row ↔ ∃ s inner, a = ⟨t.root, t.steps ++ s :: inner⟩ ∧ s.row = row := by
  rcases a with ⟨root, steps⟩
  rw [rowIn?_eq_some_iff, rowInSteps_eq_some_iff]
  constructor
  · rintro ⟨rfl, s, inner, rfl, hrow⟩
    exact ⟨s, inner, rfl, hrow⟩
  · rintro ⟨s, inner, h, hrow⟩
    rw [mk.injEq] at h
    exact ⟨h.1, s, inner, h.2, hrow⟩

theorem rowIn?_below (t : Address) (s : Step) (inner : List Step) :
    t.rowIn? ⟨t.root, t.steps ++ s :: inner⟩ = some s.row :=
  rowIn?_eq_some_iff_exists.mpr ⟨s, inner, rfl, rfl⟩

/-! ### Rebasing -/

/-- Inside of a table rebasing moves the descent in that table. -/
theorem rebase_below (t : Address) (inserted : Nat) (s : Step) (inner : List Step) :
    rebase t inserted ⟨t.root, t.steps ++ s :: inner⟩ =
      (s.pushed inserted).map fun s' => ⟨t.root, t.steps ++ s' :: inner⟩ := by
  have hsteps : ∀ p : List Step, rebaseSteps inserted p (p ++ s :: inner) =
      (s.pushed inserted).map fun s' => p ++ s' :: inner := by
    intro p
    induction p with
    | nil => rfl
    | cons u p ih =>
        rw [List.cons_append, rebaseSteps, if_pos rfl, ih, Option.map_map]
        rfl
  rw [rebase_eq, if_pos rfl, hsteps, Option.map_map]
  rfl

/-- What rebasing can do to an address. -/
theorem eq_or_pushed_of_rebase (h : rebase t inserted a = some a') :
    t.rowIn? a = none ∧ a' = a ∨ ∃ s s' inner, a = ⟨t.root, t.steps ++ s :: inner⟩ ∧
      s.pushed inserted = some s' ∧ a' = ⟨t.root, t.steps ++ s' :: inner⟩ := by
  cases hrow : t.rowIn? a with
  | none =>
      rw [rebase_of_rowIn?_eq_none hrow, Option.some.injEq] at h
      exact Or.inl ⟨rfl, h.symm⟩
  | some row =>
      rcases rowIn?_eq_some_iff_exists.mp hrow with ⟨s, inner, rfl, _⟩
      rw [rebase_below] at h
      rcases Option.map_eq_some_iff.mp h with ⟨s', hs, rfl⟩
      exact Or.inr ⟨s, s', inner, rfl, hs, rfl⟩

/-- Every address is what some address comes to be, or it is inside of a new row. -/
theorem exists_rebase_or_new (t : Address) (inserted : Nat) (a' : Address) :
    (∃ a, rebase t inserted a = some a') ∨
      ∃ s inner, a' = ⟨t.root, t.steps ++ s :: inner⟩ ∧ 1 ≤ s.row ∧ s.row ≤ inserted := by
  cases hrow : t.rowIn? a' with
  | none => exact Or.inl ⟨a', rebase_of_rowIn?_eq_none hrow⟩
  | some row =>
      rcases rowIn?_eq_some_iff_exists.mp hrow with ⟨s', inner, rfl, _⟩
      rcases Step.pushed_or_fresh s' with ⟨s, hs⟩ | hnew
      · refine Or.inl ⟨⟨t.root, t.steps ++ s :: inner⟩, ?_⟩
        rw [rebase_below, hs, Option.map_some]
      · exact Or.inr ⟨s', inner, rfl, hnew⟩

/-- Different addresses stay different. -/
theorem rebase_injective (pos : 0 < inserted) (ha : rebase t inserted a = some a')
    (hb : rebase t inserted b = some a') : a = b := by
  rcases eq_or_pushed_of_rebase ha with ⟨harow, rfl⟩ | ⟨s, s', p, rfl, hs, rfl⟩
  · rcases eq_or_pushed_of_rebase hb with ⟨_, h⟩ | ⟨u, u', q, rfl, _, rfl⟩
    · exact h
    · -- What was pushed is still inside of the table, so it is nothing that stayed.
      exact absurd harow (by rw [rowIn?_below]; exact Option.some_ne_none _)
  · rcases eq_or_pushed_of_rebase hb with ⟨hbrow, rfl⟩ | ⟨u, u', q, rfl, hu, h⟩
    · exact absurd hbrow (by rw [rowIn?_below]; exact Option.some_ne_none _)
    · rw [mk.injEq, List.append_cancel_left_eq, List.cons.injEq] at h
      rcases h with ⟨_, rfl, rfl⟩
      rw [Step.pushed_injective pos hs hu]

end Address

/-! ### Document order -/

-- Of the rows that stay, those below the new rows keep their order, and the header
-- stays above them.
theorem Step.before_pushed {inserted : Nat} {s t s' t' : Step} (pos : 0 < inserted)
    (h : s.Before t) (hs : s.pushed inserted = some s') (ht : t.pushed inserted = some t') :
    s'.Before t' := by
  rcases pushed_eq_some_iff.mp hs with ⟨hsrow, rfl⟩
  rcases pushed_eq_some_iff.mp ht with ⟨htrow, rfl⟩
  rcases h with h | ⟨hrow, h⟩
  · refine Or.inl ?_
    simp only
    split <;> split <;> omega
  · refine Or.inr ⟨?_, h⟩
    simp only [hrow]

-- Above the table, the first descent stays.
theorem exists_of_rebaseSteps_cons_cons {inserted : Nat} {t u : Step} {table l l' : List Step}
    (h : rebaseSteps inserted (t :: table) (u :: l) = some l') :
    ∃ m, l' = u :: m ∧
      if t = u then rebaseSteps inserted table l = some m else m = l := by
  rw [rebaseSteps] at h
  split at h
  · next htu =>
      rcases Option.map_eq_some_iff.mp h with ⟨m, hm, rfl⟩
      exact ⟨m, rfl, by rw [if_pos htu, hm]⟩
  · next htu =>
      rw [Option.some.injEq] at h
      exact ⟨l, h.symm, by rw [if_neg htu]⟩

theorem lex_rebaseSteps {inserted : Nat} {table p q p' q' : List Step} (pos : 0 < inserted)
    (h : List.Lex Step.Before p q) (hp : rebaseSteps inserted table p = some p')
    (hq : rebaseSteps inserted table q = some q') : List.Lex Step.Before p' q' := by
  induction table generalizing p q p' q' with
  | nil =>
      cases h with
      | nil =>
          rw [rebaseSteps, Option.some.injEq] at hp
          rcases Option.map_eq_some_iff.mp hq with ⟨u', _, rfl⟩
          rw [← hp]
          exact List.Lex.nil
      | cons h =>
          rcases Option.map_eq_some_iff.mp hp with ⟨s', hs, rfl⟩
          rcases Option.map_eq_some_iff.mp hq with ⟨u', hu, rfl⟩
          rw [hs, Option.some.injEq] at hu
          rw [hu]
          exact List.Lex.cons h
      | rel h =>
          -- The two part in the filled table, the only place where rows are pushed.
          rcases Option.map_eq_some_iff.mp hp with ⟨s', hs, rfl⟩
          rcases Option.map_eq_some_iff.mp hq with ⟨u', hu, rfl⟩
          exact List.Lex.rel (Step.before_pushed pos h hs hu)
  | cons t table ih =>
      cases h with
      | nil =>
          rw [rebaseSteps, Option.some.injEq] at hp
          rcases exists_of_rebaseSteps_cons_cons hq with ⟨m, rfl, _⟩
          rw [← hp]
          exact List.Lex.nil
      | cons h =>
          rcases exists_of_rebaseSteps_cons_cons hp with ⟨l, rfl, hl⟩
          rcases exists_of_rebaseSteps_cons_cons hq with ⟨m, rfl, hm⟩
          refine List.Lex.cons ?_
          split at hl
          · next htu =>
              rw [if_pos htu] at hm
              exact ih h hl hm
          · next htu =>
              rw [if_neg htu] at hm
              rw [hl, hm]
              exact h
      | rel h =>
          rcases exists_of_rebaseSteps_cons_cons hp with ⟨l, rfl, _⟩
          rcases exists_of_rebaseSteps_cons_cons hq with ⟨m, rfl, _⟩
          exact List.Lex.rel h

namespace Address

/-- Rebasing keeps document order. -/
theorem before_rebase {t a b a' b' : Address} {inserted : Nat} (pos : 0 < inserted)
    (h : a.Before b) (ha : rebase t inserted a = some a') (hb : rebase t inserted b = some b') :
    a'.Before b' := by
  rcases rebase_eq_some_iff.mp ha with ⟨haroot, ha⟩
  rcases rebase_eq_some_iff.mp hb with ⟨hbroot, hb⟩
  rcases h with h | ⟨hroot, h⟩
  · exact Or.inl (by rwa [haroot, hbroot])
  · refine Or.inr ⟨by rw [haroot, hbroot, hroot], ?_⟩
    rw [hroot] at ha
    split at ha
    · next htroot =>
        rw [if_pos htroot] at hb
        exact lex_rebaseSteps pos h ha hb
    · next htroot =>
        rw [if_neg htroot] at hb
        rw [ha, hb]
        exact h

end Address

/-! ### The filled table -/

namespace Table

variable {options : Options} {elements : List Element} {table filled : Table}

theorem Template.length_cells_of_ofRow_eq_ok {known : List String} {row : Row} {t : Template}
    (h : Template.ofRow known row = .ok t) : t.cells.length = row.cells.length := by
  simp only [Template.ofRow] at h
  split at h
  · exact absurd h (by simp only [reduceCtorEq, not_false_eq_true])
  · split at h
    · exact absurd h (by simp only [reduceCtorEq, not_false_eq_true])
    · rw [Except.ok.injEq] at h
      rw [← h, List.length_zip, List.length_map, length_columnsOf, Nat.min_self]

-- What is needed here of the template is how many cells its rows have.
theorem rows_of_fill (h : fill options elements table = .filled filled) :
    0 < elements.length ∧ ∃ header templateRow rest, ∃ t : Template,
      table.rows = header :: templateRow :: rest ∧ t.cells.length = templateRow.cells.length ∧
        filled.rows = header :: (elements.map (t.row options)).reverse ++ rest := by
  rcases exists_of_fill h with ⟨first, later, header, templateRow, rest, t, rfl, hrows, ht, rfl⟩
  exact ⟨Nat.succ_pos _, header, templateRow, rest, t, hrows,
    Template.length_cells_of_ofRow_eq_ok ht, rfl⟩

/-- The rows that stay are found where they were pushed to. -/
theorem child?_fill_of_pushed (h : fill options elements table = .filled filled) {s s' : Step}
    (hs : s.pushed elements.length = some s') : filled.child? s' = table.child? s := by
  rcases rows_of_fill h with ⟨_, header, templateRow, rest, t, hrows, _, hrows'⟩
  have hlen : (elements.map (t.row options)).reverse.length = elements.length := by
    rw [List.length_reverse, List.length_map]
  have hrow := Step.getElem?_of_pushed hs header templateRow hlen rest
  rcases Step.pushed_eq_some_iff.mp hs with ⟨_, rfl⟩
  rw [child?, child?, hrows, hrows', hrow]

/-- Between the header and the rows below there are the new rows. -/
theorem exists_getElem?_of_le (header : Row) {new : List Row} (rest : List Row) {k : Nat}
    (pos : 1 ≤ k) (le : k ≤ new.length) :
    ∃ row ∈ new, (header :: new ++ rest)[k]? = some row := by
  have hlt : k - 1 < new.length := by omega
  refine ⟨new[k - 1], List.getElem_mem hlt, ?_⟩
  rw [List.cons_append, List.getElem?_cons, if_neg (by omega), List.getElem?_append_left hlt,
    List.getElem?_eq_getElem hlt]

/-- In a row that an element gives each cell holds one paragraph and nothing else. -/
theorem isSome_at?_of_row {t : Template} {e : Element} {s : Step}
    (h : table.rows[s.row]? = some (t.row options e)) (inner : List Step) :
    ((table.child? s).bind fun b => b.at? inner).isSome ↔
      s.cell < t.cells.length ∧ s.block = 0 ∧ inner = [] := by
  rcases s with ⟨row, cell, block⟩
  simp only at h
  simp only [child?, h, Option.bind_eq_bind, Option.bind_some, Template.row, List.getElem?_map]
  cases hcell : t.cells[cell]? with
  | none =>
      rw [List.getElem?_eq_none_iff] at hcell
      simp only [Option.map_none, Option.bind_none, Option.isSome_none, Bool.false_eq_true,
        false_iff]
      omega
  | some x =>
      have hlt : cell < t.cells.length := (List.getElem?_eq_some_iff.mp hcell).1
      simp only [Option.map_some, Option.bind_some, Cell.ofText, hlt, true_and]
      rcases block with _ | block
      · cases inner with
        | nil => simp only [List.getElem?_cons_zero, Option.bind_some, Block.at?_nil,
            Option.isSome_some, and_self]
        | cons u inner => simp only [List.getElem?_cons_zero, Option.bind_some, Block.at?,
            Option.isSome_none, Bool.false_eq_true, reduceCtorEq, and_false]
      · simp only [List.getElem?_cons_succ, List.getElem?_nil, Option.bind_none, Option.isSome_none,
          Bool.false_eq_true, Nat.succ_ne_zero, false_and]

end Table

/-! ### The body after a fill -/

section

variable {options : Options} {elements : List Element} {blocks : List Block} {t p p' : Address}
  {table filled : Table}

/-- What stands where rebasing says is the block that stood there before. Only on the way to the
    table that was filled it has changed, further in. -/
theorem blockAt?_of_rebase (at_t : tableAt? blocks t = some table)
    (hfill : Table.fill options elements table = .filled filled)
    (h : Address.rebase t elements.length p = some p') :
    ∃ g : Block → Block,
      blockAt? (modifyAt (fun _ => .table filled) t blocks) p' = (blockAt? blocks p).map g ∧
        (∀ b, blockAt? blocks p = some b → (g b).kind = b.kind) ∧
          (p ≠ t → p.rowIn? t = none → g = id) := by
  rw [tableAt?_eq_some_iff] at at_t
  rcases Address.eq_or_pushed_of_rebase h with ⟨hrow, rfl⟩ | ⟨s, s', inner, rfl, hs, rfl⟩
  · by_cases hleads : p' = t ∨ (p'.rowIn? t).isSome
    · -- The table itself, or one that it is in.
      obtain ⟨q, rfl⟩ : ∃ q, t = ⟨p'.root, p'.steps ++ q⟩ := by
        rcases hleads with rfl | hin
        · exact ⟨[], by rw [List.append_nil]⟩
        · rcases Option.isSome_iff_exists.mp hin with ⟨row, hrow⟩
          rcases Address.rowIn?_eq_some_iff_exists.mp hrow with ⟨s, inner, ht, _⟩
          exact ⟨s :: inner, ht⟩
      refine ⟨Block.modifyAt (fun _ => .table filled) q, blockAt?_modifyAt_above _ _ _ _,
        fun b hb => Block.kind_modifyAt fun c hc => ?_, fun hne hnone => ?_⟩
      · rw [blockAt?_below, hb, Option.bind_some, hc, Option.some.injEq] at at_t
        rw [at_t]
        rfl
      · rw [hnone] at hleads
        simp only [hne, Option.isSome_none, Bool.false_eq_true, or_self] at hleads
    · -- Neither on the way to the table nor inside of it.
      rw [not_or, Option.not_isSome_iff_eq_none] at hleads
      refine ⟨id, ?_, fun _ _ => rfl, fun _ _ => rfl⟩
      rw [blockAt?_modifyAt_of_apart _ (Ne.symm hleads.1) hrow hleads.2, Option.map_id, id_eq]
  · -- Inside of the table, in a row that was pushed.
    refine ⟨id, ?_, fun _ _ => rfl, fun _ _ => rfl⟩
    rw [blockAt?_modifyAt_below, blockAt?_below, at_t, Option.bind_some, Option.bind_some,
      Block.at?_table_cons, Block.at?_table_cons, Table.child?_fill_of_pushed hfill hs,
      Option.map_id, id_eq]

theorem isSome_blockAt?_of_rebase (at_t : tableAt? blocks t = some table)
    (hfill : Table.fill options elements table = .filled filled)
    (h : Address.rebase t elements.length p = some p') :
    (blockAt? (modifyAt (fun _ => .table filled) t blocks) p').isSome =
      (blockAt? blocks p).isSome := by
  rcases blockAt?_of_rebase at_t hfill h with ⟨g, hg, _⟩
  rw [hg, Option.isSome_map]

/-- Where anything stands after a fill: what was there stands where rebasing says, and each cell
    of a new row holds one block. -/
theorem isSome_blockAt?_fill_iff (at_t : tableAt? blocks t = some table)
    (hfill : Table.fill options elements table = .filled filled) :
    ∃ template, table.rows[1]? = some template ∧ ∀ q,
      (blockAt? (modifyAt (fun _ => .table filled) t blocks) q).isSome ↔
        (∃ p, (blockAt? blocks p).isSome ∧ Address.rebase t elements.length p = some q) ∨
          ∃ row cell, 1 ≤ row ∧ row ≤ elements.length ∧ cell < template.cells.length ∧
            q = t.child ⟨row, cell, 0⟩ := by
  rcases Table.rows_of_fill hfill with ⟨_, header, template, rest, u, hrows, hlen, hrows'⟩
  have at_t' := tableAt?_eq_some_iff.mp at_t
  -- What stands in a new row.
  have hnew : ∀ s inner, 1 ≤ s.row → s.row ≤ elements.length →
      ((blockAt? (modifyAt (fun _ => .table filled) t blocks)
        ⟨t.root, t.steps ++ s :: inner⟩).isSome ↔
          s.cell < template.cells.length ∧ s.block = 0 ∧ inner = []) := by
    intro s inner hpos hle
    have hle' : s.row ≤ (elements.map (u.row options)).reverse.length := by
      rwa [List.length_reverse, List.length_map]
    rcases Table.exists_getElem?_of_le header rest hpos hle' with ⟨row, hmem, hrow⟩
    rcases List.mem_map.mp (List.mem_reverse.mp hmem) with ⟨e, _, rfl⟩
    rw [← hrows'] at hrow
    rw [blockAt?_modifyAt_below, at_t', Option.bind_some, Block.at?_table_cons,
      Table.isSome_at?_of_row hrow, hlen]
  refine ⟨template, by rw [hrows]; rfl, fun q => ⟨fun hq => ?_, fun h => ?_⟩⟩
  · rcases Address.exists_rebase_or_new t elements.length q with
      ⟨p, hp⟩ | ⟨⟨row, cell, block⟩, inner, rfl, hpos, hle⟩
    · exact Or.inl ⟨p, by rw [← isSome_blockAt?_of_rebase at_t hfill hp, hq], hp⟩
    · rcases (hnew _ inner hpos hle).mp hq with ⟨hcell, hblock, rfl⟩
      simp only at hblock
      subst hblock
      exact Or.inr ⟨row, cell, hpos, hle, hcell, rfl⟩
  · rcases h with ⟨p, hp, hq⟩ | ⟨row, cell, hpos, hle, hcell, rfl⟩
    · rw [isSome_blockAt?_of_rebase at_t hfill hq, hp]
    · exact (hnew ⟨row, cell, 0⟩ [] hpos hle).mpr ⟨hcell, rfl, rfl⟩

/-! ### Document order after a fill -/

/-- What becomes of a place when the table at an address gets rows. -/
def Place.rebase (t : Address) (inserted : Nat) (place : Place) : Option Place :=
  (Address.rebase t inserted place.address).map fun a => ⟨a, place.kind⟩

/-- What stays is listed in the order in which it was listed before. -/
theorem sublist_places_fill (at_t : tableAt? blocks t = some table)
    (hfill : Table.fill options elements table = .filled filled) :
    ((places blocks).filterMap (Place.rebase t elements.length)).Sublist
      (places (modifyAt (fun _ => .table filled) t blocks)) := by
  have pos := (Table.rows_of_fill hfill).1
  have hsub : (places blocks).filterMap (Place.rebase t elements.length) ⊆
      places (modifyAt (fun _ => .table filled) t blocks) := by
    intro place' hmem
    rcases List.mem_filterMap.mp hmem with ⟨place, hplace, hrebase⟩
    rcases Option.map_eq_some_iff.mp hrebase with ⟨a', ha', rfl⟩
    rcases Option.map_eq_some_iff.mp (mem_places_iff.mp hplace) with ⟨b, hb, hkind⟩
    rcases blockAt?_of_rebase at_t hfill ha' with ⟨g, hg, hgkind, _⟩
    rw [mem_places_iff, hg, hb, Option.map_some, Option.map_some, hgkind b hb, hkind]
  have hpairwise : ((places blocks).filterMap (Place.rebase t elements.length)).Pairwise
      fun x y => x.address.Before y.address := by
    refine List.Pairwise.filterMap _ (fun x y hxy x' hx' y' hy' => ?_) (pairwise_places blocks)
    rcases Option.map_eq_some_iff.mp hx' with ⟨a, ha, rfl⟩
    rcases Option.map_eq_some_iff.mp hy' with ⟨b, hb, rfl⟩
    exact Address.before_rebase pos hxy ha hb
  -- Two lists in document order, of which one holds all that the other does.
  have : Std.Antisymm fun x y : Place => x.address.Before y.address :=
    ⟨fun x y hxy hyx => absurd hyx (Address.before_asymm hxy)⟩
  exact List.sublist_of_subperm_of_pairwise
    (List.subperm_of_subset (hpairwise.imp fun h heq => h.ne (by rw [heq])) hsub) hpairwise
    (pairwise_places _)

/-- Rebasing follows the blocks through a fill.

    Lost is exactly what lies in row 1 of the table. Anything else stands where rebasing says and
    is of the same kind, and it is the same block unless it is the table or a table around it.
    Different addresses stay different, and none comes to lie in a new row. After the fill blocks
    stand where rebasing says that one stands, and there is one in each cell of a new row, and
    that is all. What stays is listed in the order in which it was listed before. -/
theorem rebase_follows_blocks (at_t : tableAt? blocks t = some table)
    (hfill : Table.fill options elements table = .filled filled) :
    let after := modifyAt (fun _ => .table filled) t blocks
    let moved := Address.rebase t elements.length
    (∀ p, moved p = none ↔ t.rowIn? p = some 1) ∧
      (∀ p p' b, blockAt? blocks p = some b → moved p = some p' →
        ∃ b', blockAt? after p' = some b' ∧ b'.kind = b.kind ∧
          (p ≠ t → p.rowIn? t = none → b' = b)) ∧
      (∀ p q u, moved p = some u → moved q = some u → p = q) ∧
      (∀ p u row, moved p = some u → t.rowIn? u = some row → row = 0 ∨ elements.length < row) ∧
      (∃ template, table.rows[1]? = some template ∧ ∀ q, (blockAt? after q).isSome ↔
        (∃ p, (blockAt? blocks p).isSome ∧ moved p = some q) ∨
          ∃ row cell, 1 ≤ row ∧ row ≤ elements.length ∧ cell < template.cells.length ∧
            q = t.child ⟨row, cell, 0⟩) ∧
      ((places blocks).filterMap (Place.rebase t elements.length)).Sublist (places after) := by
  have pos := (Table.rows_of_fill hfill).1
  refine ⟨fun p => Address.rebase_eq_none_iff, fun p p' b hb hp => ?_,
    fun p q u => Address.rebase_injective pos, fun p u row hp hrow => ?_,
    isSome_blockAt?_fill_iff at_t hfill, sublist_places_fill at_t hfill⟩
  · rcases blockAt?_of_rebase at_t hfill hp with ⟨g, hg, hkind, hid⟩
    refine ⟨g b, by rw [hg, hb, Option.map_some], hkind b hb, fun hne hnone => ?_⟩
    rw [hid hne hnone, id_eq]
  · rcases Address.eq_or_pushed_of_rebase hp with ⟨hnone, rfl⟩ | ⟨s, s', inner, _, hs, rfl⟩
    · rw [hnone] at hrow
      exact absurd hrow (Option.some_ne_none row).symm
    · rw [Address.rowIn?_below, Option.some.injEq] at hrow
      exact hrow ▸ Step.row_of_pushed hs

end

/-- A table inside of a table, in each row of the outer one. -/
def nestedRows : List Row :=
  let inner (s : String) : Block := .table ⟨∅, [.ofTexts [s]]⟩
  [⟨∅, [⟨∅, [.paragraph (.ofText "Name"), inner "head"]⟩]⟩,
    ⟨∅, [⟨∅, [.paragraph (.ofText "./Name"), inner "template"]⟩]⟩,
    ⟨∅, [⟨∅, [.paragraph (.ofText "sum"), inner "foot"]⟩]⟩]

/-- The tables in the header and in the last row are found again after two rows came in, and
    the one in the template row is lost. -/
theorem rebase_follows_nestedRows :
    let people : List Element := ["Ann", "Bo", "Cy"].map fun s =>
      ⟨"Person", [.element ⟨"Name", [.text s]⟩]⟩
    let body : List Block := [.paragraph (.ofText "List"), .table ⟨∅, nestedRows⟩]
    ∃ filled, Table.fill .default people ⟨∅, nestedRows⟩ = .filled filled ∧
      let after := modifyAt (fun _ => .table filled) ⟨1, []⟩ body
      blockAt? after ⟨1, [⟨0, 0, 1⟩]⟩ = some (.table ⟨∅, [.ofTexts ["head"]]⟩) ∧
        blockAt? after ⟨1, [⟨4, 0, 1⟩]⟩ = some (.table ⟨∅, [.ofTexts ["foot"]]⟩) ∧
        Address.rebase ⟨1, []⟩ 3 ⟨1, [⟨1, 0, 1⟩]⟩ = none ∧
        (blockAt? after ⟨1, [⟨3, 0, 0⟩]⟩).isSome ∧ ¬ (blockAt? after ⟨1, [⟨3, 0, 1⟩]⟩).isSome := by
  intro people body
  obtain ⟨filled, hfill⟩ : ∃ filled,
      Table.fill .default people ⟨∅, nestedRows⟩ = .filled filled := ⟨_, rfl⟩
  rcases @rebase_follows_blocks .default people body ⟨1, []⟩ _ _ rfl hfill with
    ⟨hlost, hstay, _, hapart, ⟨template, htemplate, hall⟩, _⟩
  rcases hstay ⟨1, [⟨0, 0, 1⟩]⟩ _ _ rfl rfl with ⟨head, hhead, _, hheadeq⟩
  rcases hstay ⟨1, [⟨2, 0, 1⟩]⟩ _ _ rfl rfl with ⟨foot, hfoot, _, hfooteq⟩
  rw [hheadeq (by decide) (by decide)] at hhead
  rw [hfooteq (by decide) (by decide)] at hfoot
  refine ⟨filled, hfill, hhead, hfoot, (hlost _).mpr (by decide), (hall _).mpr ?_, fun h => ?_⟩
  · rw [← Option.some.inj htemplate]
    exact Or.inr ⟨3, 0, by decide, by decide, by decide, rfl⟩
  · rcases (hall _).mp h with ⟨p, _, hp⟩ | ⟨row, cell, _, _, _, hq⟩
    · exact absurd (hapart p _ 3 hp (by decide)) (by decide)
    · rw [Address.child, Address.mk.injEq, List.nil_append, List.cons.injEq, Step.mk.injEq] at hq
      exact absurd hq.2.1.2.2 Nat.one_ne_zero

end MailMerge
