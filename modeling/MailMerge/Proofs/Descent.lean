import Mathlib.Data.List.Lex
import MailMerge.Merge.TablePass

/-!
# Descents

How addresses lie to each other, and what filling a table does to that.

An address lies in some row of a table when it goes on from the table's own
address, and the row is then that of its next descent. `rowIn?` reads it off, and
everything that a fill does to an address depends on it alone: an address in no
row of the table stays, and one in row 1 is lost.

Fills are made one after the other, so what matters in the end is how two
addresses lie to each other after many of them. The answer is that nothing
changes that anyone could ask for. An address is inside a table afterwards only
if it was before, and in its row 1 afterwards exactly if it was before: the rows
further down are pushed down, but never up to where the template row was, as a
fill puts in one row at least.

Document order is lexicographic, and a table comes before all that is inside of
it. So a table that comes after a paragraph does not contain it.

## Main definitions

* `Address.rowIn?`: The row of a table in which an address lies.
* `Step.pushed`: A descent after the rows of its table were pushed down.
* `rebaseSteps`: Rebasing, descent by descent.
* `Address.Before`: Document order.

## Theorems

* `rebase_eq`: Rebasing compares the two addresses descent by descent.
* `rebase_eq_none_iff`: What is lost is what lies in row 1.
* `rowIn?_rebase`: How two addresses lie to each other after a fill.
* `Shift.rowIn?_follow`: Fills bring nothing into row 1 and nothing out.
* `pairwise_places`: The places of a body are listed in document order.
* `rowIn?_eq_none_of_before`: What comes before a table is not inside of it.
-/

namespace MailMerge

namespace Step

/-- A descent after the template row of its table was replaced by `inserted`
    rows, if it does not lead into that row. -/
def pushed (inserted : Nat) (s : Step) : Option Step :=
  if s.row = 1 then none
  else some { s with row := if s.row = 0 then 0 else s.row - 1 + inserted }

theorem pushed_eq_none_iff {inserted : Nat} {s : Step} : s.pushed inserted = none ↔ s.row = 1 := by
  by_cases h : s.row = 1
  · simp only [pushed, h, if_true]
  · simp only [pushed, h, if_false, reduceCtorEq]

theorem pushed_eq_some_iff {inserted : Nat} {s s' : Step} :
    s.pushed inserted = some s' ↔
      s.row ≠ 1 ∧ { s with row := if s.row = 0 then 0 else s.row - 1 + inserted } = s' := by
  by_cases h : s.row = 1
  · simp only [pushed, h, if_true, reduceCtorEq, ne_eq, not_true_eq_false, false_and]
  · simp only [pushed, h, if_false, Option.some.injEq, ne_eq, not_false_eq_true, true_and]

-- The rows below go down by at least none, so none of them reaches row 0, and they
-- keep apart from each other.
theorem pushed_injective {inserted : Nat} {s t u : Step} (pos : 0 < inserted)
    (hs : s.pushed inserted = some u) (ht : t.pushed inserted = some u) : s = t := by
  rcases pushed_eq_some_iff.mp hs with ⟨hsrow, rfl⟩
  rcases pushed_eq_some_iff.mp ht with ⟨htrow, h⟩
  simp only [mk.injEq] at h
  rcases h with ⟨hrow, hcell, hblock⟩
  have hrows : s.row = t.row := by
    split at hrow <;> split at hrow <;> omega
  cases s
  cases t
  simp only at hrows hcell hblock
  rw [hrows, hcell, hblock]

/-- A descent into a filled table leads into a row that stays, or into a new row. -/
theorem pushed_or_fresh {inserted : Nat} (s' : Step) :
    (∃ s : Step, s.pushed inserted = some s') ∨ 0 < s'.row ∧ s'.row ≤ inserted := by
  by_cases hzero : s'.row = 0
  · refine Or.inl ⟨s', pushed_eq_some_iff.mpr ⟨by omega, ?_⟩⟩
    rw [if_pos hzero, ← hzero]
  · by_cases hle : s'.row ≤ inserted
    · exact Or.inr ⟨by omega, hle⟩
    · refine Or.inl ⟨{ s' with row := s'.row - inserted + 1 }, pushed_eq_some_iff.mpr ⟨?_, ?_⟩⟩
      · simp only
        omega
      · simp only [Nat.succ_ne_zero, if_false, Nat.add_sub_cancel]
        rw [Nat.sub_add_cancel (by omega)]

/-- No row that stays comes to be where a new row is. -/
theorem row_of_pushed {inserted : Nat} {s s' : Step} (h : s.pushed inserted = some s') :
    s'.row = 0 ∨ inserted < s'.row := by
  rcases pushed_eq_some_iff.mp h with ⟨hrow, rfl⟩
  simp only
  split <;> omega

/-- The rows that stay are found where they were pushed to. -/
theorem getElem?_of_pushed {α : Type} {inserted : Nat} {s s' : Step}
    (h : s.pushed inserted = some s') (header template : α) {fresh : List α}
    (hlen : fresh.length = inserted) (rest : List α) :
    (header :: fresh ++ rest)[s'.row]? = (header :: template :: rest)[s.row]? := by
  rcases pushed_eq_some_iff.mp h with ⟨hone, rfl⟩
  rcases s with ⟨row, cell, block⟩
  simp only at hone ⊢
  rcases row with _ | _ | row
  · rfl
  · exact absurd rfl hone
  · -- Below the template row it goes past the header and all new rows.
    rw [if_neg (by omega), show row + 1 + 1 - 1 + inserted = row + inserted + 1 by omega,
      List.cons_append, List.getElem?_cons_succ,
      List.getElem?_append_right (by rw [hlen]; exact Nat.le_add_left _ _), hlen,
      Nat.add_sub_cancel, List.getElem?_cons_succ, List.getElem?_cons_succ]

/-- Document order inside of a table. -/
def Before (s t : Step) : Prop :=
  s.row < t.row ∨ s.row = t.row ∧ (s.cell < t.cell ∨ s.cell = t.cell ∧ s.block < t.block)

theorem Before.ne {s t : Step} (h : s.Before t) : t ≠ s := by
  rintro rfl
  unfold Before at h
  omega

end Step

/-- Rebasing the descents of an address, those of the filled table first. -/
def rebaseSteps (inserted : Nat) : List Step → List Step → Option (List Step)
  | [], [] => some []
  | [], s :: inner => (s.pushed inserted).map fun s => s :: inner
  | _ :: _, [] => some []
  | t :: table, s :: steps =>
      if t = s then (rebaseSteps inserted table steps).map fun steps => s :: steps
      else some (s :: steps)

/-- The row in which some descents go on from those of a table. -/
def rowInSteps : List Step → List Step → Option Nat
  | [], [] => none
  | [], s :: _ => some s.row
  | _ :: _, [] => none
  | t :: table, s :: steps => if t = s then rowInSteps table steps else none

namespace Address

/-- The row of the table at `table` in which an address lies, if it lies inside
    of that table. -/
def rowIn? (table a : Address) : Option Nat :=
  if a.root = table.root then rowInSteps table.steps a.steps else none

end Address

-- Both functions take one descent off each list for as long as they agree, so here
-- and below the induction is on the descents of the table, for all addresses at once.
theorem rebaseSteps_eq_none_iff {inserted : Nat} {table steps : List Step} :
    rebaseSteps inserted table steps = none ↔ rowInSteps table steps = some 1 := by
  induction table generalizing steps with
  | nil =>
      cases steps with
      | nil => simp only [rebaseSteps, rowInSteps, reduceCtorEq]
      | cons s inner =>
          simp only [rebaseSteps, rowInSteps, Option.map_eq_none_iff, Step.pushed_eq_none_iff,
            Option.some.injEq]
  | cons t table ih =>
      cases steps with
      | nil => simp only [rebaseSteps, rowInSteps, reduceCtorEq]
      | cons s steps =>
          by_cases h : t = s
          · simp only [rebaseSteps, rowInSteps, h, if_true, Option.map_eq_none_iff, ih]
          · simp only [rebaseSteps, rowInSteps, h, if_false, reduceCtorEq]

theorem rebaseSteps_of_rowInSteps_eq_none {inserted : Nat} {table steps : List Step}
    (h : rowInSteps table steps = none) : rebaseSteps inserted table steps = some steps := by
  induction table generalizing steps with
  | nil =>
      cases steps with
      | nil => rfl
      | cons s inner => exact absurd h (by simp only [rowInSteps, reduceCtorEq, not_false_eq_true])
  | cons t table ih =>
      cases steps with
      | nil => rfl
      | cons s steps =>
          by_cases hts : t = s
          · rw [rowInSteps, if_pos hts] at h
            rw [rebaseSteps, if_pos hts, ih h, Option.map_some]
          · rw [rebaseSteps, if_neg hts]

-- At most one descent is changed, and none is put in or taken out.
theorem length_of_rebaseSteps {inserted : Nat} {table steps steps' : List Step}
    (h : rebaseSteps inserted table steps = some steps') : steps'.length = steps.length := by
  induction table generalizing steps steps' with
  | nil =>
      cases steps with
      | nil =>
          rw [rebaseSteps, Option.some.injEq] at h
          rw [← h]
      | cons s inner =>
          rcases Option.map_eq_some_iff.mp h with ⟨s', _, rfl⟩
          rfl
  | cons t table ih =>
      cases steps with
      | nil =>
          rw [rebaseSteps, Option.some.injEq] at h
          rw [← h]
      | cons s steps =>
          rw [rebaseSteps] at h
          split at h
          · rcases Option.map_eq_some_iff.mp h with ⟨rest, hrest, rfl⟩
            rw [List.length_cons, List.length_cons, ih hrest]
          · rw [Option.some.injEq] at h
            rw [← h]

theorem rebaseSteps_eq_some_nil_iff {inserted : Nat} {table steps : List Step} :
    rebaseSteps inserted table steps = some [] ↔ steps = [] := by
  constructor
  · intro h
    exact List.eq_nil_of_length_eq_zero (length_of_rebaseSteps h).symm
  · rintro rfl
    cases table <;> rfl

/-- What descents come to be when the first of them leads towards the filled table. -/
theorem rebaseSteps_cons_eq_some_iff {inserted : Nat} {t u : Step} {table q q' : List Step} :
    rebaseSteps inserted (t :: table) q = some (u :: q') ↔ ∃ rest, q = u :: rest ∧
      if u = t then rebaseSteps inserted table rest = some q' else rest = q' := by
  cases q with
  | nil => simp only [rebaseSteps, Option.some.injEq, reduceCtorEq, false_and, exists_false]
  | cons s rest =>
      rw [rebaseSteps]
      by_cases hts : t = s
      · rw [if_pos hts, Option.map_eq_some_iff]
        constructor
        · intro h'
          rcases h' with ⟨steps, hsteps, hcons⟩
          rcases List.cons.inj hcons with ⟨rfl, rfl⟩
          refine ⟨rest, rfl, ?_⟩
          rw [if_pos hts.symm]
          exact hsteps
        · intro h'
          rcases h' with ⟨steps, hcons, h⟩
          rcases List.cons.inj hcons with ⟨rfl, rfl⟩
          rw [if_pos hts.symm] at h
          exact ⟨q', h, rfl⟩
      · rw [if_neg hts, Option.some.injEq]
        constructor
        · intro hcons
          rcases List.cons.inj hcons with ⟨rfl, rfl⟩
          refine ⟨rest, rfl, ?_⟩
          rw [if_neg (Ne.symm hts)]
        · intro h'
          rcases h' with ⟨steps, hcons, h⟩
          rcases List.cons.inj hcons with ⟨rfl, rfl⟩
          rw [if_neg (Ne.symm hts)] at h
          rw [h]

/-- How two lists of descents go on from each other after a fill. Only below the
    filled table itself are rows counted anew. -/
theorem rowInSteps_rebaseSteps {inserted : Nat} (pos : 0 < inserted)
    {table a b a' b' : List Step} (ha : rebaseSteps inserted table a = some a')
    (hb : rebaseSteps inserted table b = some b') :
    rowInSteps b' a' = if b = table
      then (rowInSteps b a).map fun row => if row = 0 then 0 else row - 1 + inserted
      else rowInSteps b a := by
  induction table generalizing a b a' b' with
  | nil =>
      cases b with
      | nil =>
          -- `b` is the filled table.
          rw [rebaseSteps, Option.some.injEq] at hb
          subst hb
          cases a with
          | nil =>
              rw [rebaseSteps, Option.some.injEq] at ha
              rw [← ha]
              rfl
          | cons s inner =>
              rcases Option.map_eq_some_iff.mp ha with ⟨s', hs, rfl⟩
              rcases Step.pushed_eq_some_iff.mp hs with ⟨_, rfl⟩
              rfl
      | cons t inner' =>
          -- `b` is inside of the filled table, and only its first descent is pushed.
          rcases Option.map_eq_some_iff.mp hb with ⟨t', ht, rfl⟩
          rw [if_neg (List.cons_ne_nil t inner')]
          cases a with
          | nil =>
              rw [rebaseSteps, Option.some.injEq] at ha
              rw [← ha]
              rfl
          | cons s inner =>
              rcases Option.map_eq_some_iff.mp ha with ⟨s', hs, rfl⟩
              -- The first descents agree afterwards exactly if they did before.
              by_cases hts : t = s
              · have hts' : t' = s' := by
                  rw [hts, hs, Option.some.injEq] at ht
                  exact ht.symm
                rw [rowInSteps, rowInSteps, if_pos hts, if_pos hts']
              · have hts' : t' ≠ s' := by
                  rintro rfl
                  exact hts (Step.pushed_injective pos ht hs)
                rw [rowInSteps, rowInSteps, if_neg hts, if_neg hts']
  | cons u table ih =>
      cases b with
      | nil =>
          -- `b` contains the filled table, so it sees the first descent of `a`, which stays.
          rw [rebaseSteps, Option.some.injEq] at hb
          subst hb
          rw [if_neg (List.cons_ne_nil u table).symm]
          cases a with
          | nil =>
              rw [rebaseSteps, Option.some.injEq] at ha
              rw [← ha]
          | cons s steps =>
              rw [rebaseSteps] at ha
              split at ha
              · rcases Option.map_eq_some_iff.mp ha with ⟨steps', _, rfl⟩
                rfl
              · rw [Option.some.injEq] at ha
                rw [← ha]
      | cons t inner =>
          cases a with
          | nil =>
              rw [rebaseSteps, Option.some.injEq] at ha
              have hb' : b' ≠ [] := by
                rintro rfl
                have hlen := length_of_rebaseSteps hb
                rw [List.length_nil, List.length_cons] at hlen
                exact absurd hlen (Nat.succ_ne_zero inner.length).symm
              rcases List.exists_cons_of_ne_nil hb' with ⟨t', inner', rfl⟩
              rw [← ha, rowInSteps, rowInSteps, Option.map_none, ite_self]
          | cons s steps =>
              rw [rebaseSteps] at ha hb
              by_cases hut : u = t <;> by_cases hus : u = s
              · -- Both lead into the same block as the table, one level further in.
                rw [if_pos hut] at hb
                rw [if_pos hus] at ha
                rcases Option.map_eq_some_iff.mp ha with ⟨steps', hsteps, rfl⟩
                rcases Option.map_eq_some_iff.mp hb with ⟨inner', hinner, rfl⟩
                subst hut
                subst hus
                rw [rowInSteps, rowInSteps, if_pos rfl, if_pos rfl, ih hsteps hinner]
                simp only [List.cons.injEq, true_and]
              · -- Only one of the two leads towards the table, so they part here.
                rw [if_pos hut] at hb
                rw [if_neg hus, Option.some.injEq] at ha
                rcases Option.map_eq_some_iff.mp hb with ⟨inner', _, rfl⟩
                have hts : t ≠ s := fun h => hus (hut.trans h)
                rw [← ha, rowInSteps, rowInSteps, if_neg hts, if_neg hts, Option.map_none, ite_self]
              · rw [if_neg hut, Option.some.injEq] at hb
                rw [if_pos hus] at ha
                rcases Option.map_eq_some_iff.mp ha with ⟨steps', _, rfl⟩
                have hts : t ≠ s := fun h => hut (hus.trans h.symm)
                rw [← hb, rowInSteps, rowInSteps, if_neg hts, if_neg hts, Option.map_none, ite_self]
              · -- Neither leads towards the table, so both stay.
                rw [if_neg hut, Option.some.injEq] at hb
                rw [if_neg hus, Option.some.injEq] at ha
                have hne : ¬ t :: inner = u :: table := by
                  intro h
                  exact hut (List.cons.inj h).1.symm
                rw [← ha, ← hb, if_neg hne]

namespace Address

theorem rowIn?_eq_some_iff {table a : Address} {row : Nat} :
    rowIn? table a = some row ↔
      a.root = table.root ∧ rowInSteps table.steps a.steps = some row := by
  by_cases h : a.root = table.root
  · simp only [rowIn?, h, if_true, true_and]
  · simp only [rowIn?, h, if_false, reduceCtorEq, false_and]

theorem isPrefixOf?_cons_self (s : Step) (table steps : List Step) :
    (s :: table).isPrefixOf? (s :: steps) = table.isPrefixOf? steps :=
  if_pos (beq_self_eq_true s)

theorem isPrefixOf?_cons_of_ne {t s : Step} (h : t ≠ s) (table steps : List Step) :
    (t :: table).isPrefixOf? (s :: steps) = none :=
  if_neg (by rwa [beq_iff_eq])

-- Below a descent that both addresses make, rebasing goes on without it.
theorem rebase_cons_self (root : Nat) (s : Step) (table : List Step) (inserted : Nat)
    (steps : List Step) : rebase ⟨root, s :: table⟩ inserted ⟨root, s :: steps⟩ =
      (rebase ⟨root, table⟩ inserted ⟨root, steps⟩).map fun a => ⟨root, s :: a.steps⟩ := by
  rw [rebase, rebase, if_pos rfl, if_pos rfl, isPrefixOf?_cons_self]
  cases table.isPrefixOf? steps with
  | none => rfl
  | some inner =>
      rcases inner with _ | ⟨⟨row, cell, block⟩, inner⟩
      · rfl
      · rcases row with _ | _ | row <;> rfl

/-- Rebasing compares the two addresses descent by descent. -/
theorem rebase_eq (table : Address) (inserted : Nat) (a : Address) :
    rebase table inserted a = if a.root = table.root
      then (rebaseSteps inserted table.steps a.steps).map fun steps => ⟨a.root, steps⟩
      else some a := by
  rcases a with ⟨root, steps⟩
  rcases table with ⟨troot, tsteps⟩
  by_cases hroot : root = troot
  · subst hroot
    rw [if_pos rfl]
    dsimp only
    -- By induction on the descents of the table, as `rebaseSteps` takes them off one by one.
    induction tsteps generalizing steps with
    | nil =>
        cases steps with
        | nil => rw [rebase, if_pos rfl]; rfl
        | cons s inner =>
            rcases s with ⟨row, cell, block⟩
            rw [rebase, if_pos rfl]
            rcases row with _ | _ | row <;> rfl
    | cons t tsteps ih =>
        cases steps with
        | nil => rw [rebase, if_pos rfl]; rfl
        | cons s steps =>
            rw [rebaseSteps]
            by_cases hts : t = s
            · subst hts
              rw [rebase_cons_self, ih, if_pos rfl, Option.map_map, Option.map_map]
              rfl
            · rw [rebase, if_pos rfl, isPrefixOf?_cons_of_ne hts, if_neg hts, Option.map_some]
  · rw [rebase, if_neg hroot, if_neg hroot]

/-- What is lost is what lies in row 1. -/
theorem rebase_eq_none_iff {table a : Address} {inserted : Nat} :
    rebase table inserted a = none ↔ rowIn? table a = some 1 := by
  rw [rebase_eq, rowIn?_eq_some_iff]
  by_cases h : a.root = table.root
  · simp only [h, if_true, Option.map_eq_none_iff, rebaseSteps_eq_none_iff, true_and]
  · simp only [h, if_false, reduceCtorEq, false_and]

/-- An address outside of the table stays. -/
theorem rebase_of_rowIn?_eq_none {table a : Address} {inserted : Nat}
    (h : rowIn? table a = none) : rebase table inserted a = some a := by
  rw [rebase_eq]
  by_cases hroot : a.root = table.root
  · rw [rowIn?, if_pos hroot] at h
    rw [if_pos hroot, rebaseSteps_of_rowInSteps_eq_none h, Option.map_some]
  · rw [if_neg hroot]

-- The same without `Option.map`, as it is used.
theorem rebase_eq_some_iff {table a a' : Address} {inserted : Nat} :
    rebase table inserted a = some a' ↔ a'.root = a.root ∧ if a.root = table.root
      then rebaseSteps inserted table.steps a.steps = some a'.steps else a'.steps = a.steps := by
  rw [rebase_eq]
  rcases a with ⟨root, steps⟩
  rcases a' with ⟨root', steps'⟩
  by_cases h : root = table.root
  · simp only [h, if_true, Option.map_eq_some_iff, mk.injEq]
    constructor
    · intro h'
      rcases h' with ⟨l, hl, rfl, rfl⟩
      exact ⟨rfl, hl⟩
    · intro h'
      rcases h' with ⟨rfl, hl⟩
      exact ⟨steps', hl, rfl, rfl⟩
  · simp only [h, if_false, Option.some.injEq, mk.injEq]
    exact ⟨fun ⟨hr, hs⟩ => ⟨hr.symm, hs.symm⟩, fun ⟨hr, hs⟩ => ⟨hr.symm, hs.symm⟩⟩

/-- A fill moves an address within its own depth. -/
theorem length_of_rebase {table a a' : Address} {inserted : Nat}
    (h : rebase table inserted a = some a') : a'.steps.length = a.steps.length := by
  rcases rebase_eq_some_iff.mp h with ⟨_, h⟩
  split at h
  · exact length_of_rebaseSteps h
  · rw [h]

/-- How two addresses lie to each other after a fill. -/
theorem rowIn?_rebase {table a b a' b' : Address} {inserted : Nat} (pos : 0 < inserted)
    (ha : rebase table inserted a = some a') (hb : rebase table inserted b = some b') :
    rowIn? b' a' = if b = table
      then (rowIn? b a).map fun row => if row = 0 then 0 else row - 1 + inserted
      else rowIn? b a := by
  rcases rebase_eq_some_iff.mp ha with ⟨haroot, ha⟩
  rcases rebase_eq_some_iff.mp hb with ⟨hbroot, hb⟩
  -- Roots stay, so this is about descents as soon as all three start at one block.
  by_cases hab : a.root = b.root
  · rw [rowIn?, rowIn?, if_pos (by rw [haroot, hbroot, hab]), if_pos hab]
    by_cases hroot : b.root = table.root
    · rw [if_pos (hab.trans hroot)] at ha
      rw [if_pos hroot] at hb
      rw [rowInSteps_rebaseSteps pos ha hb]
      rcases b with ⟨broot, bsteps⟩
      rcases table with ⟨troot, tsteps⟩
      simp only at hroot
      simp only [mk.injEq, hroot, true_and]
    · rw [if_neg (hab ▸ hroot)] at ha
      rw [if_neg hroot] at hb
      have hne : b ≠ table := fun h => hroot (congrArg root h)
      rw [ha, hb, if_neg hne]
  · rw [rowIn?, rowIn?, if_neg (by rw [haroot, hbroot]; exact hab), if_neg hab, Option.map_none,
      ite_self]

end Address

namespace Shift

/-- After some fills an address lies inside another one if it did before, and in its
    row 1 if it did before. -/
theorem rowIn?_follow {shifts : List Shift} (pos : ∀ s ∈ shifts, 0 < s.inserted)
    {a b a' b' : Address} (ha : follow shifts a = some a') (hb : follow shifts b = some b') :
    ((b'.rowIn? a').isSome = (b.rowIn? a).isSome) ∧
      (b'.rowIn? a' = some 1 ↔ b.rowIn? a = some 1) := by
  induction shifts generalizing a b with
  | nil =>
      rw [follow, Option.some.injEq] at ha hb
      rw [ha, hb]
      exact ⟨rfl, Iff.rfl⟩
  | cons s rest ih =>
      rcases Option.bind_eq_some_iff.mp ha with ⟨a₁, ha₁, ha⟩
      rcases Option.bind_eq_some_iff.mp hb with ⟨b₁, hb₁, hb⟩
      have hs := pos s List.mem_cons_self
      -- What is left is the first fill, as the rest is the induction hypothesis.
      rcases ih (fun t ht => pos t (List.mem_cons_of_mem s ht)) ha hb with ⟨hsome, hone⟩
      rw [hsome, hone, Address.rowIn?_rebase hs ha₁ hb₁]
      by_cases hbt : b = s.table
      · rw [if_pos hbt, Option.isSome_map]
        refine ⟨rfl, ?_⟩
        cases hrow : b.rowIn? a with
        | none => simp only [Option.map_none]
        | some row =>
            -- Row 1 of the filled table is lost, and nothing comes to stand in it.
            have hne : row ≠ 1 := by
              rintro rfl
              rw [hbt] at hrow
              rw [Address.rebase_eq_none_iff.mpr hrow] at ha₁
              exact absurd ha₁ (by simp only [reduceCtorEq, not_false_eq_true])
            simp only [Option.map_some, Option.some.injEq]
            constructor
            · intro h
              split at h <;> omega
            · intro h
              exact absurd h hne
      · rw [if_neg hbt]
        exact ⟨rfl, Iff.rfl⟩

/-- Fills move an address within its own depth. -/
theorem length_of_follow {shifts : List Shift} {a a' : Address} (h : follow shifts a = some a') :
    a'.steps.length = a.steps.length := by
  induction shifts generalizing a with
  | nil =>
      rw [follow, Option.some.injEq] at h
      rw [h]
  | cons s rest ih =>
      rcases Option.bind_eq_some_iff.mp h with ⟨a₁, ha₁, h⟩
      rw [ih h, Address.length_of_rebase ha₁]

-- `follow` makes the first fill first, and a pass puts each new one at the end.
theorem follow_concat (shifts : List Shift) (s : Shift) (a : Address) :
    follow (shifts ++ [s]) a = (follow shifts a).bind (Address.rebase s.table s.inserted) := by
  rw [follow_append]
  congr
  funext b
  simp only [follow, Option.bind_fun_some]

end Shift

namespace Address

/-- Document order. -/
def Before (a b : Address) : Prop :=
  a.root < b.root ∨ a.root = b.root ∧ List.Lex Step.Before a.steps b.steps

theorem Before.ne {a b : Address} (h : a.Before b) : a ≠ b := by
  rintro rfl
  rcases h with h | ⟨_, h⟩
  · exact Nat.lt_irrefl _ h
  · exact List.Lex.to_ne (h.imp fun _ _ hst => hst.ne.symm) rfl

-- Where the lists part, the earlier one leads to another block. If it only ends, it ends
-- at the table that the later one goes into.
theorem rowInSteps_of_lex {a b : List Step} (h : List.Lex Step.Before a b) :
    rowInSteps b a = none := by
  induction h with
  | nil => rfl
  | rel h => rw [rowInSteps, if_neg h.ne]
  | cons _ ih => rw [rowInSteps, if_pos rfl, ih]

/-- What comes before a table is not inside of it. -/
theorem rowIn?_eq_none_of_before {a b : Address} (h : a.Before b) : b.rowIn? a = none := by
  rw [rowIn?]
  rcases h with h | ⟨_, h⟩
  · rw [if_neg (Nat.ne_of_lt h)]
  · rw [rowInSteps_of_lex h, ite_self]

end Address

/-! ### Document order -/

mutual

/-- The places in a block are addresses that go on from its own. -/
theorem address_of_mem_places (here : Address) :
    ∀ b : Block, ∀ place ∈ b.places here, ∃ q, place.address = ⟨here.root, here.steps ++ q⟩
  | .paragraph p => fun place h => by
      rw [List.mem_singleton.mp h]
      exact ⟨[], by rw [List.append_nil]⟩
  | .table ⟨properties, rows⟩ => fun place h => by
      rcases List.mem_cons.mp h with rfl | h
      · exact ⟨[], by rw [List.append_nil]⟩
      · rcases address_of_mem_placesInRows here 0 rows place h with ⟨s, q, hplace, _⟩
        exact ⟨s :: q, hplace⟩

-- In rows, cells and blocks the next descent is also known not to come before the
-- first that is counted.
theorem address_of_mem_placesInRows (here : Address) (row : Nat) :
    ∀ rows : List Row, ∀ place ∈ placesInRows here row rows, ∃ s q,
      place.address = ⟨here.root, here.steps ++ s :: q⟩ ∧ row ≤ s.row
  | [] => fun _ h => absurd h List.not_mem_nil
  | ⟨properties, cells⟩ :: rest => fun place h => by
      rcases List.mem_append.mp h with h | h
      · rcases address_of_mem_placesInCells here row 0 cells place h with ⟨s, q, hplace, hrow, _⟩
        exact ⟨s, q, hplace, Nat.le_of_eq hrow.symm⟩
      · rcases address_of_mem_placesInRows here (row + 1) rest place h with ⟨s, q, hplace, hrow⟩
        exact ⟨s, q, hplace, Nat.le_of_succ_le hrow⟩

theorem address_of_mem_placesInCells (here : Address) (row cell : Nat) :
    ∀ cells : List Cell, ∀ place ∈ placesInCells here row cell cells, ∃ s q,
      place.address = ⟨here.root, here.steps ++ s :: q⟩ ∧ s.row = row ∧ cell ≤ s.cell
  | [] => fun _ h => absurd h List.not_mem_nil
  | ⟨properties, blocks⟩ :: rest => fun place h => by
      rcases List.mem_append.mp h with h | h
      · rcases address_of_mem_placesInBlocks here row cell 0 blocks place h with
          ⟨s, q, hplace, hrow, hcell, _⟩
        exact ⟨s, q, hplace, hrow, Nat.le_of_eq hcell.symm⟩
      · rcases address_of_mem_placesInCells here row (cell + 1) rest place h with
          ⟨s, q, hplace, hrow, hcell⟩
        exact ⟨s, q, hplace, hrow, Nat.le_of_succ_le hcell⟩

theorem address_of_mem_placesInBlocks (here : Address) (row cell block : Nat) :
    ∀ blocks : List Block, ∀ place ∈ placesInBlocks here row cell block blocks, ∃ s q,
      place.address = ⟨here.root, here.steps ++ s :: q⟩ ∧ s.row = row ∧ s.cell = cell ∧
        block ≤ s.block
  | [] => fun _ h => absurd h List.not_mem_nil
  | b :: rest => fun place h => by
      rcases List.mem_append.mp h with h | h
      · rcases address_of_mem_places (here.child ⟨row, cell, block⟩) b place h with ⟨q, hplace⟩
        refine ⟨⟨row, cell, block⟩, q, ?_, rfl, rfl, Nat.le_refl _⟩
        rw [hplace, Address.child, List.append_assoc, List.singleton_append]
      · rcases address_of_mem_placesInBlocks here row cell (block + 1) rest place h with
          ⟨s, q, hplace, hrow, hcell, hblock⟩
        exact ⟨s, q, hplace, hrow, hcell, Nat.le_of_succ_le hblock⟩

end

theorem Address.before_of_step {here : Address} {s t : Step} (h : s.Before t) (p q : List Step) :
    (⟨here.root, here.steps ++ s :: p⟩ : Address).Before ⟨here.root, here.steps ++ t :: q⟩ :=
  Or.inr ⟨rfl, List.Lex.append_left Step.Before (List.Lex.rel h) here.steps⟩

mutual

/-- The places in a block are listed in document order. -/
theorem pairwise_places_block (here : Address) :
    ∀ b : Block, (b.places here).Pairwise fun x y => x.address.Before y.address
  | .paragraph p => List.pairwise_singleton _ _
  | .table ⟨properties, rows⟩ => by
      -- The table itself comes first, as its address is a beginning of all others.
      refine List.Pairwise.cons (fun place h => ?_) (pairwise_placesInRows here 0 rows)
      rcases address_of_mem_placesInRows here 0 rows place h with ⟨s, q, hplace, _⟩
      rw [hplace]
      refine Or.inr ⟨rfl, ?_⟩
      have hlex : List.Lex Step.Before [] (s :: q) := List.Lex.nil
      simpa only [List.append_nil] using List.Lex.append_left Step.Before hlex here.steps

theorem pairwise_placesInRows (here : Address) (row : Nat) :
    ∀ rows : List Row,
      (placesInRows here row rows).Pairwise fun x y => x.address.Before y.address
  | [] => List.Pairwise.nil
  | ⟨properties, cells⟩ :: rest => by
      rw [placesInRows, List.pairwise_append]
      refine ⟨pairwise_placesInCells here row 0 cells, pairwise_placesInRows here (row + 1) rest,
        fun x hx y hy => ?_⟩
      rcases address_of_mem_placesInCells here row 0 cells x hx with ⟨s, p, hxplace, hs, _⟩
      rcases address_of_mem_placesInRows here (row + 1) rest y hy with ⟨t, q, hyplace, ht⟩
      rw [hxplace, hyplace]
      exact Address.before_of_step (Or.inl (by omega)) p q

theorem pairwise_placesInCells (here : Address) (row cell : Nat) :
    ∀ cells : List Cell,
      (placesInCells here row cell cells).Pairwise fun x y => x.address.Before y.address
  | [] => List.Pairwise.nil
  | ⟨properties, blocks⟩ :: rest => by
      rw [placesInCells, List.pairwise_append]
      refine ⟨pairwise_placesInBlocks here row cell 0 blocks,
        pairwise_placesInCells here row (cell + 1) rest, fun x hx y hy => ?_⟩
      rcases address_of_mem_placesInBlocks here row cell 0 blocks x hx with
        ⟨s, p, hxplace, hsrow, hs, _⟩
      rcases address_of_mem_placesInCells here row (cell + 1) rest y hy with
        ⟨t, q, hyplace, htrow, ht⟩
      rw [hxplace, hyplace]
      exact Address.before_of_step (Or.inr ⟨by omega, Or.inl (by omega)⟩) p q

theorem pairwise_placesInBlocks (here : Address) (row cell block : Nat) :
    ∀ blocks : List Block,
      (placesInBlocks here row cell block blocks).Pairwise fun x y => x.address.Before y.address
  | [] => List.Pairwise.nil
  | b :: rest => by
      rw [placesInBlocks, List.pairwise_append]
      refine ⟨pairwise_places_block (here.child ⟨row, cell, block⟩) b,
        pairwise_placesInBlocks here row cell (block + 1) rest, fun x hx y hy => ?_⟩
      rcases address_of_mem_places (here.child ⟨row, cell, block⟩) b x hx with ⟨p, hxplace⟩
      rcases address_of_mem_placesInBlocks here row cell (block + 1) rest y hy with
        ⟨t, q, hyplace, htrow, htcell, ht⟩
      rw [hxplace, hyplace, Address.child, List.append_assoc, List.singleton_append]
      have hstep : (⟨row, cell, block⟩ : Step).Before t :=
        Or.inr ⟨htrow.symm, Or.inr ⟨htcell.symm, ht⟩⟩
      exact @Address.before_of_step here _ _ hstep p q

end

theorem le_root_of_mem_placesFrom {root : Nat} {blocks : List Block} {place : Place}
    (h : place ∈ placesFrom root blocks) : root ≤ place.address.root := by
  induction blocks generalizing root with
  | nil => exact absurd h List.not_mem_nil
  | cons b rest ih =>
      rcases List.mem_append.mp h with h | h
      · rcases address_of_mem_places ⟨root, []⟩ b place h with ⟨q, hplace⟩
        rw [hplace]
      · exact Nat.le_of_succ_le (ih h)

-- The places of the first block have its root, and all that come after have a later one.
theorem pairwise_placesFrom (root : Nat) (blocks : List Block) :
    (placesFrom root blocks).Pairwise fun x y => x.address.Before y.address := by
  induction blocks generalizing root with
  | nil => exact List.Pairwise.nil
  | cons b rest ih =>
      rw [placesFrom, List.pairwise_append]
      refine ⟨pairwise_places_block ⟨root, []⟩ b, ih (root + 1), fun x hx y hy => ?_⟩
      rcases address_of_mem_places ⟨root, []⟩ b x hx with ⟨p, hxplace⟩
      have hroot : root + 1 ≤ y.address.root := le_root_of_mem_placesFrom hy
      refine Or.inl ?_
      rw [hxplace]
      exact hroot

/-- The places of a body are listed in document order. -/
theorem pairwise_places (blocks : List Block) :
    (places blocks).Pairwise fun x y => x.address.Before y.address :=
  pairwise_placesFrom 0 blocks

end MailMerge
