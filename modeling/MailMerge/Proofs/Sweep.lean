import MailMerge.Merge.ContentSweep

/-!
# A Sweep is a Flat Map

What sweeping a list in place comes to. Whatever is before the index is done and stays, and
whatever is behind it is as it was in the beginning, since a turn changes the one block at
the index and goes on behind all that it put in its place. So each turn comes to a block of
the original list, the first turn to the first one and so on, and none comes to a block
that an earlier turn put in. In the end each block has become what its own turn made of
it, and what the turns reported stands in the order of the blocks.

The turns in a body and those in a cell differ only in what they make of a table. So all
this is said once, for any turn that treats blocks one by one.

## Main definitions

* `expandAll`: Blocks that are expanded one after the other.
* `Sweep.ExpandsBy`: A turn that expands the block at the index.

## Theorems

* `resolveAt_append`: Resolving a paragraph that others stand around.
* `turns_eq`: How far a sweep is after some turns.
* `through_eq_expandAll`: What a whole sweep gives.
* `sweepBlocks_eq_expandBlocks`, `sweepBody_eq_run`: The two sweeps.
-/

namespace MailMerge

namespace ContentPass

variable {data : Element} {options : Options}

/-- The blocks that some blocks become, if it is known what one of them becomes. -/
def expandAll (f : Block → Reported (List Block)) : List Block → Reported (List Block)
  | [] => return []
  | b :: rest => do
      let first ← f b
      return first ++ (← expandAll f rest)

theorem getElem?_append_cons (before after : List Block) (b : Block) :
    (before ++ b :: after)[before.length]? = some b := by
  rw [List.getElem?_append_right (Nat.le_refl _), Nat.sub_self, List.getElem?_cons_zero]

theorem set_append_cons (before after : List Block) (b b' : Block) :
    (before ++ b :: after).set before.length b' = before ++ [b'] ++ after := by
  rw [List.set_append_right _ _ (Nat.le_refl _), Nat.sub_self, List.set_cons_zero,
    List.append_assoc, List.singleton_append]

theorem splice_append_cons (before after replacement : List Block) (b : Block) :
    splice before.length replacement (before ++ b :: after) = before ++ replacement ++ after := by
  rw [splice, List.take_left, List.append_cons, List.drop_left']
  rw [List.length_append, List.length_singleton]

/-- Resolving a paragraph puts its expansion in its place, and leaves all around it. -/
theorem resolveAt_append (before after : List Block) (p : Paragraph) :
    resolveAt data options before.length (before ++ .paragraph p :: after) =
      (fun out => (before ++ out ++ after, out.length)) <$> expand data options p := by
  rw [resolveAt, getElem?_append_cons, expand]
  dsimp only
  rw [map_bind]
  congr 1
  funext q
  -- The paragraph stays in one piece or is split.
  cases scan .table q.text with
  | nil =>
      dsimp only
      rw [map_pure, set_append_cons]
      rfl
  | cons m rest =>
      dsimp only
      rw [map_eq_pure_bind]
      congr 1
      funext replacement
      rw [splice_append_cons]

/-- A table is passed over. -/
theorem resolveAt_append_table (before after : List Block) (t : Table) :
    resolveAt data options before.length (before ++ .table t :: after) =
      pure (before ++ .table t :: after, 1) := by
  rw [resolveAt, getElem?_append_cons]

namespace Sweep

variable {turn : Sweep → Reported Sweep} {f : Block → Reported (List Block)}

/-- Whether a turn puts in the place of the block at the index what `f` makes of it, leaves
    all around it, and goes on behind what it put in. -/
def ExpandsBy (turn : Sweep → Reported Sweep) (f : Block → Reported (List Block)) : Prop :=
  ∀ before b after, turn ⟨before ++ b :: after, before.length⟩ =
    (fun out => ⟨before ++ out ++ after, (before ++ out).length⟩) <$> f b

/-- How far a sweep is after some turns: as many blocks are expanded as there were turns,
    and the index stands between them and the others, which are as they were. -/
theorem turns_eq (h : ExpandsBy turn f) (k : Nat) (before rest : List Block) :
    turns turn k ⟨before ++ rest, before.length⟩ =
      (fun out => ⟨before ++ out ++ rest.drop k, (before ++ out).length⟩) <$>
        expandAll f (rest.take k) := by
  -- By induction on the turns, for all that may be done before them.
  induction k generalizing before rest with
  | zero => rw [turns, List.take_zero, expandAll, map_pure, List.append_nil, List.drop_zero]
  | succ k ih =>
      cases rest with
      | nil =>
          have hend : ¬ before.length < (before ++ []).length := by
            rw [List.append_nil]
            exact Nat.lt_irrefl _
          rw [turns, if_neg hend, List.take_nil, expandAll, map_pure, List.drop_nil,
            List.append_nil, List.append_nil]
      | cons b rest =>
          have hleft : before.length < (before ++ b :: rest).length := by
            rw [List.length_append, List.length_cons]
            omega
          rw [turns, if_pos hleft, h before b rest, bind_map_left, List.take_succ_cons, expandAll,
            map_bind]
          congr 1
          funext out
          rw [ih (before ++ out) rest, map_bind, List.drop_succ_cons, map_eq_pure_bind]
          congr 1
          funext more
          rw [map_pure, List.append_assoc before out more]

/-- A whole sweep expands the blocks one after the other. -/
theorem through_eq_expandAll (h : ExpandsBy turn f) (blocks : List Block) :
    through turn blocks = expandAll f blocks := by
  have hturns := turns_eq h blocks.length [] blocks
  rw [List.nil_append, List.length_nil, List.take_length, List.drop_length] at hturns
  rw [through, hturns, bind_map_left]
  simp only [List.nil_append, List.append_nil, bind_pure]

end Sweep

/-- The blocks that a block of a cell becomes, with the report. -/
def visitInCell (data : Element) (options : Options) : Block → Reported (List Block)
  | .paragraph p => expand data options p
  | .table t => return [.table t]

/-- The blocks that a block of a body becomes, with the report. -/
def visitInBody (data : Element) (options : Options) : Block → Reported (List Block)
  | .paragraph p => expand data options p
  | .table t => do return [.table (← expandTable data options t)]

theorem expandsBy_turnInCell :
    Sweep.ExpandsBy (Sweep.turnInCell data options) (visitInCell data options) := by
  intro before b after
  rw [Sweep.turnInCell]
  cases b with
  | paragraph p =>
      rw [resolveAt_append, bind_map_left, visitInCell, map_eq_pure_bind]
      simp only [List.length_append]
  | table t =>
      rw [resolveAt_append_table, pure_bind, visitInCell, map_pure, List.append_assoc,
        List.singleton_append, List.length_append, List.length_singleton]

theorem expandAll_visitInCell (blocks : List Block) :
    expandAll (visitInCell data options) blocks = expandBlocks data options blocks := by
  induction blocks with
  | nil => rfl
  | cons b rest ih =>
      cases b with
      | paragraph p => rw [expandAll, expandBlocks, visitInCell, ih]
      | table t => rw [expandAll, expandBlocks, visitInCell, pure_bind, ih]; rfl

/-- A sweep of a cell is a flat map over its blocks. -/
theorem sweepBlocks_eq_expandBlocks (blocks : List Block) :
    sweepBlocks data options blocks = expandBlocks data options blocks := by
  rw [sweepBlocks, Sweep.through_eq_expandAll expandsBy_turnInCell, expandAll_visitInCell]

theorem sweepTable_eq_expandTable (t : Table) :
    sweepTable data options t = expandTable data options t := by
  simp only [sweepTable, sweepBlocks_eq_expandBlocks]
  rfl

theorem expandsBy_turnInBody :
    Sweep.ExpandsBy (Sweep.turnInBody data options) (visitInBody data options) := by
  intro before b after
  rw [Sweep.turnInBody, getElem?_append_cons]
  cases b with
  | paragraph p => exact expandsBy_turnInCell before (.paragraph p) after
  | table t =>
      dsimp only
      rw [visitInBody, sweepTable_eq_expandTable, map_bind]
      congr 1
      funext u
      rw [map_pure, set_append_cons, List.length_append, List.length_singleton]

theorem expandAll_visitInBody (blocks : List Block) :
    expandAll (visitInBody data options) blocks = run data options blocks := by
  induction blocks with
  | nil => rfl
  | cons b rest ih =>
      cases b with
      | paragraph p => rw [expandAll, run, visitInBody, ih]
      | table t =>
          rw [expandAll, run, visitInBody, bind_assoc, ih]
          congr 1
          funext u
          rw [pure_bind]
          rfl

/-- A sweep of a body is the content pass. -/
theorem sweepBody_eq_run (blocks : List Block) :
    sweepBody data options blocks = run data options blocks := by
  rw [sweepBody, Sweep.through_eq_expandAll expandsBy_turnInBody, expandAll_visitInBody]

end ContentPass

end MailMerge
