import MailMerge.Proofs.Verdict

/-!
# One Merge for each Merger

A merger may be run on one document after another. Only one of these runs is a merge. A
document without a body is refused before anything is done, so a merger that has met no
other documents is as good as new. The first document with a body is merged, and uses the
merger up: if the report is handed out then the merger is done, and if it is refused then
the merger stays behind with it. In both cases it is not idle any more, and a merger that
is not idle refuses everything.

So a history of runs has three stretches: refusals for want of a body, at most one merge,
and refusals for being used. In the first and the last neither the documents nor the merger
are touched. All of this is induction over the history, from what a single run does to an
idle merger and to one that is not.

## Main definitions

* `Merger.after`: The merger that is left after runs on some documents in turn.
* `Merger.runs`: What these runs leave behind, one by one.
* `Merger.stages`: The stages that the merger is in before, between and after them.

## Theorems

* `stage_run_ne_idle`: A document with a body uses a merger up.
* `stage_after_eq_idle_iff`: When a merger is used up.
* `getElem?_runs`: Each run starts from what the earlier ones have left.
* `pairwise_stages`: Stages only go forward.
* `runs_new`: Of all runs, the first on a document with a body is the merge.
-/

namespace MailMerge

namespace Merger

/-- The merger that is left after runs on some documents in turn. -/
def after (m : Merger) (ds : List Document) : Merger := ds.foldl (fun m d => (m.run d).merger) m

/-- What runs on some documents in turn leave behind, one by one. -/
def runs : Merger → List Document → List Outcome
  | _, [] => []
  | m, d :: rest => m.run d :: runs (m.run d).merger rest

/-- The stages that a merger is in before, between and after runs on some documents. -/
def stages (m : Merger) (ds : List Document) : List Stage :=
  m.stage :: (m.runs ds).map fun outcome => outcome.merger.stage

theorem after_cons (m : Merger) (d : Document) (rest : List Document) :
    m.after (d :: rest) = (m.run d).merger.after rest := rfl

/-! ### One run -/

/-- A document with a body uses a merger up, whether the merge comes through or not. -/
theorem stage_run_ne_idle {m : Merger} {d : Document} (body : d.body ≠ none) :
    (m.run d).merger.stage ≠ .idle := by
  by_cases idle : m.stage = .idle
  · rcases Option.ne_none_iff_exists'.mp body with ⟨blocks, hblocks⟩
    rw [run_of_body idle hblocks]
    dsimp only [conclude]
    split <;> exact nofun
  · rw [run_of_stage_ne_idle idle]
    exact idle

/-- The two ways in which a run touches neither the document nor the merger. -/
theorem run_eq_refusal {m : Merger} {d : Document} (h : m.stage = .idle → d.body = none) :
    ∃ cause, m.run d = ⟨.error (.document cause), m, d⟩ := by
  by_cases idle : m.stage = .idle
  · exact ⟨_, run_of_body_eq_none idle (h idle)⟩
  · exact ⟨_, run_of_stage_ne_idle idle⟩

/-! ### Runs in turn -/

-- Neither documents without a body nor a used merger make a difference.
theorem after_eq_self {m : Merger} {ds : List Document}
    (h : m.stage = .idle → ∀ d ∈ ds, d.body = none) : m.after ds = m := by
  induction ds with
  | nil => rfl
  | cons d rest ih =>
      rcases run_eq_refusal fun idle => h idle d List.mem_cons_self with ⟨cause, hrun⟩
      rw [after_cons, hrun]
      exact ih fun idle e he => h idle e (List.mem_cons_of_mem d he)

theorem stage_after_ne_idle {m : Merger} {ds : List Document} {d : Document} (hd : d ∈ ds)
    (body : d.body ≠ none) : (m.after ds).stage ≠ .idle := by
  induction ds generalizing m with
  | nil => exact absurd hd List.not_mem_nil
  | cons e rest ih =>
      rw [after_cons]
      rcases List.mem_cons.mp hd with rfl | hd
      · -- The rest makes no difference any more.
        have hused : (m.run d).merger.stage ≠ .idle := stage_run_ne_idle body
        rw [after_eq_self fun idle => absurd idle hused]
        exact hused
      · exact ih hd

/-- A merger is used up when one of the documents had a body. -/
theorem stage_after_eq_idle_iff {m : Merger} {ds : List Document} (idle : m.stage = .idle) :
    (m.after ds).stage = .idle ↔ ∀ d ∈ ds, d.body = none := by
  constructor
  · intro h d hd
    by_cases body : d.body = none
    · exact body
    · exact absurd h (stage_after_ne_idle hd body)
  · intro h
    rw [after_eq_self fun _ => h]
    exact idle

/-- Each run starts from what the earlier ones have left. -/
theorem getElem?_runs (m : Merger) (ds : List Document) (k : Nat) :
    (m.runs ds)[k]? = ds[k]?.map (m.after (ds.take k)).run := by
  induction ds generalizing m k with
  | nil => rfl
  | cons d rest ih =>
      rw [runs]
      rcases k with _ | k
      · rfl
      · rw [List.getElem?_cons_succ, List.getElem?_cons_succ, List.take_succ_cons, after_cons]
        exact ih _ k

theorem stages_cons (m : Merger) (d : Document) (rest : List Document) :
    m.stages (d :: rest) = m.stage :: (m.run d).merger.stages rest := by
  unfold stages
  rw [runs, List.map_cons]

/-- Stages only go forward. -/
theorem pairwise_stages (m : Merger) (ds : List Document) :
    (m.stages ds).Pairwise fun s t => s.rank ≤ t.rank := by
  have hfirst : ∀ (m : Merger) (ds : List Document), ∀ s ∈ m.stages ds, m.stage.rank ≤ s.rank := by
    intro m ds
    induction ds generalizing m with
    | nil => exact fun s hs => Nat.le_of_eq (congrArg Stage.rank (List.mem_singleton.mp hs).symm)
    | cons d rest ih =>
        intro s hs
        rw [stages_cons] at hs
        rcases List.mem_cons.mp hs with rfl | hs
        · exact Nat.le_refl _
        · exact Nat.le_trans (rank_le_rank_run m d) (ih _ s hs)
  induction ds generalizing m with
  | nil => exact List.pairwise_singleton _ _
  | cons d rest ih =>
      rw [stages_cons, List.pairwise_cons]
      refine ⟨fun s hs => ?_, ih _⟩
      exact Nat.le_trans (rank_le_rank_run m d) (hfirst _ _ s hs)

/-- Of all runs of a merger, the first on a document with a body is the merge: it finds the
    merger as good as new, and leaves it done with the report handed out, or refused and in
    the stage before. All other runs are refusals which touch neither the document nor the
    merger, so that what has been reported stays as well. The stages only go forward. -/
theorem runs_new (data : Element) (options : Options) (ds : List Document) :
    (((new data options).stages ds).Pairwise fun s t => s.rank ≤ t.rank) ∧
      ∀ k d, ds[k]? = some d →
        ∃ outcome, ((new data options).runs ds)[k]? = some outcome ∧
          if d.body ≠ none ∧ ∀ e ∈ ds.take k, e.body = none then
            outcome = (new data options).run d ∧
              (outcome.merger.stage = .done ∧ outcome.result.isOk ∨
                outcome.merger.stage = .contentResolved ∧ ¬ outcome.result.isOk)
          else
            outcome.merger = (new data options).after (ds.take k) ∧ outcome.document = d ∧
              ∃ cause, outcome.result = .error (.document cause) := by
  refine ⟨pairwise_stages _ _, fun k d hd => ?_⟩
  rw [getElem?_runs, hd]
  refine ⟨_, rfl, ?_⟩
  have idle : ((new data options).after (ds.take k)).stage = .idle ↔
      ∀ e ∈ ds.take k, e.body = none := stage_after_eq_idle_iff rfl
  split
  · next h =>
      rcases Option.ne_none_iff_exists'.mp h.1 with ⟨blocks, hblocks⟩
      have hd : d = ⟨some blocks⟩ := congrArg Document.mk hblocks
      rw [after_eq_self fun _ => h.2, hd, run_new]
      refine ⟨rfl, ?_⟩
      dsimp only
      split
      · exact .inr ⟨rfl, Bool.false_ne_true⟩
      · exact .inl ⟨rfl, rfl⟩
  · next h =>
      have hbody : ((new data options).after (ds.take k)).stage = .idle → d.body = none := by
        intro hidle
        by_cases body : d.body = none
        · exact body
        · exact absurd ⟨body, idle.mp hidle⟩ h
      rcases run_eq_refusal hbody with ⟨cause, hrun⟩
      rw [hrun]
      exact ⟨rfl, rfl, cause, rfl⟩

end Merger

end MailMerge
