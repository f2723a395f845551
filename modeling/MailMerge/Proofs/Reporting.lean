import MailMerge.Merger
import MailMerge.Proofs.Sweep

/-!
# What a Merge Reports

The report of a pass is the sum of the reports of its parts. So a property that
every part has, that the empty report has and that sums keep is a property of the
whole report. This is induction over a pass, seen through its report only, and it
is all that is needed to tell which pass reports what.

The report of a merge is then the sum of what its two passes report, in a strict
merge under the condition that the sum is clean, which is to say that both are.

## Main definitions

* `Report.Additive`: A property of reports that sums have when their parts have it.

## Theorems

* `report_mapM`, `ContentPass.report_run`: Induction over a pass by its report.
* `value_splitAround`, `report_splitAround`: What a split gives, and what it reports.
* `tablesPopulated_contentPass`, `tablesPopulated_passes`: The content pass fills no table.
* `run_of_body`: What a run on a body leaves behind.
* `result_run_eq_ok_iff`, `mergeWith_eq_ok_iff`: When a merge comes through, and
  with what.
-/

namespace MailMerge

/-- A property of reports that doing nothing has, and two stretches of work when both
    have it. -/
structure Report.Additive (P : Report → Prop) : Prop where
  empty : P ∅
  append : ∀ r s, P r → P s → P (r ++ s)

namespace Reported

variable {α β : Type}

theorem value_mapM (f : α → Reported β) (l : List α) :
    (l.mapM f).value = l.map fun a => (f a).value := by
  induction l with
  | nil => rfl
  | cons a l ih =>
      rw [List.mapM_cons, value_bind, value_bind, ih, value_pure, List.map_cons]

theorem report_mapM_cons (f : α → Reported β) (a : α) (l : List α) :
    ((a :: l).mapM f).report = (f a).report ++ (l.mapM f).report := by
  rw [List.mapM_cons, report_bind, report_bind, report_pure, Report.append_empty]

/-- What is reported on a list has the properties of what is reported on its elements. -/
theorem report_mapM {P : Report → Prop} (hP : Report.Additive P) (f : α → Reported β)
    {l : List α} (h : ∀ a ∈ l, P (f a).report) : P (l.mapM f).report := by
  induction l with
  | nil => exact hP.empty
  | cons a l ih =>
      rw [report_mapM_cons]
      refine hP.append _ _ (h a List.mem_cons_self) (ih fun b hb => ?_)
      exact h b (List.mem_cons_of_mem a hb)

end Reported

namespace ContentPass

variable {P : Report → Prop} {data : Element} {options : Options}

/-- What is reported on the text of a paragraph comes from its content markers and from
    the tables that are generated in it. -/
theorem report_expand (hP : Report.Additive P)
    (hsubstitute : ∀ p, P (substitute data p).report)
    (hgenerate : ∀ m, P (generateTable data options m).report) (p : Paragraph) :
    P (expand data options p).report := by
  rw [expand, Reported.report_bind]
  refine hP.append _ _ (hsubstitute p) ?_
  split
  · exact hP.empty
  · rw [splitAround, Reported.report_bind, Reported.report_pure, Report.append_empty]
    refine Reported.report_mapM hP _ fun m _ => ?_
    rw [Reported.report_bind, Reported.report_pure, Report.append_empty]
    exact hgenerate m

theorem report_expandBlocks (hP : Report.Additive P)
    (hexpand : ∀ p, P (expand data options p).report) (blocks : List Block) :
    P (expandBlocks data options blocks).report := by
  induction blocks with
  | nil => exact hP.empty
  | cons b rest ih =>
      cases b with
      | paragraph p =>
          rw [expandBlocks, Reported.report_bind, Reported.report_bind, Reported.report_pure,
            Report.append_empty]
          exact hP.append _ _ (hexpand p) ih
      | table t =>
          rw [expandBlocks, Reported.report_bind, Reported.report_pure, Report.append_empty]
          exact ih

theorem report_expandTable (hP : Report.Additive P)
    (hexpand : ∀ p, P (expand data options p).report) (t : Table) :
    P (expandTable data options t).report := by
  rw [expandTable, Reported.report_bind, Reported.report_pure, Report.append_empty]
  refine Reported.report_mapM hP _ fun r _ => ?_
  rw [expandRow, Reported.report_bind, Reported.report_pure, Report.append_empty]
  refine Reported.report_mapM hP _ fun c _ => ?_
  rw [expandCell, Reported.report_bind, Reported.report_pure, Report.append_empty]
  exact report_expandBlocks hP hexpand c.blocks

/-- What the content pass reports comes from its paragraphs. -/
theorem report_run (hP : Report.Additive P) (hexpand : ∀ p, P (expand data options p).report)
    (blocks : List Block) : P (run data options blocks).report := by
  induction blocks with
  | nil => exact hP.empty
  | cons b rest ih =>
      cases b with
      | paragraph p =>
          rw [run, Reported.report_bind, Reported.report_bind, Reported.report_pure,
            Report.append_empty]
          exact hP.append _ _ (hexpand p) ih
      | table t =>
          rw [run, Reported.report_bind, Reported.report_bind, Reported.report_pure,
            Report.append_empty]
          exact hP.append _ _ (report_expandTable hP hexpand t) ih

end ContentPass

/-! ### Splitting -/

section Splitting

variable (data : Element) (options : Options) (text : String) (markers : List Marker)

/-- What a split gives: the tables of the markers, each put in for its literal. -/
theorem value_splitAround :
    (splitAround data options text markers).value =
      interleave text.toList ((Marker.distinct markers).map fun m =>
        (m.literal, Table.ofElements options (data.listAt m.path))) := by
  rw [splitAround, Reported.value_bind, Reported.value_pure, Reported.value_mapM]
  simp only [Reported.value_bind, Reported.value_pure, generateTable, Element.value_rowsAt]

/-- What a split reports: a table for each marker, and each marker without data. -/
theorem report_splitAround :
    (splitAround data options text markers).report =
      ⟨0, (Marker.distinct markers).length, 0,
        ((Marker.distinct markers).filter fun m => data.resolve? m.path = none).map fun m =>
          Element.noRowsDiagnostic m.path⟩ := by
  rw [splitAround, Reported.report_bind, Reported.report_pure, Report.append_empty]
  induction Marker.distinct markers with
  | nil => rfl
  | cons m rest ih =>
      rw [Reported.report_mapM_cons, ih, Reported.report_bind, Reported.report_pure,
        Report.append_empty, generateTable, Reported.report_bind, List.filter_cons]
      cases hpath : data.resolve? m.path with
      | none =>
          rw [Element.report_rowsAt_of_none hpath, if_pos (decide_eq_true rfl), List.map_cons,
            List.length_cons, Nat.add_comm]
          rfl
      | some e =>
          rw [Element.report_rowsAt_of_some hpath, if_neg (by simp), List.length_cons,
            Nat.add_comm]
          rfl

end Splitting

-- Looking up rows reports on nothing but the lookup.
theorem Element.report_rowsAt (data : Element) (path : String) :
    ∃ diagnostics, (data.rowsAt path).report = ⟨0, 0, 0, diagnostics⟩ := by
  cases h : data.resolve? path with
  | none => exact ⟨_, report_rowsAt_of_none h⟩
  | some e => exact ⟨[], report_rowsAt_of_some h⟩

theorem additive_tablesPopulated : Report.Additive fun r => r.tablesPopulated = 0 := by
  refine ⟨rfl, fun r s hr hs => ?_⟩
  rw [Report.append_def]
  simp only [hr, hs]

/-- The content pass fills no table. -/
theorem tablesPopulated_contentPass (data : Element) (options : Options) (blocks : List Block) :
    (ContentPass.run data options blocks).report.tablesPopulated = 0 := by
  refine ContentPass.report_run additive_tablesPopulated (fun p => ?_) blocks
  refine ContentPass.report_expand additive_tablesPopulated (fun p => ?_) (fun m => ?_) p
  · rw [substitute]
    split <;> rfl
  · rcases data.report_rowsAt m.path with ⟨diagnostics, hreport⟩
    rw [generateTable, Reported.report_bind, hreport]
    rfl

/-! ### The verdict -/

/-- The two passes of a merge. -/
def passes (options : Options) (data : Element) (blocks : List Block) : Reported (List Block) := do
  let blocks ← TablePass.run data options blocks
  ContentPass.run data options blocks

/-- All tables are filled in the table pass. -/
theorem tablesPopulated_passes (options : Options) (data : Element) (blocks : List Block) :
    (passes options data blocks).report.tablesPopulated =
      (TablePass.steps data options ⟨blocks, []⟩
        (tableRequests blocks)).report.tablesPopulated := by
  rw [passes, Reported.report_bind, Report.append_def]
  dsimp only
  rw [tablesPopulated_contentPass, Nat.add_zero, TablePass.run, Reported.report_bind,
    Reported.report_pure, Report.append_empty]

namespace Merger

/-- What a merger that has not run does with a body: the two passes, and then the verdict. -/
theorem run_of_body {m : Merger} {d : Document} {blocks : List Block} (idle : m.stage = .idle)
    (body : d.body = some blocks) :
    m.run d =
      let merged := passes m.options m.data blocks
      let m := { m with stage := .contentResolved, report := m.report ++ merged.report }
      ⟨m.conclude.1, m.conclude.2, ⟨some merged.value⟩⟩ := by
  have hreport : m.report ++ (passes m.options m.data blocks).report =
      m.report ++ (TablePass.run m.data m.options blocks).report ++ (ContentPass.run m.data
        m.options (TablePass.run m.data m.options blocks).value).report := by
    rw [passes, Reported.report_bind, Report.append_assoc]
  dsimp only
  rw [hreport, run, if_pos idle, body]
  simp only [resolveTables, resolveContent, ContentPass.sweepBody_eq_run]
  rfl

/-- What a new merger does with a body. -/
theorem run_new_of_body {options : Options} {data : Element} {d : Document}
    {blocks : List Block} (h : d.body = some blocks) :
    ((new data options).run d).document = ⟨some (passes options data blocks).value⟩ ∧
      ((new data options).run d).result =
        if options.strict && !(passes options data blocks).report.isClean then
          .error (.document (.notHonoured (passes options data blocks).report.failures.length))
        else .ok (passes options data blocks).report := by
  rw [run_of_body rfl h]
  dsimp only [new]
  rw [Report.empty_append]
  exact ⟨rfl, apply_ite Prod.fst _ _ _⟩

/-- When a new merger comes through: there is a body, and if the merger is strict then all
    that was reported is clean. -/
theorem result_run_eq_ok_iff {options : Options} {data : Element} {d : Document}
    {report : Report} :
    ((new data options).run d).result = .ok report ↔ ∃ blocks, d.body = some blocks ∧
      report = (passes options data blocks).report ∧
      (options.strict = true → report.isClean = true) := by
  cases hbody : d.body with
  | none =>
      rw [run_of_body_eq_none rfl hbody]
      simp only [reduceCtorEq, false_and, exists_false]
  | some blocks =>
      rw [(run_new_of_body hbody).2]
      simp only [Option.some.injEq, exists_eq_left']
      -- The verdict is passed in a strict merge only, and then on what was reported.
      cases hstrict : options.strict with
      | false =>
          simp only [Bool.false_and, Bool.false_eq_true, if_false, Except.ok.injEq, false_implies,
            and_true]
          exact eq_comm
      | true =>
          simp only [Bool.true_and, true_implies]
          cases hclean : (passes options data blocks).report.isClean with
          | false =>
              simp only [Bool.not_false, if_true, reduceCtorEq, false_iff, not_and]
              intro h
              rw [h, hclean]
              exact Bool.false_ne_true
          | true =>
              simp only [Bool.not_true, Bool.false_eq_true, if_false, Except.ok.injEq]
              constructor
              · rintro rfl
                exact ⟨rfl, hclean⟩
              · intro h'
                rcases h' with ⟨rfl, _⟩
                rfl

end Merger

/-- When a document is merged, and what it comes to be. -/
theorem mergeWith_eq_ok_iff {options : Options} {data : Element} {d out : Document}
    {report : Report} :
    mergeWith options data d = .ok (out, report) ↔ ∃ blocks, d.body = some blocks ∧
      out = ⟨some (passes options data blocks).value⟩ ∧
      report = (passes options data blocks).report ∧
      (options.strict = true → report.isClean = true) := by
  rw [mergeWith]
  constructor
  · intro h
    cases hresult : ((Merger.new data options).run d).result with
    | error fault =>
        simp only [hresult, Except.map, reduceCtorEq] at h
    | ok report' =>
        simp only [hresult, Except.map, Except.ok.injEq, Prod.mk.injEq] at h
        rcases h with ⟨rfl, rfl⟩
        rcases Merger.result_run_eq_ok_iff.mp hresult with ⟨blocks, hbody, hreport, hclean⟩
        exact ⟨blocks, hbody, (Merger.run_new_of_body hbody).1, hreport, hclean⟩
  · intro h'
    rcases h' with ⟨blocks, hbody, rfl, hreport, hclean⟩
    have hresult := Merger.result_run_eq_ok_iff.mpr ⟨blocks, hbody, hreport, hclean⟩
    simp only [hresult, Except.map, (Merger.run_new_of_body hbody).1]

end MailMerge
