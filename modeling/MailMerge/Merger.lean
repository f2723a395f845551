import MailMerge.Merge.ContentSweep
import MailMerge.Merge.Fault
import MailMerge.Merge.TablePass

/-!
# The Merger

A merger holds data and options, and merges one document. Its run makes the two
passes over the body and hands out the report. In strict mode a report that is
not clean is refused. The document has been changed all the same by then, and
the merger keeps the report.

A merger that has run refuses to run again. A document without a body is refused
before anything is done, so it does not use the merger up.

The second pass sweeps over the body in place. Strictness is looked at after
both passes only. A strict and a lenient run of the same document leave it the
same.

## Main definitions

* `Merger`, `Merger.new`: Data, options, and how far the merge came.
* `Merger.resolveTables`, `Merger.resolveContent`: The two passes.
* `Merger.conclude`: The verdict on what was reported.
* `Merger.run`: A run, with all that it leaves behind.
* `mergeWith`, `merge`: One document with a merger of its own.

## Theorems

* `run_of_stage_ne_idle`: A used merger changes nothing.
* `run_of_body_eq_none`: A document without a body does not use a merger up.
* `rank_le_rank_run`: A merge never goes back to an earlier stage.
-/

namespace MailMerge

/-- Data and options for one merge, the stage it came to, and the report of a
    merge that was refused. -/
structure Merger where
  data : Element
  options : Options
  stage : Stage
  report : Report

namespace Merger

/-- A merger that has not run. -/
def new (data : Element) (options : Options) : Merger := ⟨data, options, .idle, ∅⟩

/-- The first pass over a body. -/
def resolveTables (m : Merger) (blocks : List Block) : Merger × List Block :=
  let pass := TablePass.run m.data m.options blocks
  ({ m with stage := .tablesResolved, report := m.report ++ pass.report }, pass.value)

/-- The second pass over a body. -/
def resolveContent (m : Merger) (blocks : List Block) : Merger × List Block :=
  let pass := ContentPass.sweepBody m.data m.options blocks
  ({ m with stage := .contentResolved, report := m.report ++ pass.report }, pass.value)

/-- What a run leaves behind: a report or a fault, the merger, and the
    document. -/
structure Outcome where
  result : Except MergeFault Report
  merger : Merger
  document : Document

/-- The verdict on what was reported. A strict merger refuses a report that is
    not clean, and otherwise the report is handed out. -/
def conclude (m : Merger) : Except MergeFault Report × Merger :=
  if m.options.strict && !m.report.isClean then
    (.error (.document (.notHonoured m.report.failures.length)), m)
  else (.ok m.report, { m with stage := .done, report := ∅ })

/-- Merges a document. -/
def run (m : Merger) (d : Document) : Outcome :=
  if m.stage = .idle then
    match d.body with
    | none => ⟨.error (.document .noBody), m, d⟩
    | some blocks =>
        let (m, blocks) := m.resolveTables blocks
        let (m, blocks) := m.resolveContent blocks
        let (result, m) := m.conclude
        ⟨result, m, ⟨some blocks⟩⟩
  else ⟨.error (.document (.alreadyUsed m.stage)), m, d⟩

/-- A used merger changes nothing. -/
theorem run_of_stage_ne_idle {m : Merger} {d : Document} (h : m.stage ≠ .idle) :
    m.run d = ⟨.error (.document (.alreadyUsed m.stage)), m, d⟩ := by
  simp only [run, h, if_false]

/-- A document without a body does not use a merger up. -/
theorem run_of_body_eq_none {m : Merger} {d : Document} (idle : m.stage = .idle)
    (body : d.body = none) : m.run d = ⟨.error (.document .noBody), m, d⟩ := by
  simp only [run, idle, if_true, body]

/-- A merge never goes back to an earlier stage. -/
theorem rank_le_rank_run (m : Merger) (d : Document) :
    m.stage.rank ≤ (m.run d).merger.stage.rank := by
  by_cases h : m.stage = .idle
  · rw [h]
    exact Nat.zero_le _
  · simp only [run_of_stage_ne_idle h, Nat.le_refl]

end Merger

/-- Merges a document, or tells why it was refused. -/
def mergeWith (options : Options) (data : Element) (d : Document) :
    Except MergeFault (Document × Report) :=
  let outcome := (Merger.new data options).run d
  outcome.result.map fun report => (outcome.document, report)

/-- Merges a document with the options that hold when nothing is chosen. -/
def merge (data : Element) (d : Document) : Except MergeFault Document :=
  (mergeWith .default data d).map Prod.fst

end MailMerge
