import MailMerge.Proofs.Reach

/-!
# The Verdict

Strictness is an option like the others, and a merge carries its options along wherever it
goes. Yet only the verdict looks at it. Neither pass does: tables are filled and generated
with an eye to colours and borders, and everything else goes by the document and the data.

So the passes can be made once for both kinds of merger. What is left is to read the
verdict off the report. A lenient merger hands every report out. A strict one hands it out
when nothing in it is a failure, and tells how many failures there are otherwise. By then
the document has been rewritten all the same, and the merger stays where the content pass
has left it.

## Theorems

* `passes_strict`: Neither pass looks at strictness.
* `failures_eq_nil_iff`, `isClean_iff`: When there is nothing to refuse.
* `Merger.run_new`: Everything that the run of a new merger leaves behind.
* `Merger.run_strict_of_lenient`: A strict run next to the lenient one.
-/

namespace MailMerge

variable {data : Element} {options : Options} {b : Bool}

/-! ### Work that does not look at strictness -/

-- Rows are filled with an eye to cell borders, and tables generated with an eye to all but
-- strictness.
theorem Table.fill_strict : Table.fill { options with strict := b } = Table.fill options := rfl

theorem Table.ofElements_strict :
    Table.ofElements { options with strict := b } = Table.ofElements options := rfl

namespace TablePass

theorem step_strict (s : State) (r : TableRequest) :
    step data { options with strict := b } s r = step data options s r := by
  unfold step fillAt
  rw [Table.fill_strict]

theorem steps_strict (s : State) (l : List TableRequest) :
    steps data { options with strict := b } s l = steps data options s l := by
  induction l generalizing s with
  | nil => rfl
  | cons r rest ih =>
      rw [steps, steps, step_strict]
      congr 1
      funext next
      exact ih next

theorem run_strict (blocks : List Block) :
    run data { options with strict := b } blocks = run data options blocks := by
  unfold run
  rw [steps_strict]

end TablePass

theorem ContentPass.expand_strict (p : Paragraph) :
    expand data { options with strict := b } p = expand data options p := by
  unfold expand splitAround generateTable
  rw [Table.ofElements_strict]

/-- Neither pass looks at strictness. -/
theorem passes_strict (blocks : List Block) :
    passes { options with strict := b } data blocks = passes options data blocks := by
  unfold passes
  rw [TablePass.run_strict]
  congr 1
  funext filled
  exact ContentPass.run_congr fun p _ => ContentPass.expand_strict p

/-! ### Reports to refuse -/

namespace Report

theorem failures_eq_filter (r : Report) :
    r.failures = r.diagnostics.filter fun x => x.kind ≠ .missingTargetTable := by
  unfold failures Diagnostic.isInformational
  simp only [decide_not]

theorem isClean_iff {r : Report} :
    r.isClean = true ↔ ∀ x ∈ r.diagnostics, x.kind = .missingTargetTable := by
  unfold isClean Diagnostic.isInformational
  simp only [List.all_eq_true, decide_eq_true_eq]

/-- There is nothing to refuse when all diagnostics only inform. -/
theorem failures_eq_nil_iff {r : Report} : r.failures = [] ↔ r.isClean = true := by
  unfold failures isClean
  simp only [List.filter_eq_nil_iff, List.all_eq_true, Bool.not_eq_true', Bool.not_eq_false]

end Report

/-! ### The two mergers -/

namespace Merger

/-- Everything that the run of a new merger leaves behind. A refused report stays with the
    merger, and one that is handed out is gone from it. -/
theorem run_new (blocks : List Block) :
    (new data options).run ⟨some blocks⟩ =
      let merged := passes options data blocks
      if options.strict && !merged.report.isClean then
        ⟨.error (.document (.notHonoured merged.report.failures.length)),
          ⟨data, options, .contentResolved, merged.report⟩, ⟨some merged.value⟩⟩
      else ⟨.ok merged.report, ⟨data, options, .done, ∅⟩, ⟨some merged.value⟩⟩ := by
  rw [run_of_body rfl rfl]
  dsimp only [new]
  rw [Report.empty_append]
  unfold conclude
  by_cases h : (options.strict && !(passes options data blocks).report.isClean) = true
  · rw [if_pos h, if_pos h]
  · rw [if_neg h, if_neg h]

/-- A strict run next to the lenient one. The document comes out the same. The lenient run
    always hands out a report. The strict run hands out the same one if all diagnostics in
    it only inform, and otherwise refuses with the number of the others, of which there is
    one at least. -/
theorem run_strict_of_lenient (data : Element) (options : Options) (blocks : List Block) :
    let lenient := (new data { options with strict := false }).run ⟨some blocks⟩
    let strict := (new data { options with strict := true }).run ⟨some blocks⟩
    strict.document = lenient.document ∧ lenient.merger.stage = .done ∧
      ∃ report, lenient.result = .ok report ∧
        if ∀ x ∈ report.diagnostics, x.kind = .missingTargetTable then
          strict.result = .ok report ∧ strict.merger.stage = .done
        else
          ∃ n, 1 ≤ n ∧
            n = (report.diagnostics.filter fun x => x.kind ≠ .missingTargetTable).length ∧
            strict.result = .error (.document (.notHonoured n)) ∧
            strict.merger.stage = .contentResolved := by
  have hlenient := @run_new data { options with strict := false } blocks
  have hstrict := @run_new data { options with strict := true } blocks
  rw [passes_strict] at hlenient hstrict
  generalize passes options data blocks = merged at hlenient hstrict
  simp only [Bool.false_and, Bool.true_and, Bool.false_eq_true, if_false] at hlenient hstrict
  dsimp only
  rw [hlenient, hstrict]
  by_cases hclean : merged.report.isClean = true
  · rw [if_neg (by rw [hclean]; exact Bool.false_ne_true)]
    refine ⟨rfl, rfl, _, rfl, ?_⟩
    rw [if_pos (Report.isClean_iff.mp hclean)]
    exact ⟨rfl, rfl⟩
  · rw [if_pos (by rw [Bool.eq_false_iff.mpr hclean, Bool.not_false])]
    refine ⟨rfl, rfl, _, rfl, ?_⟩
    rw [if_neg fun h => hclean (Report.isClean_iff.mpr h)]
    have hne : merged.report.failures.length ≠ 0 := fun h =>
      hclean (Report.failures_eq_nil_iff.mp (List.eq_nil_of_length_eq_zero h))
    exact ⟨_, by omega, by rw [Report.failures_eq_filter], rfl, rfl⟩

end Merger

end MailMerge
