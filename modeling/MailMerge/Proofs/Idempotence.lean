import MailMerge.Proofs.Leftover
import MailMerge.Proofs.Untouched

/-!
# Merging Twice

A body without markers at any depth is what a merge has to come to. There is nothing to
request and nothing to expand, so merging it changes nothing and reports nothing, whatever
the data and the options are.

So a merge is idempotent if it leaves no marker anywhere. All paragraphs that it leaves are
of one of two sorts. Either they come from the expansion of a paragraph that the content
pass gets to, and then they have no markers if the texts are tidy and no marker is
repeated. Or they were too deep for the content pass before and still are, and then the
table pass has left them: as they were if they had no markers, or as texts of the data.

## Main definitions

* `Unmarked`: A body without markers at any depth.
* `Block.IsShallow`: A block with no table in the cells of another.

## Theorems

* `mergeWith_of_unmarked`: A body without markers stays, and nothing is reported.
* `exists_of_paragraphAt?_run`: Where the paragraphs after the content pass come from.
* `hasMarkers_of_paragraphAt?_run`: No marker is left deep inside by the table pass.
* `mergeWith_idempotent`: A merge leaves no markers, and merging again changes nothing.
-/

namespace MailMerge

/-- Whether no paragraph of a body has markers, at whatever depth. -/
def Unmarked (blocks : List Block) : Prop :=
  ∀ a p, paragraphAt? blocks a = some p → hasMarkers p.text = false

/-! ### Nothing to do -/

theorem Unmarked.tableRequests_eq_nil {blocks : List Block} (h : Unmarked blocks) :
    tableRequests blocks = [] := by
  refine List.eq_nil_iff_forall_not_mem.mpr fun r hr => ?_
  rcases mem_scan_of_mem_tableRequests hr with ⟨p, hp, hm⟩
  rw [(hasMarkers_eq_false_iff.mp (h r.paragraph p hp)).2] at hm
  exact List.not_mem_nil hm

/-- Both passes leave a body without markers alone. -/
theorem Unmarked.passes_eq {blocks : List Block} (h : Unmarked blocks) (options : Options)
    (data : Element) : passes options data blocks = pure blocks := by
  rw [passes, TablePass.run_of_tableRequests_eq_nil h.tableRequests_eq_nil, pure_bind]
  refine ContentPass.run_of_no_markers fun p hp => ?_
  rcases mem_reached_iff.mp hp with ⟨a, _, ha⟩
  exact h a p ha

/-- Merging a body without markers changes nothing, and there is nothing to report. -/
theorem mergeWith_of_unmarked {blocks : List Block} (h : Unmarked blocks) (options : Options)
    (data : Element) : mergeWith options data ⟨some blocks⟩ = .ok (⟨some blocks⟩, ∅) := by
  refine mergeWith_eq_ok_iff.mpr ⟨blocks, rfl, ?_, ?_, fun _ => rfl⟩
  · rw [h.passes_eq, Reported.value_pure]
  · rw [h.passes_eq, Reported.report_pure]

/-! ### How deep an expansion goes -/

/-- Whether a block is a paragraph, or a table with nothing but paragraphs in its cells. -/
def Block.IsShallow : Block → Prop
  | .paragraph _ => True
  | .table t => ∀ r ∈ t.rows, ∀ c ∈ r.cells, ∀ b ∈ c.blocks, ∃ p, b = .paragraph p

/-- Whatever stands in a shallow block is within reach. -/
theorem Block.IsShallow.mem_reached {b : Block} (h : b.IsShallow) {steps : List Step}
    {p : Paragraph} (hp : b.at? steps = some (.paragraph p)) : p ∈ b.reached := by
  cases steps with
  | nil =>
      rw [Block.at?_nil, Option.some.injEq] at hp
      rw [hp, Block.reached]
      exact List.mem_singleton_self p
  | cons s steps =>
      rcases Block.exists_of_at?_cons hp with ⟨t, rfl, r, hr, c, hc, b, hb, hp⟩
      rcases h r hr c hc b hb with ⟨q, rfl⟩
      -- No descent goes on from a paragraph.
      cases steps with
      | nil =>
          rw [Block.at?_nil, Option.some.injEq] at hp
          exact mem_reached_table.mpr ⟨r, hr, c, hc, hp ▸ hb⟩
      | cons u steps => exact absurd hp (by simp only [Block.at?, reduceCtorEq,
          not_false_eq_true])

theorem isShallow_ofElements (options : Options) (elements : List Element) :
    (Block.table (Table.ofElements options elements)).IsShallow := by
  have hcell : ∀ properties text, ∀ b ∈ (Cell.ofText properties text).blocks,
      ∃ p, b = .paragraph p :=
    fun _ text b hb => ⟨.ofText text, List.mem_singleton.mp hb⟩
  intro r hr c hc b hb
  cases elements with
  | nil => exact absurd hr List.not_mem_nil
  | cons first rest =>
      rcases List.mem_cons.mp hr with rfl | hr
      · rcases List.mem_map.mp hc with ⟨name, _, rfl⟩
        exact hcell _ name b hb
      · rcases List.mem_map.mp hr with ⟨e, _, rfl⟩
        rcases List.mem_map.mp hc with ⟨text, _, rfl⟩
        exact hcell _ text b hb

theorem isShallow_of_mem_fragment {t : List Char} {b : Block} (h : b ∈ fragment t) :
    b.IsShallow := by
  rw [fragment] at h
  split at h
  · exact absurd h List.not_mem_nil
  · rw [List.mem_singleton.mp h, Block.IsShallow]
    exact True.intro

theorem isShallow_of_mem_interleave {t : List Char} {tables : List (String × Table)}
    (htables : ∀ x ∈ tables, (Block.table x.2).IsShallow) {b : Block}
    (h : b ∈ interleave t tables) : b.IsShallow := by
  induction tables generalizing t with
  | nil => exact isShallow_of_mem_fragment h
  | cons x tables ih =>
      have hrest : ∀ {rest}, b ∈ interleave rest tables → b.IsShallow :=
        ih fun y hy => htables y (List.mem_cons_of_mem x hy)
      rw [interleave] at h
      split at h
      · rcases List.mem_append.mp h with h | h
        · exact isShallow_of_mem_fragment h
        · rcases List.mem_cons.mp h with rfl | h
          · exact htables x List.mem_cons_self
          · exact hrest h
      · exact hrest h

namespace ContentPass

variable {data : Element} {options : Options}

/-- The blocks that a paragraph becomes are paragraphs and generated tables. -/
theorem isShallow_of_mem_expand {p : Paragraph} {b : Block}
    (h : b ∈ (expand data options p).value) : b.IsShallow := by
  by_cases hscan : scan .table (substitute data p).value.text = []
  · rw [value_expand_of_eq_nil hscan] at h
    rw [List.mem_singleton.mp h, Block.IsShallow]
    exact True.intro
  · rw [value_expand_of_ne_nil hscan] at h
    refine isShallow_of_mem_interleave (fun x hx => ?_) h
    rcases List.mem_map.mp hx with ⟨m, _, rfl⟩
    dsimp only
    exact isShallow_ofElements options _

/-- Each paragraph after the content pass is within reach in an expansion, or was in the
    body before, in a table inside another. -/
theorem exists_of_paragraphAt?_run {blocks : List Block} {a : Address} {q : Paragraph}
    (h : paragraphAt? (run data options blocks).value a = some q) :
    (∃ p ∈ reached blocks, ∃ b ∈ (expand data options p).value, q ∈ b.reached) ∨
      ∃ i, 2 ≤ i.steps.length ∧ paragraphAt? blocks i = some q := by
  rcases a with ⟨root, steps⟩
  rcases Option.bind_eq_some_iff.mp (paragraphAt?_eq_some_iff.mp h) with ⟨b, hb, hq⟩
  have hb := List.mem_of_getElem? hb
  rw [value_run] at hb
  rcases List.mem_flatMap.mp hb with ⟨x, hx, hb⟩
  cases x with
  | paragraph p =>
      exact Or.inl ⟨p, List.mem_flatMap.mpr ⟨_, hx, List.mem_singleton_self p⟩, b, hb,
        (isShallow_of_mem_expand hb).mem_reached hq⟩
  | table t =>
      rw [List.mem_singleton.mp hb, value_expandTable] at hq
      cases steps with
      | nil => exact absurd hq (by simp only [Block.at?, Option.some.injEq, reduceCtorEq,
          not_false_eq_true])
      | cons s steps =>
          rcases Block.exists_of_at?_cons hq with ⟨u, hu, hin⟩
          obtain rfl := Block.table.inj hu
          rcases hin with ⟨_, hr', _, hc', c, hcell, hq⟩
          rcases List.mem_map.mp hr' with ⟨r, hr, rfl⟩
          rcases List.mem_map.mp hc' with ⟨cell, hc, rfl⟩
          rcases List.mem_flatMap.mp hcell with ⟨y, hy, hcy⟩
          cases y with
          | paragraph p =>
              have hp := mem_reached_table.mpr ⟨r, hr, cell, hc, hy⟩
              exact Or.inl ⟨p, List.mem_flatMap.mpr ⟨_, hx, hp⟩, c, hcy,
                (isShallow_of_mem_expand hcy).mem_reached hq⟩
          | table u =>
              -- A table in a cell is not entered, so what is in it stands where it stood.
              rw [List.mem_singleton.mp hcy] at hq
              rcases List.mem_iff_getElem?.mp hx with ⟨k, hk⟩
              rcases Table.exists_step hr hc hy with ⟨v, hv⟩
              refine Or.inr ⟨⟨k, v :: steps⟩, ?_, paragraphAt?_eq_some_iff.mpr ?_⟩
              · cases steps with
                | nil => exact absurd hq (by simp only [Block.at?, Option.some.injEq, reduceCtorEq,
                    not_false_eq_true])
                | cons w steps => exact Nat.le_add_left 2 steps.length
              · rw [blockAt?, hk, Option.bind_some, hv, hq]

end ContentPass

/-! ### What is too deep -/

/-- Where the table pass finds no markers deep inside, it leaves none. -/
theorem TablePass.hasMarkers_of_paragraphAt?_run {data : Element} {options : Options}
    {blocks : List Block} (hdata : data.Avoids '<')
    (deep : ∀ a p, paragraphAt? blocks a = some p → 2 ≤ a.steps.length → hasMarkers p.text = false)
    {a : Address} {p : Paragraph} (h : paragraphAt? (run data options blocks).value a = some p)
    (ha : 2 ≤ a.steps.length) : hasMarkers p.text = false := by
  rcases exists_of_paragraphAt?_run h with ⟨i, hi, p₀, hat, rfl⟩ | ⟨text, rfl, htext⟩
  · -- It is as deep as before, so it had no markers, and nothing was taken out of it.
    have hp₀ := paragraphAt?_eq_some_iff.mpr hat
    have hnone := deep i p₀ hp₀ (by rw [← Shift.length_of_follow hi]; exact ha)
    have herased : erasedFrom i (tableRequests blocks) = [] := by
      refine erasedFrom_eq_nil fun r hr hri => ?_
      rcases mem_scan_of_mem_tableRequests hr with ⟨p, hp, hm⟩
      rw [hri, hp₀, Option.some.injEq] at hp
      rw [← hp, (hasMarkers_eq_false_iff.mp hnone).2] at hm
      exact absurd hm List.not_mem_nil
    rw [herased]
    exact hnone
  · rw [Paragraph.text_ofText]
    rcases htext with rfl | ⟨r, hr, e, he, name, rfl⟩
    · exact hasMarkers_of_notMem List.not_mem_nil
    · have havoids := Element.notMem_text_of_avoids (hdata.of_mem_listAt he)
      exact hasMarkers_of_notMem (Element.notMem_textUnder havoids name)

/-! ### Merging again -/

/-- No marker is left at any depth, if the texts and the data are tidy, no marker is too
    deep, and none is repeated in its paragraph. -/
theorem unmarked_passes {options : Options} {data : Element} {blocks : List Block}
    (tidy : IsTidyBody blocks)
    (deep : ∀ a p, paragraphAt? blocks a = some p → 2 ≤ a.steps.length → hasMarkers p.text = false)
    (nodup : ∀ a p, paragraphAt? blocks a = some p →
      ((scan .table p.text).map Marker.literal).Nodup)
    (hdata : data.Avoids '<') : Unmarked (passes options data blocks).value := by
  intro a q hq
  rw [passes, Reported.value_bind] at hq
  rcases ContentPass.exists_of_paragraphAt?_run hq with ⟨p, hp, b, hb, hqb⟩ | ⟨i, hlen, hi⟩
  · rcases mem_reached_iff.mp hp with ⟨i, _, hi⟩
    rcases TablePass.exists_readsAs_run tidy (fun m _ => hdata.textAt m.path) hi with
      ⟨l, hl, _, htable⟩
    refine ContentPass.hasMarkers_of_mem_expand hl hdata ?_ hb hqb
    rcases htable with hnone | ⟨j, _, hj, _⟩
    · rw [hl.map_literal_scan, hnone]
      exact List.nodup_nil
    · exact nodup j p hj
  · exact TablePass.hasMarkers_of_paragraphAt?_run hdata deep hi hlen

/-- A lenient merge of tidy texts with tidy data leaves no marker at any depth, provided
    that no marker was inside two tables or more and no table marker was repeated in its
    paragraph. So merging what it leaves changes nothing, and there is nothing to report. -/
theorem mergeWith_idempotent {options : Options} {data : Element} {d : Document}
    {blocks : List Block} (body : d.body = some blocks) (lenient : options.strict = false)
    (tidy : IsTidyBody blocks)
    (deep : ∀ a p, paragraphAt? blocks a = some p → 2 ≤ a.steps.length → hasMarkers p.text = false)
    (nodup : ∀ a p, paragraphAt? blocks a = some p →
      ((scan .table p.text).map Marker.literal).Nodup)
    (hdata : data.Avoids '<') :
    ∃ out report, mergeWith options data d = .ok (⟨some out⟩, report) ∧
      (∀ a p, paragraphAt? out a = some p → hasMarkers p.text = false) ∧
      mergeWith options data ⟨some out⟩ = .ok (⟨some out⟩, ⟨0, 0, 0, []⟩) := by
  have unmarked : Unmarked (passes options data blocks).value :=
    unmarked_passes tidy deep nodup hdata
  refine ⟨_, _, mergeWith_eq_ok_iff.mpr ⟨blocks, body, rfl, rfl, fun strict => ?_⟩, unmarked,
    mergeWith_of_unmarked unmarked options data⟩
  rw [lenient] at strict
  exact absurd strict Bool.false_ne_true

/-- A template with markers of both kinds in one paragraph, a table to fill that has a
    content marker in its header and a table without markers inside, and a paragraph that
    is split around two tables. -/
def invoice : List Block :=
  [.paragraph (.ofText "For <# <Content Select=\"N\" /> #><# <Table Select=\"A\" /> #>"),
    .table ⟨∅, [.ofTexts ["<# <Content Select=\"N\" /> #>"], .ofTexts ["./X"],
      ⟨∅, [⟨∅, [.table ⟨∅, [.ofTexts ["net"]]⟩]⟩]⟩]⟩,
    .paragraph (.ofText "<# <Table Select=\"A\" /> #>and<# <Table Select=\"A/I\" /> #>")]

/-- Merging the template twice is merging it once. -/
theorem mergeWith_invoice_idempotent :
    IsTidyBody invoice ∧ nameAndRow.Avoids '<' ∧
      ∃ out report, mergeWith .default nameAndRow ⟨some invoice⟩ = .ok (⟨some out⟩, report) ∧
        (∀ a p, paragraphAt? out a = some p → hasMarkers p.text = false) ∧
        mergeWith .default nameAndRow ⟨some out⟩ = .ok (⟨some out⟩, ⟨0, 0, 0, []⟩) := by
  have tidy : IsTidyBody invoice := by decide +kernel
  have deep : ∀ a p, paragraphAt? invoice a = some p → 2 ≤ a.steps.length →
      hasMarkers p.text = false := forall_paragraphAt?_iff.mpr (by decide +kernel)
  have nodup : ∀ a p, paragraphAt? invoice a = some p →
      ((scan .table p.text).map Marker.literal).Nodup :=
    forall_paragraphAt?_iff.mpr (by decide +kernel)
  exact ⟨tidy, avoids_nameAndRow,
    mergeWith_idempotent rfl rfl tidy deep nodup avoids_nameAndRow⟩

end MailMerge
