import MailMerge.Proofs.Leftover
import MailMerge.Proofs.Lists

/-!
# Missing Tables

A marker that no table follows is noted as one with a missing table, and a table is
generated in its place. The note is made in the table pass and the table in the content
pass, and neither knows of the other. So they are to agree on which markers these are.

The table pass goes by the address of the paragraph as it is by then. If that is within
reach of the content pass then a table is noted as missing, and if it is too deep then not.
Markers without a table come last, as all of them are below the last table of the document.
So no table is filled any more, and the content pass finds their paragraphs where the table
pass has left them. In tidy templates with tidy data it finds nothing else to generate
tables for, and in paragraphs that repeat no literal there is a table for each marker.

There is one slip. A paragraph may have gone away with a template row, and then there is no
address to go by. The table pass takes it for one within reach, and notes a missing table
which is never generated. These are all the notes that come to nothing.

## Main definitions

* `nearby`: The addresses within reach of the content pass.
* `TableRequest.isLost`: A marker without a table whose paragraph went away.

## Theorems

* `reached_eq_filterMap`: What is within reach, by addresses.
* `TablePass.count_steps`: How many tables the table pass notes as missing.
* `ContentPass.tablesSynthesized_run`: How many tables the content pass generates.
* `count_missingTargetTable`: How the two numbers differ.
-/

namespace MailMerge

/-! ### What is within reach, by addresses -/

/-- The addresses within reach of the content pass: all blocks that are one table deep at
    most, in document order. -/
def nearby (blocks : List Block) : List Address :=
  ((places blocks).map Place.address).filter fun a => a.steps.length ≤ 1

/-- The paragraph that a tracked block is, if it is within reach. -/
def TrackedBlock.near? (c : TrackedBlock Address) : Option Paragraph :=
  if c.id.any fun a => a.steps.length ≤ 1 then c.node.paragraph else none

theorem near?_track (here : Address) (b : Block) : (b.track some here).near? =
    if here.steps.length ≤ 1 then b.paragraph? else none := by
  rw [TrackedBlock.near?, Block.id_track, Block.node_track, Option.any_some]
  simp only [decide_eq_true_eq]

/-- In a table in a cell there is nothing within reach. -/
theorem filterMap_near?_table {here : Address} (h : 1 ≤ here.steps.length) (t : Table) :
    ((Block.table t).track some here).all.filterMap TrackedBlock.near? = [] := by
  rw [List.filterMap_eq_nil_iff]
  intro c hc
  rcases TrackedBlock.mem_all_iff.mp hc with ⟨q, hq⟩
  rw [Block.at?_track] at hq
  rcases Option.map_eq_some_iff.mp hq with ⟨b, hb, rfl⟩
  rw [near?_track]
  -- It is the table itself, or deeper than that.
  cases q with
  | nil =>
      rw [Block.at?_nil, Option.some.injEq] at hb
      rw [← hb]
      exact ite_self none
  | cons s q =>
      refine if_neg ?_
      rw [List.length_append, List.length_cons]
      omega

theorem filterMap_near?_blocks (root row cell block : Nat) (blocks : List Block) :
    (allInBlocks (trackBlocks some ⟨root, []⟩ row cell block blocks)).filterMap
      TrackedBlock.near? = blocks.filterMap Block.paragraph? := by
  induction blocks generalizing block with
  | nil => rfl
  | cons b rest ih =>
      rw [trackBlocks, allInBlocks, List.filterMap_append, ih]
      cases b with
      | paragraph p => rfl
      | table t =>
          have hcell : 1 ≤ (Address.child ⟨root, []⟩ ⟨row, cell, block⟩).steps.length :=
            Nat.le_refl 1
          rw [filterMap_near?_table hcell]
          rfl

theorem filterMap_near?_cells (root row cell : Nat) (cells : List Cell) :
    (allInCells (trackCells some ⟨root, []⟩ row cell cells)).filterMap TrackedBlock.near? =
      cells.flatMap fun c => c.blocks.filterMap Block.paragraph? := by
  induction cells generalizing cell with
  | nil => rfl
  | cons c rest ih =>
      cases c
      rw [trackCells, allInCells, List.filterMap_append, ih, filterMap_near?_blocks,
        List.flatMap_cons]

theorem filterMap_near?_rows (root row : Nat) (rows : List Row) :
    (allInRows (trackRows some ⟨root, []⟩ row rows)).filterMap TrackedBlock.near? =
      rows.flatMap fun r => r.cells.flatMap fun c => c.blocks.filterMap Block.paragraph? := by
  induction rows generalizing row with
  | nil => rfl
  | cons r rest ih =>
      cases r
      rw [trackRows, allInRows, List.filterMap_append, ih, filterMap_near?_cells,
        List.flatMap_cons]

theorem filterMap_near?_from (root : Nat) (blocks : List Block) :
    (allInBlocks (trackFrom root blocks)).filterMap TrackedBlock.near? = reached blocks := by
  induction blocks generalizing root with
  | nil => rfl
  | cons b rest ih =>
      rw [trackFrom, allInBlocks, List.filterMap_append, ih, reached, reached, List.flatMap_cons]
      cases b with
      | paragraph p => rfl
      | table t =>
          cases t
          rw [Block.track, TrackedBlock.all, List.filterMap_cons_none rfl, filterMap_near?_rows]
          rfl

/-- What is within reach, in document order. -/
theorem reached_eq_filterMap (blocks : List Block) :
    reached blocks = (nearby blocks).filterMap (paragraphAt? blocks) := by
  rw [nearby, List.filterMap_filter, List.filterMap_map, ← filterMap_near?_from 0 blocks]
  have h := forall₂_places blocks
  rw [trackBody] at h
  -- Each place is paired with the block that stands there.
  suffices hl : ∀ l l', List.Forall₂ (IsAt blocks) l l' →
      l'.filterMap TrackedBlock.near? = l.filterMap ((fun a : Address =>
        if (decide (a.steps.length ≤ 1)) = true then paragraphAt? blocks a else none) ∘
          Place.address) from hl _ _ h
  intro l l' hl
  induction hl with
  | nil => rfl
  | @cons place c later later' hplace _ ih =>
      have hat := hplace.1
      rw [trackedAt?_trackBody] at hat
      rcases Option.map_eq_some_iff.mp hat with ⟨b, hb, rfl⟩
      rw [List.filterMap_cons, List.filterMap_cons, ih, near?_track, Function.comp_apply,
        paragraphAt?, hb, Option.bind_some]
      simp only [decide_eq_true_eq]

theorem nodup_nearby (blocks : List Block) : (nearby blocks).Nodup := by
  have haddresses : ((places blocks).map Place.address).Nodup :=
    List.pairwise_map.mpr ((pairwise_places blocks).imp Address.Before.ne)
  exact List.Pairwise.filter _ haddresses

theorem mem_nearby {blocks : List Block} {a : Address} {p : Paragraph}
    (h : paragraphAt? blocks a = some p) : a ∈ nearby blocks ↔ a.steps.length ≤ 1 := by
  rcases exists_mem_places (paragraphAt?_eq_some_iff.mp h) with ⟨place, hplace, rfl⟩
  rw [nearby, List.mem_filter, decide_eq_true_eq]
  exact and_iff_right (List.mem_map_of_mem hplace)

/-! ### Notes of missing tables -/

theorem Report.count_append (r s : Report) (kind : Diagnostic.Kind) :
    (r ++ s).count kind = r.count kind + s.count kind := by
  unfold Report.count
  rw [append_def, List.filter_append, List.length_append]

theorem additive_count (kind : Diagnostic.Kind) : Report.Additive fun r => r.count kind = 0 :=
  ⟨rfl, fun r s hr hs => by rw [Report.count_append, hr, hs]⟩

-- Rows that are not found are noted, but not as a missing table.
theorem Element.count_rowsAt (data : Element) (path : String) :
    (data.rowsAt path).report.count .missingTargetTable = 0 := by
  unfold rowsAt
  cases data.resolve? path <;> rfl

theorem count_substitutionReport (data : Element) (markers : List Marker) :
    (substitutionReport data markers).count .missingTargetTable = 0 := by
  rw [Report.count, List.length_eq_zero_iff, List.filter_eq_nil_iff, substitutionReport]
  dsimp only
  intro d hd
  rw [List.mem_filterMap] at hd
  rcases hd with ⟨m, _, hm⟩
  cases hresolve : data.resolve? m.path with
  | some e =>
      rw [hresolve] at hm
      exact absurd hm (by simp only [reduceCtorEq, not_false_eq_true])
  | none =>
      rw [hresolve, Option.some.injEq] at hm
      rw [← hm]
      exact Bool.false_ne_true

/-- The content pass notes no missing table. -/
theorem count_contentPass (data : Element) (options : Options) (blocks : List Block) :
    (ContentPass.run data options blocks).report.count .missingTargetTable = 0 := by
  refine ContentPass.report_run (additive_count _) (fun p => ?_) blocks
  refine ContentPass.report_expand (additive_count _) (fun p => ?_) (fun m => ?_) p
  · unfold substitute
    split
    · rfl
    · exact count_substitutionReport data _
  · rw [generateTable, Reported.report_bind, Report.count_append, Element.count_rowsAt]
    rfl

/-- Whether a missing table is noted for a request after some shifts: no table follows, and
    the paragraph is not found too deep. -/
def TableRequest.isNoted (shifts : List Shift) (r : TableRequest) : Bool :=
  r.target.isNone && !(Shift.follow shifts r.paragraph).any fun a => 1 < a.steps.length

/-- If no table is left then none is left for any request. -/
theorem target_eq_none_of_firstTable? {blocks : List Block} {l : List Place}
    (h : firstTable? l = none) : ∀ r ∈ requestsAmong blocks l, r.target = none := by
  intro r hr
  rcases exists_of_mem_requestsAmong hr with ⟨earlier, place, later, _, rfl, _, _, _, htarget⟩
  rw [firstTable?, Option.map_eq_none_iff, List.find?_eq_none] at h
  rw [htarget, firstTable?, Option.map_eq_none_iff, List.find?_eq_none]
  exact fun x hx => h x (List.mem_append_right earlier (List.mem_cons_of_mem place hx))

/-- Markers without a table come last. -/
theorem pairwise_tableRequests (blocks : List Block) :
    (tableRequests blocks).Pairwise fun r later => r.target = none → later.target = none := by
  rw [tableRequests]
  generalize places blocks = l
  induction l with
  | nil => exact List.Pairwise.nil
  | cons place later ih =>
      rw [requestsAmong]
      split
      · -- The markers of one paragraph ask for the same table.
        refine List.pairwise_append.mpr ⟨List.pairwise_map.mpr ?_, ih, ?_⟩
        · exact List.pairwise_of_forall fun _ _ h => h
        · intro r hr
          rcases List.mem_map.mp hr with ⟨m, _, rfl⟩
          exact fun q hq h => target_eq_none_of_firstTable? h q hq
      · exact ih

namespace TablePass

variable {data : Element} {options : Options}

theorem count_fillAt (path : String) (a : Address) (s : State) :
    (fillAt data options path a s).report.count .missingTargetTable = 0 := by
  rw [fillAt, Reported.report_bind, Report.count_append, Element.count_rowsAt, Nat.zero_add]
  split <;> rfl

theorem count_step (s : State) (r : TableRequest) :
    (step data options s r).report.count .missingTargetTable =
      if r.isNoted s.shifts then 1 else 0 := by
  rcases r with ⟨marker, paragraph, _ | target⟩
  · have hreport : (step data options s ⟨marker, paragraph, none⟩).report =
        .ofDiagnostic (missingDiagnostic marker.path (Shift.follow s.shifts paragraph)) := rfl
    rw [hreport, missingDiagnostic, TableRequest.isNoted, Option.isNone_none, Bool.true_and]
    cases (Shift.follow s.shifts paragraph).any fun a => 1 < a.steps.length <;> rfl
  · rw [report_step_some]
    cases Shift.follow s.shifts target with
    | none => rfl
    | some a => exact count_fillAt marker.path a s

-- A marker without a table changes nothing.
theorem value_steps_of_target_eq_none {s : State} {l : List TableRequest}
    (h : ∀ r ∈ l, r.target = none) : (steps data options s l).value = s := by
  induction l with
  | nil => rfl
  | cons r rest ih =>
      rw [steps, Reported.value_bind]
      have hstep : (step data options s r).value = s := by
        have hr := h r List.mem_cons_self
        rcases r with ⟨marker, paragraph, _ | target⟩
        · rfl
        · exact absurd hr (Option.some_ne_none target)
      rw [hstep]
      exact ih fun x hx => h x (List.mem_cons_of_mem r hx)

/-- How many tables the table pass notes as missing. The markers without a table are all
    honoured after the last fill, so it comes to the same to look at them in the end. -/
theorem count_steps (s : State) {l : List TableRequest}
    (hlast : l.Pairwise fun r later => r.target = none → later.target = none) :
    (steps data options s l).report.count .missingTargetTable =
      l.countP (TableRequest.isNoted (steps data options s l).value.shifts) := by
  induction l generalizing s with
  | nil => rfl
  | cons r rest ih =>
      rw [List.pairwise_cons] at hlast
      rw [steps, Reported.report_bind, Reported.value_bind, Report.count_append, count_step,
        ih _ hlast.2, List.countP_cons, Nat.add_comm]
      congr 2
      by_cases htarget : r.target = none
      · have hsame : (steps data options s (r :: rest)).value = s := by
          refine value_steps_of_target_eq_none fun x hx => ?_
          rcases List.mem_cons.mp hx with rfl | hx
          · exact htarget
          · exact hlast.1 x hx htarget
        rw [steps, Reported.value_bind] at hsame
        rw [hsame]
      · rw [TableRequest.isNoted, TableRequest.isNoted, Option.isNone_eq_false_iff.mpr
          (Option.isSome_iff_ne_none.mpr htarget), Bool.false_and, Bool.false_and]

theorem tablesSynthesized_steps (s : State) (l : List TableRequest) :
    (steps data options s l).report.tablesSynthesized = 0 := by
  induction l generalizing s with
  | nil => rfl
  | cons r rest ih =>
      rw [steps, Reported.report_bind, Report.append_def]
      dsimp only
      rw [ih, Nat.add_zero]
      rcases r with ⟨marker, paragraph, _ | target⟩
      · rfl
      · rw [report_step_some]
        cases Shift.follow s.shifts target with
        | none => rfl
        | some a =>
            rcases data.report_rowsAt marker.path with ⟨diagnostics, hreport⟩
            dsimp only
            rw [fillAt, Reported.report_bind, hreport]
            split <;> rfl

end TablePass

/-! ### Tables that are generated -/

namespace ContentPass

variable {data : Element} {options : Options}

/-- A table is generated for each of the different markers that a paragraph has with its
    content in place. -/
theorem tablesSynthesized_expand (p : Paragraph) :
    (expand data options p).report.tablesSynthesized =
      (Marker.distinct (scan .table (substitute data p).value.text)).length := by
  have hsubstitute : (substitute data p).report.tablesSynthesized = 0 := by
    unfold substitute
    split <;> rfl
  rw [expand, Reported.report_bind, Report.append_def]
  dsimp only
  rw [hsubstitute, Nat.zero_add]
  split
  · next hscan =>
      rw [hscan]
      rfl
  · next m rest hscan =>
      rw [hscan, report_splitAround]

/-- How many tables the content pass generates. -/
theorem tablesSynthesized_run (blocks : List Block) :
    (run data options blocks).report.tablesSynthesized =
      ((reached blocks).map fun p => (expand data options p).report.tablesSynthesized).sum := by
  have hfold : ∀ (l : List Paragraph) (r : Report),
      (l.foldl (fun r p => r ++ (expand data options p).report) r).tablesSynthesized =
        r.tablesSynthesized + (l.map fun p =>
          (expand data options p).report.tablesSynthesized).sum := by
    intro l
    induction l with
    | nil => exact fun r => rfl
    | cons p l ih =>
        intro r
        rw [List.foldl_cons, ih, List.map_cons, List.sum_cons, Report.append_def]
        exact Nat.add_assoc _ _ _
  have h := @append_report_run data options blocks ∅
  rw [Report.empty_append] at h
  rw [h, hfold]
  exact Nat.zero_add _

end ContentPass

/-! ### Where markers without a table come to stand -/

namespace TableRequest

/-- Where the paragraph of a marker without a table stands after some shifts. -/
def standsAt? (shifts : List Shift) (r : TableRequest) : Option Address :=
  if r.target.isNone then Shift.follow shifts r.paragraph else none

theorem standsAt?_eq_some_iff {shifts : List Shift} {r : TableRequest} {a : Address} :
    r.standsAt? shifts = some a ↔ r.target = none ∧ Shift.follow shifts r.paragraph = some a := by
  rw [standsAt?, Option.ite_none_right_eq_some, Option.isNone_iff_eq_none]

/-- Whether no table follows a marker, and its paragraph goes away with the template row of
    a table that is filled. -/
def isLost (filled : List TableRequest) (r : TableRequest) : Bool :=
  r.target.isNone && filled.any fun q => q.takesAway r.paragraph

end TableRequest

namespace TablePass

variable {data : Element} {options : Options} {blocks : List Block}

/-- Different blocks do not come to stand at one address. -/
theorem Tracks.follow_injective {origin : List Block} {s : State}
    {tree : List (TrackedBlock Address)} (h : Tracks origin s tree) {i j a : Address}
    {kind kind' : Block.Kind} (hi : (blockAt? origin i).map Block.kind = some kind)
    (hj : (blockAt? origin j).map Block.kind = some kind')
    (hia : Shift.follow s.shifts i = some a) (hja : Shift.follow s.shifts j = some a) : i = j := by
  rcases (h.located a i kind).mpr ⟨hi, hia⟩ with ⟨c, hc, hid, _⟩
  rcases (h.located a j kind').mpr ⟨hj, hja⟩ with ⟨d, hd, hid', _⟩
  rw [hc, Option.some.injEq] at hd
  rw [hd, hid', Option.some.injEq] at hid
  exact hid.symm

/-- A marker without a table is still in its paragraph after the pass. -/
theorem marker_mem_scan_run {r : TableRequest} (hr : r ∈ tableRequests blocks) {a : Address}
    (ha : r.standsAt? (finalShifts data options blocks) = some a) :
    ∃ p, paragraphAt? (run data options blocks).value a = some p ∧
      r.marker ∈ scan .table p.text := by
  rcases TableRequest.standsAt?_eq_some_iff.mp ha with ⟨htarget, hfollow⟩
  rcases mem_scan_of_mem_tableRequests hr with ⟨p, hp, hmarker⟩
  refine ⟨p, ?_, hmarker⟩
  rw [paragraphAt?_run_of_follow (paragraphAt?_eq_some_iff.mp hp) hfollow,
    erasedFrom_eq_nil fun q hq heq => target_eq_none_of_paragraph_eq hr htarget hq heq]
  rfl

/-- As many tables are generated in a paragraph as there are markers without a table that
    came to stand there. -/
theorem tablesSynthesized_expand_run (tidy : IsTidyBody blocks) (hdata : data.Avoids '<')
    (hnodup : ∀ a p, paragraphAt? blocks a = some p →
      ((scan .table p.text).map Marker.literal).Nodup) {a : Address} {p : Paragraph}
    (h : paragraphAt? (run data options blocks).value a = some p) :
    (ContentPass.expand data options p).report.tablesSynthesized =
      (tableRequests blocks).countP fun r =>
        r.standsAt? (finalShifts data options blocks) = some a := by
  rcases exists_readsAs_run tidy (fun m _ => hdata.textAt m.path) h with ⟨l, hl, _, htable⟩
  have hexpand : ((scan .table p.text).map Marker.literal).Nodup →
      (ContentPass.expand data options p).report.tablesSynthesized =
        (scan .table p.text).length := by
    intro hp
    rcases hl.substitute (fun m _ => hdata.textAt m.path) with ⟨l', hl', _, hsame⟩
    have hliterals : (scan .table (substitute data p).value.text).map Marker.literal =
        (scan .table p.text).map Marker.literal := by
      rw [hl'.map_literal_scan, hsame, ← hl.map_literal_scan]
    rw [← hliterals] at hp
    rw [ContentPass.tablesSynthesized_expand, Marker.distinct_eq_self hp,
      ← List.length_map Marker.literal, hliterals, List.length_map]
  rcases htable with hnone | ⟨i, hi, hpi, htarget⟩
  · have hscan : scan .table p.text = [] := by
      rw [← List.map_eq_nil_iff, hl.map_literal_scan, hnone, List.map_nil]
    rw [hexpand (by rw [hscan]; exact List.nodup_nil), hscan]
    refine (List.countP_eq_zero.mpr fun r hr hra => ?_).symm
    rcases marker_mem_scan_run hr (of_decide_eq_true hra) with ⟨q, hq, hmarker⟩
    rw [h, Option.some.injEq] at hq
    rw [← hq, hscan] at hmarker
    exact List.not_mem_nil hmarker
  · -- It was there before with these markers, and no other paragraph came to stand there.
    rcases exists_filter_tableRequests hpi with ⟨target, hfilter⟩
    have hlength := congrArg List.length hfilter
    rw [List.length_map, ← List.countP_eq_length_filter] at hlength
    rw [hexpand (hnodup i p hpi), ← hlength]
    refine List.countP_congr fun r hr => ?_
    rw [decide_eq_true_eq, decide_eq_true_eq, TableRequest.standsAt?_eq_some_iff]
    constructor
    · intro hri
      exact ⟨htarget r hr hri, hri ▸ hi⟩
    · intro hra
      rcases exists_tracks_run data options blocks with ⟨tree, htracks, _⟩
      have hkind := (sound_of_mem_tableRequests hr).paragraph
      have hkind' : (blockAt? blocks i).map Block.kind = some .paragraph := by
        rw [paragraphAt?_eq_some_iff.mp hpi]
        rfl
      exact htracks.follow_injective hkind hkind' hra.2 hi

end TablePass

variable {data : Element} {options : Options} {blocks : List Block}

/-- How many tables a merge generates: one for each marker without a table whose paragraph
    came to stand within reach. -/
theorem tablesSynthesized_passes (tidy : IsTidyBody blocks) (hdata : data.Avoids '<')
    (hnodup : ∀ a p, paragraphAt? blocks a = some p →
      ((scan .table p.text).map Marker.literal).Nodup) :
    (passes options data blocks).report.tablesSynthesized =
      (tableRequests blocks).countP fun r =>
        (r.standsAt? (TablePass.finalShifts data options blocks)).any
          fun a => a.steps.length ≤ 1 := by
  have hpass : (TablePass.run data options blocks).report.tablesSynthesized = 0 := by
    rw [TablePass.run, Reported.report_bind, Reported.report_pure, Report.append_empty,
      TablePass.tablesSynthesized_steps]
  rw [passes, Reported.report_bind, Report.append_def]
  dsimp only
  rw [hpass, Nat.zero_add, ContentPass.tablesSynthesized_run, reached_eq_filterMap,
    sum_map_filterMap]
  -- Address by address, the tables are generated for the markers that stand there.
  have haddress : ∀ a ∈ nearby (TablePass.run data options blocks).value,
      ((paragraphAt? (TablePass.run data options blocks).value a).map fun p =>
        (ContentPass.expand data options p).report.tablesSynthesized).getD 0 =
      (tableRequests blocks).countP fun r =>
        r.standsAt? (TablePass.finalShifts data options blocks) = some a := by
    intro a _
    cases hp : paragraphAt? (TablePass.run data options blocks).value a with
    | some p => exact TablePass.tablesSynthesized_expand_run tidy hdata hnodup hp
    | none =>
        refine (List.countP_eq_zero.mpr fun r hr hra => ?_).symm
        rcases TablePass.marker_mem_scan_run hr (of_decide_eq_true hra) with ⟨q, hq, _⟩
        rw [hp] at hq
        exact absurd hq.symm (Option.some_ne_none q)
  rw [List.map_congr_left haddress, sum_map_countP _ _ (nodup_nearby _)]
  refine List.countP_congr fun r hr => ?_
  cases hra : r.standsAt? (TablePass.finalShifts data options blocks) with
  | none => exact Iff.rfl
  | some a =>
      rcases TablePass.marker_mem_scan_run hr hra with ⟨p, hp, _⟩
      rw [Option.any_some, Option.any_some, decide_eq_true_eq, decide_eq_true_eq, mem_nearby hp]

/-- A missing table is noted for a marker that came to stand within reach, and for one that
    was lost, which came to stand nowhere. -/
theorem isNoted_finalShifts (r : TableRequest) :
    let lost := r.isLost (TablePass.filling data options ⟨blocks, []⟩ (tableRequests blocks))
    let near := (r.standsAt? (TablePass.finalShifts data options blocks)).any
      fun a => a.steps.length ≤ 1
    r.isNoted (TablePass.finalShifts data options blocks) = (near || lost) ∧
      (near = true → lost = false) := by
  have hkeeps : (Shift.follow (TablePass.finalShifts data options blocks) r.paragraph).isSome =
      !(TablePass.filling data options ⟨blocks, []⟩ (tableRequests blocks)).any
        fun q => q.takesAway r.paragraph := by
    have h := @TablePass.keeps_steps blocks ⟨blocks, []⟩ (trackBody blocks) data options
      (TablePass.tracks_trackBody blocks) _ (fun _ hr => sound_of_mem_tableRequests hr) r.paragraph
    rwa [Shift.keeps, Shift.keeps, Shift.follow, Option.isSome_some, Bool.true_and] at h
  unfold TableRequest.isNoted TableRequest.isLost TableRequest.standsAt?
  cases htarget : r.target with
  | some t => exact ⟨rfl, fun h => absurd h Bool.false_ne_true⟩
  | none =>
      rw [Option.isNone_none, if_pos rfl, Bool.true_and, Bool.true_and]
      cases hfollow : Shift.follow (TablePass.finalShifts data options blocks) r.paragraph with
      | none =>
          rw [hfollow, Option.isSome_none, Bool.false_eq, Bool.not_eq_false'] at hkeeps
          rw [hkeeps]
          exact ⟨rfl, fun h => absurd h Bool.false_ne_true⟩
      | some a =>
          rw [hfollow, Option.isSome_some, Bool.true_eq, Bool.not_eq_true'] at hkeeps
          rw [hkeeps, Option.any_some, Option.any_some]
          dsimp only
          rw [Bool.or_false, ← decide_not]
          exact ⟨decide_eq_decide.mpr Nat.not_lt, fun _ => rfl⟩

/-- In a lenient merge, all data and texts being tidy and no paragraph repeating a table
    marker, there is a note of a missing table for each table that is generated, and one
    more for each marker without a table whose paragraph went away with the template row of
    a table that was filled. So each note means a table exactly if there are none of these. -/
theorem count_missingTargetTable (lenient : options.strict = false) (tidy : IsTidyBody blocks)
    (hnodup : ∀ a p, paragraphAt? blocks a = some p →
      ((scan .table p.text).map Marker.literal).Nodup) (hdata : data.Avoids '<') :
    let lost := (tableRequests blocks).filter
      (TableRequest.isLost (TablePass.filling data options ⟨blocks, []⟩ (tableRequests blocks)))
    ∃ out report, mergeWith options data ⟨some blocks⟩ = .ok (out, report) ∧
      report.count .missingTargetTable = report.tablesSynthesized + lost.length ∧
      (report.count .missingTargetTable = report.tablesSynthesized ↔ lost = []) := by
  intro lost
  have ok : mergeWith options data ⟨some blocks⟩ =
      .ok (⟨some (passes options data blocks).value⟩, (passes options data blocks).report) :=
    mergeWith_eq_ok_iff.mpr ⟨blocks, rfl, rfl, rfl, fun h => by
      rw [lenient] at h
      exact absurd h Bool.false_ne_true⟩
  have hnoted : (passes options data blocks).report.count .missingTargetTable =
      (tableRequests blocks).countP
        (TableRequest.isNoted (TablePass.finalShifts data options blocks)) := by
    rw [passes, Reported.report_bind, Report.count_append, count_contentPass, Nat.add_zero,
      TablePass.run, Reported.report_bind, Reported.report_pure, Report.append_empty,
      TablePass.count_steps _ (pairwise_tableRequests blocks)]
    rfl
  have hcount : (passes options data blocks).report.count .missingTargetTable =
      (passes options data blocks).report.tablesSynthesized + lost.length := by
    have hsplit := funext fun r => (@isNoted_finalShifts data options blocks r).1
    rw [hnoted, tablesSynthesized_passes tidy hdata hnodup, hsplit,
      countP_or fun r => (@isNoted_finalShifts data options blocks r).2,
      ← List.countP_eq_length_filter]
  refine ⟨_, _, ok, hcount, ?_⟩
  rw [hcount, ← List.length_eq_zero_iff]
  omega

/-- A marker whose table has a marker of its own in the template row, which no table
    follows. -/
def markerInTemplate : List Block :=
  [.paragraph (.ofText "<# <Table Select=\"A\" /> #>"),
    .table ⟨∅, [.ofTexts ["h"], .ofTexts ["./X", "<# <Table Select=\"B\" /> #>"]]⟩]

/-- A marker in a template row, and another one without a table below. -/
def markerInTemplateAndBelow : List Block :=
  markerInTemplate ++ [.paragraph (.ofText "<# <Table Select=\"B\" /> #>")]

theorem avoids_rowsForBoth : rowsForBoth.Avoids '<' := by
  simp [rowsForBoth, Element.avoids_mk_iff]

/-- Two tables are noted as missing, and one is generated. -/
theorem count_markerInTemplateAndBelow :
    IsTidyBody markerInTemplateAndBelow ∧ rowsForBoth.Avoids '<' ∧
      (tableRequests markerInTemplateAndBelow).filter (TableRequest.isLost (TablePass.filling
        rowsForBoth .default ⟨markerInTemplateAndBelow, []⟩
          (tableRequests markerInTemplateAndBelow))) ≠ [] ∧
      ∃ out report, mergeWith .default rowsForBoth ⟨some markerInTemplateAndBelow⟩ =
          .ok (out, report) ∧
        report.count .missingTargetTable = report.tablesSynthesized + 1 := by
  have tidy : IsTidyBody markerInTemplateAndBelow := by decide +kernel
  have hnodup : ∀ a p, paragraphAt? markerInTemplateAndBelow a = some p →
      ((scan .table p.text).map Marker.literal).Nodup :=
    forall_paragraphAt?_iff.mpr (by decide +kernel)
  have hlost : ((tableRequests markerInTemplateAndBelow).filter (TableRequest.isLost
      (TablePass.filling rowsForBoth .default ⟨markerInTemplateAndBelow, []⟩
        (tableRequests markerInTemplateAndBelow)))).length = 1 := by decide +kernel
  refine ⟨tidy, avoids_rowsForBoth, List.ne_nil_of_length_pos (by omega), ?_⟩
  rcases @count_missingTargetTable rowsForBoth .default markerInTemplateAndBelow rfl tidy hnodup
    avoids_rowsForBoth with ⟨out, report, ok, hcount, _⟩
  rw [hlost] at hcount
  exact ⟨out, report, ok, hcount⟩

/-- A table is noted as missing, and none is generated. -/
theorem count_markerInTemplate :
    IsTidyBody markerInTemplate ∧
      (∀ a p, paragraphAt? markerInTemplate a = some p →
        ((scan .table p.text).map Marker.literal).Nodup) ∧ rowsForBoth.Avoids '<' ∧
      ∃ out report, mergeWith .default rowsForBoth ⟨some markerInTemplate⟩ = .ok (out, report) ∧
        report.count .missingTargetTable = 1 ∧ report.tablesSynthesized = 0 :=
  ⟨by decide +kernel, forall_paragraphAt?_iff.mpr (by decide +kernel), avoids_rowsForBoth, _, _,
    mergeWith_eq_ok_iff.mpr ⟨markerInTemplate, rfl, rfl, rfl, nofun⟩, by decide +kernel,
    by decide +kernel⟩

end MailMerge
