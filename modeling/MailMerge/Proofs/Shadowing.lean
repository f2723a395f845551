import MailMerge.Proofs.Reporting
import MailMerge.Proofs.TableReference

/-!
# Markers that Lose their Tables

A table marker can be honoured when a table follows and its path leads to rows. That
does not mean that it is. Its table may stand in the template row of another table
that is filled before, and goes away with that row. Nothing is noted when it does, so
a strict merge comes through all the same, with fewer tables filled than there were
markers to honour.

When this happens is decided in the document as it was. A table goes away exactly if
it stands in row 1 of the table of an earlier marker that can be honoured, whether that
marker was itself honoured or not: if the earlier table went away then what was in its
row 1 went away with it. So a strict merge that comes through has filled the tables of
the markers that no earlier one shadows, and of no other.

## Main definitions

* `TableRequest.isHonourable`: Whether there is a table and there are rows for it.
* `TableRequest.takesAway`: Whether an address is in the template row.
* `TableRequest.shadows`: Whether the table of a later request is.
* `TablePass.fills`, `TablePass.filling`: The requests that do fill their tables.
* `unshadowed`: The requests that no earlier one shadows.

## Theorems

* `follow_eq_none_of_rowIn?`: What is inside of a table is lost with the table.
* `keeps_step`, `keeps_steps`: What steps lose.
* `tablesPopulated_steps`: How many tables steps fill.
* `keeps_steps_of_isClean`, `tablesPopulated_steps_of_isClean`: The same for clean steps.
* `tablesPopulated_of_strict`: How many tables a strict merge fills, and when that is one
  for each marker that can be honoured.
-/

namespace MailMerge

/-! ### Inside of inside -/

-- By induction on the outermost table: `b` goes on from it, and `c` from `b`.
theorem rowInSteps_trans {a b c : List Step} {row : Nat} (hab : rowInSteps a b = some row)
    (hbc : (rowInSteps b c).isSome = true) : rowInSteps a c = some row := by
  induction a generalizing b c with
  | nil =>
      cases b with
      | nil => exact absurd hab (by simp only [rowInSteps, reduceCtorEq, not_false_eq_true])
      | cons t b =>
          cases c with
          | nil => exact absurd hbc (by simp only [rowInSteps, Option.isSome_none,
              Bool.false_eq_true, not_false_eq_true])
          | cons u c =>
              rw [rowInSteps] at hbc
              split at hbc
              · next htu =>
                  rw [← htu]
                  exact hab
              · exact absurd hbc (by simp only [Option.isSome_none, Bool.false_eq_true,
                  not_false_eq_true])
  | cons s a ih =>
      cases b with
      | nil => exact absurd hab (by simp only [rowInSteps, reduceCtorEq, not_false_eq_true])
      | cons t b =>
          cases c with
          | nil => exact absurd hbc (by simp only [rowInSteps, Option.isSome_none,
              Bool.false_eq_true, not_false_eq_true])
          | cons u c =>
              rw [rowInSteps] at hab hbc ⊢
              split at hab
              · next hst =>
                  split at hbc
                  · next htu =>
                      rw [if_pos (hst.trans htu)]
                      exact ih hab hbc
                  · exact absurd hbc (by simp only [Option.isSome_none, Bool.false_eq_true,
                      not_false_eq_true])
              · exact absurd hab (by simp only [reduceCtorEq, not_false_eq_true])

/-- What is inside of a block is in the same row of a table as the block. -/
theorem Address.rowIn?_trans {a b c : Address} {row : Nat} (hab : a.rowIn? b = some row)
    (hbc : (b.rowIn? c).isSome = true) : a.rowIn? c = some row := by
  rcases Option.isSome_iff_exists.mp hbc with ⟨row', hrow'⟩
  rcases rowIn?_eq_some_iff.mp hab with ⟨hroot, hsteps⟩
  rcases rowIn?_eq_some_iff.mp hrow' with ⟨hroot', hsteps'⟩
  refine rowIn?_eq_some_iff.mpr ⟨hroot'.trans hroot, rowInSteps_trans hsteps ?_⟩
  rw [hsteps', Option.isSome_some]

/-- What is inside of a table is lost with the table. -/
theorem Shift.follow_eq_none_of_rowIn? {shifts : List Shift} (pos : ∀ s ∈ shifts, 0 < s.inserted)
    {t u : Address} (h : (t.rowIn? u).isSome = true) (ht : follow shifts t = none) :
    follow shifts u = none := by
  induction shifts generalizing t u with
  | nil => exact absurd ht (by simp only [follow, reduceCtorEq, not_false_eq_true])
  | cons s rest ih =>
      rw [follow] at ht ⊢
      cases hu : Address.rebase s.table s.inserted u with
      | none => rfl
      | some u' =>
          rw [Option.bind_some]
          -- If the table is lost in this fill then so is what is inside of it. If not then
          -- it is still inside of it, and the rest is by induction.
          cases ht' : Address.rebase s.table s.inserted t with
          | none =>
              have hrow := Address.rowIn?_trans (Address.rebase_eq_none_iff.mp ht') h
              rw [Address.rebase_eq_none_iff.mpr hrow] at hu
              exact absurd hu (by simp only [reduceCtorEq, not_false_eq_true])
          | some t' =>
              rw [ht', Option.bind_some] at ht
              refine ih (fun x hx => pos x (List.mem_cons_of_mem s hx)) ?_ ht
              rw [Address.rowIn?_rebase (pos s List.mem_cons_self) hu ht']
              split
              · rw [Option.isSome_map, h]
              · exact h

/-! ### Shadows -/

namespace TableRequest

/-- Whether a request can be honoured: there is a table, and there are rows for it. -/
def isHonourable (data : Element) (r : TableRequest) : Bool :=
  r.target.isSome && !(data.listAt r.marker.path).isEmpty

/-- Whether an address lies in the template row of a request's table. -/
def takesAway (r : TableRequest) (a : Address) : Bool :=
  (r.target.bind fun t => t.rowIn? a) = some 1

/-- Whether the table of a later request stands in the template row of a request's
    table. -/
def shadows (r later : TableRequest) : Bool := later.target.any r.takesAway

end TableRequest

/-- Whether an address is not lost after some shifts. -/
def Shift.keeps (shifts : List Shift) (a : Address) : Bool := (follow shifts a).isSome

/-- Whether the table of a request is not lost after some shifts. -/
def TableRequest.isLive (shifts : List Shift) (r : TableRequest) : Bool :=
  r.target.any (Shift.keeps shifts)

/-- The requests that no earlier one shadows. -/
def unshadowed : List TableRequest → List TableRequest
  | [] => []
  | r :: rest => r :: (unshadowed rest).filter fun later => !r.shadows later

-- Requests are only left out, and stay in order.
theorem unshadowed_sublist (l : List TableRequest) : (unshadowed l).Sublist l := by
  induction l with
  | nil => exact List.Sublist.refl []
  | cons r rest ih => exact (List.filter_sublist.trans ih).cons_cons r

/-- No request is shadowed exactly if none shadows a later one. -/
theorem length_unshadowed_eq_iff (l : List TableRequest) :
    (unshadowed l).length = l.length ↔ l.Pairwise fun r later => r.shadows later = false := by
  induction l with
  | nil => simp only [unshadowed, List.Pairwise.nil]
  | cons r rest ih =>
      have hsublist := unshadowed_sublist rest
      rw [unshadowed, List.length_cons, List.length_cons, List.pairwise_cons, ← ih,
        Nat.add_right_cancel_iff]
      have hfilter := List.length_filter_le (fun later => !r.shadows later) (unshadowed rest)
      constructor
      · intro h
        have hlen : (unshadowed rest).length = rest.length := by
          have hle := hsublist.length_le
          omega
        rw [hsublist.eq_of_length hlen, List.length_filter_eq_length_iff] at h
        refine ⟨fun later hlater => ?_, hlen⟩
        have hshadows := h later hlater
        rwa [Bool.not_eq_true'] at hshadows
      · intro h'
        rcases h' with ⟨hnone, hlen⟩
        rw [hsublist.eq_of_length hlen, List.length_filter_eq_length_iff]
        intro later hlater
        rw [hnone later hlater, Bool.not_false]

-- Where there are rows to fill in, a fill that does nothing has another reason.
theorem Table.fill_cons_ne_noData (options : Options) (first : Element) (rest : List Element)
    (t : Table) : Table.fill options (first :: rest) t ≠ .noData := by
  rcases t with ⟨properties, _ | ⟨header, _ | ⟨templateRow, rows⟩⟩⟩
  · exact Table.Filling.noConfusion
  · exact Table.Filling.noConfusion
  · simp only [Table.fill]
    cases Table.Template.ofRow first.columns templateRow <;> exact Table.Filling.noConfusion

namespace TablePass

variable {origin : List Block} {s : State} {tree : List (TrackedBlock Address)}

/-- A clean fill fails for want of rows only. -/
theorem filledAt?_isSome_of_isClean {data : Element} {options : Options} {path : String}
    {a : Address} {t : Table} (ht : tableAt? s.blocks a = some t)
    (clean : (fillAt data options path a s).report.isClean = true) :
    (filledAt? data options path a s).isSome = !(data.listAt path).isEmpty := by
  rw [fillAt, Reported.report_bind, Element.value_rowsAt, ht, Option.map_some,
    Report.isClean_append, Bool.and_eq_true] at clean
  rw [filledAt?, ht, Option.bind_some]
  cases hrows : data.listAt path with
  | nil =>
      rw [Table.fill]
      rfl
  | cons first rest =>
      rw [hrows] at clean
      cases hfill : Table.fill options (first :: rest) t with
      | filled table => rfl
      | noData => exact absurd hfill (Table.fill_cons_ne_noData options first rest t)
      | misfit reason =>
          rw [hfill] at clean
          exact absurd clean.2 Bool.false_ne_true

/-- A fill loses what its table takes away, and nothing else. -/
theorem keeps_concat (h : Tracks origin s tree) {r : TableRequest} {target a : Address}
    {inserted : Nat} (hr : r.target = some target) (ha : Shift.follow s.shifts target = some a)
    (u : Address) :
    Shift.keeps (s.shifts ++ [⟨a, inserted⟩]) u =
      (Shift.keeps s.shifts u && !r.takesAway u) := by
  rw [Shift.keeps, Shift.keeps, TableRequest.takesAway, hr, Option.bind_some, Shift.follow_concat]
  cases hu : Shift.follow s.shifts u with
  | none => rfl
  | some b =>
      have hrow := (Shift.rowIn?_follow h.inserted hu ha).2
      rw [Option.bind_some, Option.isSome_some, Bool.true_and]
      by_cases hone : target.rowIn? u = some 1
      · rw [decide_eq_true hone, Address.rebase_eq_none_iff.mpr (hrow.mpr hone)]
        rfl
      · have hne : Address.rebase a inserted b ≠ none :=
          fun h => hone (hrow.mp (Address.rebase_eq_none_iff.mp h))
        rw [decide_eq_false hone, Option.isSome_iff_ne_none.mpr hne]
        rfl

/-- What a table takes away is lost when the table is. -/
theorem keeps_eq_false_of_takesAway (h : Tracks origin s tree) {r : TableRequest}
    {target u : Address} (hr : r.target = some target)
    (hfollow : Shift.follow s.shifts target = none) (htakes : r.takesAway u = true) :
    Shift.keeps s.shifts u = false := by
  rw [TableRequest.takesAway, hr, Option.bind_some, decide_eq_true_eq] at htakes
  rw [Shift.keeps, Shift.follow_eq_none_of_rowIn? h.inserted
    (by rw [htakes, Option.isSome_some]) hfollow, Option.isSome_none]

/-! ### Steps that fill -/

section

variable {data : Element} {options : Options}

/-- Whether honouring a request fills its table. -/
def fills (data : Element) (options : Options) (s : State) (r : TableRequest) : Bool :=
  (r.target.bind (Shift.follow s.shifts)).any fun a =>
    (filledAt? data options r.marker.path a s).isSome

/-- Which of the requests fill their tables when they are honoured in turn. -/
def filling (data : Element) (options : Options) : State → List TableRequest → List TableRequest
  | _, [] => []
  | s, r :: rest =>
      [r].filter (fills data options s) ++ filling data options (step data options s r).value rest

theorem filling_sublist (s : State) (l : List TableRequest) :
    (filling data options s l).Sublist l := by
  induction l generalizing s with
  | nil => exact List.Sublist.refl []
  | cons r rest ih =>
      rw [filling, ← List.singleton_append]
      exact List.filter_sublist.append (ih _)

theorem tablesPopulated_step (s : State) (r : TableRequest) :
    (step data options s r).report.tablesPopulated =
      ([r].filter (fills data options s)).length := by
  rcases r with ⟨marker, paragraph, _ | target⟩
  · rfl
  · rw [report_step_some, List.filter_singleton, fills, Option.bind_some]
    cases Shift.follow s.shifts target with
    | none => rfl
    | some a =>
        dsimp only
        rw [Option.any_some]
        cases hfill : filledAt? data options marker.path a s with
        | none => exact (fillAt_of_eq_none hfill).2
        | some filled => rw [(fillAt_of_eq_some hfill).2, Option.isSome_some]; rfl

/-- As many tables are counted as are filled. -/
theorem tablesPopulated_steps (s : State) (l : List TableRequest) :
    (steps data options s l).report.tablesPopulated = (filling data options s l).length := by
  induction l generalizing s with
  | nil => rfl
  | cons r rest ih =>
      rw [steps, Reported.report_bind, Report.append_def, filling, List.length_append]
      dsimp only
      rw [tablesPopulated_step, ih]

/-- A step loses what its table takes away if it fills the table, and nothing otherwise. -/
theorem keeps_step (h : Tracks origin s tree) (r : TableRequest) (u : Address) :
    Shift.keeps (step data options s r).value.shifts u =
      (Shift.keeps s.shifts u && !(fills data options s r && r.takesAway u)) := by
  rcases r with ⟨marker, paragraph, _ | target⟩
  · change Shift.keeps s.shifts u = (Shift.keeps s.shifts u && !(false && _))
    rw [Bool.false_and, Bool.not_false, Bool.and_true]
  · rw [shifts_step_some, fills, Option.bind_some]
    cases hfollow : Shift.follow s.shifts target with
    | none =>
        dsimp only
        rw [Option.any_none, Bool.false_and, Bool.not_false, Bool.and_true]
    | some a =>
        dsimp only
        rw [Option.any_some]
        cases hfill : filledAt? data options marker.path a s with
        | none =>
            rw [(fillAt_of_eq_none hfill).1, Option.isSome_none, Bool.false_and, Bool.not_false,
              Bool.and_true]
        | some filled =>
            rw [(fillAt_of_eq_some hfill).1, Option.isSome_some, Bool.true_and]
            exact keeps_concat h rfl hfollow u

/-- What steps lose: what the tables that they fill take away. -/
theorem keeps_steps (h : Tracks origin s tree) {l : List TableRequest}
    (hl : ∀ r ∈ l, r.Sound origin) (u : Address) :
    Shift.keeps (steps data options s l).value.shifts u =
      (Shift.keeps s.shifts u && !(filling data options s l).any fun r => r.takesAway u) := by
  induction l generalizing s tree with
  | nil =>
      rw [filling, List.any_nil, Bool.not_false, Bool.and_true]
      rfl
  | cons r rest ih =>
      have hnext := (tracks_step h (hl r List.mem_cons_self) data options 0).1
      have hrest := ih hnext fun x hx => hl x (List.mem_cons_of_mem r hx)
      have hfirst : ([r].filter (fills data options s)).any (fun r => r.takesAway u) =
          (fills data options s r && r.takesAway u) := by
        rw [List.any_filter, List.any_cons, List.any_nil, Bool.or_false]
      rw [steps, Reported.value_bind, hrest, keeps_step h r u, filling, List.any_append, hfirst,
        Bool.not_or, Bool.and_assoc]

end

/-! ### Clean steps -/

/-- A clean step fills a table if it can be honoured and its table is not lost. -/
theorem fills_of_isClean (h : Tracks origin s tree) {r : TableRequest} (hr : r.Sound origin)
    {data : Element} {options : Options}
    (clean : (step data options s r).report.isClean = true) :
    fills data options s r = (r.isHonourable data && r.isLive s.shifts) := by
  rcases r with ⟨marker, paragraph, _ | target⟩
  · rfl
  · rw [report_step_some] at clean
    rw [fills, Option.bind_some, TableRequest.isLive, Option.any_some, Shift.keeps]
    cases hfollow : Shift.follow s.shifts target with
    | none => rw [Option.any_none, Option.isSome_none, Bool.and_false]
    | some a =>
        rcases h.tableOf?_of_follow (hr.target target rfl) hfollow with ⟨t, _, _, ht⟩
        rw [hfollow] at clean
        rw [Option.any_some, Option.isSome_some, Bool.and_true, TableRequest.isHonourable,
          Option.isSome_some, Bool.true_and]
        exact filledAt?_isSome_of_isClean ht clean

/-- What a clean step loses. If its table is lost, then what that takes away was lost with
    it. -/
theorem keeps_step_of_isClean (h : Tracks origin s tree) {r : TableRequest}
    (hr : r.Sound origin) {data : Element} {options : Options}
    (clean : (step data options s r).report.isClean = true) (u : Address) :
    Shift.keeps (step data options s r).value.shifts u =
      (Shift.keeps s.shifts u && !(r.isHonourable data && r.takesAway u)) := by
  rw [keeps_step h r u, fills_of_isClean h hr clean]
  by_cases hlost : r.takesAway u = true ∧ r.isLive s.shifts = false
  · rcases r with ⟨marker, paragraph, _ | target⟩
    · exact absurd hlost.1 Bool.false_ne_true
    · rcases hlost with ⟨htakes, hlive⟩
      rw [TableRequest.isLive, Option.any_some, Shift.keeps, Option.isSome_eq_false_iff,
        Option.isNone_iff_eq_none] at hlive
      rw [keeps_eq_false_of_takesAway h rfl hlive htakes, Bool.false_and, Bool.false_and]
  · cases htakes : r.takesAway u with
    | false => rw [Bool.and_false, Bool.and_false]
    | true =>
        have hlive : r.isLive s.shifts = true := by
          by_cases hlive : r.isLive s.shifts = true
          · exact hlive
          · exact absurd ⟨htakes, Bool.eq_false_iff.mpr hlive⟩ hlost
        rw [hlive, Bool.and_true]

/-- What clean steps lose: what the table of a request that can be honoured takes away. -/
theorem keeps_steps_of_isClean (h : Tracks origin s tree) {l : List TableRequest}
    (hl : ∀ r ∈ l, r.Sound origin) {data : Element} {options : Options}
    (clean : (steps data options s l).report.isClean = true) (u : Address) :
    Shift.keeps (steps data options s l).value.shifts u =
      (Shift.keeps s.shifts u && !l.any fun r => r.isHonourable data && r.takesAway u) := by
  induction l generalizing s tree with
  | nil =>
      rw [List.any_nil, Bool.not_false, Bool.and_true]
      rfl
  | cons r rest ih =>
      rw [steps, Reported.report_bind, Report.isClean_append, Bool.and_eq_true] at clean
      have hr := hl r List.mem_cons_self
      have hnext := (tracks_step h hr data options 0).1
      have hrest := ih hnext (fun x hx => hl x (List.mem_cons_of_mem r hx)) clean.2
      rw [steps, Reported.value_bind, hrest, keeps_step_of_isClean h hr clean.1 u, List.any_cons,
        Bool.not_or, Bool.and_assoc]

/-- A clean step loses the tables that it shadows. -/
theorem isLive_step (h : Tracks origin s tree) {r : TableRequest} (hr : r.Sound origin)
    {data : Element} {options : Options}
    (clean : (step data options s r).report.isClean = true) (later : TableRequest) :
    later.isLive (step data options s r).value.shifts =
      (later.isLive s.shifts && !(r.isHonourable data && r.shadows later)) := by
  rw [TableRequest.isLive, TableRequest.isLive, TableRequest.shadows]
  cases later.target with
  | none => rfl
  | some u =>
      rw [Option.any_some, Option.any_some, Option.any_some]
      exact keeps_step_of_isClean h hr clean u

/-- How many tables clean steps fill: those of the requests that can be honoured, that no
    earlier one of them shadows, and whose tables were not lost before. -/
theorem tablesPopulated_steps_of_isClean (h : Tracks origin s tree) {l : List TableRequest}
    (hl : ∀ r ∈ l, r.Sound origin) {data : Element} {options : Options}
    (clean : (steps data options s l).report.isClean = true) :
    (steps data options s l).report.tablesPopulated =
      ((unshadowed (l.filter (·.isHonourable data))).filter (·.isLive s.shifts)).length := by
  induction l generalizing s tree with
  | nil => rfl
  | cons r rest ih =>
      rw [steps, Reported.report_bind, Report.isClean_append, Bool.and_eq_true] at clean
      have hr := hl r List.mem_cons_self
      have hcount : (step data options s r).report.tablesPopulated =
          if r.isHonourable data && r.isLive s.shifts then 1 else 0 := by
        rw [tablesPopulated_step, List.filter_singleton, fills_of_isClean h hr clean.1]
        cases r.isHonourable data && r.isLive s.shifts <;> rfl
      have hlive := isLive_step h hr clean.1
      have hnext := (tracks_step h hr data options 0).1
      have hrest := ih hnext (fun x hx => hl x (List.mem_cons_of_mem r hx)) clean.2
      rw [steps, Reported.report_bind, Report.append_def]
      dsimp only
      rw [hcount, hrest]
      cases hhonourable : r.isHonourable data with
      | false =>
          -- It fills nothing and shadows nothing.
          have hsame : (TableRequest.isLive (step data options s r).value.shifts) =
              TableRequest.isLive s.shifts := by
            funext later
            rw [hlive, hhonourable, Bool.false_and, Bool.not_false, Bool.and_true]
          have hdrop : (r :: rest).filter (·.isHonourable data) =
              rest.filter (·.isHonourable data) :=
            List.filter_cons_of_neg (by rw [hhonourable]; exact Bool.false_ne_true)
          rw [hsame, hdrop, Bool.false_and]
          simp only [Bool.false_eq_true, if_false, Nat.zero_add]
      | true =>
          -- It counts if its table is live, and the tables it shadows are not live after it.
          have hsplit : (unshadowed (rest.filter (·.isHonourable data))).filter
              (TableRequest.isLive (step data options s r).value.shifts) =
              ((unshadowed (rest.filter (·.isHonourable data))).filter
                fun later => !r.shadows later).filter (TableRequest.isLive s.shifts) := by
            rw [List.filter_filter]
            congr 1
            funext later
            rw [hlive, hhonourable, Bool.true_and]
          have hkeep : (r :: rest).filter (·.isHonourable data) =
              r :: rest.filter (·.isHonourable data) := List.filter_cons_of_pos hhonourable
          rw [hsplit, hkeep, unshadowed, List.filter_cons, Bool.true_and]
          split
          · rw [List.length_cons, Nat.add_comm]
          · rw [Nat.zero_add]

-- What is reported on both passes is clean only if what is reported on the first one is.
theorem isClean_steps_of_passes {options : Options} {data : Element} {blocks : List Block}
    (clean : (passes options data blocks).report.isClean = true) :
    (steps data options ⟨blocks, []⟩ (tableRequests blocks)).report.isClean = true := by
  rw [passes, Reported.report_bind, Report.isClean_append, Bool.and_eq_true, run,
    Reported.report_bind, Reported.report_pure, Report.append_empty] at clean
  exact clean.1

end TablePass

/-- What a strict merge that comes through has filled: the tables of the markers that can be
    honoured and that no earlier one of them shadows. These are all that can be honoured
    exactly if none of them shadows a later one. -/
theorem tablesPopulated_of_strict {options : Options} {data : Element} {d : Document}
    {blocks : List Block} {report : Report} (body : d.body = some blocks)
    (strict : options.strict = true)
    (ok : ((Merger.new data options).run d).result = .ok report) :
    let honourable := (tableRequests blocks).filter (·.isHonourable data)
    report.tablesPopulated = (unshadowed honourable).length ∧
      (report.tablesPopulated = honourable.length ↔
        honourable.Pairwise fun r later => r.shadows later = false) := by
  rcases Merger.result_run_eq_ok_iff.mp ok with ⟨blocks', hbody, rfl, hclean⟩
  rw [body, Option.some.injEq] at hbody
  subst hbody
  have hsteps := TablePass.tablesPopulated_steps_of_isClean (TablePass.tracks_trackBody blocks)
    (fun _ hr => sound_of_mem_tableRequests hr) (TablePass.isClean_steps_of_passes (hclean strict))
  -- In the beginning no table is lost.
  have hlive : ∀ r ∈ unshadowed ((tableRequests blocks).filter (·.isHonourable data)),
      r.isLive [] = true := by
    intro r hr
    have hr := (List.mem_filter.mp ((unshadowed_sublist _).subset hr)).2
    rw [TableRequest.isHonourable, Bool.and_eq_true] at hr
    rcases Option.isSome_iff_exists.mp hr.1 with ⟨target, htarget⟩
    rw [TableRequest.isLive, htarget, Option.any_some, Shift.keeps, Shift.follow,
      Option.isSome_some]
  rw [List.filter_eq_self.mpr hlive] at hsteps
  have hcount : (passes options data blocks).report.tablesPopulated =
      (unshadowed ((tableRequests blocks).filter (·.isHonourable data))).length := by
    rw [tablesPopulated_passes, hsteps]
  refine ⟨hcount, ?_⟩
  rw [hcount]
  exact length_unshadowed_eq_iff _

/-- A table marker with a table that has a marker of its own in the header, and the table
    of that one in the template row. -/
def nestedTables : List Block :=
  [.paragraph (.ofText "<# <Table Select=\"A\" /> #>"),
    .table ⟨∅, [⟨∅, [⟨∅, [.paragraph (.ofText "<# <Table Select=\"B\" /> #>")]⟩]⟩,
      ⟨∅, [⟨∅, [.paragraph (.ofText "./X"),
        .table ⟨∅, [.ofTexts ["h"], .ofTexts ["./X"]]⟩]⟩]⟩]⟩]

/-- Rows for both of the markers. -/
def rowsForBoth : Element :=
  ⟨"D", [.element ⟨"A", [.element ⟨"I", [.element ⟨"X", [.text "1"]⟩]⟩]⟩,
    .element ⟨"B", [.element ⟨"I", [.element ⟨"X", [.text "2"]⟩]⟩]⟩]⟩

/-- A strict merge of both nested tables comes through. -/
theorem tablesPopulated_nestedTables :
    ((Merger.new rowsForBoth { Options.default with strict := true }).run
        ⟨some nestedTables⟩).result = .ok ⟨0, 0, 1, []⟩ ∧
      let honourable := (tableRequests nestedTables).filter (·.isHonourable rowsForBoth)
      1 = (unshadowed honourable).length ∧ (1 = honourable.length ↔
        honourable.Pairwise fun r later => r.shadows later = false) :=
  ⟨rfl, @tablesPopulated_of_strict { Options.default with strict := true } rowsForBoth
    ⟨some nestedTables⟩ nestedTables ⟨0, 0, 1, []⟩ rfl rfl rfl⟩

/-- Both markers can be honoured, a strict merge comes through, and it has filled one
    table. -/
theorem strict_nestedTables_drops_one :
    ((tableRequests nestedTables).filter (·.isHonourable rowsForBoth)).length = 2 ∧
      ((Merger.new rowsForBoth { Options.default with strict := true }).run
        ⟨some nestedTables⟩).result = .ok ⟨0, 0, 1, []⟩ :=
  ⟨rfl, rfl⟩

end MailMerge
