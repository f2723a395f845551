import MailMerge.Proofs.Reach
import MailMerge.Proofs.Reporting
import MailMerge.Proofs.TidyParagraph

/-!
# Inert Data

Whether a merge reads data that its template does not ask for. Texts of the data are put
into paragraphs that are searched for markers again: new rows are searched by the
content pass, and a paragraph with its content in place is searched for table markers.
So a marker in the data would be honoured like one of the template, and so would a marker
that comes about when parts of it are put next to each other.

Neither happens when the template is tidy and no text that it asks for has a `<`. Then
every marker that is honoured was in the template. Two data trees that agree on what the
template asks for are not told apart by any step, so the merges are the same.

## Main definitions

* `Element.AgreeOn`: Data trees that agree on what some markers ask for.

## Theorems

* `TablePass.run_congr`: The table pass reads what the markers ask for.
* `ContentPass.expand_congr`: So does the content pass in a paragraph.
* `mergeWith_congr`: So does a merge.
-/

namespace MailMerge

/-- Whether two data trees agree on what some markers ask for. -/
def Element.AgreeOn (markers : List Marker) (data data' : Element) : Prop :=
  ∀ m ∈ markers, data.resolve? m.path = data'.resolve? m.path

variable {data data' : Element} {options : Options}

theorem Element.AgreeOn.mono {l l' : List Marker} (h : AgreeOn l data data')
    (hsubset : ∀ m ∈ l', m ∈ l) : AgreeOn l' data data' :=
  fun m hm => h m (hsubset m hm)

/-! ### What is read at a path -/

section

variable {path : String} (h : data.resolve? path = data'.resolve? path)

include h

theorem Element.rowsAt_congr : data.rowsAt path = data'.rowsAt path := by
  unfold Element.rowsAt
  rw [h]

theorem Element.textAt_congr : data.textAt path = data'.textAt path := by
  unfold Element.textAt
  rw [h]

theorem TablePass.fillAt_congr (table : Address) (s : State) :
    fillAt data options path table s = fillAt data' options path table s := by
  unfold fillAt
  rw [Element.rowsAt_congr h]

end

/-! ### The table pass -/

namespace TablePass

theorem step_congr {r : TableRequest}
    (h : data.resolve? r.marker.path = data'.resolve? r.marker.path) (s : State) :
    step data options s r = step data' options s r := by
  unfold step
  simp only [fillAt_congr h]

theorem steps_congr {l : List TableRequest}
    (h : Element.AgreeOn (l.map TableRequest.marker) data data') (s : State) :
    steps data options s l = steps data' options s l := by
  induction l generalizing s with
  | nil => rfl
  | cons r rest ih =>
      have hrest := h.mono fun m hm => List.mem_cons_of_mem r.marker hm
      rw [steps, steps, step_congr (h r.marker List.mem_cons_self)]
      congr 1
      funext next
      exact ih hrest next

/-- The table pass reads what the markers ask for. -/
theorem run_congr {blocks : List Block} (h : Element.AgreeOn (markersIn blocks) data data') :
    run data options blocks = run data' options blocks := by
  have hrequests : ∀ m ∈ (tableRequests blocks).map TableRequest.marker, m ∈ markersIn blocks := by
    intro m hm
    rcases List.mem_map.mp hm with ⟨r, hr, rfl⟩
    exact marker_mem_markersIn hr
  rw [run, run, steps_congr (h.mono hrequests)]

end TablePass

/-! ### The content pass -/

theorem substituteText_congr {markers : List Marker} (h : Element.AgreeOn markers data data')
    (text : String) : substituteText data markers text = substituteText data' markers text := by
  induction markers generalizing text with
  | nil => rfl
  | cons m rest ih =>
      have hrest := h.mono fun x hx => List.mem_cons_of_mem m hx
      rw [substituteText, substituteText, Element.textAt_congr (h m List.mem_cons_self)]
      exact ih hrest _

theorem substitutionReport_congr {markers : List Marker}
    (h : Element.AgreeOn markers data data') :
    substitutionReport data markers = substitutionReport data' markers := by
  unfold substitutionReport
  refine congrArg (fun diagnostics => (⟨markers.length, 0, 0, diagnostics⟩ : Report)) ?_
  refine List.filterMap_congr fun m hm => ?_
  rw [h m hm]

theorem substitute_congr {p : Paragraph}
    (h : Element.AgreeOn (scan .content p.text) data data') :
    substitute data p = substitute data' p := by
  unfold substitute
  cases hscan : scan .content p.text with
  | nil => rfl
  | cons m rest =>
      rw [hscan] at h
      have hdistinct := h.mono fun x hx => Marker.mem_of_mem_distinct hx
      dsimp only
      rw [substituteText_congr hdistinct, substitutionReport_congr h]

theorem splitAround_congr {markers : List Marker} (h : Element.AgreeOn markers data data')
    (text : String) :
    splitAround data options text markers = splitAround data' options text markers := by
  unfold splitAround
  rw [Reported.mapM_congr fun m hm => ?_]
  have hpath := h m (Marker.mem_of_mem_distinct hm)
  unfold generateTable
  rw [Element.rowsAt_congr hpath]

namespace ContentPass

/-- What a paragraph becomes is read from what its content markers ask for, and then from
    what the table markers ask for that it has with its content in place. -/
theorem expand_congr {p : Paragraph} (hcontent : Element.AgreeOn (scan .content p.text) data data')
    (htable : Element.AgreeOn (scan .table (substitute data p).value.text) data data') :
    expand data options p = expand data' options p := by
  unfold expand
  rw [← substitute_congr hcontent]
  -- The two paragraphs are the same, so the same tables are generated in them.
  refine Reported.ext ?_ ?_
  · rw [Reported.value_bind, Reported.value_bind]
    cases hscan : scan .table (substitute data p).value.text with
    | nil => rfl
    | cons m rest =>
        rw [hscan] at htable
        dsimp only
        rw [splitAround_congr htable]
  · rw [Reported.report_bind, Reported.report_bind]
    cases hscan : scan .table (substitute data p).value.text with
    | nil => rfl
    | cons m rest =>
        rw [hscan] at htable
        dsimp only
        rw [splitAround_congr htable]

end ContentPass

/-! ### Merges -/

/-- Both passes read what the markers of the template ask for, all texts being tidy. -/
theorem passes_congr {blocks : List Block} (tidy : IsTidyBody blocks)
    (hdata : ∀ m ∈ markersIn blocks, '<' ∉ (data.textAt m.path).toList)
    (h : Element.AgreeOn (markersIn blocks) data data') :
    passes options data blocks = passes options data' blocks := by
  rw [passes, passes, ← TablePass.run_congr h]
  have hcontent : ContentPass.run data options (TablePass.run data options blocks).value =
      ContentPass.run data' options (TablePass.run data options blocks).value := by
    refine ContentPass.run_congr fun p hp => ?_
    rcases mem_reached_iff.mp hp with ⟨a, _, ha⟩
    rcases TablePass.exists_readsAs_run tidy hdata ha with ⟨l, hl, hmarkers, _⟩
    -- Whatever is asked for in this paragraph is asked for in the template.
    have hasked : ∀ kind literal path, (literal, path) ∈ asked kind l →
        ∃ m ∈ markersIn blocks, m.path = path := by
      intro kind literal path hx
      rcases hmarkers kind _ hx with ⟨m, hm, heq⟩
      exact ⟨m, hm, congrArg Prod.snd heq⟩
    have hfree : ∀ m ∈ scan .content p.text, '<' ∉ (data.textAt m.path).toList := by
      intro m hm
      rcases hasked .content _ _ (hl.mem_asked_of_mem_scan hm) with ⟨m', hm', hpath⟩
      rw [← hpath]
      exact hdata m' hm'
    rcases hl.substitute hfree with ⟨l', hl', _, htable⟩
    refine ContentPass.expand_congr (fun m hm => ?_) (fun m hm => ?_)
    · rcases hasked .content _ _ (hl.mem_asked_of_mem_scan hm) with ⟨m', hm', hpath⟩
      rw [← hpath]
      exact h m' hm'
    · -- With its content in place the paragraph asks for the same tables as before.
      have hx := hl'.mem_asked_of_mem_scan hm
      rw [htable] at hx
      rcases hasked .table _ _ hx with ⟨m', hm', hpath⟩
      rw [← hpath]
      exact h m' hm'
  refine Reported.ext ?_ ?_
  · rw [Reported.value_bind, Reported.value_bind, hcontent]
  · rw [Reported.report_bind, Reported.report_bind, hcontent]

/-- A merge of a tidy template reads nothing but what the template asks for, if the texts
    that it asks for are tidy: data trees that agree on this give the same merge. -/
theorem mergeWith_congr {d : Document} (tidy : IsTidyBody (d.body.getD []))
    (hdata : ∀ m ∈ markersIn (d.body.getD []), '<' ∉ (data.textAt m.path).toList)
    (h : Element.AgreeOn (markersIn (d.body.getD [])) data data') :
    mergeWith options data d = mergeWith options data' d := by
  cases hbody : d.body with
  | none =>
      rw [mergeWith, mergeWith, Merger.run_of_body_eq_none rfl hbody,
        Merger.run_of_body_eq_none rfl hbody]
  | some blocks =>
      rw [hbody, Option.getD_some] at tidy hdata h
      have hpasses : passes options data blocks = passes options data' blocks :=
        passes_congr tidy hdata h
      have hrun := @Merger.run_new_of_body options data d blocks hbody
      have hrun' := @Merger.run_new_of_body options data' d blocks hbody
      rw [← hpasses] at hrun'
      dsimp only [mergeWith]
      rw [hrun.1, hrun.2, hrun'.1, hrun'.2]

/-- A template that asks for a name. -/
def nameTemplate : List Block := [.paragraph (.ofText "<# <Content Select=\"N\" /> #>")]

/-- A template that asks for a name in the middle of something else. -/
def brokenTemplate : List Block :=
  [.paragraph (.ofText "<# <Ta<# <Content Select=\"N\" /> #>ble Select=\"S\" /> #>")]

/-- A data tree with a name and maybe more. -/
def named (name : String) (more : List Element) : Element :=
  ⟨"D", .element ⟨"N", [.text name]⟩ :: more.map .element⟩

/-- Rows that the templates do not ask for. -/
def unasked : Element := ⟨"S", [.element ⟨"I", [.element ⟨"X", [.text "<"]⟩]⟩]⟩

theorem resolve?_named (name : String) (more : List Element) :
    (named name more).resolve? "N" = some ⟨"N", [.text name]⟩ := by
  have hsegments : Path.segments (Path.normalize "N") = ["N"] := by decide +kernel
  rw [Element.resolve?, hsegments]
  rfl

-- Both templates ask for the name only.
theorem agreeOn_named {template : List Block} {literal : String} {start stop : Nat}
    (h : markersIn template = [⟨.content, literal, "N", start, stop⟩]) (name : String)
    (more : List Element) :
    Element.AgreeOn (markersIn template) (named name []) (named name more) := by
  rw [h]
  intro m hm
  rw [List.mem_singleton.mp hm, resolve?_named, resolve?_named]

/-- What is not asked for may be anything. -/
theorem mergeWith_nameTemplate_congr :
    IsTidyBody nameTemplate ∧
      mergeWith .default (named "n" []) ⟨some nameTemplate⟩ =
        mergeWith .default (named "n" [unasked]) ⟨some nameTemplate⟩ := by
  have tidy : IsTidyBody nameTemplate := by decide +kernel
  have hdata : ∀ m ∈ markersIn nameTemplate, '<' ∉ ((named "n" []).textAt m.path).toList := by
    decide +kernel
  have hagree := @agreeOn_named nameTemplate _ _ _ rfl "n" [unasked]
  exact ⟨tidy, @mergeWith_congr _ _ .default ⟨some nameTemplate⟩ tidy hdata hagree⟩

/-- A marker in a name is honoured, though the template is tidy. A marker that a name
    completes is honoured, though the name has no `<`. -/
theorem mergeWith_honours_data :
    (IsTidyBody nameTemplate ∧
      Element.AgreeOn (markersIn nameTemplate) (named "<# <Table Select=\"S\" /> #>" [])
        (named "<# <Table Select=\"S\" /> #>" [unasked]) ∧
      mergeWith .default (named "<# <Table Select=\"S\" /> #>" []) ⟨some nameTemplate⟩ ≠
        mergeWith .default (named "<# <Table Select=\"S\" /> #>" [unasked]) ⟨some nameTemplate⟩) ∧
    (∀ m ∈ markersIn brokenTemplate, '<' ∉ ((named "" []).textAt m.path).toList) ∧
      Element.AgreeOn (markersIn brokenTemplate) (named "" []) (named "" [unasked]) ∧
      mergeWith .default (named "" []) ⟨some brokenTemplate⟩ ≠
        mergeWith .default (named "" [unasked]) ⟨some brokenTemplate⟩ := by
  -- The rows are missing from the one tree, which is noted, and are found in the other.
  have hnoted : ∀ {x y : Except MergeFault (Document × Report)}, x = y →
      x.toOption.map (·.2.diagnostics.length) = y.toOption.map (·.2.diagnostics.length) :=
    fun h => h ▸ rfl
  refine ⟨⟨by decide +kernel, @agreeOn_named nameTemplate _ _ _ rfl _ _, fun h => ?_⟩,
    by decide +kernel, @agreeOn_named brokenTemplate _ _ _ rfl _ _, fun h => ?_⟩
  · exact absurd (hnoted h) (by decide +kernel)
  · exact absurd (hnoted h) (by decide +kernel)

end MailMerge
