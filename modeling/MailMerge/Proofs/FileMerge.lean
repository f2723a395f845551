import MailMerge.CommandLine.Run
import MailMerge.Proofs.Stored
import MailMerge.Proofs.Verdict
import MailMerge.Proofs.WrittenForm

/-!
# Merging Files as a Whole

A merge from files reads two files and writes one, and the command for it may write a
second one. Any of the paths may lead to the same file. What keeps this simple is the order: all
that is read has been read, and the whole merge has been made on values, before anything is
written. So a merge that is refused has written nothing, even where a strict merge had
rewritten its document by then. And what is merged is what the files held at the outset.

Nothing of this depends on what files are. Where a path leads, and what there is leave to read
or to write, is left open: all that is used are the laws that asking, reading and failing to
write change nothing, that what can be read is there, and that what was written is read.

Why a merge is refused is told by the first stage that fails: the data has to be there, to be
readable and to be data, then the template has to be readable, to be a document and to have
a body, and then a strict merge has to honour all markers. Each of these is said here by
what the files hold, without the program.

## Main definitions

* `HoldsData`, `HoldsDocument`: What a file holds.
* `Refused`: A merge from files is refused, and why.
* `Merges`: A merge from files comes through, and with what.
* `OnFiles`: What deals with files and may end with a fault.
* `CommandLine.reported`: How the command ends once its output is written.

## Theorems

* `mergeWith_of_body`: The merge of a document with a body.
* `refused_or_merges`: One of the two is always the case.
* `run_mergeFiles_of_refused`: A refused merge leaves all files as they were.
* `run_mergeFiles_of_merges`: A merge that comes through writes its output.
* `CommandLine.run_merge`: What the command does.
-/

namespace MailMerge

variable {σ : Type} [MonadFiles (StateM σ)] {s : σ} {options : Options}
  {template data output : String}

/-! ### What files hold -/

/-- Whether the file at a path holds some data. -/
def HoldsData (s : σ) (path : String) (tree : Element) : Prop :=
  ∃ text, readIn s path = .ok text ∧ Element.ofXml text = .ok tree

/-- Whether the file at a path holds a document. -/
def HoldsDocument (s : σ) (path : String) (d : Document) : Prop :=
  ∃ text, readIn s path = .ok text ∧ Document.read? text = some d

/-- A merge from files is refused, and why. There is a case for each stage that may fail, and
    a case has it that the stages before it do not fail. In the last one the merge would come
    through if it was not strict, with a report that is not clean. -/
inductive Refused (s : σ) (options : Options) (template data : String) : MergeFault → Prop
  | dataMissing (missing : isThereIn s data = false) :
      Refused s options template data (.data (.notFound data))
  | dataUnreadable {cause : Files.Fault} (there : isThereIn s data = true)
      (unreadable : readIn s data = .error cause) :
      Refused s options template data (.data (.unreadable cause))
  | dataMalformed {text : String} {cause : Xml.Fault} (text_of : readIn s data = .ok text)
      (malformed : Element.ofXml text = .error cause) :
      Refused s options template data (.data (.malformed cause))
  | templateUnreadable {tree : Element} {cause : Files.Fault} (holds : HoldsData s data tree)
      (unreadable : readIn s template = .error cause) :
      Refused s options template data (.document (.cannotOpen template cause))
  | templateInvalid {tree : Element} {text : String} (holds : HoldsData s data tree)
      (text_of : readIn s template = .ok text) (invalid : Document.read? text = none) :
      Refused s options template data (.document .invalidTree)
  | bodyMissing {tree : Element} {d : Document} (holds : HoldsData s data tree)
      (document : HoldsDocument s template d) (missing : d.body = none) :
      Refused s options template data (.document (.bodyMissing template))
  | notHonoured {tree : Element} {d merged : Document} {r : Report}
      (holds : HoldsData s data tree) (document : HoldsDocument s template d)
      (strict : options.strict = true)
      (lenient : mergeWith { options with strict := false } tree d = .ok (merged, r))
      (unclean : r.isClean = false) :
      Refused s options template data (.document (.notHonoured r.failures.length))

/-- A merge from files comes through, with a document and a report. -/
def Merges (s : σ) (options : Options) (template data : String) (merged : Document)
    (r : Report) : Prop :=
  ∃ tree d, HoldsData s data tree ∧ HoldsDocument s template d ∧
    mergeWith options tree d = .ok (merged, r)

/-- The merge of a document with a body. -/
theorem mergeWith_of_body {tree : Element} {blocks : List Block} :
    mergeWith options tree ⟨some blocks⟩ =
      let merged := passes options tree blocks
      if options.strict && !merged.report.isClean then
        .error (.document (.notHonoured merged.report.failures.length))
      else .ok (⟨some merged.value⟩, merged.report) := by
  rw [mergeWith, Merger.run_new]
  dsimp only
  split <;> rfl

/-- A strict merge next to the lenient one. -/
theorem mergeWith_of_lenient {tree : Element} {d merged : Document} {r : Report}
    (lenient : mergeWith { options with strict := false } tree d = .ok (merged, r)) :
    mergeWith options tree d =
      if options.strict && !r.isClean then .error (.document (.notHonoured r.failures.length))
      else .ok (merged, r) := by
  rcases mergeWith_eq_ok_iff.mp lenient with ⟨blocks, hbody, hmerged, hr, _⟩
  have hd : d = ⟨some blocks⟩ := congrArg Document.mk hbody
  rw [passes_strict] at hmerged hr
  rw [hd, mergeWith_of_body, hmerged, hr]

/-- Without strictness a document with a body is always merged. -/
theorem exists_mergeWith_lenient (options : Options) (tree : Element) (blocks : List Block) :
    ∃ merged r, mergeWith { options with strict := false } tree ⟨some blocks⟩ =
      .ok (merged, r) := by
  rw [mergeWith_of_body]
  exact ⟨_, _, rfl⟩

/-- A merge from files is refused or comes through. -/
theorem refused_or_merges (s : σ) (options : Options) (template data : String) :
    (∃ fault, Refused s options template data fault) ∨
      ∃ merged r, Merges s options template data merged r := by
  cases hthere : isThereIn s data with
  | false => exact .inl ⟨_, .dataMissing hthere⟩
  | true =>
  cases hread : readIn s data with
  | error cause => exact .inl ⟨_, .dataUnreadable hthere hread⟩
  | ok text =>
  cases hxml : Element.ofXml text with
  | error cause => exact .inl ⟨_, .dataMalformed hread hxml⟩
  | ok tree =>
  have hdata : HoldsData s data tree := ⟨text, hread, hxml⟩
  cases hread' : readIn s template with
  | error cause => exact .inl ⟨_, .templateUnreadable hdata hread'⟩
  | ok text' =>
  cases hjson : Document.read? text' with
  | none => exact .inl ⟨_, .templateInvalid hdata hread' hjson⟩
  | some d =>
  have hdocument : HoldsDocument s template d := ⟨text', hread', hjson⟩
  rcases d with ⟨_ | blocks⟩
  · exact .inl ⟨_, .bodyMissing hdata hdocument rfl⟩
  · rcases exists_mergeWith_lenient options tree blocks with ⟨merged, r, hlenient⟩
    by_cases hrefuse : (options.strict && !r.isClean) = true
    · rw [Bool.and_eq_true, Bool.not_eq_true'] at hrefuse
      exact .inl ⟨_, .notHonoured hdata hdocument hrefuse.1 hlenient hrefuse.2⟩
    · refine .inr ⟨merged, r, tree, _, hdata, hdocument, ?_⟩
      rw [mergeWith_of_lenient hlenient, if_neg hrefuse]

/-! ### Running -/

/-- What deals with files in a state and may end with a fault. -/
abbrev OnFiles (σ α : Type) : Type := ExceptT MergeFault (StateM σ) α

section

variable {σ α β : Type} {s s' : σ}

theorem bind_of_eq {x : StateM σ α} {a : α} (h : x s = (a, s')) (f : α → StateM σ β) :
    (x >>= f) s = f a s' := by
  show f (x s).1 (x s).2 = _
  rw [h]

theorem run_bind_ok {x : OnFiles σ α} {a : α} (h : x.run s = (.ok a, s')) (f : α → OnFiles σ β) :
    (x >>= f).run s = (f a).run s' :=
  bind_of_eq h (ExceptT.bindCont f)

theorem run_bind_error {x : OnFiles σ α} {fault : MergeFault} (h : x.run s = (.error fault, s'))
    (f : α → OnFiles σ β) : (x >>= f).run s = (.error fault, s') :=
  bind_of_eq h (ExceptT.bindCont f)

/-- What does not deal with files leaves them as they are. -/
theorem run_liftM (x : Except MergeFault α) (s : σ) :
    (liftM x : OnFiles σ α).run s = (x, s) := by
  cases x <;> rfl

end

section

variable [LawfulFiles σ]

theorem run_isThere (path : String) (s : σ) :
    (isThere path : OnFiles σ Bool).run s = (.ok (isThereIn s path), s) :=
  Prod.ext rfl (LawfulFiles.state_isThere s path)

theorem run_readText (path : String) (s : σ) :
    (readText path : OnFiles σ (Except Files.Fault String)).run s = (.ok (readIn s path), s) :=
  Prod.ext rfl (LawfulFiles.state_readText s path)

/-! ### The parts of a merge from files -/

/-- Reading data never writes. -/
theorem run_loadData (path : String) (s : σ) :
    (loadData path : OnFiles σ Element).run s =
      (if isThereIn s path then
        match readIn s path with
        | .ok text => dataOf text
        | .error cause => .error (.data (.unreadable cause))
      else .error (.data (.notFound path)), s) := by
  rw [loadData, run_bind_ok (run_isThere path s)]
  split
  · rw [run_bind_ok (run_readText path s)]
    cases readIn s path with
    | ok text => exact run_liftM (dataOf text) s
    | error cause => rfl
  · rfl

/-- Reading a document never writes. -/
theorem run_loadDocument (path : String) (s : σ) :
    (loadDocument path : OnFiles σ Document).run s =
      (match readIn s path with
      | .ok text => (documentOf text).bind fun d =>
          if d.body.isSome then .ok d else .error (.document (.bodyMissing path))
      | .error cause => .error (.document (.cannotOpen path cause)), s) := by
  rw [loadDocument, run_bind_ok (run_readText path s)]
  cases readIn s path with
  | error cause => rfl
  | ok text =>
      dsimp only
      cases documentOf text with
      | error fault => rfl
      | ok d =>
          rw [run_bind_ok (run_liftM _ s)]
          dsimp only [Except.bind]
          split <;> rfl

theorem writeText_eq (path text : String) (s : σ) :
    (writeText path text : StateM σ (Except Files.Fault Unit)) s =
      match writeIn s path text with
      | .ok saved => (.ok (), saved)
      | .error cause => (.error cause, s) := by
  -- The law is about the very write that the cases are on, so it has to go along with them.
  have hfailed := @LawfulFiles.state_writeText σ _ _ s path text
  revert hfailed
  rw [writeIn]
  rcases (writeText path text : StateM σ (Except Files.Fault Unit)) s with ⟨_ | _, next⟩
  · intro hfailed
    exact Prod.ext rfl (hfailed rfl)
  · exact fun _ => rfl

theorem run_writeText (path text : String) (s : σ) :
    (writeText path text : OnFiles σ (Except Files.Fault Unit)).run s =
      match writeIn s path text with
      | .ok saved => (.ok (.ok ()), saved)
      | .error cause => (.ok (.error cause), s) := by
  refine (congrArg (fun r => (Except.ok r.1, r.2)) (writeText_eq path text s)).trans ?_
  cases writeIn s path text <;> rfl

/-- Writing a document either puts it there or fails without a trace. -/
theorem run_saveDocument (path : String) (d : Document) (s : σ) :
    (saveDocument path d : OnFiles σ Unit).run s =
      match writeIn s path d.write with
      | .ok saved => (.ok (), saved)
      | .error cause => (.error (.document (.cannotWrite path cause)), s) := by
  have hwrite := run_writeText path d.write s
  rw [saveDocument]
  cases h : writeIn s path d.write <;>
    · rw [h] at hwrite
      rw [run_bind_ok hwrite]
      rfl

theorem run_loadData_of_holds {path : String} {tree : Element} (h : HoldsData s path tree) :
    (loadData path : OnFiles σ Element).run s = (.ok tree, s) := by
  rcases h with ⟨text, hread, hxml⟩
  rw [run_loadData, if_pos (LawfulFiles.isThere_of_read hread), hread]
  dsimp only
  rw [dataOf, hxml]
  rfl

theorem run_loadDocument_of_read {path text : String} {d : Document}
    (hread : readIn s path = .ok text) (hjson : Document.read? text = some d) :
    (loadDocument path : OnFiles σ Document).run s =
      (if d.body.isSome then .ok d else .error (.document (.bodyMissing path)), s) := by
  rw [run_loadDocument, hread]
  dsimp only
  rw [documentOf, hjson]
  rfl

/-- A document that comes through a merge had a body. -/
theorem isSome_body_of_mergeWith {tree : Element} {d merged : Document} {r : Report}
    (h : mergeWith options tree d = .ok (merged, r)) : d.body.isSome = true := by
  rcases mergeWith_eq_ok_iff.mp h with ⟨blocks, hbody, _⟩
  rw [hbody]
  rfl

/-! ### The merge from files -/

/-- A refused merge leaves all files as they were. -/
theorem run_mergeFiles_of_refused {fault : MergeFault}
    (h : Refused s options template data fault) :
    (mergeFiles options template data output : OnFiles σ Report).run s = (.error fault, s) := by
  -- The stages before the one that fails only read, so each of them may be passed over.
  rw [mergeFiles]
  cases h with
  | dataMissing missing =>
      refine run_bind_error ?_ _
      rw [run_loadData, missing]
      rfl
  | dataUnreadable there unreadable =>
      refine run_bind_error ?_ _
      rw [run_loadData, if_pos there, unreadable]
  | dataMalformed text_of malformed =>
      refine run_bind_error ?_ _
      rw [run_loadData, if_pos (LawfulFiles.isThere_of_read text_of), text_of]
      dsimp only
      rw [dataOf, malformed]
      rfl
  | templateUnreadable holds unreadable =>
      rw [run_bind_ok (run_loadData_of_holds holds)]
      refine run_bind_error ?_ _
      rw [run_loadDocument, unreadable]
  | templateInvalid holds text_of invalid =>
      rw [run_bind_ok (run_loadData_of_holds holds)]
      refine run_bind_error ?_ _
      rw [run_loadDocument, text_of]
      dsimp only
      rw [documentOf, invalid]
      rfl
  | bodyMissing holds document missing =>
      rcases document with ⟨text, hread, hjson⟩
      rw [run_bind_ok (run_loadData_of_holds holds)]
      refine run_bind_error ?_ _
      rw [run_loadDocument_of_read hread hjson, missing]
      rfl
  | notHonoured holds document strict lenient unclean =>
      rcases document with ⟨text, hread, hjson⟩
      have hload := run_loadDocument_of_read hread hjson
      rw [if_pos (isSome_body_of_mergeWith lenient)] at hload
      rw [run_bind_ok (run_loadData_of_holds holds), run_bind_ok hload]
      refine run_bind_error ?_ _
      rw [run_liftM, mergeWith_of_lenient lenient, strict, unclean]
      rfl

/-- A merge that comes through writes its output and nothing else. -/
theorem run_mergeFiles_of_merges {merged : Document} {r : Report}
    (h : Merges s options template data merged r) :
    (mergeFiles options template data output : OnFiles σ Report).run s =
      match writeIn s output merged.write with
      | .ok saved => (.ok r, saved)
      | .error cause => (.error (.document (.cannotWrite output cause)), s) := by
  rcases h with ⟨tree, d, hdata, ⟨text, hread, hjson⟩, hmerge⟩
  have hload := run_loadDocument_of_read hread hjson
  rw [if_pos (isSome_body_of_mergeWith hmerge)] at hload
  have hmerged : (liftM (mergeWith options tree d) : OnFiles σ (Document × Report)).run s =
      (.ok (merged, r), s) := by
    rw [run_liftM, hmerge]
  -- The output is written last, and nothing was written before.
  have hsave := run_saveDocument output merged s
  rw [mergeFiles, run_bind_ok (run_loadData_of_holds hdata), run_bind_ok hload,
    run_bind_ok hmerged]
  cases hwrite : writeIn s output merged.write with
  | ok saved =>
      rw [hwrite] at hsave
      rw [run_bind_ok hsave]
      rfl
  | error cause =>
      rw [hwrite] at hsave
      exact run_bind_error hsave _

end

/-! ### The command -/

namespace CommandLine

variable {report : Option String}

/-- How the command ends once its output is written. The report, if it is wanted, is written
    last. -/
def reported (output : String) (r : Report) (saved : σ) : Option String → Output × σ
  | none => (success [] (summary r ++ ["✓ Output written to: " ++ output]), saved)
  | some path =>
      match writeIn saved path r.write with
      | .ok final => (success [] (summary r ++ ["✓ Output written to: " ++ output]), final)
      | .error cause => (failure (summary r) (path ++ ": " ++ cause.message), saved)

theorem run_merge_of_error {s' : σ} {fault : MergeFault}
    (h : (mergeFiles options template data output : OnFiles σ Report).run s = (.error fault, s')) :
    ((Command.merge options template data output report).run : StateM σ Output) s =
      (failure [] fault.line, s') := by
  rw [Command.run, runMerge, bind_of_eq h]
  rfl

theorem reported_of_code {r : Report} {saved : σ}
    (h : (reported output r saved report).1.code = 0) :
    (report = none → (reported output r saved report).2 = saved) ∧
      ∀ path, report = some path →
        writeIn saved path r.write = .ok (reported output r saved report).2 := by
  constructor
  · rintro rfl
    rfl
  · rintro path rfl
    rw [reported] at h ⊢
    cases hfinal : writeIn saved path r.write with
    | ok final => rfl
    | error cause =>
        rw [hfinal] at h
        exact absurd h Nat.one_ne_zero

section

variable [LawfulFiles σ]

theorem run_merge_of_ok {s' : σ} {r : Report}
    (h : (mergeFiles options template data output : OnFiles σ Report).run s = (.ok r, s')) :
    ((Command.merge options template data output report).run : StateM σ Output) s =
      reported output r s' report := by
  rw [Command.run, runMerge, bind_of_eq h]
  cases report with
  | none => rfl
  | some path =>
      have hwrite := writeText_eq path r.write s'
      rw [reported]
      cases hfinal : writeIn s' path r.write <;>
        · rw [hfinal] at hwrite
          dsimp only
          rw [bind_of_eq hwrite]
          rfl

/-- What the command does, wherever its paths lead and whichever of them lead to one file. If
    its merge is refused, it fails with that fault, and all files are as they were. Otherwise
    the merge comes through, with what the files held at the outset, and the output is
    written. It then holds the merged document, and the report comes after. So a command that
    succeeds has merged and has written. -/
theorem run_merge (s : σ) (options : Options) (template data output : String)
    (report : Option String) :
    let ends : Output × σ :=
      ((Command.merge options template data output report).run : StateM σ Output) s
    (∀ fault, Refused s options template data fault →
      (mergeFiles options template data output : OnFiles σ Report).run s = (.error fault, s) ∧
        ends = (failure [] fault.line, s)) ∧
    (∀ merged r, Merges s options template data merged r →
      (∀ cause, writeIn s output merged.write = .error cause →
        ends = (failure [] (MergeFault.document (.cannotWrite output cause)).line, s)) ∧
      ∀ saved, writeIn s output merged.write = .ok saved →
        readIn saved output = .ok merged.write ∧ ends = reported output r saved report) ∧
    ((∃ fault, Refused s options template data fault) ∨
      ∃ merged r, Merges s options template data merged r) ∧
    (ends.1.code = 0 → ∃ merged r saved, Merges s options template data merged r ∧
      writeIn s output merged.write = .ok saved ∧ readIn saved output = .ok merged.write ∧
      (report = none → ends.2 = saved) ∧
      ∀ path, report = some path → writeIn saved path r.write = .ok ends.2) := by
  intro ends
  have hrefused : ∀ fault, Refused s options template data fault →
      (mergeFiles options template data output : OnFiles σ Report).run s = (.error fault, s) ∧
        ends = (failure [] fault.line, s) := fun fault h =>
    ⟨run_mergeFiles_of_refused h, run_merge_of_error (run_mergeFiles_of_refused h)⟩
  have hmerges : ∀ merged r, Merges s options template data merged r →
      (∀ cause, writeIn s output merged.write = .error cause →
        ends = (failure [] (MergeFault.document (.cannotWrite output cause)).line, s)) ∧
      ∀ saved, writeIn s output merged.write = .ok saved →
        readIn saved output = .ok merged.write ∧ ends = reported output r saved report := by
    intro merged r h
    have hrun := @run_mergeFiles_of_merges σ _ s options template data output _ merged r h
    refine ⟨fun cause hwrite => ?_, fun saved hwrite => ⟨LawfulFiles.read_of_write hwrite, ?_⟩⟩
    · rw [hwrite] at hrun
      exact run_merge_of_error hrun
    · rw [hwrite] at hrun
      exact run_merge_of_ok hrun
  refine ⟨hrefused, hmerges, refused_or_merges s options template data, fun hcode => ?_⟩
  -- With a code of 0 it was not refused, and the output could be written.
  rcases refused_or_merges s options template data with ⟨fault, h⟩ | ⟨merged, r, h⟩
  · rw [(hrefused fault h).2] at hcode
    exact absurd hcode Nat.one_ne_zero
  · cases hwrite : writeIn s output merged.write with
    | error cause =>
        rw [(hmerges merged r h).1 cause hwrite] at hcode
        exact absurd hcode Nat.one_ne_zero
    | ok saved =>
        have hends := ((hmerges merged r h).2 saved hwrite).2
        rw [hends] at hcode ⊢
        exact ⟨merged, r, saved, h, hwrite, LawfulFiles.read_of_write hwrite,
          reported_of_code hcode⟩

end

/-- A document with a marker for a name. -/
def greeting : Document := ⟨some [.paragraph (.ofText "Dear <# <Content Select=\"N\" /> #>")]⟩

/-- The greeting as a template, next to data that has no name. -/
def greetingFiles : FileSystem :=
  ⟨[], [(["data.xml"], .text "<D><A>1</A></D>"), (["letter.json"], .text greeting.write)]⟩

/-- The greeting is merged over itself. Strictly, nothing happens to it. Otherwise it comes to
    hold the merged document, and the data comes to hold the report. -/
theorem run_merge_greetingFiles :
    let strict : Output × FileSystem := ((Command.merge { Options.default with strict := true }
      "letter.json" "data.xml" "letter.json" (some "data.xml")).run :
        StateM FileSystem Output) greetingFiles
    let lenient : Output × FileSystem := ((Command.merge .default
      "letter.json" "data.xml" "./letter.json" (some "data.xml")).run :
        StateM FileSystem Output) greetingFiles
    strict = (failure [] (MergeFault.document (.notHonoured 1)).line, greetingFiles) ∧
      lenient.1.code = 0 ∧
      ∃ merged r saved, Merges greetingFiles .default "letter.json" "data.xml" merged r ∧
        greetingFiles.write "./letter.json" merged.write = .ok saved ∧
        saved.read "./letter.json" = .ok merged.write ∧
        saved.write "data.xml" r.write = .ok lenient.2 := by
  let nameless : Element := ⟨"D", [.element ⟨"A", [.text "1"]⟩]⟩
  have hdata : HoldsData greetingFiles "data.xml" nameless :=
    ⟨_, rfl, by with_unfolding_all rfl⟩
  have hdocument : HoldsDocument greetingFiles "letter.json" greeting :=
    ⟨greeting.write, rfl, greeting.read?_write.trans (if_pos (by decide +kernel))⟩
  have hlenient : mergeWith .default nameless greeting =
      let merged := passes .default nameless (greeting.body.getD [])
      .ok (⟨some merged.value⟩, merged.report) := mergeWith_of_body
  have hreport : (passes .default nameless (greeting.body.getD [])).report.isClean = false ∧
      (passes .default nameless (greeting.body.getD [])).report.failures.length = 1 := by
    decide +kernel
  have hrefused := @Refused.notHonoured FileSystem _ _
    { Options.default with strict := true } _ _ _ _ _ _ hdata hdocument rfl hlenient hreport.1
  rw [hreport.2] at hrefused
  rcases run_merge greetingFiles .default "letter.json" "data.xml" "./letter.json"
    (some "data.xml") with ⟨_, hmerges, _, hsuccess⟩
  -- Both files can be written, whatever is written to them.
  have hends := ((hmerges _ _ ⟨_, _, hdata, hdocument, hlenient⟩).2 _ rfl).2
  have hcode : (((Command.merge .default "letter.json" "data.xml" "./letter.json"
      (some "data.xml")).run : StateM FileSystem Output) greetingFiles).1.code = 0 := by
    rw [hends]
    rfl
  rcases hsuccess hcode with ⟨merged, r, saved, hmerged, hwrite, hsaved, _, hlast⟩
  have hlast := hlast "data.xml" rfl
  rw [FileSystem.writeIn_eq] at hwrite hlast
  exact ⟨((run_merge _ _ _ _ "letter.json" (some "data.xml")).1 _ hrefused).2, hcode,
    merged, r, saved, hmerged, hwrite, hsaved, hlast⟩

end CommandLine

end MailMerge
