import MailMerge.Json.Writer

/-!
# Reports

A merge does what it can. A path that leads nowhere or a table that cannot be
filled is no reason to stop, but someone may want to hear of it. So a merge
counts what it did and notes what it could not do.

Reports form a monoid: what two stretches of work report is the sum of their
counts and the notes of the first followed by those of the second. A step of a
merge is therefore a value together with its own report, `Reported`, and steps
are put together by a monad that adds the reports up. No step can see or change
what an earlier one reported.

One kind of diagnostic only informs. A table marker without a table to fill is
not a failure, since a table is generated in its place.

## Main definitions

* `Diagnostic`: Something that could not be honoured, and where.
* `Report`: Counts and diagnostics.
* `Report.isClean`: Whether all diagnostics only inform.
* `Reported`: A value with the report of the work that led to it.

## Theorems

* `append_assoc`, `empty_append`, `append_empty`: Reports form a monoid.
* `isClean_append`: Work is clean when both of its parts are.
-/

namespace MailMerge

namespace Diagnostic

/-- What may go wrong with a marker: its path leads nowhere or it stands too
    deep, the table it fills does not fit, or there is no table to fill. -/
inductive Kind where
  | unresolvedPlaceholder
  | templateRowMismatch
  | missingTargetTable
deriving DecidableEq, Repr

/-- The kind in words. -/
def Kind.words : Kind → String
  | .unresolvedPlaceholder => "unresolved placeholder"
  | .templateRowMismatch => "template row mismatch"
  | .missingTargetTable => "missing target table"

/-- The kind as one word of a data format. -/
def Kind.tag : Kind → String
  | .unresolvedPlaceholder => "unresolved-placeholder"
  | .templateRowMismatch => "template-row-mismatch"
  | .missingTargetTable => "missing-target-table"

end Diagnostic

/-- Something that could not be honoured, with the path of the marker in normal
    form where there is one. -/
structure Diagnostic where
  kind : Diagnostic.Kind
  message : String
  path : Option String
deriving DecidableEq, Repr

namespace Diagnostic

/-- Whether a diagnostic only informs, and does not count as a failure. -/
def isInformational (d : Diagnostic) : Bool := d.kind = .missingTargetTable

/-- A diagnostic as a line of text. -/
def line (d : Diagnostic) : String :=
  match d.path with
  | some path => "[" ++ d.kind.words ++ "] " ++ path ++ ": " ++ d.message
  | none => "[" ++ d.kind.words ++ "] " ++ d.message

/-- A diagnostic as an object. -/
def toJson (d : Diagnostic) : Json :=
  .object [("kind", .string d.kind.tag), ("message", .string d.message),
    ("path", match d.path with
      | some path => .string path
      | none => .null)]

end Diagnostic

/-- What a stretch of work did and what it could not do. -/
structure Report where
  contentPlaceholders : Nat
  tablesSynthesized : Nat
  tablesPopulated : Nat
  diagnostics : List Diagnostic
deriving DecidableEq, Repr

namespace Report

/-- The report of doing nothing. -/
def empty : Report := ⟨0, 0, 0, []⟩

instance : Inhabited Report := ⟨empty⟩

instance : EmptyCollection Report := ⟨empty⟩

/-- The report of two stretches of work. -/
def append (r s : Report) : Report :=
  ⟨r.contentPlaceholders + s.contentPlaceholders, r.tablesSynthesized + s.tablesSynthesized,
    r.tablesPopulated + s.tablesPopulated, r.diagnostics ++ s.diagnostics⟩

instance : Append Report := ⟨append⟩

theorem append_def (r s : Report) : r ++ s =
    ⟨r.contentPlaceholders + s.contentPlaceholders, r.tablesSynthesized + s.tablesSynthesized,
      r.tablesPopulated + s.tablesPopulated, r.diagnostics ++ s.diagnostics⟩ := rfl

theorem empty_def : (∅ : Report) = ⟨0, 0, 0, []⟩ := rfl

theorem append_assoc (r s t : Report) : r ++ s ++ t = r ++ (s ++ t) := by
  simp only [append_def, Nat.add_assoc, List.append_assoc]

theorem empty_append (r : Report) : ∅ ++ r = r := by
  simp only [append_def, empty_def, Nat.zero_add, List.nil_append]

theorem append_empty (r : Report) : r ++ ∅ = r := by
  simp only [append_def, empty_def, Nat.add_zero, List.append_nil]

/-- The report of a single diagnostic. -/
def ofDiagnostic (d : Diagnostic) : Report := ⟨0, 0, 0, [d]⟩

/-- The diagnostics that count as failures. -/
def failures (r : Report) : List Diagnostic := r.diagnostics.filter fun d => !d.isInformational

/-- Whether all diagnostics only inform. -/
def isClean (r : Report) : Bool := r.diagnostics.all Diagnostic.isInformational

/-- Work is clean when both of its parts are. -/
theorem isClean_append (r s : Report) : (r ++ s).isClean = (r.isClean && s.isClean) :=
  List.all_append

/-- How many diagnostics are of a kind. -/
def count (r : Report) (kind : Diagnostic.Kind) : Nat :=
  (r.diagnostics.filter fun d => d.kind = kind).length

/-- A report as an object. -/
def toJson (r : Report) : Json :=
  .object [("content_placeholders", .number (toString r.contentPlaceholders)),
    ("tables_synthesized", .number (toString r.tablesSynthesized)),
    ("tables_populated", .number (toString r.tablesPopulated)),
    ("diagnostics", .array (r.diagnostics.map Diagnostic.toJson))]

/-- The written form of a report. -/
def write (r : Report) : String := r.toJson.pretty

end Report

/-- A value with the report of the work that led to it. -/
structure Reported (α : Type) where
  value : α
  report : Report

namespace Reported

/-- A value that no work led to. -/
def pure {α : Type} (a : α) : Reported α := ⟨a, ∅⟩

/-- Work that goes on with the value of earlier work. -/
def bind {α β : Type} (x : Reported α) (f : α → Reported β) : Reported β :=
  let y := f x.value
  ⟨y.value, x.report ++ y.report⟩

instance : Monad Reported where
  pure := pure
  bind := bind

theorem value_pure {α : Type} (a : α) : (Pure.pure a : Reported α).value = a := rfl

theorem report_pure {α : Type} (a : α) : (Pure.pure a : Reported α).report = ∅ := rfl

theorem value_bind {α β : Type} (x : Reported α) (f : α → Reported β) :
    (x >>= f).value = (f x.value).value := rfl

theorem report_bind {α β : Type} (x : Reported α) (f : α → Reported β) :
    (x >>= f).report = x.report ++ (f x.value).report := rfl

theorem value_map {α β : Type} (f : α → β) (x : Reported α) : (f <$> x).value = f x.value := rfl

theorem report_map {α β : Type} (f : α → β) (x : Reported α) : (f <$> x).report = x.report :=
  Report.append_empty x.report

/-- Two reported values are equal when their values and their reports are. -/
theorem ext {α : Type} {x y : Reported α} (value : x.value = y.value)
    (report : x.report = y.report) : x = y := by
  cases x
  cases y
  simp only at value report
  rw [value, report]

instance : LawfulMonad Reported :=
  LawfulMonad.mk' Reported
    (fun x => ext rfl (report_map id x))
    (fun _ _ => ext rfl (Report.empty_append _))
    (fun _ _ _ => ext rfl (Report.append_assoc _ _ _))

/-- The work of reporting something. -/
def tell (r : Report) : Reported Unit := ⟨(), r⟩

/-- The work of noting a diagnostic. -/
def note (d : Diagnostic) : Reported Unit := tell (.ofDiagnostic d)

end Reported

end MailMerge
