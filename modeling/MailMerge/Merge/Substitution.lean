import MailMerge.Data.Path
import MailMerge.Document.Block
import MailMerge.Marker
import MailMerge.Merge.Report

/-!
# Substituting Content

A paragraph with content markers becomes a paragraph that says what the markers
stand for. The text of the element at a marker's path takes the place of the
marker, and nothing takes its place when the path leads nowhere, which is noted
for each such marker.

The markers are replaced by their literals, one literal after the other and each
wherever it stands in the text. For most texts this is the same as replacing
each marker where it was found. It differs where a text that was put in holds a
later literal, or where replacing one literal brings the parts of another one
together.

Where there was a marker, the formatting of runs is lost: the paragraph is left
with a single plain run. A paragraph without content markers is not touched.

## Main definitions

* `substituteText`: A text with the literals of some markers replaced.
* `substitute`: A paragraph with its content markers replaced.

## Theorems

* `substitute_of_scan_eq_nil`: A paragraph without content markers stays.
* `count_substitute`: As many markers are counted as were found.
-/

namespace MailMerge

/-- What is noted when the path of a content marker leads nowhere. -/
def noContentDiagnostic (path : String) : Diagnostic :=
  ⟨.unresolvedPlaceholder, "content placeholder replaced with blank text",
    some (Path.normalize path)⟩

/-- What substituting some markers reports: how many they are, and which of
    their paths lead nowhere. -/
def substitutionReport (data : Element) (markers : List Marker) : Report :=
  ⟨markers.length, 0, 0, markers.filterMap fun m =>
    match data.resolve? m.path with
    | some _ => none
    | none => some (noContentDiagnostic m.path)⟩

/-- A text with the literals of some markers replaced, one after the other. -/
def substituteText (data : Element) : List Marker → String → String
  | [], text => text
  | m :: rest, text =>
      substituteText data rest (Text.replaceAll m.literal (data.textAt m.path) text)

/-- A paragraph with its content markers replaced. -/
def substitute (data : Element) (p : Paragraph) : Reported Paragraph :=
  match scan .content p.text with
  | [] => pure p
  | m :: rest =>
      ⟨p.setText (substituteText data (Marker.distinct (m :: rest)) p.text),
        substitutionReport data (m :: rest)⟩

/-- A paragraph without content markers stays. -/
theorem substitute_of_scan_eq_nil {data : Element} {p : Paragraph}
    (h : scan .content p.text = []) : substitute data p = pure p := by
  simp only [substitute, h]

/-- As many markers are counted as were found. -/
theorem count_substitute (data : Element) (p : Paragraph) :
    (substitute data p).report.contentPlaceholders = (scan .content p.text).length := by
  unfold substitute
  cases scan .content p.text <;> rfl

end MailMerge
