import MailMerge.CommandLine.Command
import MailMerge.Document.Texts
import MailMerge.Package
import MailMerge.Sample

/-!
# Running Commands

What a command does, and what the program says about it. Results go to standard
output, and everything else that there is to say goes to standard error. A
command that fails ends with code 1, and arguments that make no sense end with
code 2.

A run says nothing before it is over. What it says is part of its result, beside
the code.

## Main definitions

* `Output`: What a run ends with.
* `Command.run`: What a command does.
* `runArguments`: What the program does, given its arguments.

## Theorems

* `marked_iff`: A paragraph counts as marked when it has lines.
-/

namespace MailMerge

namespace CommandLine

/-- What a run ends with: its code, and what it said on either channel. -/
structure Output where
  code : Nat
  out : String
  err : String
deriving DecidableEq, Repr

/-- A text of some lines. -/
def unlines : List String → String
  | [] => ""
  | line :: rest => line ++ "\n" ++ unlines rest

/-- The end of a run that went through. -/
def success (out err : List String) : Output := ⟨0, unlines out, unlines err⟩

/-- The end of a run that failed after having said something. -/
def failure (err : List String) (message : String) : Output :=
  ⟨1, "", unlines (err ++ ["✗ " ++ message])⟩

/-- The lines that sum a report up. -/
def summary (r : Report) : List String :=
  (toString r.contentPlaceholders ++ " content placeholder(s), " ++ toString r.tablesPopulated ++
    " table(s) populated, " ++ toString r.tablesSynthesized ++ " table(s) generated") ::
    r.diagnostics.map fun d => "  " ++ d.line

/-- The line that tells of a marker. -/
def markerLine (m : Marker) : String := m.kind.word ++ "\t" ++ Text.trimmed m.path

/-- The lines that tell of the markers of a paragraph. -/
def markerLines (text : String) : List String :=
  (scan .content text ++ scan .table text).map markerLine

/-- A paragraph counts as marked when it has lines. -/
theorem marked_iff (text : String) : hasMarkers text = true ↔ markerLines text ≠ [] := by
  rw [markerLines, Ne, List.map_eq_nil_iff, List.append_eq_nil_iff, ← hasMarkers_eq_false_iff,
    Bool.not_eq_false]

/-- What there is to say about the markers of a document. -/
def scanOutput (d : Document) : Output :=
  let texts := d.paragraphTexts
  let marked := texts.filter hasMarkers
  success (marked.flatMap markerLines)
    [toString marked.length ++ " of " ++ toString texts.length ++
      " paragraph(s) hold placeholders"]

section

variable {m : Type → Type} [Monad m] [MonadFiles m]

/-- Merges files and writes the report if it is wanted. -/
def runMerge (options : Options) (template data output : String) (report : Option String) :
    m Output := do
  match ← (mergeFiles options template data output).run with
  | .error fault => return failure [] fault.line
  | .ok r =>
      let done := success [] (summary r ++ ["✓ Output written to: " ++ output])
      match report with
      | none => return done
      | some path =>
          match ← writeText path r.write with
          | .ok _ => return done
          | .error cause => return failure (summary r) (path ++ ": " ++ cause.message)

/-- Writes the sample template. -/
def runSample (output : String) : m Output := do
  match ← (saveDocument output .sample).run with
  | .ok _ => return success [] ["✓ Sample template written to: " ++ output]
  | .error fault => return failure [] fault.line

/-- Lists the markers of a template. -/
def runScan (template : String) : m Output := do
  match ← (loadDocument template).run with
  | .ok d => return scanOutput d
  | .error fault => return failure [] fault.line

/-- Does what it is told. -/
def Command.run : Command → m Output
  | .merge options template data output report => runMerge options template data output report
  | .sample output => runSample output
  | .scan template => runScan template

/-- How the program is used. -/
def usageLines : List String :=
  ["Merge XML data into rich-text document templates",
    "",
    "Usage: docmerge [-v] merge <TEMPLATE> [-d <DATA>] [-o <OUTPUT>] [--report <REPORT>]",
    "                      [--strict] [--header-fill <FILL>] [--table-border <SIZE>]",
    "                      [--cell-border <SIZE>]",
    "       docmerge [-v] sample [-o <OUTPUT>]",
    "       docmerge [-v] scan <TEMPLATE>"]

/-- What there is to say when no command is run. -/
def Stop.output : Stop → Output
  | .usage => ⟨2, "", unlines usageLines⟩
  | .help => success usageLines []
  | .version => success ["docmerge 0.1.0"] []

/-- What the program does, given its arguments. -/
def runArguments (args : List String) : m Output :=
  match Command.ofArguments args with
  | .ok command => command.run
  | .error stop => return stop.output

end

end CommandLine

end MailMerge
