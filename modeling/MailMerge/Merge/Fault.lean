import MailMerge.Files.Fault
import MailMerge.Xml.Fault

/-!
# Merge Faults

Only two things stop a merge. The data could not be loaded, or the document
lacks something that it must have. Everything else is noted in the report.

What refuses a merge is told apart by its cause. The wording, and the place in
the data file where there is one, follow from the cause.

A merge goes through stages. How far it came is part of one of the causes, so
stages are defined here.

## Main definitions

* `Stage`: How far a merge came.
* `DataFault`, `DocumentFault`: The causes on either side.
* `MergeFault`: A cause of either side.
* `MergeFault.line`: A fault as a line of text.

## Theorems

* `isStructural_eq_not`: A fault lies on one of the two sides.
-/

namespace MailMerge

/-- How far a merge came. -/
inductive Stage where
  | idle
  | tablesResolved
  | contentResolved
  | done
deriving DecidableEq, Repr

namespace Stage

/-- A stage in words. -/
def words : Stage → String
  | .idle => "idle"
  | .tablesResolved => "table placeholders resolved"
  | .contentResolved => "content placeholders resolved"
  | .done => "done"

/-- The place of a stage in the course of a merge. -/
def rank : Stage → Nat
  | .idle => 0
  | .tablesResolved => 1
  | .contentResolved => 2
  | .done => 3

end Stage

/-- Why data could not be loaded: the file is not there, it could not be read,
    it is no XML of one root, or a reason given in words. -/
inductive DataFault where
  | notFound (path : String)
  | unreadable (cause : Files.Fault)
  | malformed (cause : Xml.Fault)
  | stated (message : String) (offset : Option Nat)

/-- The wording of a data fault. -/
def DataFault.message : DataFault → String
  | .notFound path => path ++ " not found"
  | .unreadable cause => cause.message
  | .malformed cause => cause.message
  | .stated message _ => message

/-- Where in the data file a fault was found, if it has a place there. -/
def DataFault.offset? : DataFault → Option Nat
  | .malformed cause => cause.offset?
  | .stated _ offset => offset
  | .notFound _ | .unreadable _ => none

/-- Why a document could not be merged: a merger serves one merge only, there
    is no body, a strict merge could not honour everything, the file holds no
    document, or it could not be read or written. -/
inductive DocumentFault where
  | alreadyUsed (stage : Stage)
  | noBody
  | notHonoured (count : Nat)
  | invalidTree
  | cannotOpen (path : String) (cause : Files.Fault)
  | bodyMissing (path : String)
  | cannotWrite (path : String) (cause : Files.Fault)
  | stated (message : String)

/-- The wording of a document fault. -/
def DocumentFault.message : DocumentFault → String
  | .alreadyUsed stage => "merger already used (stage: " ++ stage.words ++ ")"
  | .noBody => "document has no body"
  | .notHonoured count =>
      "strict mode: " ++ toString count ++ " placeholder(s) could not be honored"
  | .invalidTree => "invalid document tree"
  | .cannotOpen path cause => "cannot open document " ++ path ++ ": " ++ cause.message
  | .bodyMissing path => path ++ " has no document body"
  | .cannotWrite path cause => "cannot write document " ++ path ++ ": " ++ cause.message
  | .stated message => message

/-- Why a merge was refused. -/
inductive MergeFault where
  | data (cause : DataFault)
  | document (cause : DocumentFault)

namespace MergeFault

/-- A fault as a line of text. -/
def line : MergeFault → String
  | .data cause => match cause.offset? with
    | some offset => "Data load error at byte " ++ toString offset ++ ": " ++ cause.message
    | none => "Data load error: " ++ cause.message
  | .document cause => "Structural error: " ++ cause.message

/-- Where in the data file a fault was found, if it has a place there. -/
def offset? : MergeFault → Option Nat
  | .data cause => cause.offset?
  | .document _ => none

/-- Whether the data is at fault. -/
def isDataLoad : MergeFault → Bool
  | .data _ => true
  | .document _ => false

/-- Whether the document is at fault. -/
def isStructural : MergeFault → Bool
  | .data _ => false
  | .document _ => true

/-- A fault lies on one of the two sides. -/
theorem isStructural_eq_not (f : MergeFault) : f.isStructural = !f.isDataLoad := by
  cases f <;> rfl

end MergeFault

end MailMerge
