import MailMerge.Document.Encoding
import MailMerge.Files.Access
import MailMerge.Merger
import MailMerge.Xml.Tree

/-!
# Merging Files

A merge from files to a file. The data is read first, then the template, which
has to hold a document with a body. Only when the merge went through is anything
written, so a merge that fails leaves all files as they were.

## Main definitions

* `loadData`, `loadDocument`, `saveDocument`: Reading and writing the two kinds
  of file.
* `mergeFiles`: A merge from files to a file.
-/

namespace MailMerge

/-- The document that a text holds, or the fault of holding none. -/
def documentOf (text : String) : Except MergeFault Document :=
  match Document.read? text with
  | some d => .ok d
  | none => .error (.document .invalidTree)

/-- The data that a text holds, or the fault of holding none. -/
def dataOf (text : String) : Except MergeFault Element :=
  (Element.ofXml text).mapError fun cause => .data (.malformed cause)

section

variable {m : Type → Type} [Monad m] [MonadFiles m]

/-- Reads the data in a file. -/
def loadData (path : String) : ExceptT MergeFault m Element := do
  if ← isThere path then
    match ← readText path with
    | .ok text => dataOf text
    | .error cause => throw (.data (.unreadable cause))
  else throw (.data (.notFound path))

/-- Reads the document in a file. It has to have a body. -/
def loadDocument (path : String) : ExceptT MergeFault m Document := do
  match ← readText path with
  | .ok text => do
      let d ← documentOf text
      if d.body.isSome then return d
      else throw (.document (.bodyMissing path))
  | .error cause => throw (.document (.cannotOpen path cause))

/-- Writes a document to a file. -/
def saveDocument (path : String) (d : Document) : ExceptT MergeFault m Unit := do
  match ← writeText path d.write with
  | .ok _ => return ()
  | .error cause => throw (.document (.cannotWrite path cause))

/-- Merges the data in a file into the template in another, and writes the merged
    document to a third. -/
def mergeFiles (options : Options) (template data output : String) :
    ExceptT MergeFault m Report := do
  let data ← loadData data
  let template ← loadDocument template
  let (merged, report) ← mergeWith options data template
  saveDocument output merged
  return report

end

end MailMerge
