import MailMerge.Document.Address
import MailMerge.Marker
import MailMerge.Merge.Rows
import MailMerge.Table.Filling

/-!
# The Table Pass

The first half of a merge looks for table markers anywhere in the document. Each
of them asks for the first table that comes after its paragraph, at whatever
depth, and that table is filled. Then the marker is taken out of its paragraph.
A marker that no table follows stays for the second half.

All markers and their tables are found beforehand, in the document as it was.
Filling a table moves the rows below, so the addresses found beforehand go out of
date. The pass keeps a list of the shifts it has made, and an address is brought
up to date by following it through them. An address inside a row that was taken
away is lost: a table that is lost is not filled, and a marker that is lost is
not taken out.

## Main definitions

* `TableRequest`, `tableRequests`: The markers with the tables they ask for.
* `Shift`, `Shift.follow`: A table that was filled, and addresses after that.
* `eraseMarker`: A paragraph without a marker.
* `fillAt`: Filling the table at an address.
* `TablePass.step`, `TablePass.run`: One marker, and all of them in turn.

## Theorems

* `follow_append`: Shifts are followed in turn.
* `run_of_tableRequests_eq_nil`: A body without table markers stays.
-/

namespace MailMerge

/-- A table marker with the address of its paragraph, and of the table it asks
    for if a table follows. -/
structure TableRequest where
  marker : Marker
  paragraph : Address
  target : Option Address
deriving DecidableEq, Repr

/-- The first table among places. -/
def firstTable? (later : List Place) : Option Address :=
  (later.find? fun place => place.kind = .table).map Place.address

/-- The requests of the paragraphs among places. -/
def requestsAmong (blocks : List Block) : List Place → List TableRequest
  | [] => []
  | place :: later =>
      match paragraphAt? blocks place.address with
      | some p =>
          (scan .table p.text).map (fun m => ⟨m, place.address, firstTable? later⟩) ++
            requestsAmong blocks later
      | none => requestsAmong blocks later

/-- All table markers of a body with the tables they ask for, in document
    order. -/
def tableRequests (blocks : List Block) : List TableRequest :=
  requestsAmong blocks (places blocks)

/-- A table that lost its template row and got some rows in its place. -/
structure Shift where
  table : Address
  inserted : Nat
deriving DecidableEq, Repr

namespace Shift

/-- What an address becomes after some shifts, if it is not lost. -/
def follow : List Shift → Address → Option Address
  | [], a => some a
  | s :: rest, a => (Address.rebase s.table s.inserted a).bind (follow rest)

/-- Shifts are followed in turn. -/
theorem follow_append (l m : List Shift) (a : Address) :
    follow (l ++ m) a = (follow l a).bind (follow m) := by
  induction l generalizing a with
  | nil => rfl
  | cons s l ih =>
      simp only [List.cons_append, follow, Option.bind_assoc]
      congr
      funext b
      exact ih b

end Shift

/-- A paragraph without a marker. If nothing is left to say, it says nothing at
    all. -/
def eraseLiteral (literal : String) (p : Paragraph) : Paragraph :=
  let remaining := Text.replaceAll literal "" p.text
  if Text.isBlankText remaining then p.clearRuns else p.setText remaining

/-- Takes a marker out of a block, if that is a paragraph. -/
def eraseMarker (literal : String) : Block → Block
  | .paragraph p => .paragraph (eraseLiteral literal p)
  | .table t => .table t

namespace TablePass

/-- What is noted when no table follows a marker. Only in the body and in the
    cells of its tables is a table generated instead. A paragraph that was lost
    counts as standing there. -/
def missingDiagnostic (path : String) (paragraph : Option Address) : Diagnostic :=
  if paragraph.any fun a => 1 < a.steps.length then
    ⟨.unresolvedPlaceholder,
      "no table follows the placeholder and it is too deeply nested to generate one",
      some (Path.normalize path)⟩
  else
    ⟨.missingTargetTable, "no table follows the placeholder", some (Path.normalize path)⟩

/-- What is noted when a table does not fit. -/
def misfitDiagnostic (path : String) (reason : Table.Misfit) : Diagnostic :=
  ⟨.templateRowMismatch, reason.message, some (Path.normalize path)⟩

/-- How far the pass is: the body, and the shifts made so far. -/
structure State where
  blocks : List Block
  shifts : List Shift

/-- Fills the table at an address with the rows at a path. -/
def fillAt (data : Element) (options : Options) (path : String) (table : Address) (s : State) :
    Reported State := do
  let rows ← data.rowsAt path
  match (tableAt? s.blocks table).map (Table.fill options rows) with
  | some (.filled filled) => do
      Reported.tell ⟨0, 0, 1, []⟩
      return ⟨modifyAt (fun _ => .table filled) table s.blocks,
        s.shifts ++ [⟨table, rows.length⟩]⟩
  | some (.misfit reason) => do
      Reported.note (misfitDiagnostic path reason)
      return s
  | some .noData | none => return s

/-- Honours one request. -/
def step (data : Element) (options : Options) (s : State) (r : TableRequest) :
    Reported State := do
  let paragraph := Shift.follow s.shifts r.paragraph
  match r.target with
  | none => do
      Reported.note (missingDiagnostic r.marker.path paragraph)
      return s
  | some target => do
      let next ← match Shift.follow s.shifts target with
        | some table => fillAt data options r.marker.path table s
        | none => pure s
      match paragraph with
      | some a =>
          return { next with blocks := modifyAt (eraseMarker r.marker.literal) a next.blocks }
      | none => return next

/-- Honours requests in turn. -/
def steps (data : Element) (options : Options) : State → List TableRequest → Reported State
  | s, [] => pure s
  | s, r :: rest => do steps data options (← step data options s r) rest

/-- The first half of a merge. -/
def run (data : Element) (options : Options) (blocks : List Block) : Reported (List Block) := do
  let s ← steps data options ⟨blocks, []⟩ (tableRequests blocks)
  return s.blocks

/-- A body without table markers stays. -/
theorem run_of_tableRequests_eq_nil {data : Element} {options : Options} {blocks : List Block}
    (h : tableRequests blocks = []) : run data options blocks = pure blocks := by
  rw [run, h, steps, pure_bind]

end TablePass

end MailMerge
