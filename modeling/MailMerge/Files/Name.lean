import MailMerge.Text.Utf8

/-!
# Names of Merged Copies

A merged document is written beside its template, under the template's name with
`_merged` before the extension. This is what happens when no output is named.

A path is a row of bytes, and so are the segments between its slashes. Empty
segments and `.` mean nothing at the end of a path, so `dir/t.json/.` names
`t.json`. Two things at the front of a path are more than a segment, a slash for
the root and `.` for the working directory. The last segment is the file name,
unless nothing is left or it is `..`. Such a path names no file, and the copy is
put below it and is called `document_merged`.

An extension begins at the last dot of a name. A name that has its only dot in
front has no extension, and neither has a name without a dot.

The name of a copy is made up as a text. So stem and extension are taken for texts
first, and what is no text in them does not get into the name. Directories stay as
they are.

## Main definitions

* `splitExtension`: A name as stem and extension.
* `mergedName`: The name of a merged copy.
* `PathParts`, `PathParts.ofBytes`: A path taken apart.
* `mergedBytes`: The path of a merged copy.
* `mergedPath`: The path of a merged copy of the file at a path that is a text.

## Theorems

* `join_splitExtension`: Stem and extension make up the name.
-/

namespace MailMerge

namespace Files

/-- The byte that stands before an extension. -/
@[match_pattern]
def dot : UInt8 := 0x2E

/-- The byte between the segments of a path. -/
@[match_pattern]
def slash : UInt8 := 0x2F

/-- Bytes cut at their last dot, if they have one. -/
def lastDot? : List UInt8 → Option (List UInt8 × List UInt8)
  | [] => none
  | x :: b => match lastDot? b with
    | some (before, behind) => some (x :: before, behind)
    | none => if x = dot then some ([], b) else none

/-- Cutting at the last dot loses nothing but the dot. -/
theorem eq_of_lastDot? {b before behind : List UInt8} (h : lastDot? b = some (before, behind)) :
    b = before ++ dot :: behind := by
  induction b generalizing before with
  | nil => exact absurd h (by simp only [lastDot?, reduceCtorEq, not_false_eq_true])
  | cons x b ih =>
      unfold lastDot? at h
      split at h
      · next front _ hfront =>
          simp only [Option.some.injEq, Prod.mk.injEq] at h
          obtain ⟨rfl, rfl⟩ := h
          rw [ih hfront, List.cons_append]
      · split at h
        · next hx =>
            simp only [Option.some.injEq, Prod.mk.injEq] at h
            obtain ⟨rfl, rfl⟩ := h
            rw [hx, List.nil_append]
        · exact absurd h (by simp only [reduceCtorEq, not_false_eq_true])

/-- A name as its stem and, if it has one, the extension behind its last dot. -/
def splitExtension (name : List UInt8) : List UInt8 × Option (List UInt8) :=
  match lastDot? name with
  | some (x :: before, extension) => (x :: before, some extension)
  | _ => (name, none)

/-- A stem with an extension, if there is one. -/
def joinExtension (stem : List UInt8) : Option (List UInt8) → List UInt8
  | some extension => stem ++ dot :: extension
  | none => stem

/-- Stem and extension make up the name. -/
theorem join_splitExtension (name : List UInt8) :
    joinExtension (splitExtension name).1 (splitExtension name).2 = name := by
  unfold splitExtension
  split
  · next h => exact (eq_of_lastDot? h).symm
  · rfl

/-- What a copy's name has behind the stem. -/
def mark : List UInt8 := Text.bytes "_merged".toList

/-- The name of a merged copy. -/
def mergedName (name : List UInt8) : List UInt8 :=
  let (stem, extension) := splitExtension name
  joinExtension (Text.mended stem ++ mark) (extension.map Text.mended)

/-- What a path begins with: the root, the working directory by name, or nothing
    but its segments. -/
inductive Front where
  | root
  | here
  | plain
deriving DecidableEq, Repr

/-- How a front is written. -/
def Front.bytes : Front → List UInt8
  | .root => [slash]
  | .here => [dot]
  | .plain => []

/-- A path taken apart: its front and its segments. -/
structure PathParts where
  front : Front
  segments : List (List UInt8)
deriving DecidableEq, Repr

/-- Takes a path apart. -/
def PathParts.ofBytes (path : List UInt8) : PathParts :=
  match path.splitOn slash with
  | [[]] => ⟨.plain, []⟩
  | [] :: rest => ⟨.root, rest⟩
  | [dot] :: rest => ⟨.here, rest⟩
  | segments => ⟨.plain, segments⟩

/-- A segment that means nothing at the end of a path. -/
def isIdle (segment : List UInt8) : Bool := segment = [] || segment = [dot]

/-- Segments without those at the end that mean nothing, the last one first. -/
def significant (segments : List (List UInt8)) : List (List UInt8) :=
  segments.reverse.dropWhile isIdle

/-- The path of a name below another path. -/
def below (path name : List UInt8) : List UInt8 :=
  match path.getLast? with
  | none | some slash => path ++ name
  | some _ => path ++ slash :: name

/-- The path that a front and some segments make up. -/
def PathParts.bytes (p : PathParts) : List UInt8 :=
  match p.segments with
  | [] => p.front.bytes
  | segments => below p.front.bytes (List.intercalate [slash] segments)

/-- The path of a merged copy. -/
def mergedBytes (path : List UInt8) : List UInt8 :=
  let p := PathParts.ofBytes path
  match significant p.segments with
  | [] | [dot, dot] :: _ => below path (mergedName (Text.bytes "document".toList))
  | name :: before =>
      below (PathParts.bytes ⟨p.front, (before.dropWhile isIdle).reverse⟩) (mergedName name)

/-- The path of a merged copy of the file at a path that is a text. -/
def mergedPath (path : String) : String :=
  String.ofList (Text.lossy (mergedBytes (Text.bytes path.toList)))

end Files

end MailMerge
