import MailMerge.Text.Blank
import MailMerge.Text.Cut
import MailMerge.Data.Element

/-!
# Paths into the Data Tree

A path is a descent from the root of the data tree: segments between slashes,
each naming a child. At each step the first child of that name is taken.

Authors type paths inside a word processor, which likes to break lines and to
put spaces where none were meant. So a path is brought into a normal form
before it is walked, and the normal form is also how a path is reported: blanks
at the ends go, one leading `./` goes, and then every other blank goes, first
around slashes and finally inside the names. The order matters at one place
only. The `./` is looked for before inner blanks are removed, so a dot and a
slash that a blank keeps apart stay, and make a segment named `.`.

Empty segments are skipped. A doubled slash or one at an end therefore means
nothing, and a path without segments is the root itself.

## Main definitions

* `Path.normalize`: The normal form of a path as it was typed.
* `Path.segments`: The names a path descends through.
* `Element.descend?`: The descent itself.
* `Element.resolve?`: The element a path leads to.
* `Element.textAt`, `Element.listAt`: Its text and its children, or nothing.

## Theorems

* `descend?_append`: Descending two lists of names in turn.
* `ne_nil_of_mem_segments`: No segment is empty.
-/

namespace MailMerge

namespace Path

/-- A slash together with the blanks on both sides of it. -/
def slash? (t : List Char) : Option (Text.Find Unit) :=
  match Text.dropBlank t with
  | '/' :: rest => some ⟨(), t.length - (Text.dropBlank rest).length - 1⟩
  | _ => none

/-- A path with the blanks around its slashes removed. -/
def tighten (t : List Char) : List Char := Text.replaceFinds slash? (fun _ => ['/']) t

/-- A text without the `./` it may begin with. -/
def dropHere : List Char → List Char
  | '.' :: '/' :: t => t
  | t => t

/-- The normal form of a path: trimmed, without one leading `./`, and then
    without any blank. -/
def normalize (path : String) : String :=
  String.ofList (Text.deleteBlank (tighten (dropHere (Text.trim path.toList))))

/-- The names that a path in normal form descends through, empty ones
    skipped. -/
def segments (path : String) : List String :=
  ((path.toList.splitOn '/').filter (· ≠ [])).map String.ofList

theorem ne_nil_of_mem_segments {path s : String} (h : s ∈ segments path) : s.toList ≠ [] := by
  simp only [segments, List.mem_map, List.mem_filter, decide_eq_true_eq] at h
  obtain ⟨t, ⟨_, ht⟩, rfl⟩ := h
  rw [String.toList_ofList]
  exact ht

end Path

namespace Element

/-- Descends through children, taking the first of each name. -/
def descend? : Element → List String → Option Element
  | e, [] => some e
  | e, name :: rest => (e.child? name).bind fun c => c.descend? rest

theorem descend?_append (e : Element) (p q : List String) :
    e.descend? (p ++ q) = (e.descend? p).bind fun c => c.descend? q := by
  induction p generalizing e with
  | nil => rfl
  | cons name p ih =>
      simp only [List.cons_append, descend?, Option.bind_assoc, ih]

/-- The element that a path leads to from the root `e`. A path without
    segments leads to `e` itself. -/
def resolve? (e : Element) (path : String) : Option Element :=
  e.descend? (Path.segments (Path.normalize path))

/-- The text at a path, empty when the path leads nowhere. -/
def textAt (e : Element) (path : String) : String := ((e.resolve? path).map text).getD ""

/-- The child elements at a path, none when the path leads nowhere. -/
def listAt (e : Element) (path : String) : List Element :=
  ((e.resolve? path).map children).getD []

end Element

end MailMerge
