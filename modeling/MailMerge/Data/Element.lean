/-!
# The Data Tree

The data that a template is merged with is one ordered tree of named elements.
An element holds text and further elements in document order. Siblings may
share a name, which is how a list is expressed: an income table in the data is
an element whose children are its rows.

An element's name is kept as written. A name such as `ns:Source` has a local
part behind its last colon, and the two are used for different things: the
local name is what a column is called, and the name as written is what a path
or a column looks up.

## Main definitions

* `Element`, `Content`: The tree, and one item of an element's content.
* `Element.children`, `Element.child?`: Child elements, all or the first of a name.
* `Element.localName`, `Element.columns`: What an element and its children are
  called as columns.
* `Element.text`: All text under an element, in document order.

## Theorems

* `text_mk_append`: The text of two stretches of content is that of both in turn.
* `name_of_child?`: A child that was looked up has the name it was looked up by.
-/

namespace MailMerge

mutual

/-- An element of the data tree: its name as written and its content in
    document order. -/
structure Element where
  name : String
  content : List Content

/-- One item of an element's content. -/
inductive Content where
  | text (s : String)
  | element (e : Element)

end

/-- The element that an item of content is, if it is one. -/
def Content.element? : Content → Option Element
  | .element e => some e
  | .text _ => none

namespace Element

/-- The child elements, in document order. -/
def children (e : Element) : List Element := e.content.filterMap Content.element?

/-- The first child with a name, compared as written. -/
def child? (e : Element) (name : String) : Option Element :=
  e.children.find? fun c => c.name == name

theorem name_of_child? {e c : Element} {name : String} (h : e.child? name = some c) :
    c.name = name := by
  simpa only [beq_iff_eq] using List.find?_some h

/-- The part of the name behind its last colon, or all of it. -/
def localName (e : Element) : String :=
  String.ofList (e.name.toList.reverse.takeWhile (· ≠ ':')).reverse

/-- The local names of the children, in document order: the columns that this
    element's children make up. -/
def columns (e : Element) : List String := e.children.map localName

mutual

/-- All text of an element and of everything below it, in document order. -/
def text : Element → String
  | ⟨_, content⟩ => textOf content

/-- All text of a stretch of content, in document order. -/
def textOf : List Content → String
  | [] => ""
  | .text s :: rest => s ++ textOf rest
  | .element e :: rest => e.text ++ textOf rest

end

theorem textOf_append (l m : List Content) : textOf (l ++ m) = textOf l ++ textOf m := by
  induction l with
  | nil => simp only [List.nil_append, textOf, String.empty_append]
  | cons c l ih =>
      cases c <;> simp only [List.cons_append, textOf, ih, String.append_assoc]

/-- The text of two stretches of content is that of both in turn. -/
theorem text_mk_append (name : String) (l m : List Content) :
    (Element.mk name (l ++ m)).text = (Element.mk name l).text ++ (Element.mk name m).text := by
  simp only [text, textOf_append]

/-- The text found under the first child of a name, empty when there is none. -/
def textUnder (e : Element) (name : String) : String :=
  match e.child? name with
  | some c => c.text
  | none => ""

end Element

end MailMerge
