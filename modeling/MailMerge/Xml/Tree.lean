import MailMerge.Text.Blank
import MailMerge.Data.Element
import MailMerge.Xml.Reference
import MailMerge.Xml.Trace

/-!
# From Events to the Data Tree

The data tree of an XML text is built from its events, one after the other.
The state is the list of elements that are open, each with the content it has
so far, and the root once it is complete.

Text is kept as it is, with its references resolved and nothing trimmed,
unless it is blank altogether: such text is the indentation of the file and is
dropped. A CDATA section is kept even then, since nobody indents with one. A
comment separates two texts, which stay two items of content.

There is one tree, so outside of the root there is no text, and no second
element.

## Main definitions

* `Builder`: The open elements and the finished root.
* `Builder.accept`: What an event does to them.
* `Builder.finish`: The tree, once the text has ended.
* `Element.ofXml`: The data tree of an XML text.

## Theorems

* `accept_aside`: What means nothing changes nothing.
* `run_onward`: Reading one event and accepting it.
-/

namespace MailMerge

namespace Xml

/-- The elements that are open, the innermost first, and the root once it is
    complete. -/
structure Builder where
  opened : List Element
  root : Option Element

namespace Builder

/-- Nothing read yet. -/
def empty : Builder := ⟨[], none⟩

/-- Adds an item to the content of the innermost open element. -/
def addTo (item : Content) (parent : Element) (outer : List Element) (b : Builder) : Builder :=
  { b with opened := { parent with content := parent.content ++ [item] } :: outer }

/-- Puts a complete element where it belongs: into the innermost open element,
    or at the root. -/
def place (offset : Nat) (e : Element) (b : Builder) : Except Fault Builder :=
  match b.opened, b.root with
  | parent :: outer, _ => .ok (addTo (.element e) parent outer b)
  | [], none => .ok { b with root := some e }
  | [], some _ => .error (.secondRoot offset)

/-- Puts a text into the innermost open element. -/
def addText (offset : Nat) (s : String) (b : Builder) : Except Fault Builder :=
  match b.opened with
  | parent :: outer => .ok (addTo (.text s) parent outer b)
  | [] => .error (.textOutsideRoot offset)

/-- What an event that begins at an offset does. -/
def accept (offset : Nat) (b : Builder) : Event → Except Fault Builder
  | .opening name =>
      if b.opened.isEmpty && b.root.isSome then .error (.secondRoot offset)
      else .ok { b with opened := ⟨name, []⟩ :: b.opened }
  | .selfClosing name => b.place offset ⟨name, []⟩
  | .closing _ => match b.opened with
    | e :: outer => { b with opened := outer }.place offset e
    | [] => .error (.strayClose offset)
  | .text written => match unescape written with
    | .error cause => .error (.escape cause)
    | .ok t => if t.all Text.isBlank then .ok b else b.addText offset (String.ofList t)
  | .cdata content => b.addText offset content
  | .aside => .ok b

/-- What means nothing changes nothing. -/
theorem accept_aside (offset : Nat) (b : Builder) : b.accept offset .aside = .ok b := rfl

/-- The tree, once the text has ended. -/
def finish (b : Builder) : Except Fault Element :=
  match b.opened, b.root with
  | e :: _, _ => .error (.unclosedElement e.name)
  | [], some root => .ok root
  | [], none => .error .noRoot

/-- Accepts the events of a trace in turn. -/
def run (b : Builder) : Trace → Except Fault Element
  | .ended => b.finish
  | .failed fault => .error fault
  | .event offset e rest => match b.accept offset e with
    | .error fault => .error fault
    | .ok b => b.run rest

/-- An event that is accepted is behind the builder then. -/
theorem run_onward {b b' : Builder} {c c' : Cursor} {e : Event}
    (hnext : c.next = .ok (some (e, c'))) (haccept : b.accept c.offset e = .ok b') :
    b.run (Trace.onward c) = b'.run (Trace.onward c') := by
  rw [Trace.onward_eq, hnext]
  simp only [run, haccept]

end Builder

end Xml

/-- The data tree of an XML text. -/
def Element.ofXml (s : String) : Except Xml.Fault Element := Xml.Builder.empty.run (Xml.Trace.of s)

end MailMerge
