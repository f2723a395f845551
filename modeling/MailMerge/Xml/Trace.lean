import MailMerge.Text.Cut
import MailMerge.Xml.Fault

/-!
# The Events of an XML Text

An XML text is first read as a flat sequence of events: a tag opens or closes,
a text stands between two pieces of markup, or something stands there that
means nothing to the data, such as a comment.

The reading is lax. Every piece of markup runs from its `<` to the first `>`
that its kind accepts as its end, and what is inside is hardly looked at: a
tag's name is whatever stands before the first blank, and attributes are never
checked. A tag accepts a `>` outside quotation marks, a comment one behind
`--`, and so on; `Kind.accepts` is the whole of that rule.

One thing is checked here, because it needs no tree: a closing tag must name
the tag that was opened last and is still open. The cursor therefore carries
the names of the open tags.

Reading an event always consumes something, so the sequence of events of a
text is finite. It is a trace that ends at the end of the text or at the first
fault.

## Main definitions

* `Kind`: What a piece of markup is, by how it begins.
* `upToClose?`: The content of a piece of markup and the text behind it.
* `Event`, `Cursor`: An event, and the place from which reading goes on.
* `Cursor.next`: Reads one event.
* `Trace`: All events of a text, each with its offset.

## Theorems

* `eq_of_upToClose?`: The content, its closing `>` and the rest make up the text.
* `exists_append_of_next`: Reading an event takes a part of the text and goes on behind it.
* `length_rest_next_lt`, `offset_lt_of_next`: That part is not empty.
* `Trace.onward_eq`: The events from a place on, by the first of them.
-/

namespace MailMerge

namespace Xml

/-- The four characters that XML counts as blanks. -/
def isSpace (c : Char) : Bool := c = ' ' || c = '\t' || c = '\n' || c = '\r'

/-- What a piece of markup is. -/
inductive Kind where
  | cdata
  | comment
  | doctype
  | instruction
  | closingTag
  | openingTag
deriving DecidableEq, Repr

namespace Kind

/-- The kind of a piece of markup, by what follows its `<`. -/
def of : List Char → Except MarkupFault Kind
  | [] => .error .unclosedTag
  | '!' :: '[' :: _ => .ok .cdata
  | '!' :: '-' :: _ => .ok .comment
  | '!' :: 'D' :: _ | '!' :: 'd' :: _ => .ok .doctype
  | '!' :: _ => .error .stray
  | '?' :: _ => .ok .instruction
  | '/' :: _ => .ok .closingTag
  | _ => .ok .openingTag

/-- The quotation mark that is still open behind a stretch of a tag. -/
def openQuote (content : List Char) : Option Char :=
  content.foldl
    (fun quote c => match quote with
      | none => if c = '"' ∨ c = '\'' then some c else none
      | some q => if c = q then none else some q)
    none

/-- Whether a `>` behind this content closes the markup. The content begins
    right behind the `<`. -/
def accepts : Kind → (content : List Char) → Bool
  | .cdata, content => "]]".toList.isSuffixOf content
  | .comment, content => decide (5 ≤ content.length) && "--".toList.isSuffixOf content
  | .doctype, content => content.count '<' = content.count '>'
  | .instruction, content => "?".toList.isSuffixOf content
  | .closingTag, content | .openingTag, content => (openQuote content).isNone

/-- The fault of markup that is never closed. -/
def unclosed : Kind → MarkupFault
  | .cdata => .unclosedCData
  | .comment => .unclosedComment
  | .doctype => .unclosedDoctype
  | .instruction => .unclosedInstruction
  | .closingTag | .openingTag => .unclosedTag

end Kind

/-- The content of a piece of markup, up to the first `>` that its kind
    accepts, and the text behind that `>`. `seen` is the content read so far,
    its last character first. -/
def upToClose? (kind : Kind) : (seen : List Char) → List Char → Option (List Char × List Char)
  | _, [] => none
  | seen, c :: t =>
      if c = '>' && kind.accepts seen.reverse then some (seen.reverse, t)
      else upToClose? kind (c :: seen) t

/-- The content, its closing `>` and the rest make up the text. -/
theorem eq_of_upToClose? {kind : Kind} {seen t content rest : List Char}
    (h : upToClose? kind seen t = some (content, rest)) :
    seen.reverse ++ t = content ++ '>' :: rest := by
  induction t generalizing seen with
  | nil => simp only [upToClose?, reduceCtorEq] at h
  | cons c t ih =>
      simp only [upToClose?] at h
      split at h
      · next hc =>
          simp only [Bool.and_eq_true, decide_eq_true_eq] at hc
          simp only [Option.some.injEq, Prod.mk.injEq] at h
          rw [hc.1, h.1, h.2]
      · have := ih h
        simpa only [List.reverse_cons, List.append_assoc, List.singleton_append] using this

/-- An event of an XML text. The text of an event is as written, with its
    references; a CDATA section stands for itself. -/
inductive Event where
  | opening (name : String)
  | selfClosing (name : String)
  | closing (name : String)
  | text (written : List Char)
  | cdata (content : String)
  | aside
deriving DecidableEq, Repr

/-- A place in an XML text: what is left of it, how many bytes were read, and
    the names of the tags that are open, the innermost first. -/
structure Cursor where
  rest : List Char
  offset : Nat
  opened : List String
deriving DecidableEq, Repr

namespace Cursor

/-- The beginning of a text. A byte order mark is not part of the text. -/
def start (s : String) : Cursor :=
  match s.toList with
  | '\uFEFF' :: t => ⟨t, 0, []⟩
  | t => ⟨t, 0, []⟩

theorem start_offset (s : String) : (start s).offset = 0 := by
  rw [start]
  split <;> rfl

theorem start_opened (s : String) : (start s).opened = [] := by
  rw [start]
  split <;> rfl

/-- The name in a closing tag: everything behind the slash, without the blanks
    at its end unless there is nothing else. -/
def closingName (content : List Char) : String :=
  let written := content.drop 1
  match (written.reverse.dropWhile isSpace).reverse with
  | [] => String.ofList written
  | name => String.ofList name

/-- The name in an opening tag: everything before the first blank. -/
def openingName (content : List Char) : String :=
  String.ofList (content.takeWhile fun c => !isSpace c)

/-- The event of a closing tag, and the tags that are open behind it. -/
def close (offset : Nat) (name : String) : List String → Except Fault (Event × List String)
  | [] => .error (.nesting offset (.closedUnopened name))
  | innermost :: outer =>
      if innermost = name then .ok (.closing name, outer)
      else .error (.nesting offset (.closedOther innermost name))

/-- The event of a complete piece of markup at an offset, and the tags that
    are open behind it. -/
def event (offset : Nat) (opened : List String) (content : List Char) :
    Kind → Except Fault (Event × List String)
  | .cdata => match Text.strip? "![CDATA[".toList content with
    | some inner => .ok (.cdata (String.ofList (inner.take (inner.length - 2))), opened)
    | none => .error (.markup offset .unclosedCData)
  | .comment =>
      if "!--".toList.isPrefixOf content then .ok (.aside, opened)
      else .error (.markup offset .unclosedComment)
  | .doctype =>
      if (content.take 8).map Char.toUpper = "!DOCTYPE".toList then
        if (content.drop 8).all isSpace then .error (.nesting offset .doctypeWithoutName)
        else .ok (.aside, opened)
      else .error (.markup offset .unclosedDoctype)
  | .instruction =>
      if content.length = 1 then .error (.markup offset .unclosedInstruction)
      else .ok (.aside, opened)
  | .closingTag => close offset (closingName content) opened
  | .openingTag =>
      if "/".toList.isSuffixOf content then
        .ok (.selfClosing (openingName content.dropLast), opened)
      else
        .ok (.opening (openingName content), openingName content :: opened)

/-- Reads the piece of markup whose `<` stands before the text `t`. -/
def markup (c : Cursor) (t : List Char) : Except Fault (Event × Cursor) :=
  match Kind.of t with
  | .error cause => .error (.markup c.offset cause)
  | .ok kind => match upToClose? kind [] t with
    | none => .error (.markup c.offset kind.unclosed)
    | some (content, rest) => (event c.offset c.opened content kind).map fun (e, opened) =>
        (e, ⟨rest, c.offset + Text.byteLength content + 2, opened⟩)

/-- Reads one event, or nothing at the end of the text. -/
def next (c : Cursor) : Except Fault (Option (Event × Cursor)) :=
  match c.rest with
  | [] => .ok none
  | '<' :: t => (c.markup t).map some
  | first :: t =>
      let written := first :: t.takeWhile (· ≠ '<')
      .ok (some (.text written,
        ⟨t.dropWhile (· ≠ '<'), c.offset + Text.byteLength written, c.opened⟩))

theorem map_eq_ok_iff {α β : Type} {f : α → β} {x : Except Fault α} {b : β} :
    x.map f = .ok b ↔ ∃ a, x = .ok a ∧ f a = b := by
  cases x with
  | error _ => simp only [Except.map, reduceCtorEq, false_and, exists_false]
  | ok _ => simp only [Except.map, Except.ok.injEq, exists_eq_left']

/-- A piece of markup takes its content, and the two characters around it. -/
theorem exists_append_of_markup {c c' : Cursor} {t : List Char} {e : Event}
    (h : c.markup t = .ok (e, c')) : ∃ content, t = content ++ '>' :: c'.rest ∧
      c'.offset = c.offset + Text.byteLength content + 2 := by
  simp only [markup] at h
  split at h
  · exact absurd h (by simp only [reduceCtorEq, not_false_eq_true])
  · split at h
    · exact absurd h (by simp only [reduceCtorEq, not_false_eq_true])
    · next content rest hclose =>
        obtain ⟨r, _, hr⟩ := map_eq_ok_iff.mp h
        refine ⟨content, ?_, (congrArg (fun p => p.2.offset) hr).symm⟩
        rw [← congrArg (fun p => p.2.rest) hr]
        exact eq_of_upToClose? hclose

/-- Reading an event takes a part of the text, which is not empty, and goes on behind it. -/
theorem exists_append_of_next {c c' : Cursor} {e : Event} (h : c.next = .ok (some (e, c'))) :
    ∃ taken, taken ≠ [] ∧ c.rest = taken ++ c'.rest ∧
      c'.offset = c.offset + Text.byteLength taken := by
  simp only [next] at h
  split at h
  · simp only [Except.ok.injEq, reduceCtorEq] at h
  · next t hrest =>
      obtain ⟨r, hm, hr⟩ := map_eq_ok_iff.mp h
      simp only [Option.some.injEq] at hr
      subst hr
      obtain ⟨content, ht, hoffset⟩ := exists_append_of_markup hm
      refine ⟨'<' :: (content ++ ['>']), List.cons_ne_nil _ _, ?_, ?_⟩
      · rw [hrest, ht, List.cons_append, List.append_assoc, List.singleton_append]
      · have hless : '<'.utf8Size = 1 := rfl
        have hgreater : '>'.utf8Size = 1 := rfl
        rw [hoffset, Text.byteLength, Text.byteLength_append, Text.byteLength, Text.byteLength,
          hless, hgreater]
        omega
  · next first t _ hrest =>
      simp only [Except.ok.injEq, Option.some.injEq, Prod.mk.injEq] at h
      refine ⟨first :: t.takeWhile (· ≠ '<'), List.cons_ne_nil _ _, ?_, ?_⟩
      · rw [hrest, ← h.2, List.cons_append, List.takeWhile_append_dropWhile]
      · rw [← h.2]

/-- Reading an event consumes something. -/
theorem length_rest_next_lt {c c' : Cursor} {e : Event} (h : c.next = .ok (some (e, c'))) :
    c'.rest.length < c.rest.length := by
  obtain ⟨taken, hne, hrest, _⟩ := exists_append_of_next h
  rw [hrest, List.length_append]
  exact Nat.lt_add_of_pos_left (List.length_pos_iff.mpr hne)

/-- Every event takes at least one byte. -/
theorem offset_lt_of_next {c c' : Cursor} {e : Event} (h : c.next = .ok (some (e, c'))) :
    c.offset < c'.offset := by
  obtain ⟨taken, hne, _, hoffset⟩ := exists_append_of_next h
  rw [hoffset]
  exact Nat.lt_add_of_pos_right (Text.byteLength_pos hne)

end Cursor

/-- The events of a text, each with the offset at which it begins, up to the
    end of the text or to the first fault. -/
inductive Trace where
  | ended
  | failed (fault : Fault)
  | event (offset : Nat) (e : Event) (rest : Trace)
deriving DecidableEq, Repr

/-- The events from a place on. -/
def Trace.onward (c : Cursor) : Trace :=
  match _h : c.next with
  | .error fault => .failed fault
  | .ok none => .ended
  | .ok (some (e, c')) => .event c.offset e (Trace.onward c')
termination_by c.rest.length
decreasing_by exact Cursor.length_rest_next_lt ‹_›

/-- What reading one event tells about the events from a place on. -/
theorem Trace.onward_eq (c : Cursor) : Trace.onward c = match c.next with
    | .error fault => .failed fault
    | .ok none => .ended
    | .ok (some (e, c')) => .event c.offset e (Trace.onward c') := by
  rw [Trace.onward]
  split
  · next h => rw [h]
  · next h => rw [h]
  · next h => rw [h]

/-- The events of a whole text. -/
def Trace.of (s : String) : Trace := Trace.onward (Cursor.start s)

end Xml

end MailMerge
