import Mathlib.Data.List.Induction
import Mathlib.Logic.ExistsUnique
import MailMerge.Xml.Tree

/-!
# The Tree of a Sequence of Events

A tree is built from events with a stack of open elements and a place for the finished
root. Neither the stack nor the place appears in what a reader wants to know, which is
whether a sequence of events is that of one tree, and which tree.

Both questions are about the sequence alone. Where a tag closes the one that was opened
last, the tags that are open behind some events can be told from these events, and an event
that comes when none is open lies outside of all elements. A sequence is that of a tree when
what lies outside is one element and blank text.

The tree is the one that gives the sequence back. Written out again, with one mark for each
tag and each text, it has the marks of the events, and no two trees have the same ones.

The two sides meet in what the builder has behind some events. Its stack has the names of
the open tags, a finished root leaves the stack empty, and what it holds, written out, is
what was read.

## Main definitions

* `Trace.events?`: The events of a text that is without a fault.
* `namesOpen`, `Outside`: The tags that are open behind some events, and whether none is.
* `IsTree`: A sequence with one element, outside of which there is nothing but blank text.
* `MayFollow`, `ClosesInOrder`: What one event asks of those before it.
* `Mark`, `Element.marks`, `Event.marks`: A tree and an event, written out.
* `Builder.Holds`: What a builder has behind some events.

## Theorems

* `isTree_iff`: The same, told one event after the other.
* `closesInOrder_of`: A closing tag closes the tag opened last.
* `Element.eq_of_marks_eq`: Two trees with the same marks are the same.
* `Builder.run_eq_ok_iff`: What is built depends on the events alone.
* `Builder.Holds.take`, `Builder.Holds.mayFollow`: One event, accepted or refused.
* `Builder.exists_behind?`, `Builder.holds_of_behind?`: All events.
* `ofXml_iff_isTree`: Which texts are read, and as which tree.
-/

namespace MailMerge

namespace Xml

/-! ### Events and open tags -/

/-- The events of a trace that ends at the end of the text. -/
def Trace.events? : Trace → Option (List Event)
  | .ended => some []
  | .failed _ => none
  | .event _ e rest => rest.events?.map (e :: ·)

/-- Whether an event is a tag at which an element begins. -/
def Event.begins : Event → Bool
  | .opening _ | .selfClosing _ => true
  | _ => false

/-- The names of the tags that are open behind an event, the innermost first. -/
def Event.namesBehind (opened : List String) : Event → List String
  | .opening name => name :: opened
  | .closing _ => opened.tail
  | _ => opened

/-- The names of the tags that are open behind some events, the innermost first. -/
def namesOpen (es : List Event) : List String := es.foldl Event.namesBehind []

/-- Whether what comes behind some events is outside of all elements. -/
def Outside (es : List Event) : Prop := namesOpen es = []

/-- A sequence of events that makes up one tree: references that can be resolved, blank text
    and one element outside of all elements, and everything closed at the end. -/
structure IsTree (es : List Event) : Prop where
  resolved : ∀ written, .text written ∈ es → ∃ t, unescape written = .ok t
  blank : ∀ before written t, before ++ [.text written] <+: es → Outside before →
    unescape written = .ok t → t.all Text.isBlank = true
  noCData : ∀ before content, before ++ [.cdata content] <+: es → ¬ Outside before
  oneElement : ∃! before, Outside before ∧ ∃ e, e.begins = true ∧ before ++ [e] <+: es
  closed : Outside es

theorem namesOpen_concat (es : List Event) (e : Event) :
    namesOpen (es ++ [e]) = e.namesBehind (namesOpen es) := by
  rw [namesOpen, List.foldl_append]
  rfl

/-- Whether some events have begun an element that is in no other. -/
def HasBegun (es : List Event) : Prop :=
  ∃ before e, e.begins = true ∧ Outside before ∧ before ++ [e] <+: es

theorem hasBegun_concat {es : List Event} {e : Event} :
    HasBegun (es ++ [e]) ↔ HasBegun es ∨ e.begins = true ∧ Outside es := by
  constructor
  · rintro ⟨before, e', hbegins, houtside, hpre⟩
    rw [List.prefix_concat_iff, List.append_singleton_inj] at hpre
    rcases hpre with ⟨rfl, rfl⟩ | hpre
    · exact Or.inr ⟨hbegins, houtside⟩
    · exact Or.inl ⟨before, e', hbegins, houtside, hpre⟩
  · rintro (⟨before, e', hbegins, houtside, hpre⟩ | ⟨hbegins, houtside⟩)
    · exact ⟨before, e', hbegins, houtside, hpre.trans (List.prefix_append _ _)⟩
    · exact ⟨es, e, hbegins, houtside, List.prefix_refl _⟩

/-- Whether an event may come behind some others. -/
def MayFollow (es : List Event) : Event → Prop
  | .opening _ | .selfClosing _ => Outside es → ¬ HasBegun es
  | .text written => ∃ t, unescape written = .ok t ∧ (Outside es → t.all Text.isBlank = true)
  | .cdata _ => ¬ Outside es
  | .closing _ | .aside => True

theorem MayFollow.not_hasBegun {es : List Event} {e : Event} (h : MayFollow es e)
    (hbegins : e.begins = true) (houtside : Outside es) : ¬ HasBegun es := by
  cases e with
  | opening name => exact h houtside
  | selfClosing name => exact h houtside
  | _ => exact absurd hbegins Bool.false_ne_true

/-- Whether each closing tag names the tag that was opened last and is still open. -/
def ClosesInOrder (es : List Event) : Prop :=
  ∀ before name, before ++ [.closing name] <+: es → (namesOpen before).head? = some name

theorem ClosesInOrder.of_concat {es : List Event} {e : Event} (h : ClosesInOrder (es ++ [e])) :
    ClosesInOrder es :=
  fun before name hpre => h before name (hpre.trans (List.prefix_append es [e]))

theorem ClosesInOrder.last {es : List Event} {e : Event} (h : ClosesInOrder (es ++ [e])) :
    ∀ name, e = .closing name → (namesOpen es).head? = some name :=
  fun name he => h es name (he ▸ List.prefix_refl _)

/-- A sequence of events is that of a tree if each event may follow those before it, and at
    the end there is a root and nothing is open. -/
theorem isTree_iff {es : List Event} : IsTree es ↔
    (∀ before e, before ++ [e] <+: es → MayFollow before e) ∧ HasBegun es ∧
      Outside es := by
  constructor
  · intro h
    rcases h.oneElement with ⟨first, ⟨hfirst, e₁, hbegins, hpre⟩, honly⟩
    refine ⟨fun before e hp => ?_, ⟨first, e₁, hbegins, hfirst, hpre⟩, h.closed⟩
    -- If an element had begun before, this one would be a second one.
    have hsecond : e.begins = true → Outside before → ¬ HasBegun before := by
      rintro hb houtside ⟨before', e', hb', houtside', hp'⟩
      have hfirst' := honly before' ⟨houtside', e', hb', hp'.trans
        ((List.prefix_append before [e]).trans hp)⟩
      have hfirst'' := honly before ⟨houtside, e, hb, hp⟩
      have hlength := hp'.length_le
      rw [hfirst', ← hfirst'', List.length_append, List.length_singleton] at hlength
      omega
    cases e with
    | opening name => exact hsecond rfl
    | selfClosing name => exact hsecond rfl
    | closing name => exact True.intro
    | aside => exact True.intro
    | cdata content => exact h.noCData before content hp
    | text written =>
        have hmem : .text written ∈ es :=
          hp.subset (List.mem_append_right before (List.mem_singleton.mpr rfl))
        rcases h.resolved written hmem with ⟨t, ht⟩
        exact ⟨t, ht, fun houtside => h.blank before written t hp houtside ht⟩
  · rintro ⟨hfollow, ⟨first, e₁, hbegins, hfirst, hpre⟩, hclosed⟩
    refine ⟨fun written hmem => ?_, fun before written t hp houtside ht => ?_,
      fun before content hp => hfollow before _ hp,
      ⟨first, ⟨hfirst, e₁, hbegins, hpre⟩, ?_⟩, hclosed⟩
    · rcases List.append_of_mem hmem with ⟨before, after, rfl⟩
      have hp : before ++ [.text written] <+: before ++ .text written :: after :=
        ⟨after, by rw [List.append_assoc, List.singleton_append]⟩
      rcases hfollow before _ hp with ⟨t, ht, _⟩
      exact ⟨t, ht⟩
    · rcases hfollow before _ hp with ⟨t', ht', hblank⟩
      rw [ht, Except.ok.injEq] at ht'
      rw [ht']
      exact hblank houtside
    · -- Of two tags outside of all elements the later one would not be the first.
      have hsame : ∀ {p q e e'}, e.begins = true → Outside p → e'.begins = true → Outside q →
          q ++ [e'] <+: es → p ++ [e] <+: q ++ [e'] → p = q := by
        intro p q e e' hbp hop hbq hoq hq hpq
        rw [List.prefix_concat_iff, List.append_singleton_inj] at hpq
        rcases hpq with ⟨rfl, _⟩ | hpq
        · rfl
        · exact absurd ⟨p, e, hbp, hop, hpq⟩ ((hfollow q e' hq).not_hasBegun hbq hoq)
      rintro second ⟨hsecond, e₂, hbegins₂, hpre₂⟩
      rcases List.prefix_or_prefix_of_prefix hpre hpre₂ with h | h
      · exact (hsame hbegins hfirst hbegins₂ hsecond hpre₂ h).symm
      · exact hsame hbegins₂ hsecond hbegins hfirst hpre h

namespace Cursor

theorem opened_event {offset : Nat} {opened opened' : List String} {content : List Char}
    {kind : Kind} {e : Event} (h : event offset opened content kind = .ok (e, opened')) :
    opened' = e.namesBehind opened ∧ ∀ name, e = .closing name → opened.head? = some name := by
  cases kind with
  | closingTag =>
      simp only [event] at h
      cases opened with
      | nil => exact absurd h (by simp only [close, reduceCtorEq, not_false_eq_true])
      | cons innermost outer =>
          simp only [close] at h
          split at h
          · next hname =>
              simp only [Except.ok.injEq, Prod.mk.injEq] at h
              rcases h with ⟨rfl, rfl⟩
              refine ⟨rfl, fun name he => ?_⟩
              rw [Event.closing.injEq] at he
              rw [List.head?_cons, hname, he]
          · exact absurd h (by simp only [reduceCtorEq, not_false_eq_true])
  | _ =>
      simp only [event] at h
      repeat' split at h
      all_goals
        simp only [Except.ok.injEq, Prod.mk.injEq, reduceCtorEq] at h
      all_goals
        rcases h with ⟨rfl, rfl⟩
        exact ⟨rfl, fun _ he => by simp only [reduceCtorEq] at he⟩

/-- The tags that are open are told by the events, and a closing tag names the innermost. -/
theorem opened_next {c c' : Cursor} {e : Event} (h : c.next = .ok (some (e, c'))) :
    c'.opened = e.namesBehind c.opened ∧
      ∀ name, e = .closing name → c.opened.head? = some name := by
  rw [next] at h
  split at h
  · simp only [Except.ok.injEq, reduceCtorEq] at h
  · next t _ =>
      rcases map_eq_ok_iff.mp h with ⟨r, hr, hsome⟩
      rw [Option.some.injEq] at hsome
      subst hsome
      rw [markup] at hr
      split at hr
      · simp only [reduceCtorEq] at hr
      · split at hr
        · simp only [reduceCtorEq] at hr
        · rcases map_eq_ok_iff.mp hr with ⟨⟨e', opened⟩, hevent, hpair⟩
          simp only [Prod.mk.injEq] at hpair
          rcases hpair with ⟨rfl, rfl⟩
          exact opened_event hevent
  · simp only [Except.ok.injEq, Option.some.injEq, Prod.mk.injEq] at h
    rcases h with ⟨rfl, rfl⟩
    exact ⟨rfl, fun _ he => by simp only [reduceCtorEq] at he⟩

end Cursor

theorem exists_next_of_events?_onward {c : Cursor} {e : Event} {es : List Event}
    (h : (Trace.onward c).events? = some (e :: es)) :
    ∃ c', c.next = .ok (some (e, c')) ∧ (Trace.onward c').events? = some es := by
  rw [Trace.onward] at h
  split at h
  · simp only [Trace.events?, reduceCtorEq] at h
  · simp only [Trace.events?, Option.some.injEq, reduceCtorEq] at h
  · next e' c' hnext =>
      rcases Option.map_eq_some_iff.mp h with ⟨es', hes, hcons⟩
      rw [List.cons.injEq] at hcons
      rcases hcons with ⟨rfl, rfl⟩
      exact ⟨c', hnext, hes⟩

theorem head?_namesBehind_of_onward {c : Cursor} {es before : List Event} {name : String}
    (h : (Trace.onward c).events? = some es) (hp : before ++ [.closing name] <+: es) :
    (before.foldl Event.namesBehind c.opened).head? = some name := by
  induction before generalizing c es with
  | nil =>
      rcases hp with ⟨after, rfl⟩
      rcases exists_next_of_events?_onward h with ⟨c', hnext, _⟩
      exact (Cursor.opened_next hnext).2 name rfl
  | cons e before ih =>
      rcases hp with ⟨after, rfl⟩
      rcases exists_next_of_events?_onward h with ⟨c', hnext, hrest⟩
      rw [List.foldl_cons, ← (Cursor.opened_next hnext).1]
      exact ih hrest (List.prefix_append _ _)

/-- In a text without fault, tags are closed in order. -/
theorem closesInOrder_of {s : String} {es : List Event} (h : (Trace.of s).events? = some es) :
    ClosesInOrder es := by
  intro before name hpre
  rw [namesOpen, ← Cursor.start_opened s]
  exact head?_namesBehind_of_onward h hpre

end Xml

/-! ### Trees written out -/

/-- One end of an element, or a text. -/
inductive Mark where
  | start (name : String)
  | text (s : String)
  | finish (name : String)
deriving DecidableEq, Repr

namespace Element

mutual

/-- An element written out: its name, its content in order, and its name again. -/
def marks : Element → List Mark
  | ⟨name, content⟩ => .start name :: (marksOf content ++ [.finish name])

/-- A stretch of content written out in order. -/
def marksOf : List Content → List Mark
  | [] => []
  | .text s :: rest => .text s :: marksOf rest
  | .element e :: rest => e.marks ++ marksOf rest

end

theorem marksOf_append (l m : List Content) : marksOf (l ++ m) = marksOf l ++ marksOf m := by
  induction l with
  | nil => rfl
  | cons c l ih =>
      cases c <;> simp only [List.cons_append, marksOf, ih, List.append_assoc]

/-- Content can be told from its marks, and where it ends from the end that follows. -/
theorem eq_of_marksOf : ∀ (l l' : List Content) {name name' : String} {t t' : List Mark},
    marksOf l ++ .finish name :: t = marksOf l' ++ .finish name' :: t' →
      l = l' ∧ name = name' ∧ t = t'
  | [], [], _, _, _, _, h => by
      simp only [marksOf, List.nil_append, List.cons.injEq, Mark.finish.injEq] at h
      exact ⟨rfl, h⟩
  | [], .text _ :: _, _, _, _, _, h => by
      simp only [marksOf, List.nil_append, List.cons_append, List.cons.injEq, reduceCtorEq,
        false_and] at h
  | [], .element ⟨_, _⟩ :: _, _, _, _, _, h => by
      simp only [marksOf, marks, List.nil_append, List.cons_append, List.cons.injEq, reduceCtorEq,
        false_and] at h
  | .text _ :: _, [], _, _, _, _, h => by
      simp only [marksOf, List.nil_append, List.cons_append, List.cons.injEq, reduceCtorEq,
        false_and] at h
  | .text s :: l, .text s' :: l', _, _, _, _, h => by
      simp only [marksOf, List.cons_append, List.cons.injEq, Mark.text.injEq] at h
      rcases eq_of_marksOf l l' h.2 with ⟨rfl, hrest⟩
      exact ⟨by rw [h.1], hrest⟩
  | .text _ :: _, .element ⟨_, _⟩ :: _, _, _, _, _, h => by
      simp only [marksOf, marks, List.cons_append, List.cons.injEq, reduceCtorEq, false_and] at h
  | .element ⟨_, _⟩ :: _, [], _, _, _, _, h => by
      simp only [marksOf, marks, List.nil_append, List.cons_append, List.cons.injEq, reduceCtorEq,
        false_and] at h
  | .element ⟨_, _⟩ :: _, .text _ :: _, _, _, _, _, h => by
      simp only [marksOf, marks, List.cons_append, List.cons.injEq, reduceCtorEq, false_and] at h
  | .element ⟨n, inner⟩ :: l, .element ⟨n', inner'⟩ :: l', _, _, _, _, h => by
      simp only [marksOf, marks, List.cons_append, List.append_assoc, List.cons.injEq,
        Mark.start.injEq, List.nil_append] at h
      rcases eq_of_marksOf inner inner' h.2 with ⟨rfl, rfl, hbehind⟩
      rcases eq_of_marksOf l l' hbehind with ⟨rfl, hrest⟩
      exact ⟨rfl, hrest⟩

/-- Two trees with the same marks are the same. -/
theorem eq_of_marks_eq {e e' : Element} (h : e.marks = e'.marks) : e = e' := by
  cases e with
  | mk name content =>
      cases e' with
      | mk name' content' =>
          simp only [marks, List.cons.injEq] at h
          rcases eq_of_marksOf content content' h.2 with ⟨rfl, rfl, _⟩
          rfl

end Element

namespace Xml

/-- An event written out, with references resolved. Blank text leaves no mark, and neither
    does what means nothing. -/
def Event.marks : Event → List Mark
  | .opening name => [.start name]
  | .selfClosing name => [.start name, .finish name]
  | .closing name => [.finish name]
  | .text written => match unescape written with
    | .error _ => []
    | .ok t => if t.all Text.isBlank then [] else [.text (String.ofList t)]
  | .cdata content => [.text content]
  | .aside => []

/-! ### The builder behind some events -/

namespace Builder

/-- What an event makes of a builder, wherever it stands. -/
def take (b : Builder) (e : Event) : Option Builder := (b.accept 0 e).toOption

/-- The builder behind some events, if they can all be accepted. -/
def behind? (es : List Event) : Option Builder := es.foldlM take empty

-- The offset is needed for a fault only.
theorem accept_eq_ok_iff (offset : Nat) {b b' : Builder} {e : Event} :
    b.accept offset e = .ok b' ↔ b.take e = some b' := by
  rw [take]
  cases e with
  | opening name =>
      simp only [accept]
      split <;> simp only [Except.toOption, reduceCtorEq, Except.ok.injEq, Option.some.injEq]
  | selfClosing name =>
      simp only [accept, place]
      split <;> simp only [Except.toOption, reduceCtorEq, Except.ok.injEq, Option.some.injEq]
  | closing name =>
      simp only [accept, place]
      repeat' split
      all_goals simp only [Except.toOption, reduceCtorEq, Except.ok.injEq, Option.some.injEq]
  | text written =>
      simp only [accept, addText]
      repeat' split
      all_goals simp only [Except.toOption, reduceCtorEq, Except.ok.injEq, Option.some.injEq]
  | cdata content =>
      simp only [accept, addText]
      split <;> simp only [Except.toOption, reduceCtorEq, Except.ok.injEq, Option.some.injEq]
  | aside => simp only [accept, Except.toOption, Except.ok.injEq, Option.some.injEq]

/-- What is built depends on the events alone, not on where they stand. -/
theorem run_eq_ok_iff {b : Builder} {tr : Trace} {root : Element} :
    b.run tr = .ok root ↔
      ∃ es, tr.events? = some es ∧ ∃ b', es.foldlM take b = some b' ∧ b'.finish = .ok root := by
  induction tr generalizing b with
  | ended =>
      simp only [run, Trace.events?, Option.some.injEq, exists_eq_left', List.foldlM_nil,
        Option.pure_def]
  | failed fault =>
      simp only [run, Trace.events?, reduceCtorEq, false_and, exists_false]
  | event offset e rest ih =>
      have hcons : ∀ es, (e :: es).foldlM take b = (b.take e).bind fun b => es.foldlM take b :=
        fun es => List.foldlM_cons
      simp only [run, Trace.events?, Option.map_eq_some_iff]
      cases haccept : b.accept offset e with
      | error fault =>
          have hnone : b.take e = none := by
            rw [Option.eq_none_iff_forall_ne_some]
            intro b' hb'
            rw [← accept_eq_ok_iff offset, haccept] at hb'
            exact absurd hb' (by simp only [reduceCtorEq, not_false_eq_true])
          simp only [reduceCtorEq, false_iff]
          rintro ⟨_, ⟨es, _, rfl⟩, b', hfold, _⟩
          rw [hcons, hnone] at hfold
          exact absurd hfold (by simp only [Option.bind_none, reduceCtorEq, not_false_eq_true])
      | ok next =>
          have hsome : b.take e = some next := (accept_eq_ok_iff offset).mp haccept
          simp only [ih]
          constructor
          · rintro ⟨es, hes, b', hfold, hfinish⟩
            exact ⟨e :: es, ⟨es, hes, rfl⟩, b', by rw [hcons, hsome]; exact hfold, hfinish⟩
          · rintro ⟨_, ⟨es, hes, rfl⟩, b', hfold, hfinish⟩
            rw [hcons, hsome] at hfold
            exact ⟨es, hes, b', hfold, hfinish⟩

/-- The marks of what a builder holds: the root if it is complete, and of each open element
    its name and the content it has so far, the outermost first. -/
def marks (b : Builder) : List Mark :=
  (b.root.map Element.marks).getD [] ++
    b.opened.reverse.flatMap fun e => .start e.name :: Element.marksOf e.content

/-- What a builder has behind some events. -/
structure Holds (b : Builder) (es : List Event) : Prop where
  names : b.opened.map Element.name = namesOpen es
  rootless : b.opened ≠ [] → b.root = none
  begun : HasBegun es ↔ b.opened ≠ [] ∨ b.root ≠ none
  marks : b.marks = es.flatMap Event.marks

theorem Holds.outside_iff {b : Builder} {es : List Event} (h : b.Holds es) :
    Outside es ↔ b.opened = [] := by
  rw [Outside, ← h.names, List.map_eq_nil_iff]

theorem marks_push (e : Element) (outer : List Element) (root : Option Element) :
    marks ⟨e :: outer, root⟩ =
      marks ⟨outer, root⟩ ++ .start e.name :: Element.marksOf e.content := by
  simp only [marks, List.reverse_cons, List.flatMap_append, List.flatMap_singleton,
    List.append_assoc]

theorem holds_empty : empty.Holds [] where
  names := rfl
  rootless := fun h => absurd rfl h
  begun := by
    simp only [empty, ne_eq, not_true_eq_false, or_self, iff_false]
    rintro ⟨before, e, _, _, hpre⟩
    exact List.append_ne_nil_of_right_ne_nil before (List.cons_ne_nil e [])
      (List.prefix_nil.mp hpre)
  marks := rfl

variable {b : Builder} {es : List Event} {e : Event}

/-- What leaves no mark leaves the builder as it is. -/
theorem Holds.concat_of_quiet (h : b.Holds es) (hbegins : e.begins = false)
    (hnames : e.namesBehind (namesOpen es) = namesOpen es) (hmarks : e.marks = []) :
    b.Holds (es ++ [e]) where
  names := by rw [namesOpen_concat, hnames, h.names]
  rootless := h.rootless
  begun := by
    rw [hasBegun_concat, hbegins, h.begun]
    simp only [Bool.false_eq_true, false_and, or_false]
  marks := by
    rw [h.marks, List.flatMap_append, List.flatMap_singleton, hmarks, List.append_nil]

/-- An item inside of an element goes to the end of the innermost one. -/
theorem Holds.concat_addTo {parent : Element} {outer : List Element} (h : b.Holds es)
    (item : Content) (hopened : b.opened = parent :: outer)
    (hnames : e.namesBehind (namesOpen es) = namesOpen es)
    (hmarks : e.marks = Element.marksOf [item]) :
    (addTo item parent outer b).Holds (es ++ [e]) := by
  rcases b with ⟨opened, root⟩
  simp only at hopened
  subst hopened
  have houtside : ¬ Outside es := by
    rw [h.outside_iff]
    exact List.cons_ne_nil parent outer
  refine ⟨?_, fun _ => h.rootless (List.cons_ne_nil parent outer), ?_, ?_⟩
  · rw [namesOpen_concat, hnames, ← h.names]
    rfl
  · rw [hasBegun_concat, h.begun]
    simp only [houtside, and_false, or_false, addTo, ne_eq, reduceCtorEq, not_false_eq_true,
      true_or]
  · rw [addTo, marks_push, List.flatMap_append, List.flatMap_singleton, ← h.marks, marks_push,
      hmarks, Element.marksOf_append, List.append_assoc]
    rfl

/-- A complete element that stands in no other is the root. -/
theorem holds_root {root : Element} (hnames : Outside es) (hbegun : HasBegun es)
    (hmarks : root.marks = es.flatMap Event.marks) : Holds ⟨[], some root⟩ es where
  names := hnames.symm
  rootless := fun h => absurd rfl h
  begun := by
    simp only [hbegun, ne_eq, reduceCtorEq, not_false_eq_true, or_true]
  marks := by
    rw [← hmarks]
    exact List.append_nil root.marks

theorem Holds.root_eq_none (h : b.Holds es) (hfollow : Outside es → ¬ HasBegun es) :
    b.root = none := by
  by_cases houtside : Outside es
  · have hbegun := hfollow houtside
    rw [h.begun, not_or, Classical.not_not, Classical.not_not] at hbegun
    exact hbegun.2
  · rw [h.outside_iff] at houtside
    exact h.rootless houtside

/-- An event that may follow is accepted, and the builder holds it as well. -/
theorem Holds.take (h : b.Holds es) (hfollow : MayFollow es e)
    (hclosing : ∀ name, e = .closing name → (namesOpen es).head? = some name) :
    ∃ b', b.take e = some b' ∧ b'.Holds (es ++ [e]) := by
  rcases b with ⟨opened, root⟩
  cases e with
  | aside => exact ⟨⟨opened, root⟩, rfl, h.concat_of_quiet rfl rfl rfl⟩
  | opening name =>
      have hroot : root = none := h.root_eq_none hfollow
      subst hroot
      refine ⟨⟨⟨name, []⟩ :: opened, none⟩, ?_, ?_, fun _ => rfl, ?_, ?_⟩
      · simp only [Builder.take, accept, Option.isSome_none, Bool.and_false, Bool.false_eq_true,
          if_false, Except.toOption]
      · rw [namesOpen_concat, ← h.names]
        rfl
      · rw [hasBegun_concat, h.begun, h.outside_iff]
        simp only [ne_eq, not_true_eq_false, or_false, Event.begins, true_and, reduceCtorEq,
          not_false_eq_true, iff_true]
        exact (Classical.em _).symm
      · rw [marks_push, h.marks, List.flatMap_append, List.flatMap_singleton]
        rfl
  | selfClosing name =>
      cases opened with
      | cons parent outer => exact ⟨_, rfl, h.concat_addTo _ rfl rfl rfl⟩
      | nil =>
          have hroot : root = none := h.root_eq_none hfollow
          subst hroot
          have houtside : Outside es := h.outside_iff.mpr rfl
          refine ⟨⟨[], some ⟨name, []⟩⟩, rfl, holds_root ?_ ?_ ?_⟩
          · rw [Outside, namesOpen_concat]
            exact houtside
          · exact hasBegun_concat.mpr (Or.inr ⟨rfl, houtside⟩)
          · rw [List.flatMap_append, List.flatMap_singleton, ← h.marks]
            rfl
  | closing name =>
      have hhead := hclosing name rfl
      have hnames := h.names
      cases opened with
      | nil =>
          rw [← hnames] at hhead
          exact absurd hhead (by simp only [List.map_nil, List.head?_nil, reduceCtorEq,
            not_false_eq_true])
      | cons innermost outer =>
          have hroot : root = none := h.rootless (List.cons_ne_nil innermost outer)
          subst hroot
          have hname : innermost.name = name := by
            rw [← hnames] at hhead
            exact Option.some.inj hhead
          have houter : outer.map Element.name = namesOpen (es ++ [.closing name]) := by
            rw [namesOpen_concat, ← hnames]
            rfl
          have hbegun : HasBegun (es ++ [.closing name]) :=
            hasBegun_concat.mpr (Or.inl (h.begun.mpr (Or.inl (List.cons_ne_nil innermost outer))))
          have hmarks : (es ++ [Event.closing name]).flatMap Event.marks =
              Builder.marks ⟨outer, none⟩ ++ innermost.marks := by
            rw [List.flatMap_append, List.flatMap_singleton, ← h.marks, marks_push,
              List.append_assoc, ← hname]
            cases innermost
            rfl
          -- The outermost element becomes the root, and any other is put into the one around it.
          cases outer with
          | nil =>
              refine ⟨⟨[], some innermost⟩, rfl, holds_root houter.symm hbegun ?_⟩
              rw [hmarks]
              rfl
          | cons parent outer =>
              refine ⟨_, rfl, houter, fun _ => rfl, ?_, ?_⟩
              · simp only [hbegun, addTo, ne_eq, reduceCtorEq, not_false_eq_true, true_or]
              · rw [hmarks, addTo, marks_push, marks_push, Element.marksOf_append,
                  List.append_assoc]
                simp only [Element.marksOf, List.append_nil, List.cons_append]
  | text written =>
      rcases hfollow with ⟨t, hread, hblank⟩
      by_cases hall : t.all Text.isBlank = true
      · refine ⟨⟨opened, root⟩, ?_, h.concat_of_quiet rfl rfl ?_⟩
        · simp only [Builder.take, accept, hread, hall, if_true, Except.toOption]
        · simp only [Event.marks, hread, hall, if_true]
      · cases opened with
        | nil => exact absurd (hblank (h.outside_iff.mpr rfl)) hall
        | cons parent outer =>
            refine ⟨_, ?_, h.concat_addTo (.text (String.ofList t)) rfl rfl ?_⟩
            · simp only [Builder.take, accept, hread, hall, addText, Except.toOption,
                Bool.false_eq_true, if_false]
            · simp only [Event.marks, hread, hall, if_false, Element.marksOf, Bool.false_eq_true]
  | cdata content =>
      cases opened with
      | nil => exact absurd (h.outside_iff.mpr rfl) hfollow
      | cons parent outer => exact ⟨_, rfl, h.concat_addTo _ rfl rfl rfl⟩

/-- An event that may not follow is refused. -/
theorem Holds.mayFollow (h : b.Holds es) {b' : Builder} (htake : b.take e = some b') :
    MayFollow es e := by
  rw [← accept_eq_ok_iff 0] at htake
  rcases b with ⟨opened, root⟩
  have hopened : Outside es → opened = [] := h.outside_iff.mp
  -- A tag at which an element begins is refused when there is a root and no element is open.
  have hsecond : Outside es → HasBegun es → opened = [] ∧ ∃ r, root = some r := by
    intro houtside hbegun
    refine ⟨hopened houtside, Option.ne_none_iff_exists'.mp ?_⟩
    exact (h.begun.mp hbegun).resolve_left fun hne => hne (hopened houtside)
  cases e with
  | closing _ => exact True.intro
  | aside => exact True.intro
  | opening name =>
      intro houtside hbegun
      rcases hsecond houtside hbegun with ⟨rfl, r, rfl⟩
      exact absurd htake (by simp only [accept, List.isEmpty_nil, Option.isSome_some,
        Bool.and_self, if_true, reduceCtorEq, not_false_eq_true])
  | selfClosing name =>
      intro houtside hbegun
      rcases hsecond houtside hbegun with ⟨rfl, r, rfl⟩
      exact absurd htake (by simp only [accept, place, reduceCtorEq, not_false_eq_true])
  | text written =>
      cases hread : unescape written with
      | error cause =>
          exact absurd htake (by simp only [accept, hread, reduceCtorEq, not_false_eq_true])
      | ok t =>
          refine ⟨t, hread, fun houtside => ?_⟩
          cases hopened houtside
          by_cases hall : t.all Text.isBlank = true
          · exact hall
          · exact absurd htake (by simp only [accept, hread, hall, addText, if_false,
              Bool.false_eq_true, reduceCtorEq, not_false_eq_true])
  | cdata content =>
      intro houtside
      cases hopened houtside
      exact absurd htake (by simp only [accept, addText, reduceCtorEq, not_false_eq_true])

theorem finish_eq_ok_iff {root : Element} :
    b.finish = .ok root ↔ b.opened = [] ∧ b.root = some root := by
  rcases b with ⟨_ | _, _ | _⟩ <;>
    simp only [finish, reduceCtorEq, and_false, false_and, true_and, Except.ok.injEq,
      Option.some.injEq]

/-! ### All events -/

theorem behind?_concat (es : List Event) (e : Event) :
    behind? (es ++ [e]) = (behind? es).bind fun b => b.take e := by
  simp only [behind?, List.foldlM_append, List.foldlM_cons, List.foldlM_nil, Option.pure_def,
    Option.bind_eq_bind, Option.bind_fun_some]

-- What an event may follow is all that comes before it, so the induction is from the end.
/-- The events of a text that can be accepted are held, and each of them may follow those
    before it. -/
theorem holds_of_behind? (h : behind? es = some b) (hclosing : ClosesInOrder es) :
    b.Holds es ∧ ∀ before e, before ++ [e] <+: es → MayFollow before e := by
  induction es using List.reverseRecOn generalizing b with
  | nil =>
      simp only [behind?, List.foldlM_nil, Option.pure_def, Option.some.injEq] at h
      subst h
      refine ⟨holds_empty, fun before e hpre => ?_⟩
      exact absurd (List.prefix_nil.mp hpre) (List.append_ne_nil_of_right_ne_nil before
        (List.cons_ne_nil e []))
  | append_singleton es e ih =>
      rw [behind?_concat, Option.bind_eq_some_iff] at h
      rcases h with ⟨b₀, hbefore, htake⟩
      rcases ih hbefore hclosing.of_concat with ⟨hholds, hfollow⟩
      have hlast : MayFollow es e := hholds.mayFollow htake
      constructor
      · rcases hholds.take hlast hclosing.last with ⟨b', htake', hholds'⟩
        rw [htake, Option.some.injEq] at htake'
        rw [htake']
        exact hholds'
      · intro before e' hpre
        rw [List.prefix_concat_iff, List.append_singleton_inj] at hpre
        rcases hpre with ⟨rfl, rfl⟩ | hpre
        · exact hlast
        · exact hfollow before e' hpre

/-- Events each of which may follow those before it are accepted. -/
theorem exists_behind? (hfollow : ∀ before e, before ++ [e] <+: es → MayFollow before e)
    (hclosing : ClosesInOrder es) : ∃ b, behind? es = some b ∧ b.Holds es := by
  induction es using List.reverseRecOn with
  | nil => exact ⟨empty, rfl, holds_empty⟩
  | append_singleton es e ih =>
      have hfollow' : ∀ before e', before ++ [e'] <+: es → MayFollow before e' :=
        fun before e' hpre => hfollow before e' (hpre.trans (List.prefix_append es [e]))
      rcases ih hfollow' hclosing.of_concat with ⟨b, hb, hholds⟩
      rcases hholds.take (hfollow es e (List.prefix_refl _)) hclosing.last with
        ⟨b', htake, hholds'⟩
      refine ⟨b', ?_, hholds'⟩
      rw [behind?_concat, hb]
      exact htake

end Builder

/-- Which texts are read as XML and as which tree. The events of the text have to be without
    fault and have to make up one tree, and the tree is the one that has their marks. -/
theorem ofXml_iff_isTree (s : String) :
    ((∃ root, Element.ofXml s = .ok root) ↔
      ∃ es, (Trace.of s).events? = some es ∧ IsTree es) ∧
    ∀ root, Element.ofXml s = .ok root ↔
      ∃ es, (Trace.of s).events? = some es ∧ IsTree es ∧ root.marks = es.flatMap Event.marks := by
  have hread : ∀ es, (Trace.of s).events? = some es → IsTree es →
      ∃ root, Element.ofXml s = .ok root := by
    intro es hes htree
    rcases isTree_iff.mp htree with ⟨hfollow, hbegun, hclosed⟩
    rcases Builder.exists_behind? hfollow (closesInOrder_of hes) with ⟨b, hbehind, hholds⟩
    have hopened : b.opened = [] := hholds.outside_iff.mp hclosed
    rcases Option.ne_none_iff_exists'.mp
      ((hholds.begun.mp hbegun).resolve_left (fun hne => hne hopened)) with ⟨root, hroot⟩
    exact ⟨root, Builder.run_eq_ok_iff.mpr
      ⟨es, hes, b, hbehind, Builder.finish_eq_ok_iff.mpr ⟨hopened, hroot⟩⟩⟩
  have hroot : ∀ root, Element.ofXml s = .ok root → ∃ es, (Trace.of s).events? = some es ∧
      IsTree es ∧ root.marks = es.flatMap Event.marks := by
    intro root h
    rcases Builder.run_eq_ok_iff.mp h with ⟨es, hes, b, hbehind, hfinish⟩
    rcases Builder.finish_eq_ok_iff.mp hfinish with ⟨hopened, hroot⟩
    rcases Builder.holds_of_behind? hbehind (closesInOrder_of hes) with ⟨hholds, hfollow⟩
    have hbegun : HasBegun es := by
      rw [hholds.begun, hroot]
      exact Or.inr (Option.some_ne_none root)
    refine ⟨es, hes, isTree_iff.mpr ⟨hfollow, hbegun, hholds.outside_iff.mpr hopened⟩, ?_⟩
    rw [← hholds.marks, Builder.marks, hopened, hroot]
    exact (List.append_nil root.marks).symm
  refine ⟨⟨?_, ?_⟩, fun root => ⟨hroot root, ?_⟩⟩
  · rintro ⟨root, h⟩
    rcases hroot root h with ⟨es, hes, htree, _⟩
    exact ⟨es, hes, htree⟩
  · rintro ⟨es, hes, htree⟩
    exact hread es hes htree
  · rintro ⟨es, hes, htree, hmarks⟩
    rcases hread es hes htree with ⟨root', h⟩
    rcases hroot root' h with ⟨es', hes', _, hmarks'⟩
    rw [hes, Option.some.injEq] at hes'
    rw [← hes', ← hmarks] at hmarks'
    rw [h, Element.eq_of_marks_eq hmarks']

end Xml

end MailMerge
